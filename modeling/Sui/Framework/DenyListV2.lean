import Sui.Framework.DenyList

/-!
# The deny list, version 2, and the migration from version 1 (`deny_list.move`)

Version 2 keeps the deny list of each type in a `Config` object stored under
`ConfigKey { per_type_index, per_type_key }`: a bool setting
`AddressKey(addr)` for each denied address, and `GlobalPauseKey()` for a
pause of the whole type. Writes go through `config::entry!` and
`remove_for_next_epoch`, so they take effect at the next epoch; the reads
for the current epoch go through the native `read_setting`, those for the
next one through `read_setting_for_next_epoch`. A type's config is created
empty on its first write (`per_type_config_entry!`), and a type without one
denies nothing.

The writes and the reads are two families each: `setForNextEpoch` and
`unsetForNextEpoch` (v2_add and v2_enable_global_pause, v2_remove and
v2_disable_global_pause), `readCurrentEpoch` and `readNextEpoch` (the
`contains` and `is_global_pause_enabled` reads). What the configs stand for
is one log of writes per setting (`Config.encode`, `ConfigsEncode`): a write
appends to one log and leaves the V1 lists and every other setting alone
(`setForNextEpoch_encode`, `unsetForNextEpoch_encode`), and a read returns
what the log makes visible (`readCurrentEpoch_encode`,
`readNextEpoch_encode`).

`migrate_v1_to_v2` moves a type's V1 denials to V2: its V1 half takes the
type's set out of the per-type list (`migrateV1_refines`), and its V2 half
writes `true` for the next epoch under each address of it
(`migrateV1ToV2_encode`). The `PerTypeConfigCreated` event is not modelled.

Over whole runs, the deny list is one system: a sequence of V1 calls, V2
writes and migrations, each in its epoch (`Action`), made from `create`. The
spec `DenyListSpec` keeps the V1 spec of each per-type list and the log of
writes of each setting, and `Stands` ties the object to it. Every run of the
code is simulated by the run of the spec, with the same aborts and the same
answers to every V1 and V2 read (`denyList_runs_refine`). A migration made at
any point of such a run loses no denial: every address the type's V1 list
denied is denied by the next-epoch read at once and by the current-epoch read
from the next epoch on, and no address is added
(`migrateV1ToV2_keeps_denials`).
-/

namespace Sui

open MoveArith OptionList EpochLog

namespace DenyList

/-- A type's `Config`: the bool setting under each name. -/
abbrev PerTypeConfig := Table SettingKey (Config.Setting Bool)

/-- An abort of config, as the deny list raises it. -/
def liftConfig {α : Type} (x : Except Config.ConfigAbort α) : Except (Abort Code) α :=
  x.mapError fun code => .abort (.config code)

/-- per_type_exists -/
def perTypeExists (denyList : DenyList) (perTypeIndex : ℕ) (perTypeKey : List UInt8) : Bool :=
  denyList.configs.contains ⟨perTypeIndex, perTypeKey⟩

/-- add_per_type_config: a new config, with no settings. -/
def addPerTypeConfig (denyList : DenyList) (perTypeIndex : ℕ) (perTypeKey : List UInt8) :
    Except (Abort Code) DenyList := do
  let configs ← liftField (denyList.configs.add ⟨perTypeIndex, perTypeKey⟩ Table.new)
  pure { denyList with configs }

/-- The per_type_config_entry! macro, with the change its caller makes to the
config through the reference it returns. -/
def perTypeConfigEntry (denyList : DenyList) (perTypeIndex : ℕ) (perTypeKey : List UInt8)
    (change : PerTypeConfig → Except (Abort Code) PerTypeConfig) : Except (Abort Code) DenyList := do
  let denyList ← (if !perTypeExists denyList perTypeIndex perTypeKey then
      addPerTypeConfig denyList perTypeIndex perTypeKey
    else pure denyList)
  let config ← liftField (denyList.configs.borrow ⟨perTypeIndex, perTypeKey⟩)
  let config ← change config
  pure { denyList with configs := denyList.configs.write ⟨perTypeIndex, perTypeKey⟩ config }

/-- A setting written back into its config: the dynamic field is added,
changed or removed as the field the config functions return says. -/
def writeSetting (config : PerTypeConfig) (name : SettingKey)
    (field : Option (Config.Setting Bool)) : PerTypeConfig :=
  ⟨Function.update config.contents name field⟩

/-- The `entry!` call of v2_add, v2_enable_global_pause and migrate_v1_to_v2,
with the write of `true` through the reference it returns. -/
def entryTrue (config : PerTypeConfig) (name : SettingKey) (epoch : ℕ) :
    Except (Abort Code) PerTypeConfig := do
  let field ← liftConfig (Config.entry (config.contents name) epoch true fun _ => true)
  pure (writeSetting config name field)

/-- v2_add and v2_enable_global_pause: the setting is `true` from the next epoch. -/
def setForNextEpoch (denyList : DenyList) (perTypeIndex : ℕ) (perTypeKey : List UInt8)
    (name : SettingKey) (epoch : ℕ) : Except (Abort Code) DenyList :=
  perTypeConfigEntry denyList perTypeIndex perTypeKey fun config => entryTrue config name epoch

/-- v2_remove and v2_disable_global_pause: the setting is removed from the next epoch. -/
def unsetForNextEpoch (denyList : DenyList) (perTypeIndex : ℕ) (perTypeKey : List UInt8)
    (name : SettingKey) (epoch : ℕ) : Except (Abort Code) DenyList :=
  perTypeConfigEntry denyList perTypeIndex perTypeKey fun config => do
    let removed ← liftConfig (Config.removeForNextEpoch (config.contents name) epoch)
    pure (writeSetting config name removed.1)

/-- The reads of v2_contains_current_epoch and
v2_is_global_pause_enabled_current_epoch: `false` without a config or a value. -/
def readCurrentEpoch (denyList : DenyList) (perTypeIndex : ℕ) (perTypeKey : List UInt8)
    (name : SettingKey) (currentEpoch : ℕ) : Bool :=
  match denyList.configs.contents ⟨perTypeIndex, perTypeKey⟩ with
  | none => false
  | some config => (Config.readSetting (config.contents name) currentEpoch).getD false

/-- The reads of v2_contains_next_epoch and v2_is_global_pause_enabled_next_epoch. -/
def readNextEpoch (denyList : DenyList) (perTypeIndex : ℕ) (perTypeKey : List UInt8)
    (name : SettingKey) : Except (Abort Code) Bool :=
  match denyList.configs.contents ⟨perTypeIndex, perTypeKey⟩ with
  | none => pure false
  | some config => do
    let value ← liftConfig (Config.readSettingForNextEpoch (config.contents name))
    pure (value.getD false)

/-- v2_add -/
def v2Add (denyList : DenyList) (perTypeIndex : ℕ) (perTypeKey : List UInt8) (addr epoch : ℕ) :
    Except (Abort Code) DenyList :=
  setForNextEpoch denyList perTypeIndex perTypeKey (.addressKey addr) epoch

/-- v2_remove -/
def v2Remove (denyList : DenyList) (perTypeIndex : ℕ) (perTypeKey : List UInt8)
    (addr epoch : ℕ) : Except (Abort Code) DenyList :=
  unsetForNextEpoch denyList perTypeIndex perTypeKey (.addressKey addr) epoch

/-- v2_contains_current_epoch -/
def v2ContainsCurrentEpoch (denyList : DenyList) (perTypeIndex : ℕ) (perTypeKey : List UInt8)
    (addr currentEpoch : ℕ) : Bool :=
  readCurrentEpoch denyList perTypeIndex perTypeKey (.addressKey addr) currentEpoch

/-- v2_contains_next_epoch -/
def v2ContainsNextEpoch (denyList : DenyList) (perTypeIndex : ℕ) (perTypeKey : List UInt8)
    (addr : ℕ) : Except (Abort Code) Bool :=
  readNextEpoch denyList perTypeIndex perTypeKey (.addressKey addr)

/-- v2_enable_global_pause -/
def v2EnableGlobalPause (denyList : DenyList) (perTypeIndex : ℕ) (perTypeKey : List UInt8)
    (epoch : ℕ) : Except (Abort Code) DenyList :=
  setForNextEpoch denyList perTypeIndex perTypeKey .globalPauseKey epoch

/-- v2_disable_global_pause -/
def v2DisableGlobalPause (denyList : DenyList) (perTypeIndex : ℕ) (perTypeKey : List UInt8)
    (epoch : ℕ) : Except (Abort Code) DenyList :=
  unsetForNextEpoch denyList perTypeIndex perTypeKey .globalPauseKey epoch

/-- v2_is_global_pause_enabled_current_epoch -/
def v2IsGlobalPauseEnabledCurrentEpoch (denyList : DenyList) (perTypeIndex : ℕ)
    (perTypeKey : List UInt8) (currentEpoch : ℕ) : Bool :=
  readCurrentEpoch denyList perTypeIndex perTypeKey .globalPauseKey currentEpoch

/-- v2_is_global_pause_enabled_next_epoch -/
def v2IsGlobalPauseEnabledNextEpoch (denyList : DenyList) (perTypeIndex : ℕ)
    (perTypeKey : List UInt8) : Except (Abort Code) Bool :=
  readNextEpoch denyList perTypeIndex perTypeKey .globalPauseKey

/-- migrate_v1_to_v2: the V1 half, then `true` for the next epoch under each
address the type's V1 set held, in the set's order. -/
def migrateV1ToV2 (denyList : DenyList) (perTypeIndex : ℕ) (perTypeKey : List UInt8)
    (epoch : ℕ) : Except (Abort Code) DenyList := do
  let migrated ← migrateV1 denyList perTypeIndex perTypeKey
  perTypeConfigEntry migrated.2 perTypeIndex perTypeKey fun config =>
    migrated.1.foldlM (fun config addr => entryTrue config (.addressKey addr) epoch) config

/-! ## What the configs stand for -/

/-- A type's config, or an empty one where it has none. -/
def configOf (denyList : DenyList) (key : ConfigKey) : PerTypeConfig :=
  (denyList.configs.contents key).getD Table.new

/-- Each setting of a config is the encoding of its log of writes, which were
made in non-decreasing epochs. -/
structure ConfigEncodes (config : PerTypeConfig) (logs : SettingKey → List (ℕ × Option Bool)) :
    Prop where
  field_eq : ∀ name, config.contents name = Config.encode (logs name)
  sorted : ∀ name, Sorted (logs name)

/-- Every type's config encodes its logs; a type without a config has empty logs. -/
def ConfigsEncode (denyList : DenyList) (logs : ConfigKey → SettingKey → List (ℕ × Option Bool)) :
    Prop :=
  ∀ key, ConfigEncodes (configOf denyList key) (logs key)

/-- No write of the logs was made after `epoch`. -/
def LogsBefore (logs : ConfigKey → SettingKey → List (ℕ × Option Bool)) (epoch : ℕ) : Prop :=
  ∀ key name, lastEpoch (logs key name) ≤ epoch

/-- The writes of a migration on a config's logs: `true` at `epoch` under each
address of `addrs`. -/
def markDenied (logs : SettingKey → List (ℕ × Option Bool)) (addrs : Finset ℕ) (epoch : ℕ) :
    SettingKey → List (ℕ × Option Bool)
  | .addressKey addr =>
    if addr ∈ addrs then logs (.addressKey addr) ++ [(epoch, some true)]
    else logs (.addressKey addr)
  | .globalPauseKey => logs .globalPauseKey

section Configs

variable {denyList : DenyList} {perTypeIndex : ℕ} {perTypeKey : List UInt8} {name : SettingKey}
  {config : PerTypeConfig} {logs : SettingKey → List (ℕ × Option Bool)} {epoch : ℕ}

@[simp] theorem markDenied_addressKey (addrs : Finset ℕ) (addr : ℕ) :
    markDenied logs addrs epoch (.addressKey addr) =
      if addr ∈ addrs then logs (.addressKey addr) ++ [(epoch, some true)]
      else logs (.addressKey addr) :=
  rfl

@[simp] theorem markDenied_globalPauseKey (addrs : Finset ℕ) :
    markDenied logs addrs epoch .globalPauseKey = logs .globalPauseKey :=
  rfl

@[simp] theorem liftConfig_ok {α : Type} (a : α) : liftConfig (.ok a) = .ok a :=
  rfl

@[simp] theorem contents_writeSetting (field : Option (Config.Setting Bool)) (name' : SettingKey) :
    (writeSetting config name field).contents name' =
      if name' = name then field else config.contents name' := by
  simp only [writeSetting, Function.update_apply]

theorem configOf_write (key key' : ConfigKey) (config : PerTypeConfig) :
    configOf { denyList with configs := denyList.configs.write key config } key' =
      if key' = key then config else configOf denyList key' := by
  unfold configOf
  rw [Table.contents_write]
  split <;> rfl

/-- The config `per_type_config_entry!` hands out is the type's config, or a
new empty one, and what the caller does to it is written back. -/
theorem perTypeConfigEntry_eq {change : PerTypeConfig → Except (Abort Code) PerTypeConfig}
    {config' : PerTypeConfig}
    (hchange : change (configOf denyList ⟨perTypeIndex, perTypeKey⟩) = .ok config') :
    perTypeConfigEntry denyList perTypeIndex perTypeKey change =
      .ok { denyList with configs := denyList.configs.write ⟨perTypeIndex, perTypeKey⟩ config' } := by
  unfold perTypeConfigEntry
  cases hconfig : denyList.configs.contents ⟨perTypeIndex, perTypeKey⟩ with
  | none =>
    -- the first write to the type creates its config
    have hc : perTypeExists denyList perTypeIndex perTypeKey = false :=
      Table.contains_eq_false_iff.mpr hconfig
    have hnew : configOf denyList ⟨perTypeIndex, perTypeKey⟩ = Table.new := by
      rw [configOf, hconfig, Option.getD_none]
    rw [hc, Bool.not_false, if_pos rfl, addPerTypeConfig, Table.add_eq_ok hc, liftField_ok,
      ok_bind, pure_bind]
    dsimp only
    rw [Table.borrow_write, liftField_ok, ok_bind, ← hnew, hchange, ok_bind, Table.write_write]
    rfl
  | some current =>
    have hc : perTypeExists denyList perTypeIndex perTypeKey = true :=
      Table.contains_iff.mpr ⟨current, hconfig⟩
    have hcurrent : configOf denyList ⟨perTypeIndex, perTypeKey⟩ = current := by
      rw [configOf, hconfig, Option.getD_some]
    rw [hc, Bool.not_true, if_neg Bool.false_ne_true, pure_bind, Table.borrow_eq_ok hconfig,
      liftField_ok, ok_bind, ← hcurrent, hchange, ok_bind]
    rfl

/-- Appending a write of an epoch not before the log's last one. -/
theorem ConfigEncodes.append (h : ConfigEncodes config logs) (name : SettingKey)
    (hepoch : lastEpoch (logs name) ≤ epoch) (value : Option Bool) :
    ConfigEncodes (writeSetting config name (Config.encode (logs name ++ [(epoch, value)])))
      (Function.update logs name (logs name ++ [(epoch, value)])) := by
  refine ⟨fun name' => ?_, fun name' => ?_⟩
  · rw [contents_writeSetting, Function.update_apply]
    split
    · rfl
    · exact h.field_eq name'
  · rw [Function.update_apply]
    split
    · exact (h.sorted name).concat hepoch value
    · exact h.sorted name'

/-- The `entry!` write of `true` appends it to the setting's log; it never
aborts on a config that encodes its logs. -/
theorem entryTrue_encode (h : ConfigEncodes config logs) (name : SettingKey)
    (hepoch : lastEpoch (logs name) ≤ epoch) :
    entryTrue config name epoch =
      .ok (writeSetting config name (Config.encode (logs name ++ [(epoch, some true)]))) := by
  unfold entryTrue
  rw [h.field_eq name, Config.entry_encode (h.sorted name) hepoch, liftConfig_ok, ok_bind]
  rfl

/-- The removal appends a removal to the setting's log, and never aborts. -/
theorem removeSetting_encode (h : ConfigEncodes config logs) (name : SettingKey)
    (hepoch : lastEpoch (logs name) ≤ epoch) :
    (do
      let removed ← liftConfig (Config.removeForNextEpoch (config.contents name) epoch)
      pure (writeSetting config name removed.1) : Except (Abort Code) PerTypeConfig) =
      .ok (writeSetting config name (Config.encode (logs name ++ [(epoch, none)]))) := by
  rw [h.field_eq name, Config.removeForNextEpoch_encode (h.sorted name) hepoch, liftConfig_ok,
    ok_bind]
  rfl

/-- Writing `true` under each of a list of distinct addresses appends it to
each of their logs. -/
theorem foldlM_entryTrue :
    ∀ {addrs : List ℕ} {config : PerTypeConfig} {logs : SettingKey → List (ℕ × Option Bool)},
      addrs.Nodup → ConfigEncodes config logs → (∀ name, lastEpoch (logs name) ≤ epoch) →
      ∃ config', addrs.foldlM (fun config addr => entryTrue config (.addressKey addr) epoch) config =
          .ok config' ∧ ConfigEncodes config' (markDenied logs addrs.toFinset epoch)
  | [], config, logs, _, h, _ => by
    refine ⟨config, rfl, ?_⟩
    have hlogs : markDenied logs (∅ : Finset ℕ) epoch = logs := by
      funext name
      cases name <;> simp [markDenied]
    simpa [hlogs] using h
  | addr :: addrs, config, logs, hnd, h, hepoch => by
    obtain ⟨hfresh, hnd'⟩ := List.nodup_cons.mp hnd
    -- the write keeps every log's last epoch at most `epoch`
    have hepoch' : ∀ name, lastEpoch (Function.update logs (.addressKey addr)
        (logs (.addressKey addr) ++ [(epoch, some true)]) name) ≤ epoch := fun name => by
      rw [Function.update_apply]
      split
      · rw [lastEpoch_concat]
      · exact hepoch name
    obtain ⟨config', hfold, h'⟩ :=
      foldlM_entryTrue hnd' (h.append (.addressKey addr) (hepoch _) (some true)) hepoch'
    refine ⟨config', ?_, ?_⟩
    · rw [List.foldlM_cons, entryTrue_encode h _ (hepoch _), ok_bind, hfold]
    · -- the write to `addr` first, then those to the rest, is one write to each
      have hlogs : markDenied (Function.update logs (.addressKey addr)
            (logs (.addressKey addr) ++ [(epoch, some true)])) addrs.toFinset epoch =
          markDenied logs (addr :: addrs).toFinset epoch := by
        funext name
        cases name with
        | addressKey a =>
          by_cases ha : a = addr
          · subst ha
            simp [markDenied, hfresh]
          · simp [markDenied, ha]
        | globalPauseKey => simp [markDenied]
      rw [← hlogs]
      exact h'

end Configs

section DenyListConfigs

variable {denyList : DenyList} {logs : ConfigKey → SettingKey → List (ℕ × Option Bool)}
  {perTypeIndex : ℕ} {perTypeKey : List UInt8} {name : SettingKey} {epoch : ℕ}

/-- The logs with one write appended to the log of one setting. -/
def appendLog (logs : ConfigKey → SettingKey → List (ℕ × Option Bool)) (key : ConfigKey)
    (name : SettingKey) (write : ℕ × Option Bool) : ConfigKey → SettingKey → List (ℕ × Option Bool) :=
  Function.update logs key (Function.update (logs key) name (logs key name ++ [write]))

theorem ConfigsEncode.write (h : ConfigsEncode denyList logs) (key : ConfigKey)
    {config : PerTypeConfig} {logs' : SettingKey → List (ℕ × Option Bool)}
    (hconfig : ConfigEncodes config logs') :
    ConfigsEncode { denyList with configs := denyList.configs.write key config }
      (Function.update logs key logs') := by
  intro key'
  rw [configOf_write, Function.update_apply]
  split
  · rename_i hkey
    subst hkey
    exact hconfig
  · exact h key'

/-- A write of an epoch not after `bound` keeps every write not after it. -/
theorem LogsBefore.appendLog {bound : ℕ} (h : LogsBefore logs bound) (hepoch : epoch ≤ bound)
    (key : ConfigKey) (name : SettingKey) (value : Option Bool) :
    LogsBefore (appendLog logs key name (epoch, value)) bound := by
  intro key' name'
  unfold DenyList.appendLog
  rw [Function.update_apply]
  split
  · rename_i hkey
    subst hkey
    rw [Function.update_apply]
    split
    · rw [lastEpoch_concat]
      exact hepoch
    · exact h key' name'
  · exact h key' name'

theorem LogsBefore.markDenied {bound : ℕ} (h : LogsBefore logs bound) (hepoch : epoch ≤ bound)
    (key : ConfigKey) (addrs : Finset ℕ) :
    LogsBefore (Function.update logs key (markDenied (logs key) addrs epoch)) bound := by
  intro key' name'
  rw [Function.update_apply]
  split
  · rename_i hkey
    subst hkey
    cases name' with
    | addressKey addr =>
      rw [markDenied_addressKey]
      split
      · rw [lastEpoch_concat]
        exact hepoch
      · exact h key' _
    | globalPauseKey => exact h key' _
  · exact h key' name'

variable (perTypeIndex perTypeKey name) in
/-- `v2_add` and `v2_enable_global_pause` append `true` at this epoch to the
setting's log, and change nothing else. -/
theorem setForNextEpoch_encode (h : ConfigsEncode denyList logs) (hepoch : LogsBefore logs epoch) :
    ∃ denyList', setForNextEpoch denyList perTypeIndex perTypeKey name epoch = .ok denyList' ∧
      denyList'.lists = denyList.lists ∧
      ConfigsEncode denyList' (appendLog logs ⟨perTypeIndex, perTypeKey⟩ name (epoch, some true)) :=
  ⟨_, perTypeConfigEntry_eq (entryTrue_encode (h _) name (hepoch _ name)), rfl,
    h.write _ ((h _).append name (hepoch _ name) (some true))⟩

variable (perTypeIndex perTypeKey name) in
/-- `v2_remove` and `v2_disable_global_pause` append a removal at this epoch to
the setting's log, and change nothing else. -/
theorem unsetForNextEpoch_encode (h : ConfigsEncode denyList logs) (hepoch : LogsBefore logs epoch) :
    ∃ denyList', unsetForNextEpoch denyList perTypeIndex perTypeKey name epoch = .ok denyList' ∧
      denyList'.lists = denyList.lists ∧
      ConfigsEncode denyList' (appendLog logs ⟨perTypeIndex, perTypeKey⟩ name (epoch, none)) :=
  ⟨_, perTypeConfigEntry_eq (removeSetting_encode (h _) name (hepoch _ name)), rfl,
    h.write _ ((h _).append name (hepoch _ name) none)⟩

theorem readCurrentEpoch_eq_configOf (currentEpoch : ℕ) :
    readCurrentEpoch denyList perTypeIndex perTypeKey name currentEpoch =
      (Config.readSetting ((configOf denyList ⟨perTypeIndex, perTypeKey⟩).contents name)
        currentEpoch).getD false := by
  unfold readCurrentEpoch configOf
  cases denyList.configs.contents ⟨perTypeIndex, perTypeKey⟩ <;> rfl

theorem readNextEpoch_eq_configOf :
    readNextEpoch denyList perTypeIndex perTypeKey name = (do
      let value ← liftConfig (Config.readSettingForNextEpoch
        ((configOf denyList ⟨perTypeIndex, perTypeKey⟩).contents name))
      pure (value.getD false)) := by
  unfold readNextEpoch configOf
  cases denyList.configs.contents ⟨perTypeIndex, perTypeKey⟩ <;> rfl

/-- The read for the current epoch returns the last write of an earlier epoch,
or `false`. -/
theorem readCurrentEpoch_encode (h : ConfigsEncode denyList logs) {currentEpoch : ℕ}
    (hepoch : LogsBefore logs currentEpoch) :
    readCurrentEpoch denyList perTypeIndex perTypeKey name currentEpoch =
      (visibleAt (logs ⟨perTypeIndex, perTypeKey⟩ name) currentEpoch).getD false := by
  rw [readCurrentEpoch_eq_configOf, (h _).field_eq name,
    Config.readSetting_encode ((h _).sorted name) (hepoch _ name)]

/-- The read for the next epoch returns the last write, or `false`. -/
theorem readNextEpoch_encode (h : ConfigsEncode denyList logs) :
    readNextEpoch denyList perTypeIndex perTypeKey name =
      .ok ((latest (logs ⟨perTypeIndex, perTypeKey⟩ name)).getD false) := by
  rw [readNextEpoch_eq_configOf, (h _).field_eq name, Config.readSettingForNextEpoch_encode,
    liftConfig_ok, ok_bind]
  rfl

variable (perTypeKey) in
/-- `migrate_v1_to_v2` takes the type's set out of its V1 list and appends
`true` at this epoch to the V2 log of each address the set held. -/
theorem migrateV1ToV2_encode {list : PerTypeList} {s : DenySpec}
    (hlist : denyList.lists.contents perTypeIndex = some list) (hs : Represents list s)
    (h : ConfigsEncode denyList logs) (hepoch : LogsBefore logs epoch) :
    ∃ denyList' list', migrateV1ToV2 denyList perTypeIndex perTypeKey epoch = .ok denyList' ∧
      denyList'.lists = denyList.lists.write perTypeIndex list' ∧ Represents list' (s.drop perTypeKey) ∧
      ConfigsEncode denyList' (Function.update logs ⟨perTypeIndex, perTypeKey⟩
        (markDenied (logs ⟨perTypeIndex, perTypeKey⟩) (s.deniedFor perTypeKey) epoch)) := by
  obtain ⟨elements, list', hmigrate, hnd, helements, hs'⟩ := migrateV1_refines perTypeKey hlist hs
  -- the V1 half leaves the configs as they were
  have hconfigs : ConfigsEncode { denyList with lists := denyList.lists.write perTypeIndex list' } logs :=
    h
  obtain ⟨config', hfold, hconfig'⟩ := foldlM_entryTrue hnd (hconfigs ⟨perTypeIndex, perTypeKey⟩)
    (hepoch _)
  rw [helements] at hconfig'
  refine ⟨_, list', ?_, rfl, hs', hconfigs.write _ hconfig'⟩
  rw [migrateV1ToV2, hmigrate, ok_bind]
  exact perTypeConfigEntry_eq hfold

end DenyListConfigs

/-! ## Runs of V1 calls, V2 calls and migrations -/

/-- A call on the deny list: a V1 call, a V2 write, or a migration. -/
inductive Action where
  | v1 (call : Call)
  | v2Add (perTypeIndex : ℕ) (perTypeKey : List UInt8) (addr : ℕ)
  | v2Remove (perTypeIndex : ℕ) (perTypeKey : List UInt8) (addr : ℕ)
  | v2EnableGlobalPause (perTypeIndex : ℕ) (perTypeKey : List UInt8)
  | v2DisableGlobalPause (perTypeIndex : ℕ) (perTypeKey : List UInt8)
  | migrateV1ToV2 (perTypeIndex : ℕ) (perTypeKey : List UInt8)
  deriving DecidableEq, Repr

/-- An action, made in an epoch. -/
def runAction (denyList : DenyList) : ℕ × Action → Except (Abort Code) DenyList
  | (_, .v1 call) => runCall denyList call
  | (epoch, .v2Add perTypeIndex perTypeKey addr) => v2Add denyList perTypeIndex perTypeKey addr epoch
  | (epoch, .v2Remove perTypeIndex perTypeKey addr) =>
    v2Remove denyList perTypeIndex perTypeKey addr epoch
  | (epoch, .v2EnableGlobalPause perTypeIndex perTypeKey) =>
    v2EnableGlobalPause denyList perTypeIndex perTypeKey epoch
  | (epoch, .v2DisableGlobalPause perTypeIndex perTypeKey) =>
    v2DisableGlobalPause denyList perTypeIndex perTypeKey epoch
  | (epoch, .migrateV1ToV2 perTypeIndex perTypeKey) =>
    migrateV1ToV2 denyList perTypeIndex perTypeKey epoch

/-- What the deny list stands for: the V1 spec of each per-type list, and the
log of V2 writes of each setting. -/
structure DenyListSpec where
  lists : ℕ → Option DenySpec
  logs : ConfigKey → SettingKey → List (ℕ × Option Bool)

/-- The fresh deny list: the coin's empty V1 list, and no V2 write. -/
def specCreateAll : DenyListSpec :=
  ⟨specCreate, fun _ _ => []⟩

/-- An action on the spec: a V2 write is appended to its setting's log, and a
migration drops the type from its V1 list and writes `true` under each
address it denied. -/
def specAction (spec : DenyListSpec) : ℕ × Action → Except (Abort Code) DenyListSpec
  | (_, .v1 call) => (specCall spec.lists call).map fun lists => { spec with lists }
  | (epoch, .v2Add perTypeIndex perTypeKey addr) =>
    .ok { spec with
      logs := appendLog spec.logs ⟨perTypeIndex, perTypeKey⟩ (.addressKey addr) (epoch, some true) }
  | (epoch, .v2Remove perTypeIndex perTypeKey addr) =>
    .ok { spec with
      logs := appendLog spec.logs ⟨perTypeIndex, perTypeKey⟩ (.addressKey addr) (epoch, none) }
  | (epoch, .v2EnableGlobalPause perTypeIndex perTypeKey) =>
    .ok { spec with
      logs := appendLog spec.logs ⟨perTypeIndex, perTypeKey⟩ .globalPauseKey (epoch, some true) }
  | (epoch, .v2DisableGlobalPause perTypeIndex perTypeKey) =>
    .ok { spec with
      logs := appendLog spec.logs ⟨perTypeIndex, perTypeKey⟩ .globalPauseKey (epoch, none) }
  | (epoch, .migrateV1ToV2 perTypeIndex perTypeKey) =>
    match spec.lists perTypeIndex with
    | none => .error (.abort (.dynamicField .eFieldDoesNotExist))
    | some s =>
      .ok ⟨Function.update spec.lists perTypeIndex (some (s.drop perTypeKey)),
        Function.update spec.logs ⟨perTypeIndex, perTypeKey⟩
          (markDenied (spec.logs ⟨perTypeIndex, perTypeKey⟩) (s.deniedFor perTypeKey) epoch)⟩

/-- The deny list stands for `spec`: its bag for the V1 lists, its configs
for the V2 logs. -/
structure Stands (denyList : DenyList) (spec : DenyListSpec) : Prop where
  lists : ListsRepresent denyList spec.lists
  configs : ConfigsEncode denyList spec.logs

/-- What the actions still to come need of the spec: room in the counts for
each of them, no write after any of their epochs, and epochs that do not
decrease. -/
def Ready (rest : List (ℕ × Action)) (spec : DenyListSpec) : Prop :=
  Headroom rest.length spec.lists ∧ (∀ entry ∈ rest, LogsBefore spec.logs entry.1) ∧
    rest.Pairwise fun entry entry' => entry.1 ≤ entry'.1

section Actions

variable {denyList : DenyList} {spec : DenyListSpec} {epoch : ℕ}

theorem configs_of_runCall {denyList' : DenyList} {call : Call}
    (h : runCall denyList call = .ok denyList') : denyList'.configs = denyList.configs := by
  cases call with
  | add perTypeIndex type addr =>
    obtain ⟨_, _, hrest⟩ := bind_eq_ok.mp h
    obtain ⟨_, _, hrest⟩ := bind_eq_ok.mp hrest
    obtain ⟨_, _, hrest⟩ := bind_eq_ok.mp hrest
    cases hrest
    rfl
  | remove perTypeIndex type addr =>
    obtain ⟨_, _, hrest⟩ := bind_eq_ok.mp h
    obtain ⟨_, _, hrest⟩ := bind_eq_ok.mp hrest
    obtain ⟨_, _, hrest⟩ := bind_eq_ok.mp hrest
    cases hrest
    rfl

theorem DenySpec.mem_deniedFor {s : DenySpec} {type : List UInt8} {addr : ℕ} :
    addr ∈ s.deniedFor type ↔ (type, addr) ∈ s.denied := by
  simp only [DenySpec.deniedFor, Finset.mem_image, Finset.mem_filter]
  constructor
  · rintro ⟨⟨t, a⟩, ⟨hd, rfl⟩, rfl⟩
    exact hd
  · intro hd
    exact ⟨(type, addr), ⟨hd, rfl⟩, rfl⟩

/-- A migration takes none from the room in the counts. -/
theorem DenySpec.card_typesDenying_drop_le (s : DenySpec) (type : List UInt8) (a : ℕ) :
    ((s.drop type).typesDenying a).card ≤ (s.typesDenying a).card := by
  rw [DenySpec.card_typesDenying_drop]
  exact Nat.sub_le _ _

/-- What a spec action that returns does: a V1 call changes the lists alone, a
V2 write appends one write to one log, and a migration drops a type from a
list that was there and marks the type's denials in its logs. -/
theorem specAction_eq_ok {action : Action} {spec' : DenyListSpec}
    (h : specAction spec (epoch, action) = .ok spec') :
    (∃ call lists, specCall spec.lists call = .ok lists ∧ spec' = { spec with lists }) ∨
    (∃ key name v, spec' = { spec with logs := appendLog spec.logs key name (epoch, v) }) ∨
    (∃ perTypeIndex perTypeKey s, spec.lists perTypeIndex = some s ∧
      spec' = ⟨Function.update spec.lists perTypeIndex (some (s.drop perTypeKey)),
        Function.update spec.logs ⟨perTypeIndex, perTypeKey⟩
          (markDenied (spec.logs ⟨perTypeIndex, perTypeKey⟩) (s.deniedFor perTypeKey) epoch)⟩) := by
  cases action with
  | v1 call =>
    cases hcall : specCall spec.lists call with
    | error e => simp [specAction, hcall, Except.map] at h
    | ok lists =>
      simp only [specAction, hcall, Except.map, Except.ok.injEq] at h
      exact .inl ⟨call, lists, hcall, h.symm⟩
  | v2Add i k addr => exact .inr (.inl ⟨_, _, _, (Except.ok.inj h).symm⟩)
  | v2Remove i k addr => exact .inr (.inl ⟨_, _, _, (Except.ok.inj h).symm⟩)
  | v2EnableGlobalPause i k => exact .inr (.inl ⟨_, _, _, (Except.ok.inj h).symm⟩)
  | v2DisableGlobalPause i k => exact .inr (.inl ⟨_, _, _, (Except.ok.inj h).symm⟩)
  | migrateV1ToV2 i k =>
    simp only [specAction] at h
    cases hlist : spec.lists i with
    | none => rw [hlist] at h; cases h
    | some s =>
      rw [hlist] at h
      exact .inr (.inr ⟨i, k, s, hlist, (Except.ok.inj h).symm⟩)

/-- A spec action made at an epoch not after `bound` leaves no write after it. -/
theorem logsBefore_specAction {bound : ℕ} {action : Action} {spec' : DenyListSpec}
    (h : LogsBefore spec.logs bound) (hepoch : epoch ≤ bound)
    (haction : specAction spec (epoch, action) = .ok spec') : LogsBefore spec'.logs bound := by
  rcases specAction_eq_ok haction with ⟨_, _, -, rfl⟩ | ⟨_, _, _, rfl⟩ | ⟨_, _, _, -, rfl⟩
  · exact h
  · exact h.appendLog hepoch _ _ _
  · exact h.markDenied hepoch _ _

/-- A spec action that returns leaves room for the rest of the actions. -/
theorem ready_specAction {entry : ℕ × Action} {rest : List (ℕ × Action)} {spec' : DenyListSpec}
    (h : Ready (entry :: rest) spec) (haction : specAction spec entry = .ok spec') :
    Ready rest spec' := by
  obtain ⟨epoch, action⟩ := entry
  obtain ⟨hroom, hlogs, hsorted⟩ := h
  obtain ⟨hfirst, hrest⟩ := List.pairwise_cons.mp hsorted
  refine ⟨?_, fun entry hentry => logsBefore_specAction (hlogs entry (List.mem_cons_of_mem _ hentry))
    (hfirst entry hentry) haction, hrest⟩
  -- the room: only V1 calls use it, and a migration gives some back
  rcases specAction_eq_ok haction with ⟨_, _, hcall, rfl⟩ | ⟨_, _, _, rfl⟩ | ⟨i, k, s, hlist, rfl⟩
  · exact headroom_specCall hroom hcall
  · exact hroom.mono
  · intro j s' hs' a
    dsimp only at hs'
    rw [Function.update_apply] at hs'
    split at hs'
    · cases hs'
      have hroom_i := hroom i s hlist a
      have hdrop := DenySpec.card_typesDenying_drop_le s k a
      rw [List.length_cons] at hroom_i
      omega
    · exact (hroom.mono) j s' hs' a

/-- The configs are read by `configOf` only. -/
theorem ConfigsEncode.of_configs_eq {logs : ConfigKey → SettingKey → List (ℕ × Option Bool)}
    (h : ConfigsEncode denyList logs) {denyList' : DenyList}
    (hconfigs : denyList'.configs = denyList.configs) : ConfigsEncode denyList' logs := by
  intro key
  unfold configOf
  rw [hconfigs]
  exact h key

theorem migrateV1ToV2_of_none {perTypeIndex : ℕ} {perTypeKey : List UInt8}
    (h : denyList.lists.contents perTypeIndex = none) :
    migrateV1ToV2 denyList perTypeIndex perTypeKey epoch =
      .error (.abort (.dynamicField .eFieldDoesNotExist)) := by
  rw [migrateV1ToV2, migrateV1, Table.borrow_eq_error h]
  rfl

/-- One action of the deny list agrees with the spec's: the same abort, or
results that stand for each other. -/
theorem runAction_refines {entry : ℕ × Action} {rest : List (ℕ × Action)}
    (h : Stands denyList spec) (hready : Ready (entry :: rest) spec) :
    Agree Stands (runAction denyList entry) (specAction spec entry) := by
  obtain ⟨epoch, action⟩ := entry
  obtain ⟨hroom, hlogs, -⟩ := hready
  have hepoch : LogsBefore spec.logs epoch := hlogs _ List.mem_cons_self
  cases action with
  | v1 call =>
    -- a V1 call leaves the configs alone
    have hagree := runCall_refines call h.lists hroom
    simp only [runAction, specAction]
    cases hrun : runCall denyList call with
    | error e =>
      cases hcall : specCall spec.lists call with
      | error e' => rw [hrun, hcall] at hagree; exact hagree
      | ok lists => rw [hrun, hcall] at hagree; exact hagree.elim
    | ok denyList' =>
      cases hcall : specCall spec.lists call with
      | error e' => rw [hrun, hcall] at hagree; exact hagree.elim
      | ok lists =>
        rw [hrun, hcall] at hagree
        exact ⟨hagree, h.configs.of_configs_eq (configs_of_runCall hrun)⟩
  | v2Add i k addr =>
    obtain ⟨denyList', hrun, hlists, hconfigs⟩ :=
      setForNextEpoch_encode i k (.addressKey addr) h.configs hepoch
    simp only [runAction, specAction, v2Add, hrun]
    exact ⟨h.lists.of_lists_eq hlists, hconfigs⟩
  | v2Remove i k addr =>
    obtain ⟨denyList', hrun, hlists, hconfigs⟩ :=
      unsetForNextEpoch_encode i k (.addressKey addr) h.configs hepoch
    simp only [runAction, specAction, v2Remove, hrun]
    exact ⟨h.lists.of_lists_eq hlists, hconfigs⟩
  | v2EnableGlobalPause i k =>
    obtain ⟨denyList', hrun, hlists, hconfigs⟩ :=
      setForNextEpoch_encode i k .globalPauseKey h.configs hepoch
    simp only [runAction, specAction, v2EnableGlobalPause, hrun]
    exact ⟨h.lists.of_lists_eq hlists, hconfigs⟩
  | v2DisableGlobalPause i k =>
    obtain ⟨denyList', hrun, hlists, hconfigs⟩ :=
      unsetForNextEpoch_encode i k .globalPauseKey h.configs hepoch
    simp only [runAction, specAction, v2DisableGlobalPause, hrun]
    exact ⟨h.lists.of_lists_eq hlists, hconfigs⟩
  | migrateV1ToV2 i k =>
    simp only [runAction, specAction]
    rcases h.lists.cases i with ⟨hlist, hspec⟩ | ⟨list, s, hlist, hspec, hs⟩
    · rw [migrateV1ToV2_of_none hlist, hspec]
      rfl
    · obtain ⟨denyList', list', hrun, hlists, hs', hconfigs⟩ :=
        migrateV1ToV2_encode k hlist hs h.configs hepoch
      rw [hrun, hspec]
      exact ⟨h.lists.write hlists hs', hconfigs⟩

/-- A run of spec actions of epochs not after `bound` leaves no write after it. -/
theorem logsBefore_specRun {bound : ℕ} {actions : List (ℕ × Action)} {spec' : DenyListSpec}
    (h : LogsBefore spec.logs bound) (hepochs : ∀ entry ∈ actions, entry.1 ≤ bound)
    (hrun : actions.foldlM specAction spec = .ok spec') : LogsBefore spec'.logs bound :=
  (foldlM_invariant (fun spec => LogsBefore spec.logs bound) (fun _ _ => True) (fun _ => trivial)
    (fun _ _ _ _ _ => trivial)
    (fun _ entry _ hentry hlogs haction => ⟨logsBefore_specAction hlogs (hepochs entry hentry) haction,
      trivial⟩) h hrun).1

theorem stands_create :
    Stands ⟨Table.new.write coinIndex perTypeList, Table.new⟩ specCreateAll where
  lists := listsRepresent_create
  configs _ := ⟨fun _ => rfl, fun _ => List.Pairwise.nil⟩

end Actions

/-- What every spec a run reaches keeps of its V1 lists: the coin's list is
there, and no reserved address is denied. -/
structure ListsInv (lists : ℕ → Option DenySpec) : Prop where
  coin : ∃ s, lists coinIndex = some s
  unreserved : ∀ i s, lists i = some s → ∀ entry ∈ s.denied, reserved.contains entry.2 = false

section Invariant

variable {lists : ℕ → Option DenySpec}

theorem listsInv_specCreate : ListsInv specCreate where
  coin := ⟨DenySpec.empty, rfl⟩
  unreserved i s hs entry hentry := by
    rw [specCreate] at hs
    split at hs
    · cases hs
      simp [DenySpec.empty] at hentry
    · cases hs

/-- Replacing a list by one that denies no reserved address. -/
theorem ListsInv.update (h : ListsInv lists) {i : ℕ} {s : DenySpec}
    (hs : ∀ entry ∈ s.denied, reserved.contains entry.2 = false) :
    ListsInv (Function.update lists i (some s)) := by
  refine ⟨?_, fun j s' hs' => ?_⟩
  · obtain ⟨s₀, hs₀⟩ := h.coin
    by_cases hcoin : coinIndex = i
    · exact ⟨s, by rw [hcoin, Function.update_self]⟩
    · exact ⟨s₀, by rw [Function.update_of_ne hcoin, hs₀]⟩
  · rw [Function.update_apply] at hs'
    split at hs'
    · cases hs'
      exact hs
    · exact h.unreserved j s' hs'

/-- Every spec action keeps the invariant. -/
theorem listsInv_specAction {spec spec' : DenyListSpec} {entry : ℕ × Action}
    (h : ListsInv spec.lists) (haction : specAction spec entry = .ok spec') : ListsInv spec'.lists := by
  obtain ⟨epoch, action⟩ := entry
  rcases specAction_eq_ok haction with ⟨_, _, hcall, rfl⟩ | ⟨_, _, _, rfl⟩ | ⟨i, k, s, hi, rfl⟩
  · -- the call rewrote one list, adding or lifting a denial of an unreserved address
    obtain ⟨i, s, s', t, a, hi, hres, rfl, hchange⟩ := specCall_eq_ok hcall
    refine h.update fun entry hentry => ?_
    rcases hchange with rfl | rfl
    · rcases Finset.mem_insert.mp hentry with rfl | hold
      · exact hres
      · exact h.unreserved i s hi entry hold
    · exact h.unreserved i s hi entry (Finset.mem_of_mem_erase hentry)
  · exact h
  · exact h.update fun entry hentry =>
      h.unreserved i s hi entry (Finset.mem_filter.mp hentry).1

end Invariant

/-- From a state that stands for a spec, the migration of a type returns; V1
then denies no address for the type, and V2 adds the type's V1 denials to
what it denies from the next epoch on. -/
theorem migrateV1ToV2_denials {denyList : DenyList} {spec : DenyListSpec} {epoch perTypeIndex : ℕ}
    {s : DenySpec} (perTypeKey : List UInt8) (h : Stands denyList spec)
    (hepoch : LogsBefore spec.logs epoch) (hs : spec.lists perTypeIndex = some s) :
    ∃ denyList', migrateV1ToV2 denyList perTypeIndex perTypeKey epoch = .ok denyList' ∧
      ∀ addr,
        v1Contains denyList' perTypeIndex perTypeKey addr = .ok false ∧
        v2ContainsNextEpoch denyList' perTypeIndex perTypeKey addr =
          .ok ((latest (spec.logs ⟨perTypeIndex, perTypeKey⟩ (.addressKey addr))).getD false ||
            s.contains perTypeKey addr) ∧
        ∀ currentEpoch, epoch < currentEpoch →
          v2ContainsCurrentEpoch denyList' perTypeIndex perTypeKey addr currentEpoch =
            ((visibleAt (spec.logs ⟨perTypeIndex, perTypeKey⟩ (.addressKey addr)) currentEpoch).getD
              false || s.contains perTypeKey addr) := by
  obtain ⟨list, hlist, hrep⟩ : ∃ list, denyList.lists.contents perTypeIndex = some list ∧
      Represents list s := by
    rcases h.lists.cases perTypeIndex with ⟨-, hnone⟩ | ⟨list, s', hlist, hs', hrep⟩
    · rw [hs] at hnone
      cases hnone
    · rw [hs] at hs'
      cases hs'
      exact ⟨list, hlist, hrep⟩
  obtain ⟨denyList', list', hrun, hlists, hrep', hconfigs⟩ :=
    migrateV1ToV2_encode perTypeKey hlist hrep h.configs hepoch
  have hlists' := h.lists.write hlists hrep'
  refine ⟨denyList', hrun, fun addr => ⟨?_, ?_, fun currentEpoch hlater => ?_⟩⟩
  · -- V1 keeps no denial of the type
    rw [v1Contains_eq hlists', specV1Contains]
    split
    · rfl
    · rw [Function.update_self]
      simp [DenySpec.contains, DenySpec.drop]
  · -- the next epoch's read sees the migration's writes
    rw [v2ContainsNextEpoch, readNextEpoch_encode hconfigs, Function.update_self,
      markDenied_addressKey]
    by_cases hd : addr ∈ s.deniedFor perTypeKey
    · rw [if_pos hd, latest_concat, DenySpec.contains,
        decide_eq_true (DenySpec.mem_deniedFor.mp hd)]
      simp
    · rw [if_neg hd, DenySpec.contains, decide_eq_false (mt DenySpec.mem_deniedFor.mpr hd)]
      simp
  · -- so does every read of a later epoch
    have hbefore : LogsBefore spec.logs currentEpoch := fun key name =>
      le_trans (hepoch key name) hlater.le
    rw [v2ContainsCurrentEpoch, readCurrentEpoch_encode hconfigs
      (hbefore.markDenied hlater.le _ _), Function.update_self, markDenied_addressKey]
    by_cases hd : addr ∈ s.deniedFor perTypeKey
    · rw [if_pos hd, visibleAt_concat_of_lt _ _ hlater, DenySpec.contains,
        decide_eq_true (DenySpec.mem_deniedFor.mp hd)]
      simp
    · rw [if_neg hd, DenySpec.contains, decide_eq_false (mt DenySpec.mem_deniedFor.mpr hd)]
      simp

/-- Runs from a fresh deny list agree with the spec's runs, up to `Stands`. -/
theorem runs_agree {actions : List (ℕ × Action)} (hlen : actions.length < 2 ^ 64)
    (hsorted : actions.Pairwise fun entry entry' => entry.1 ≤ entry'.1) :
    Agree Stands (actions.foldlM runAction ⟨Table.new.write coinIndex perTypeList, Table.new⟩)
      (actions.foldlM specAction specCreateAll) :=
  foldlM_agree (f := runAction) (g := specAction) Stands Ready
    (fun _ _ _ _ h hready => runAction_refines h hready)
    (fun _ _ _ _ hready haction => ready_specAction hready haction) actions stands_create
    ⟨headroom_specCreate hlen, fun _ _ _ _ => Nat.zero_le _, hsorted⟩

/-- Every run of the deny list's calls, V1 and V2 and migrations, made in
epochs that do not decrease, from a fresh deny list, is simulated by the
spec: the run aborts exactly when the spec's does, with the same code, and
otherwise `v1_contains` answers as the spec's V1 lists do, the reads for the
next epoch return the last V2 write of the setting, and the reads for an
epoch not before any call return the last V2 write of an earlier epoch. The
only other condition is that the run is shorter than 2^64 calls. -/
theorem denyList_runs_refine (actions : List (ℕ × Action)) (hlen : actions.length < 2 ^ 64)
    (hsorted : actions.Pairwise fun entry entry' => entry.1 ≤ entry'.1) :
    ∃ denyList, create 0 = .ok denyList ∧
      Agree (fun denyList' spec' =>
          (∀ perTypeIndex perTypeKey addr, v1Contains denyList' perTypeIndex perTypeKey addr =
            specV1Contains spec'.lists perTypeIndex perTypeKey addr) ∧
          (∀ perTypeIndex perTypeKey name, readNextEpoch denyList' perTypeIndex perTypeKey name =
            .ok ((latest (spec'.logs ⟨perTypeIndex, perTypeKey⟩ name)).getD false)) ∧
          ∀ perTypeIndex perTypeKey name currentEpoch,
            (∀ entry ∈ actions, entry.1 ≤ currentEpoch) →
            readCurrentEpoch denyList' perTypeIndex perTypeKey name currentEpoch =
              (visibleAt (spec'.logs ⟨perTypeIndex, perTypeKey⟩ name) currentEpoch).getD false)
        (actions.foldlM runAction denyList) (actions.foldlM specAction specCreateAll) := by
  refine ⟨_, create_eq, Agree.imp_ok (runs_agree hlen hsorted) ?_⟩
  intro denyList' spec' _ hspec hstands
  refine ⟨fun _ _ _ => v1Contains_eq hstands.lists, fun _ _ _ => readNextEpoch_encode hstands.configs,
    fun _ _ _ _ hepochs => readCurrentEpoch_encode hstands.configs ?_⟩
  exact logsBefore_specRun (fun _ _ => Nat.zero_le _) hepochs hspec

theorem denyList_runs_refine_three :
    [(1, Action.v1 (.add coinIndex [7] 0x1234)), (1, .v2Add coinIndex [7] 0x99),
        (2, .migrateV1ToV2 coinIndex [7])].length < 2 ^ 64 ∧
    [(1, Action.v1 (.add coinIndex [7] 0x1234)), (1, .v2Add coinIndex [7] 0x99),
        (2, .migrateV1ToV2 coinIndex [7])].Pairwise (fun entry entry' => entry.1 ≤ entry'.1) ∧
    ∃ denyList, create 0 = .ok denyList ∧
      Agree (fun denyList' spec' =>
          (∀ perTypeIndex perTypeKey addr, v1Contains denyList' perTypeIndex perTypeKey addr =
            specV1Contains spec'.lists perTypeIndex perTypeKey addr) ∧
          (∀ perTypeIndex perTypeKey name, readNextEpoch denyList' perTypeIndex perTypeKey name =
            .ok ((latest (spec'.logs ⟨perTypeIndex, perTypeKey⟩ name)).getD false)) ∧
          ∀ perTypeIndex perTypeKey name currentEpoch,
            (∀ entry ∈ [(1, Action.v1 (.add coinIndex [7] 0x1234)), (1, .v2Add coinIndex [7] 0x99),
                (2, .migrateV1ToV2 coinIndex [7])], entry.1 ≤ currentEpoch) →
            readCurrentEpoch denyList' perTypeIndex perTypeKey name currentEpoch =
              (visibleAt (spec'.logs ⟨perTypeIndex, perTypeKey⟩ name) currentEpoch).getD false)
        ([(1, Action.v1 (.add coinIndex [7] 0x1234)), (1, .v2Add coinIndex [7] 0x99),
          (2, .migrateV1ToV2 coinIndex [7])].foldlM runAction denyList)
        ([(1, Action.v1 (.add coinIndex [7] 0x1234)), (1, .v2Add coinIndex [7] 0x99),
          (2, .migrateV1ToV2 coinIndex [7])].foldlM specAction specCreateAll) :=
  ⟨by decide, by decide, denyList_runs_refine _ (by decide) (by decide)⟩

/-- In every deny list a run of calls reaches, migrating a coin type to V2
loses none of its denials. The migration, made in an epoch not before any of
the run's, returns; V1 then denies no address for the type; and V2, read for
the next epoch or in any later epoch, denies an address exactly when it did
before or V1 did. -/
theorem migrateV1ToV2_keeps_denials (actions : List (ℕ × Action)) (hlen : actions.length < 2 ^ 64)
    (hsorted : actions.Pairwise fun entry entry' => entry.1 ≤ entry'.1)
    {denyList₀ denyList : DenyList} (hcreate : create 0 = .ok denyList₀)
    (hrun : actions.foldlM runAction denyList₀ = .ok denyList) (perTypeKey : List UInt8)
    {epoch : ℕ} (hepoch : ∀ entry ∈ actions, entry.1 ≤ epoch) :
    ∃ denyList', migrateV1ToV2 denyList coinIndex perTypeKey epoch = .ok denyList' ∧
      ∀ addr, ∃ deniedV1 deniedV2,
        v1Contains denyList coinIndex perTypeKey addr = .ok deniedV1 ∧
        v2ContainsNextEpoch denyList coinIndex perTypeKey addr = .ok deniedV2 ∧
        v1Contains denyList' coinIndex perTypeKey addr = .ok false ∧
        v2ContainsNextEpoch denyList' coinIndex perTypeKey addr = .ok (deniedV2 || deniedV1) ∧
        ∀ currentEpoch, epoch < currentEpoch →
          v2ContainsCurrentEpoch denyList' coinIndex perTypeKey addr currentEpoch =
            (v2ContainsCurrentEpoch denyList coinIndex perTypeKey addr currentEpoch || deniedV1) := by
  rw [create_eq] at hcreate
  cases hcreate
  -- the state the run reaches stands for the spec's, which keeps the invariant
  obtain ⟨spec, hspec, hstands⟩ := (runs_agree hlen hsorted).exists_of_ok hrun
  have hinv : ListsInv spec.lists := (foldlM_invariant (fun spec => ListsInv spec.lists)
    (fun _ _ => True) (fun _ => trivial) (fun _ _ _ _ _ => trivial)
    (fun _ _ _ _ hinv haction => ⟨listsInv_specAction hinv haction, trivial⟩)
    listsInv_specCreate hspec).1
  have hlogs : LogsBefore spec.logs epoch :=
    logsBefore_specRun (fun _ _ => Nat.zero_le _) hepoch hspec
  obtain ⟨s, hs⟩ := hinv.coin
  obtain ⟨denyList', hmigrate, hdenials⟩ := migrateV1ToV2_denials perTypeKey hstands hlogs hs
  refine ⟨denyList', hmigrate, fun addr => ?_⟩
  obtain ⟨hv1, hnext, hlater⟩ := hdenials addr
  -- before the migration V1 answers with the spec's list, reserved addresses included
  have hv1before : v1Contains denyList coinIndex perTypeKey addr = .ok (s.contains perTypeKey addr) := by
    rw [v1Contains_eq hstands.lists, specV1Contains, hs]
    split
    · rename_i hres
      have hnot : (perTypeKey, addr) ∉ s.denied := fun hd => by
        have := hinv.unreserved coinIndex s hs _ hd
        rw [hres] at this
        cases this
      rw [DenySpec.contains, decide_eq_false hnot]
    · rfl
  refine ⟨_, _, hv1before, readNextEpoch_encode hstands.configs, hv1, hnext,
    fun currentEpoch hcurrent => ?_⟩
  rw [hlater currentEpoch hcurrent, v2ContainsCurrentEpoch,
    readCurrentEpoch_encode hstands.configs fun key name => le_trans (hlogs key name) hcurrent.le]

/-- A run that denies address 42 under V1 in epoch 3: the migration in epoch 5
carries the denial into V2 and clears it from V1. -/
theorem migrateV1ToV2_keeps_denials_v1 :
    ∃ denyList denyList', [(3, Action.v1 (.add coinIndex [7] 42))].foldlM runAction
        ⟨Table.new.write coinIndex perTypeList, Table.new⟩ = .ok denyList ∧
      migrateV1ToV2 denyList coinIndex [7] 5 = .ok denyList' ∧
      v1Contains denyList' coinIndex [7] 42 = .ok false ∧
      v2ContainsNextEpoch denyList' coinIndex [7] 42 = .ok true := by
  have h42 : ([(3, Action.v1 (.add coinIndex [7] 42))].foldlM runAction
      ⟨Table.new.write coinIndex perTypeList, Table.new⟩ >>= fun denyList =>
        v1Contains denyList coinIndex [7] 42) = .ok true := by decide
  obtain ⟨denyList, hrun⟩ : ∃ denyList, [(3, Action.v1 (.add coinIndex [7] 42))].foldlM runAction
      ⟨Table.new.write coinIndex perTypeList, Table.new⟩ = .ok denyList := ⟨_, rfl⟩
  obtain ⟨denyList', hmigrate, hall⟩ := migrateV1ToV2_keeps_denials _ (by decide)
    (List.pairwise_singleton _ _) create_eq hrun [7]
    (show ∀ entry ∈ [(3, Action.v1 (.add coinIndex [7] 42))], entry.1 ≤ 5 by decide)
  obtain ⟨deniedV1, deniedV2, hv1, -, hcleared, hnext, -⟩ := hall 42
  -- the run denied 42 under V1
  rw [hrun, ok_bind, hv1] at h42
  rw [Except.ok.inj h42, Bool.or_true] at hnext
  exact ⟨denyList, denyList', hrun, hmigrate, hcleared, hnext⟩

end DenyList

end Sui
