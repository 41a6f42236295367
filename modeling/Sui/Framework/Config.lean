import Sui.EpochLog

/-!
# Settings for the next epoch (`sui::config`, `config.rs`)

A `Config` keeps each setting as a dynamic field holding a `Setting`: the
value written for the next epoch with the epoch it was written in, and one
older value, the one in force during that epoch. `add_for_next_epoch` and
`remove_for_next_epoch` write the newer slot, moving it to the older one when
the epoch has moved on; the native `read_setting_impl` reads the newer value
once its epoch is over and the older one during it. The field of one name and
value type is modelled as an `Option (Setting V)`; the Move aborts are the
values of `ConfigAbort`.

What the two slots are for is a log of writes that take effect at the next
epoch (`EpochLog`): a reader at epoch `e` should see the last write made
before `e`. The slots are a function of such a log (`encode`: the last write
with its epoch, and what was in force during that epoch), and every operation
on the slots of a log is the operation on the log
(`addForNextEpoch_encode`, `removeForNextEpoch_encode`, `entry_encode`,
`update_encode`), with the abort the log predicts; the reads return what the
log says (`readSetting_encode`, `readSettingForNextEpoch_encode`). Over a run
of calls in non-decreasing epochs the field is the encoding of the log of the
calls that returned (`runCalls_encode`), so the native read returns the
epoch-delayed value (`runCalls_next_epoch`).

The closures of the `entry!` and `update!` macros are modelled as the value
they produce and the change they make to the borrowed value; their own
effects on the config are not modelled.
-/

namespace Sui

namespace Config

open EpochLog

/-- The aborts of `sui::config` on one setting. -/
inductive ConfigAbort
  /-- `EAlreadySetForEpoch` -/
  | alreadySetForEpoch
  /-- `ENotSetForEpoch` -/
  | notSetForEpoch
  /-- `assert!(epoch == newer_value_epoch)`: an epoch before the setting's -/
  | epochBehind
  /-- `Option::extract` or `borrow` of an empty `data` -/
  | optionNotSet
  /-- `dynamic_field::borrow_mut` of a missing field -/
  | fieldDoesNotExist
  deriving DecidableEq, Repr

/-- `SettingData`. -/
structure SettingData (V : Type) where
  /-- the epoch the newer value was written in -/
  newerValueEpoch : ℕ
  /-- the value for the epochs after `newerValueEpoch`, `none` once removed -/
  newerValue : Option V
  /-- the value in force during `newerValueEpoch` -/
  olderValueOpt : Option V
  deriving DecidableEq, Repr

/-- `Setting`: `data` is only empty between an `extract` and a `fill`. -/
structure Setting (V : Type) where
  /-- the two slots -/
  data : Option (SettingData V)
  deriving DecidableEq, Repr

variable {V : Type}

/-- `add_for_next_epoch`: the new state of the field and the value it drops
from the older slot. -/
def addForNextEpoch (field : Option (Setting V)) (epoch : ℕ) (value : V) :
    Except ConfigAbort (Option (Setting V) × Option V) :=
  match field with
  | none => pure (some ⟨some ⟨epoch, some value, none⟩⟩, none)
  | some sobj =>
    match sobj.data with
    | none => throw .optionNotSet
    | some ⟨newerValueEpoch, newerValue, olderValueOpt⟩ => do
      let (olderValueOpt, removedValue) ← if newerValueEpoch < epoch then
          -- the newer value is for a previous epoch: it becomes the older one
          pure (newerValue, olderValueOpt)
        else if epoch ≠ newerValueEpoch then throw .epochBehind
        else if newerValue.isSome then throw .alreadySetForEpoch
        else pure (olderValueOpt, none)
      pure (some ⟨some ⟨epoch, some value, olderValueOpt⟩⟩, removedValue)

/-- `remove_for_next_epoch`: the new state of the field, which is deleted
when no older value is left, and the newer value it removes. -/
def removeForNextEpoch (field : Option (Setting V)) (epoch : ℕ) :
    Except ConfigAbort (Option (Setting V) × Option V) :=
  match field with
  | none => pure (none, none)
  | some sobj =>
    match sobj.data with
    | none => throw .optionNotSet
    | some ⟨newerValueEpoch, newerValue, olderValueOpt⟩ => do
      let (olderValueOpt, removedValue) ← if newerValueEpoch < epoch then
          pure (newerValue, none)
        else if epoch ≠ newerValueEpoch then throw .epochBehind
        else pure (olderValueOpt, newerValue)
      if olderValueOpt.isNone then pure (none, removedValue)
      else pure (some ⟨some ⟨epoch, none, olderValueOpt⟩⟩, removedValue)

/-- `exists_with_type_for_next_epoch`: a value was written in this epoch. -/
def existsWithTypeForNextEpoch (field : Option (Setting V)) (epoch : ℕ) :
    Except ConfigAbort Bool :=
  match field with
  | none => pure false
  | some sobj =>
    match sobj.data with
    | none => throw .optionNotSet
    | some data => pure (epoch = data.newerValueEpoch && data.newerValue.isSome)

/-- `borrow_for_next_epoch_mut`, with the change the caller makes through the
reference: the value written in this epoch, changed by `f`. -/
def borrowForNextEpochMut (field : Option (Setting V)) (epoch : ℕ) (f : V → V) :
    Except ConfigAbort (Option (Setting V)) :=
  match field with
  | none => throw .fieldDoesNotExist
  | some sobj =>
    match sobj.data with
    | none => throw .optionNotSet
    | some ⟨newerValueEpoch, newerValue, olderValueOpt⟩ =>
      if newerValueEpoch ≠ epoch then throw .notSetForEpoch
      else
        match newerValue with
        | none => throw .notSetForEpoch
        | some value => pure (some ⟨some ⟨newerValueEpoch, some (f value), olderValueOpt⟩⟩)

/-- `read_setting_for_next_epoch`. -/
def readSettingForNextEpoch (field : Option (Setting V)) : Except ConfigAbort (Option V) :=
  match field with
  | none => pure none
  | some sobj =>
    match sobj.data with
    | none => throw .optionNotSet
    | some data => pure data.newerValue

/-- The `entry!` macro: add `initial` unless a value was written in this
epoch, then change the value by `f`. -/
def entry (field : Option (Setting V)) (epoch : ℕ) (initial : V) (f : V → V) :
    Except ConfigAbort (Option (Setting V)) := do
  let field ← if !(← existsWithTypeForNextEpoch field epoch) then
      (·.1) <$> addForNextEpoch field epoch initial
    else pure field
  borrowForNextEpochMut field epoch f

/-- The `update!` macro: add `initial` unless a value was written in this
epoch, then change the value by `f`, which also gets the value the addition
dropped. -/
def update (field : Option (Setting V)) (epoch : ℕ) (initial : V) (f : Option V → V → V) :
    Except ConfigAbort (Option (Setting V)) := do
  let (field, oldValueOpt) ← if !(← existsWithTypeForNextEpoch field epoch) then
      addForNextEpoch field epoch initial
    else pure (field, none)
  borrowForNextEpochMut field epoch (f oldValueOpt)

/-- `read_setting` through the native `consistent_value_before_current_epoch`:
the newer value once its epoch is over, the older one during it. An empty
`data` is logged and read as `none`. -/
def readSetting (field : Option (Setting V)) (currentEpoch : ℕ) : Option V :=
  match field with
  | none => none
  | some sobj =>
    match sobj.data with
    | none => none
    | some data =>
      if data.newerValueEpoch < currentEpoch then data.newerValue else data.olderValueOpt

/-! ## The log the two slots encode -/

/-- The two slots of a log of writes: the last write with its epoch, and
what was in force during that epoch; no field when both are empty. -/
def encode (log : List (ℕ × Option V)) : Option (Setting V) :=
  if (latest log).isNone && (visibleAt log (lastEpoch log)).isNone then none
  else some ⟨some ⟨lastEpoch log, latest log, visibleAt log (lastEpoch log)⟩⟩

/-- The value written in epoch `e`, if the last write was made in it. -/
def writtenIn (log : List (ℕ × Option V)) (e : ℕ) : Option V :=
  if lastEpoch log = e then latest log else none

/-- What a write in epoch `e` drops: the value in force during the last
write's epoch, once that epoch is over. -/
def droppedBy (log : List (ℕ × Option V)) (e : ℕ) : Option V :=
  if lastEpoch log < e then visibleAt log (lastEpoch log) else none

/-- An addition on the log: refused when a value was written in this epoch
and not removed since, and otherwise the write with what it drops. -/
def specAdd (log : List (ℕ × Option V)) (e : ℕ) (value : V) :
    Except ConfigAbort (List (ℕ × Option V) × Option V) :=
  if (writtenIn log e).isSome then throw .alreadySetForEpoch
  else pure (log ++ [(e, some value)], droppedBy log e)

/-- A removal on the log, with the value written in this epoch it removes. -/
def specRemove (log : List (ℕ × Option V)) (e : ℕ) : List (ℕ × Option V) × Option V :=
  (log ++ [(e, none)], writtenIn log e)

/-- `entry!` on the log: the value written in this epoch, or `initial`,
changed by `f`. -/
def specEntry (log : List (ℕ × Option V)) (e : ℕ) (initial : V) (f : V → V) :
    List (ℕ × Option V) :=
  log ++ [(e, some (f ((writtenIn log e).getD initial)))]

/-- `update!` on the log: as `entry!`, with what adding `initial` drops. -/
def specUpdate (log : List (ℕ × Option V)) (e : ℕ) (initial : V) (f : Option V → V → V) :
    List (ℕ × Option V) :=
  log ++ [(e, some (f (if (writtenIn log e).isSome then none else droppedBy log e)
    ((writtenIn log e).getD initial)))]

section Encode

variable {log : List (ℕ × Option V)} {e : ℕ}

/-- A stored setting always holds data, with a value in one of its slots: the
assertion of the native read never fires. -/
theorem encode_eq_some {sobj : Setting V} (h : encode log = some sobj) :
    sobj.data = some ⟨lastEpoch log, latest log, visibleAt log (lastEpoch log)⟩ ∧
      ((latest log).isSome ∨ (visibleAt log (lastEpoch log)).isSome) := by
  unfold encode at h
  split_ifs at h with hnone
  cases h
  refine ⟨rfl, ?_⟩
  cases hl : latest log <;> cases ho : visibleAt log (lastEpoch log) <;> simp_all

/-- The two slots after a write. -/
theorem encode_concat (w : Option V) :
    encode (log ++ [(e, w)]) =
      if w.isNone && (visibleAt log e).isNone then none
      else some ⟨some ⟨e, w, visibleAt log e⟩⟩ := by
  simp only [encode, latest_concat, lastEpoch_concat, visibleAt_concat_self]

/-! ## Each operation on the slots of a log -/

/-- **`add_for_next_epoch` on the slots of a log** does what the addition does
on the log: refused in the same epoch after a value was written, and otherwise
the write with the value it drops. -/
theorem addForNextEpoch_encode (hs : Sorted log) (he : lastEpoch log ≤ e) (value : V) :
    addForNextEpoch (encode log) e value =
      (fun r => (encode r.1, r.2)) <$> specAdd log e value := by
  rcases Nat.lt_or_eq_of_le he with hlt | rfl
  · -- a later epoch: the newer value moves to the older slot
    have hw : writtenIn log e = none := if_neg (Nat.ne_of_lt hlt)
    have hd : droppedBy log e = visibleAt log (lastEpoch log) := if_pos hlt
    simp only [specAdd, hw, hd, Option.isSome_none, Bool.false_eq_true, if_false, pure,
      Except.pure, Functor.map, Except.map]
    rw [encode_concat, visibleAt_eq_latest hs hlt]
    unfold encode
    cases hl : latest log <;> cases ho : visibleAt log (lastEpoch log) <;>
      simp [addForNextEpoch, hlt, pure, Except.pure, bind, Except.bind]
  · -- the same epoch: only a removed value may be written again
    have hw : writtenIn log (lastEpoch log) = latest log := if_pos rfl
    have hd : droppedBy log (lastEpoch log) = none := if_neg (Nat.lt_irrefl _)
    unfold specAdd
    rw [hw, hd]
    unfold encode
    cases hl : latest log <;> cases ho : visibleAt log (lastEpoch log) <;>
      simp [addForNextEpoch, pure, Except.pure, bind, Except.bind, Functor.map, Except.map, throw,
        throwThe, MonadExceptOf.throw, ho]

/-- **`remove_for_next_epoch` on the slots of a log** writes a removal and
returns the value written in this epoch; it never aborts. -/
theorem removeForNextEpoch_encode (hs : Sorted log) (he : lastEpoch log ≤ e) :
    removeForNextEpoch (encode log) e =
      .ok (encode (specRemove log e).1, (specRemove log e).2) := by
  unfold specRemove writtenIn
  rw [encode_concat]
  rcases Nat.lt_or_eq_of_le he with hlt | rfl
  · -- a later epoch: the newer value becomes the older one
    rw [visibleAt_eq_latest hs hlt, if_neg (Nat.ne_of_lt hlt)]
    unfold encode
    cases hl : latest log <;> cases ho : visibleAt log (lastEpoch log) <;>
      simp [removeForNextEpoch, hlt, pure, Except.pure, bind, Except.bind]
  · -- the same epoch: the newer value is removed
    rw [if_pos rfl]
    unfold encode
    cases hl : latest log <;> cases ho : visibleAt log (lastEpoch log) <;>
      simp [removeForNextEpoch, pure, Except.pure, bind, Except.bind]

/-- A value was written in this epoch exactly when the log's last write is
one of this epoch. -/
theorem existsWithTypeForNextEpoch_encode :
    existsWithTypeForNextEpoch (encode log) e = .ok (writtenIn log e).isSome := by
  unfold encode writtenIn
  by_cases he : lastEpoch log = e <;>
    cases hl : latest log <;> cases ho : visibleAt log (lastEpoch log) <;>
      simp [existsWithTypeForNextEpoch, he, pure, Except.pure, @eq_comm _ e (lastEpoch log)]

theorem readSettingForNextEpoch_encode :
    readSettingForNextEpoch (encode log) = .ok (latest log) := by
  unfold encode
  cases hl : latest log <;> cases ho : visibleAt log (lastEpoch log) <;>
    simp [readSettingForNextEpoch, pure, Except.pure]

/-- **The native read** at an epoch not before the last write's sees what the
log makes visible there. -/
theorem readSetting_encode (hs : Sorted log) (he : lastEpoch log ≤ e) :
    readSetting (encode log) e = visibleAt log e := by
  rw [visibleAt_of_lastEpoch_le hs he]
  unfold encode
  cases hl : latest log <;> cases ho : visibleAt log (lastEpoch log) <;>
    simp [readSetting]

theorem borrowForNextEpochMut_encode_concat (value : V) (f : V → V) :
    borrowForNextEpochMut (encode (log ++ [(e, some value)])) e f =
      .ok (encode (log ++ [(e, some (f value))])) := by
  simp [encode_concat, borrowForNextEpochMut, pure, Except.pure]

/-- A value written in this epoch is what writing it again would leave. -/
theorem encode_of_writtenIn {value : V} (h : writtenIn log e = some value) :
    encode log = encode (log ++ [(e, some value)]) := by
  unfold writtenIn at h
  split_ifs at h with he
  subst he
  rw [encode_concat]
  simp [encode, h]

/-- **`entry!` on the slots of a log** never aborts and writes the value it
leaves. -/
theorem entry_encode (hs : Sorted log) (he : lastEpoch log ≤ e) (initial : V) (f : V → V) :
    entry (encode log) e initial f = .ok (encode (specEntry log e initial f)) := by
  unfold entry specEntry
  simp only [existsWithTypeForNextEpoch_encode, bind, Except.bind]
  cases hw : writtenIn log e with
  | none =>
    -- nothing written in this epoch: `initial` is added, then changed
    have hadd := addForNextEpoch_encode hs he initial
    simp only [specAdd, hw, Option.isSome_none, Bool.false_eq_true, if_false, pure,
      Except.pure, Functor.map, Except.map] at hadd
    simp [hadd, Functor.map, Except.map, borrowForNextEpochMut_encode_concat]
  | some value =>
    -- the value written in this epoch is changed in place
    simp [pure, Except.pure, encode_of_writtenIn hw, borrowForNextEpochMut_encode_concat]

/-- **`update!` on the slots of a log** never aborts and writes the value it
leaves. -/
theorem update_encode (hs : Sorted log) (he : lastEpoch log ≤ e) (initial : V)
    (f : Option V → V → V) :
    update (encode log) e initial f = .ok (encode (specUpdate log e initial f)) := by
  unfold update specUpdate
  simp only [existsWithTypeForNextEpoch_encode, bind, Except.bind]
  cases hw : writtenIn log e with
  | none =>
    have hadd := addForNextEpoch_encode hs he initial
    simp only [specAdd, hw, Option.isSome_none, Bool.false_eq_true, if_false, pure,
      Except.pure, Functor.map, Except.map] at hadd
    simp [hadd, borrowForNextEpochMut_encode_concat]
  | some value =>
    simp [pure, Except.pure, encode_of_writtenIn hw, borrowForNextEpochMut_encode_concat]

end Encode

/-! ## Runs of calls -/

/-- A call on the setting: the two writes and the two macros. -/
inductive Call (V : Type)
  /-- `add_for_next_epoch` -/
  | add (value : V)
  /-- `remove_for_next_epoch` -/
  | remove
  /-- `entry!`, then a change through the returned reference -/
  | entry (initial : V) (f : V → V)
  /-- `update!` -/
  | update (initial : V) (f : Option V → V → V)

/-- One call in `epoch`, with the field it leaves. -/
def applyCall (field : Option (Setting V)) (epoch : ℕ) :
    Call V → Except ConfigAbort (Option (Setting V))
  | .add value => (·.1) <$> addForNextEpoch field epoch value
  | .remove => (·.1) <$> removeForNextEpoch field epoch
  | .entry initial f => entry field epoch initial f
  | .update initial f => update field epoch initial f

/-- Calls one after another, each in its epoch; a call that aborts is
reverted and leaves the field as it was. -/
def runCalls : Option (Setting V) → List (ℕ × Call V) → Option (Setting V)
  | field, [] => field
  | field, (epoch, call) :: calls =>
    match applyCall field epoch call with
    | .ok field' => runCalls field' calls
    | .error _ => runCalls field calls

/-- One call on the log. -/
def specCall (log : List (ℕ × Option V)) (epoch : ℕ) :
    Call V → Except ConfigAbort (List (ℕ × Option V))
  | .add value => (·.1) <$> specAdd log epoch value
  | .remove => pure (specRemove log epoch).1
  | .entry initial f => pure (specEntry log epoch initial f)
  | .update initial f => pure (specUpdate log epoch initial f)

/-- The log of the calls that return, one after another. -/
def specRun : List (ℕ × Option V) → List (ℕ × Call V) → List (ℕ × Option V)
  | log, [] => log
  | log, (epoch, call) :: calls =>
    match specCall log epoch call with
    | .ok log' => specRun log' calls
    | .error _ => specRun log calls

section Runs

variable {log : List (ℕ × Option V)} {e : ℕ}

theorem applyCall_encode (hs : Sorted log) (he : lastEpoch log ≤ e) (call : Call V) :
    applyCall (encode log) e call = encode <$> specCall log e call := by
  cases call with
  | add value =>
    simp only [applyCall, specCall, addForNextEpoch_encode hs he]
    cases specAdd log e value <;> rfl
  | remove =>
    simp [applyCall, specCall, removeForNextEpoch_encode hs he, Functor.map, Except.map, pure,
      Except.pure]
  | entry initial f =>
    simp [applyCall, specCall, entry_encode hs he, Functor.map, Except.map, pure, Except.pure]
  | update initial f =>
    simp [applyCall, specCall, update_encode hs he, Functor.map, Except.map, pure, Except.pure]

/-- A call that returns appends one write of its epoch. -/
theorem specCall_eq_ok {call : Call V} {log' : List (ℕ × Option V)}
    (h : specCall log e call = .ok log') :
    ∃ w, log' = log ++ [(e, w)] := by
  cases call with
  | add value =>
    simp only [specCall, specAdd] at h
    split_ifs at h
    · simp [throw, throwThe, MonadExceptOf.throw, Functor.map, Except.map] at h
    · simp only [pure, Except.pure, Functor.map, Except.map, Except.ok.injEq] at h
      exact ⟨_, h.symm⟩
  | remove => exact ⟨_, (Except.ok.inj h).symm⟩
  | entry initial f => exact ⟨_, (Except.ok.inj h).symm⟩
  | update initial f => exact ⟨_, (Except.ok.inj h).symm⟩

/-- **A run of calls** in non-decreasing epochs, none before the log's last
write, leaves the field that encodes the log of the calls that return. -/
theorem runCalls_encode :
    ∀ {log : List (ℕ × Option V)} {calls : List (ℕ × Call V)}, Sorted log →
      calls.Pairwise (fun a b => a.1 ≤ b.1) → (∀ c ∈ calls, lastEpoch log ≤ c.1) →
      runCalls (encode log) calls = encode (specRun log calls) ∧ Sorted (specRun log calls) ∧
        ∀ b, lastEpoch log ≤ b → (∀ c ∈ calls, c.1 ≤ b) →
          lastEpoch (specRun log calls) ≤ b
  | log, [], hs, _, _ => ⟨rfl, hs, fun _ hb _ => hb⟩
  | log, (epoch, call) :: calls, hs, hcalls, hfirst => by
    have he : lastEpoch log ≤ epoch := hfirst _ List.mem_cons_self
    have hrest := List.pairwise_cons.mp hcalls
    simp only [runCalls, specRun, applyCall_encode hs he]
    cases hcall : specCall log epoch call with
    | error err =>
      -- a reverted call leaves field and log as they were
      obtain ⟨hrun, hsorted, hlast⟩ :=
        runCalls_encode hs hrest.2 fun c hc => hfirst c (List.mem_cons_of_mem _ hc)
      exact ⟨hrun, hsorted, fun b hb hcs =>
        hlast b hb fun c hc => hcs c (List.mem_cons_of_mem _ hc)⟩
    | ok log' =>
      obtain ⟨w, rfl⟩ := specCall_eq_ok hcall
      obtain ⟨hrun, hsorted, hlast⟩ := runCalls_encode (hs.concat he w) hrest.2
        fun c hc => by rw [lastEpoch_concat]; exact hrest.1 c hc
      refine ⟨hrun, hsorted, fun b _ hcs =>
        hlast b ?_ fun c hc => hcs c (List.mem_cons_of_mem _ hc)⟩
      rw [lastEpoch_concat]
      exact hcs _ List.mem_cons_self

/-- **Settings take effect at the next epoch.** After calls in
non-decreasing epochs on a setting that did not exist, take the log of the
writes of the calls that returned (an addition writes its value, a removal
`none`, the macros the value they leave). In an epoch `e` not before any
call, the native read returns the last write made before `e`, and the read
for the next epoch the last write of all. An addition aborts exactly with
`EAlreadySetForEpoch`, and exactly when the last write was a value written in
`e`; a removal, `entry!` and `update!` never abort; and every stored setting
holds data with a value in one of its slots. -/
theorem runCalls_next_epoch (calls : List (ℕ × Call V))
    (hcalls : calls.Pairwise fun a b => a.1 ≤ b.1) {e : ℕ} (he : ∀ c ∈ calls, c.1 ≤ e) :
    readSetting (runCalls none calls) e = visibleAt (specRun [] calls) e ∧
    readSettingForNextEpoch (runCalls none calls) = .ok (latest (specRun [] calls)) ∧
    (∀ value err, addForNextEpoch (runCalls none calls) e value = .error err ↔
      err = .alreadySetForEpoch ∧ (writtenIn (specRun [] calls) e).isSome) ∧
    (∃ r, removeForNextEpoch (runCalls none calls) e = .ok r) ∧
    (∀ initial f, ∃ field, entry (runCalls none calls) e initial f = .ok field) ∧
    (∀ initial f, ∃ field, update (runCalls none calls) e initial f = .ok field) ∧
    ∀ sobj, runCalls none calls = some sobj →
      ∃ data, sobj.data = some data ∧
        (data.newerValue.isSome ∨ data.olderValueOpt.isSome) := by
  obtain ⟨hrun, hs, hlast⟩ := runCalls_encode
    (show Sorted ([] : List (ℕ × Option V)) from List.Pairwise.nil) hcalls
    fun c _ => Nat.zero_le c.1
  have hle : lastEpoch (specRun [] calls) ≤ e := hlast e (Nat.zero_le e) he
  -- the setting that did not exist is the encoding of the empty log
  rw [show runCalls none calls = encode (specRun [] calls) from hrun]
  refine ⟨readSetting_encode hs hle, readSettingForNextEpoch_encode, fun value err => ?_,
    ⟨_, removeForNextEpoch_encode hs hle⟩,
    fun initial f => ⟨_, entry_encode hs hle initial f⟩,
    fun initial f => ⟨_, update_encode hs hle initial f⟩,
    fun sobj hsobj => ⟨_, (encode_eq_some hsobj).1, (encode_eq_some hsobj).2⟩⟩
  rw [addForNextEpoch_encode hs hle]
  unfold specAdd
  split_ifs with hw
  · simp [hw, throw, throwThe, MonadExceptOf.throw, Functor.map, Except.map, eq_comm]
  · simp [hw, pure, Except.pure, Functor.map, Except.map]

theorem runCalls_next_epoch_three :
    let calls : List (ℕ × Call ℕ) :=
      [(1, .add 5), (1, .remove), (2, .add 7), (3, .entry 0 (· + 1))]
    (calls.Pairwise fun a b => a.1 ≤ b.1) ∧ (∀ c ∈ calls, c.1 ≤ 3) ∧
      readSetting (runCalls none calls) 3 = visibleAt (specRun [] calls) 3 := by
  intro calls
  have hcalls : calls.Pairwise fun a b => a.1 ≤ b.1 := by decide
  have he : ∀ c ∈ calls, c.1 ≤ 3 := by decide
  exact ⟨hcalls, he, (runCalls_next_epoch calls hcalls he).1⟩

/-- A value added in epoch 1 is read from epoch 2 on, not in epoch 1. -/
example : readSetting (runCalls none [(1, Call.add 5)]) 1 = none ∧
    readSetting (runCalls none [(1, Call.add 5)]) 2 = some 5 := by
  decide

end Runs

end Config

end Sui
