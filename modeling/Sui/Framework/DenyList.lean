import Sui.Framework.Table
import Sui.Framework.VecSet
import Sui.Framework.Config
import Sui.OptionList
import Mathlib.Data.Finset.Card

/-!
# The deny list, version 1 (`deny_list.move`)

The `DenyList` object keeps the version 1 lists and, for version 2, a config
object per type (its `configs`, whose functions are in `DenyListV2`). It keeps, in a bag indexed by `per_type_index`, one
`PerTypeList` for each kind of core type (only the coin's, `COIN_INDEX`, is
created). A per-type list holds two tables: `denied_addresses`, the set of
denied addresses of each type, and `denied_count`, for each address the
number of types that deny it, which `v1_per_type_list_contains` reads first
so that most addresses are let through after one lookup. The count is what
the set table implies; the code keeps it so by hand, adding one when an
address joins a set and taking one off (deleting the entry at zero) when it
leaves one, both here and in the V1 half of `migrate_v1_to_v2`.

What a per-type list stands for is `DenySpec`: the types that have a set and
the denied (type, address) pairs. `Represents` ties the two tables to it: the
sets are the pairs, each count is the number of types denying the address,
and no count of zero is left in the table. Each V1 operation keeps the
relation and does to the pairs what the spec says, with the abort the spec
predicts (`v1PerTypeListAdd_refines`, `v1PerTypeListRemove_refines`), the
fast path of `contains` answers the spec's question
(`v1PerTypeListContains_eq`), and the V1 half of the migration removes a
type's pairs with their counts (`migrateV1_refines`). Over the bag, a run of
`v1_add` and `v1_remove` from `create` is simulated by the spec's run
(`v1_runs_refine`).

The bag holds nothing but per-type lists, so it is modelled as a table of
them; the `UID`s of the objects are left out. `ENotDenied` and
`EInvalidAddress` are both the value 1 in the source: a caller cannot tell
them apart by their code, which the model keeps apart by name.
-/

namespace Sui

open MoveArith OptionList

namespace DenyList

/-- The aborts of deny_list, and those of the modules it calls. -/
inductive Code where
  /-- ENotSystemAddress -/
  | eNotSystemAddress
  /-- ENotDenied -/
  | eNotDenied
  /-- EInvalidAddress -/
  | eInvalidAddress
  /-- an abort of dynamic_field, through table or bag -/
  | dynamicField (code : Table.Code)
  /-- an abort of vec_set -/
  | vecSet (code : VecSet.Code)
  /-- an abort of config -/
  | config (code : Config.ConfigAbort)
  deriving DecidableEq, Repr

/-- RESERVED: well-known package and object addresses. -/
def reserved : List ℕ :=
  [0x0, 0x1, 0x2, 0x3, 0x4, 0x5, 0x6, 0x7, 0x8, 0x9, 0xA, 0xB, 0xC, 0xD, 0xE, 0xF, 0x403, 0xDEE9]

/-- COIN_INDEX -/
def coinIndex : ℕ := 0

/-- PerTypeList -/
structure PerTypeList where
  /-- the number of types that deny each address -/
  deniedCount : Table ℕ ℕ
  /-- the set of denied addresses of each type -/
  deniedAddresses : Table (List UInt8) (VecSet ℕ)

/-- ConfigKey: the dynamic object field under which a type's `Config` is kept. -/
structure ConfigKey where
  perTypeIndex : ℕ
  perTypeKey : List UInt8
  deriving DecidableEq, Repr

/-- The names of the settings of a per-type config: `AddressKey(addr)` and
`GlobalPauseKey()`. -/
inductive SettingKey where
  | addressKey (addr : ℕ)
  | globalPauseKey
  deriving DecidableEq, Repr

end DenyList

/-- DenyList: the V1 per-type lists, in a bag indexed by `per_type_index`, and
the V2 per-type `Config`s, each a table of bool settings. -/
structure DenyList where
  lists : Table ℕ DenyList.PerTypeList
  configs : Table DenyList.ConfigKey (Table DenyList.SettingKey (Config.Setting Bool))

namespace DenyList

/-- An abort of dynamic_field, as the deny list raises it. -/
def liftField {α : Type} (x : Except (Abort Table.Code) α) : Except (Abort Code) α :=
  x.mapError (Abort.map .dynamicField)

/-- An abort of vec_set, as the deny list raises it. -/
def liftSet {α : Type} (x : Except (Abort VecSet.Code) α) : Except (Abort Code) α :=
  x.mapError (Abort.map .vecSet)

/-- per_type_list -/
def perTypeList : PerTypeList :=
  ⟨Table.new, Table.new⟩

/-- create: only the system address may create the list, with the coin's
per-type list in it. -/
def create (sender : ℕ) : Except (Abort Code) DenyList := do
  assert (sender = 0) .eNotSystemAddress
  let lists ← liftField (Table.new.add coinIndex perTypeList)
  pure ⟨lists, Table.new⟩

/-- v1_per_type_list_add -/
def v1PerTypeListAdd (list : PerTypeList) (type : List UInt8) (addr : ℕ) :
    Except (Abort Code) PerTypeList := do
  let deniedAddresses ← (if !list.deniedAddresses.contains type then
      liftField (list.deniedAddresses.add type VecSet.empty)
    else pure list.deniedAddresses)
  let deniedSet ← liftField (deniedAddresses.borrow type)
  if deniedSet.contains addr then
    -- already denied: the function returns with the set table as it stands
    pure { list with deniedAddresses }
  else
    let deniedSet ← liftSet (deniedSet.insert addr)
    let deniedAddresses := deniedAddresses.write type deniedSet
    let deniedCount ← (if !list.deniedCount.contains addr then
        liftField (list.deniedCount.add addr 0)
      else pure list.deniedCount)
    let count ← liftField (deniedCount.borrow addr)
    let count ← add 64 count 1
    pure ⟨deniedCount.write addr count, deniedAddresses⟩

/-- The decrement of an address's count that v1_per_type_list_remove and
migrate_v1_to_v2 both write out: the entry is removed when it reaches zero. -/
def decrementDeniedCount (deniedCount : Table ℕ ℕ) (addr : ℕ) :
    Except (Abort Code) (Table ℕ ℕ) := do
  let count ← liftField (deniedCount.borrow addr)
  let count ← sub count 1
  let deniedCount := deniedCount.write addr count
  if count = 0 then
    let removed ← liftField (deniedCount.remove addr)
    pure removed.2
  else pure deniedCount

/-- v1_per_type_list_remove -/
def v1PerTypeListRemove (list : PerTypeList) (type : List UInt8) (addr : ℕ) :
    Except (Abort Code) PerTypeList := do
  let deniedSet ← liftField (list.deniedAddresses.borrow type)
  assert (deniedSet.contains addr) .eNotDenied
  let deniedSet ← liftSet (deniedSet.remove addr)
  let deniedCount ← decrementDeniedCount list.deniedCount addr
  pure ⟨deniedCount, list.deniedAddresses.write type deniedSet⟩

/-- v1_per_type_list_contains: the count is read first, the set only for an
address some type denies. -/
def v1PerTypeListContains (list : PerTypeList) (type : List UInt8) (addr : ℕ) : Bool :=
  match list.deniedCount.contents addr with
  | none => false
  | some count =>
    if count = 0 then false
    else
      match list.deniedAddresses.contents type with
      | none => false
      | some deniedSet => deniedSet.contains addr

/-- v1_add -/
def v1Add (denyList : DenyList) (perTypeIndex : ℕ) (type : List UInt8) (addr : ℕ) :
    Except (Abort Code) DenyList := do
  assert (!reserved.contains addr) .eInvalidAddress
  let bagEntry ← liftField (denyList.lists.borrow perTypeIndex)
  let bagEntry ← v1PerTypeListAdd bagEntry type addr
  pure { denyList with lists := denyList.lists.write perTypeIndex bagEntry }

/-- v1_remove -/
def v1Remove (denyList : DenyList) (perTypeIndex : ℕ) (type : List UInt8) (addr : ℕ) :
    Except (Abort Code) DenyList := do
  assert (!reserved.contains addr) .eInvalidAddress
  let bagEntry ← liftField (denyList.lists.borrow perTypeIndex)
  let bagEntry ← v1PerTypeListRemove bagEntry type addr
  pure { denyList with lists := denyList.lists.write perTypeIndex bagEntry }

/-- v1_contains: a reserved address is never denied. -/
def v1Contains (denyList : DenyList) (perTypeIndex : ℕ) (type : List UInt8) (addr : ℕ) :
    Except (Abort Code) Bool :=
  if reserved.contains addr then pure false
  else do
    let bagEntry ← liftField (denyList.lists.borrow perTypeIndex)
    pure (v1PerTypeListContains bagEntry type addr)

/-- The V1 half of migrate_v1_to_v2: the type's set is taken out of the
per-type list, and each of its addresses loses one from its count. The
addresses are returned in the set's order, for the V2 half to write. -/
def migrateV1 (denyList : DenyList) (perTypeIndex : ℕ) (perTypeKey : List UInt8) :
    Except (Abort Code) (List ℕ × DenyList) := do
  let bagEntry ← liftField (denyList.lists.borrow perTypeIndex)
  let taken ← (if !bagEntry.deniedAddresses.contains perTypeKey then
      pure ([], bagEntry.deniedAddresses)
    else do
      let removed ← liftField (bagEntry.deniedAddresses.remove perTypeKey)
      pure (removed.1.intoKeys, removed.2))
  let deniedCount ← taken.1.foldlM decrementDeniedCount bagEntry.deniedCount
  pure (taken.1, { denyList with
    lists := denyList.lists.write perTypeIndex ⟨deniedCount, taken.2⟩ })

/-! ## What a per-type list stands for -/

/-- The denied (type, address) pairs, and the types that have a set. -/
structure DenySpec where
  types : Finset (List UInt8)
  denied : Finset (List UInt8 × ℕ)

namespace DenySpec

/-- The empty list. -/
def empty : DenySpec :=
  ⟨∅, ∅⟩

/-- Denying an address for a type; the type gets a set. -/
def add (s : DenySpec) (type : List UInt8) (addr : ℕ) : DenySpec :=
  ⟨insert type s.types, insert (type, addr) s.denied⟩

/-- Lifting a denial; the type keeps its set. -/
def erase (s : DenySpec) (type : List UInt8) (addr : ℕ) : DenySpec :=
  ⟨s.types, s.denied.erase (type, addr)⟩

/-- Lifting a denial, which must be in place, for a type that has a set. -/
def remove (s : DenySpec) (type : List UInt8) (addr : ℕ) : Except (Abort Code) DenySpec :=
  if type ∉ s.types then .error (.abort (.dynamicField .eFieldDoesNotExist))
  else if (type, addr) ∉ s.denied then .error (.abort .eNotDenied)
  else .ok (s.erase type addr)

/-- Whether the address is denied for the type. -/
def contains (s : DenySpec) (type : List UInt8) (addr : ℕ) : Bool :=
  decide ((type, addr) ∈ s.denied)

/-- The types that deny an address. -/
def typesDenying (s : DenySpec) (addr : ℕ) : Finset (List UInt8 × ℕ) :=
  s.denied.filter (·.2 = addr)

/-- The addresses denied for a type. -/
def deniedFor (s : DenySpec) (type : List UInt8) : Finset ℕ :=
  (s.denied.filter (·.1 = type)).image Prod.snd

/-- Dropping a type with all its denials. -/
def drop (s : DenySpec) (type : List UInt8) : DenySpec :=
  ⟨s.types.erase type, s.denied.filter (·.1 ≠ type)⟩

end DenySpec

/-- The set of a type, empty when the type has none. -/
def deniedSet (list : PerTypeList) (type : List UInt8) : VecSet ℕ :=
  (list.deniedAddresses.contents type).getD VecSet.empty

/-- The count of an address, zero when it has no entry. -/
def countOf (deniedCount : Table ℕ ℕ) (addr : ℕ) : ℕ :=
  (deniedCount.contents addr).getD 0

/-- No count of zero is kept. -/
def CountsPos (deniedCount : Table ℕ ℕ) : Prop :=
  ∀ addr count, deniedCount.contents addr = some count → 0 < count

/-- The two tables of a per-type list stand for `s`: the sets are the denied
pairs, and each count is the number of types denying the address. -/
structure Represents (list : PerTypeList) (s : DenySpec) : Prop where
  types_iff : ∀ type, list.deniedAddresses.contains type = true ↔ type ∈ s.types
  denied_iff : ∀ type addr, addr ∈ (deniedSet list type).elems ↔ (type, addr) ∈ s.denied
  count_eq : ∀ addr, countOf list.deniedCount addr = (s.typesDenying addr).card
  count_pos : CountsPos list.deniedCount

/-! ## One lemma per operation -/

section Steps

variable {list : PerTypeList} {type : List UInt8} {addr : ℕ}

@[simp] theorem liftField_ok {α : Type} (a : α) : liftField (.ok a) = .ok a :=
  rfl

@[simp] theorem liftSet_ok {α : Type} (a : α) : liftSet (.ok a) = .ok a :=
  rfl

@[simp] theorem deniedSet_mk (deniedCount : Table ℕ ℕ)
    (deniedAddresses : Table (List UInt8) (VecSet ℕ)) :
    deniedSet ⟨deniedCount, deniedAddresses⟩ type =
      (deniedAddresses.contents type).getD VecSet.empty :=
  rfl

@[simp] theorem countOf_write (deniedCount : Table ℕ ℕ) (count a : ℕ) :
    countOf (deniedCount.write addr count) a = if a = addr then count else countOf deniedCount a := by
  unfold countOf
  rw [Table.contents_write]
  split <;> rfl

/-- The `if (!table.contains(k)) table.add(k, v)` idiom leaves the key
holding what it held, or `v`. -/
theorem addIfAbsent_eq {K V : Type} [DecidableEq K] (table : Table K V) (k : K) (v : V) :
    (if !table.contains k then liftField (table.add k v) else pure table) =
      .ok (table.write k ((table.contents k).getD v)) := by
  cases h : table.contents k with
  | none =>
    have hc : table.contains k = false := Table.contains_eq_false_iff.mpr h
    rw [hc, Bool.not_false, if_pos rfl, Table.add_eq_ok hc]
    rfl
  | some v' =>
    have hc : table.contains k = true := Table.contains_iff.mpr ⟨v', h⟩
    rw [hc, Bool.not_true, if_neg Bool.false_ne_true, Option.getD_some, Table.write_eq_self h]
    rfl

theorem addIfAbsent_deniedAddresses :
    (if !list.deniedAddresses.contains type then
        liftField (list.deniedAddresses.add type VecSet.empty)
      else pure list.deniedAddresses) =
      .ok (list.deniedAddresses.write type (deniedSet list type)) :=
  addIfAbsent_eq _ _ _

theorem addIfAbsent_deniedCount (deniedCount : Table ℕ ℕ) :
    (if !deniedCount.contains addr then liftField (deniedCount.add addr 0) else pure deniedCount) =
      .ok (deniedCount.write addr (countOf deniedCount addr)) :=
  addIfAbsent_eq _ _ _

theorem mem_of_mem_deniedSet (h : addr ∈ (deniedSet list type).elems) :
    ∃ set, list.deniedAddresses.contents type = some set ∧ deniedSet list type = set := by
  unfold deniedSet at h ⊢
  cases hset : list.deniedAddresses.contents type with
  | none => rw [hset] at h; simp at h
  | some set => exact ⟨set, rfl, rfl⟩

/-- Adding an address a type already denies changes nothing. -/
theorem v1PerTypeListAdd_of_mem (h : addr ∈ (deniedSet list type).elems) :
    v1PerTypeListAdd list type addr = .ok list := by
  obtain ⟨set, hset, hdenied⟩ := mem_of_mem_deniedSet h
  have hc : (deniedSet list type).contains addr = true := VecSet.contains_iff.mpr h
  unfold v1PerTypeListAdd
  rw [addIfAbsent_deniedAddresses, ok_bind, Table.borrow_write, liftField_ok, ok_bind, if_pos hc,
    hdenied, Table.write_eq_self hset]
  rfl

/-- Adding an address a type does not deny yet pushes it onto the type's set
and adds one to its count. -/
theorem v1PerTypeListAdd_of_not_mem (h : addr ∉ (deniedSet list type).elems)
    (hcount : countOf list.deniedCount addr + 1 < 2 ^ 64) :
    ∃ set', (deniedSet list type).insert addr = .ok set' ∧
      v1PerTypeListAdd list type addr =
        .ok ⟨list.deniedCount.write addr (countOf list.deniedCount addr + 1),
          list.deniedAddresses.write type set'⟩ := by
  obtain ⟨set', hset'⟩ := VecSet.insert_isOk h
  have hc : (deniedSet list type).contains addr = false :=
    Bool.eq_false_iff.mpr (fun hmem => h (VecSet.contains_iff.mp hmem))
  refine ⟨set', hset', ?_⟩
  unfold v1PerTypeListAdd
  rw [addIfAbsent_deniedAddresses, ok_bind, Table.borrow_write, liftField_ok, ok_bind, hc,
    if_neg Bool.false_ne_true, hset', liftSet_ok, ok_bind, addIfAbsent_deniedCount, ok_bind,
    Table.borrow_write, liftField_ok, ok_bind, add_eq_ok hcount, ok_bind, Table.write_write,
    Table.write_write]
  rfl

/-- An address some type denies loses one from its count, and its entry goes
when the count reaches zero. -/
theorem decrementDeniedCount_eq_ok {deniedCount : Table ℕ ℕ} (h : 0 < countOf deniedCount addr)
    (hpos : CountsPos deniedCount) :
    ∃ deniedCount', decrementDeniedCount deniedCount addr = .ok deniedCount' ∧
      (∀ a, countOf deniedCount' a =
        if a = addr then countOf deniedCount addr - 1 else countOf deniedCount a) ∧
      CountsPos deniedCount' := by
  obtain ⟨count, hcount⟩ : ∃ count, deniedCount.contents addr = some count := by
    cases hc : deniedCount.contents addr with
    | none => simp [countOf, hc] at h
    | some count => exact ⟨count, rfl⟩
  have hone : 0 < count := by simpa [countOf, hcount] using h
  unfold decrementDeniedCount
  rw [Table.borrow_eq_ok hcount, liftField_ok, ok_bind, sub_eq_ok hone, ok_bind]
  by_cases hzero : count - 1 = 0
  · -- the entry is removed
    obtain ⟨removed, hremoved⟩ : ∃ removed,
        (deniedCount.write addr (count - 1)).remove addr = .ok removed :=
      ⟨_, Table.remove_eq_ok
        (by simp : (deniedCount.write addr (count - 1)).contents addr = some (count - 1))⟩
    have hcontents := (Table.eq_of_remove_eq_ok hremoved).2
    rw [if_pos hzero, hremoved, liftField_ok, ok_bind]
    refine ⟨removed.2, rfl, fun a => ?_, fun a c hc => ?_⟩
    · by_cases ha : a = addr
      · simp [countOf, hcontents, ha, hcount, hzero]
      · simp [countOf, hcontents, ha]
    · rw [hcontents a] at hc
      by_cases ha : a = addr
      · simp [ha] at hc
      · rw [if_neg ha, Table.contents_write, if_neg ha] at hc
        exact hpos a c hc
  · -- the entry keeps the count less one
    rw [if_neg hzero]
    refine ⟨_, rfl, fun a => ?_, fun a c hc => ?_⟩
    · by_cases ha : a = addr <;> simp [countOf, ha, hcount]
    · rw [Table.contents_write] at hc
      split at hc
      · cases hc
        omega
      · exact hpos a c hc

theorem v1PerTypeListRemove_of_none (h : list.deniedAddresses.contents type = none) :
    v1PerTypeListRemove list type addr = .error (.abort (.dynamicField .eFieldDoesNotExist)) := by
  unfold v1PerTypeListRemove
  rw [Table.borrow_eq_error h]
  rfl

theorem v1PerTypeListRemove_of_not_mem {set : VecSet ℕ}
    (h : list.deniedAddresses.contents type = some set) (ha : addr ∉ set.elems) :
    v1PerTypeListRemove list type addr = .error (.abort .eNotDenied) := by
  unfold v1PerTypeListRemove
  rw [Table.borrow_eq_ok h, liftField_ok, ok_bind, assert, if_neg (by simpa using ha)]
  rfl

/-- Removing an address a type denies takes it out of the type's set and
decrements its count. -/
theorem v1PerTypeListRemove_of_mem {set : VecSet ℕ} {deniedCount' : Table ℕ ℕ}
    (h : list.deniedAddresses.contents type = some set) (ha : addr ∈ set.elems)
    (hdec : decrementDeniedCount list.deniedCount addr = .ok deniedCount') :
    ∃ set', set.remove addr = .ok set' ∧
      v1PerTypeListRemove list type addr = .ok ⟨deniedCount', list.deniedAddresses.write type set'⟩ := by
  obtain ⟨set', hset', -⟩ := VecSet.remove_eq_ok ha
  refine ⟨set', hset', ?_⟩
  unfold v1PerTypeListRemove
  rw [Table.borrow_eq_ok h, liftField_ok, ok_bind, assert_eq_ok (VecSet.contains_iff.mpr ha),
    ok_bind, hset', liftSet_ok, ok_bind, hdec, ok_bind]
  rfl

end Steps

/-! ## Each operation refines the spec -/

namespace DenySpec

variable {s : DenySpec} {type : List UInt8} {addr : ℕ}

theorem add_eq_self (ht : type ∈ s.types) (hd : (type, addr) ∈ s.denied) : s.add type addr = s := by
  unfold add
  rw [Finset.insert_eq_of_mem ht, Finset.insert_eq_of_mem hd]

/-- A new denial adds one to the count of its address only. -/
theorem card_typesDenying_add (h : (type, addr) ∉ s.denied) (a : ℕ) :
    ((s.add type addr).typesDenying a).card =
      (s.typesDenying a).card + if a = addr then 1 else 0 := by
  unfold typesDenying add
  rw [Finset.filter_insert]
  by_cases ha : a = addr
  · subst ha
    rw [if_pos rfl, if_pos rfl,
      Finset.card_insert_of_notMem fun hm => h (Finset.mem_filter.mp hm).1]
  · rw [if_neg (Ne.symm ha), if_neg ha, add_zero]

/-- A lifted denial takes one from the count of its address only. -/
theorem card_typesDenying_erase (h : (type, addr) ∈ s.denied) (a : ℕ) :
    ((s.erase type addr).typesDenying a).card =
      (s.typesDenying a).card - if a = addr then 1 else 0 := by
  unfold typesDenying erase
  rw [Finset.filter_erase]
  by_cases ha : a = addr
  · subst ha
    have hmem : (type, a) ∈ s.denied.filter (·.2 = a) := Finset.mem_filter.mpr ⟨h, rfl⟩
    rw [if_pos rfl, Finset.card_erase_of_mem hmem]
  · rw [if_neg ha, Nat.sub_zero,
      Finset.erase_eq_of_notMem fun hm => ha (Finset.mem_filter.mp hm).2.symm]

end DenySpec

namespace Represents

variable {list : PerTypeList} {s : DenySpec} {type : List UInt8} {addr : ℕ}

theorem mem_types_of_denied (h : Represents list s) (hd : (type, addr) ∈ s.denied) :
    type ∈ s.types := by
  obtain ⟨set, hset, -⟩ := mem_of_mem_deniedSet ((h.denied_iff type addr).mpr hd)
  exact (h.types_iff type).mp (Table.contains_iff.mpr ⟨set, hset⟩)

/-- An address whose count is zero is denied for no type. -/
theorem not_denied_of_countOf_eq_zero (h : Represents list s)
    (hc : countOf list.deniedCount addr = 0) : (type, addr) ∉ s.denied := by
  intro hd
  have hmem : (type, addr) ∈ s.typesDenying addr := Finset.mem_filter.mpr ⟨hd, rfl⟩
  rw [h.count_eq, Finset.card_eq_zero] at hc
  rw [hc] at hmem
  exact Finset.notMem_empty _ hmem

/-- The set of a type that has one holds the addresses the spec denies for it. -/
theorem mem_iff_of_contents (h : Represents list s) {set : VecSet ℕ}
    (hset : list.deniedAddresses.contents type = some set) (a : ℕ) :
    a ∈ set.elems ↔ (type, a) ∈ s.denied := by
  rw [← h.denied_iff, deniedSet, hset, Option.getD_some]

end Represents

section Refinement

variable {list : PerTypeList} {s : DenySpec} {type : List UInt8} {addr : ℕ}

/-- The fast path through the count answers the spec's question. -/
theorem v1PerTypeListContains_eq (h : Represents list s) :
    v1PerTypeListContains list type addr = s.contains type addr := by
  -- every early `false` of the code is a pair the spec does not deny
  have hfalse : (type, addr) ∉ s.denied → false = s.contains type addr := fun hd => by
    rw [DenySpec.contains, decide_eq_false hd]
  unfold v1PerTypeListContains
  cases hc : list.deniedCount.contents addr with
  | none => exact hfalse (h.not_denied_of_countOf_eq_zero (by simp [countOf, hc]))
  | some count =>
    dsimp only
    by_cases hzero : count = 0
    · rw [if_pos hzero]
      exact hfalse (h.not_denied_of_countOf_eq_zero (by simp [countOf, hc, hzero]))
    · rw [if_neg hzero]
      cases hset : list.deniedAddresses.contents type with
      | none =>
        refine hfalse fun hd => ?_
        have hmem := (h.denied_iff type addr).mpr hd
        simp [deniedSet, hset] at hmem
      | some set =>
        dsimp only
        rw [DenySpec.contains, Bool.eq_iff_iff, decide_eq_true_iff, VecSet.contains_iff]
        exact h.mem_iff_of_contents hset addr

/-- `v1_per_type_list_add` denies the address for the type, as the spec does,
unless the count would overflow. -/
theorem v1PerTypeListAdd_refines (h : Represents list s)
    (hcount : (s.typesDenying addr).card + 1 < 2 ^ 64) :
    ∃ list', v1PerTypeListAdd list type addr = .ok list' ∧ Represents list' (s.add type addr) := by
  by_cases ha : addr ∈ (deniedSet list type).elems
  · have hd := (h.denied_iff type addr).mp ha
    rw [DenySpec.add_eq_self (h.mem_types_of_denied hd) hd]
    exact ⟨list, v1PerTypeListAdd_of_mem ha, h⟩
  · have hd : (type, addr) ∉ s.denied := fun hd => ha ((h.denied_iff type addr).mpr hd)
    obtain ⟨set', hset', hadd⟩ :=
      v1PerTypeListAdd_of_not_mem ha (by rw [h.count_eq]; exact hcount)
    have helems := VecSet.elems_of_insert_eq_ok hset'
    refine ⟨_, hadd, ⟨fun t => ?_, fun t a => ?_, fun a => ?_, fun a c hc => ?_⟩⟩
    · -- the type now has a set
      rw [Table.contains_write, DenySpec.add, Finset.mem_insert, ← h.types_iff t]
      by_cases ht : t = type <;> simp [ht]
    · -- its set gained the address
      rw [deniedSet_mk, Table.contents_write, DenySpec.add, Finset.mem_insert]
      by_cases ht : t = type
      · subst ht
        rw [if_pos rfl, Option.getD_some, helems, Finset.mem_insert, h.denied_iff]
        simp
      · rw [if_neg ht, ← deniedSet, h.denied_iff]
        simp [ht]
    · -- the address's count went up by one
      rw [countOf_write, DenySpec.card_typesDenying_add hd, ← h.count_eq]
      by_cases hA : a = addr <;> simp [hA]
    · rw [Table.contents_write] at hc
      split at hc
      · cases hc
        omega
      · exact h.count_pos a c hc

/-- `v1_per_type_list_remove` aborts where the spec does, with its code, and
otherwise lifts the denial as the spec does. -/
theorem v1PerTypeListRemove_refines (h : Represents list s) :
    Agree Represents (v1PerTypeListRemove list type addr) (s.remove type addr) := by
  unfold DenySpec.remove
  cases hset : list.deniedAddresses.contents type with
  | none =>
    have ht : type ∉ s.types := fun ht => by
      have hc := (h.types_iff type).mpr ht
      rw [Table.contains_eq_false_iff.mpr hset] at hc
      cases hc
    rw [v1PerTypeListRemove_of_none hset, if_pos ht]
    rfl
  | some set =>
    have ht : type ∈ s.types := (h.types_iff type).mp (Table.contains_iff.mpr ⟨set, hset⟩)
    rw [if_neg (not_not.mpr ht)]
    by_cases ha : addr ∈ set.elems
    · have hd := (h.mem_iff_of_contents hset addr).mp ha
      rw [if_neg (not_not.mpr hd)]
      have hpos : 0 < countOf list.deniedCount addr := by
        rw [h.count_eq]
        exact Finset.card_pos.mpr ⟨_, Finset.mem_filter.mpr ⟨hd, rfl⟩⟩
      obtain ⟨deniedCount', hdec, hcounts, hpos'⟩ := decrementDeniedCount_eq_ok hpos h.count_pos
      obtain ⟨set', hset', hremove⟩ := v1PerTypeListRemove_of_mem hset ha hdec
      have helems := VecSet.elems_of_remove_eq_ok hset'
      rw [hremove]
      refine ⟨fun t => ?_, fun t a => ?_, fun a => ?_, hpos'⟩
      · -- the type keeps its set
        rw [Table.contains_write, DenySpec.erase, ← h.types_iff t]
        by_cases ht' : t = type
        · subst ht'
          simp [Table.contains_iff.mpr ⟨set, hset⟩]
        · simp [ht']
      · -- its set lost the address
        rw [deniedSet_mk, Table.contents_write, DenySpec.erase, Finset.mem_erase]
        by_cases ht' : t = type
        · subst ht'
          rw [if_pos rfl, Option.getD_some, helems, Finset.mem_erase, h.mem_iff_of_contents hset]
          simp
        · rw [if_neg ht', ← deniedSet, h.denied_iff]
          simp [ht']
      · -- the address's count went down by one
        rw [hcounts a, DenySpec.card_typesDenying_erase hd, ← h.count_eq]
        by_cases hA : a = addr <;> simp [hA]
    · rw [v1PerTypeListRemove_of_not_mem hset ha,
        if_pos fun hd => ha ((h.mem_iff_of_contents hset addr).mpr hd)]
      rfl

end Refinement

/-! ## The V1 half of the migration -/

section Migration

variable {list : PerTypeList} {s : DenySpec} {type : List UInt8}

/-- Dropping a type takes one from the count of each address it denied. -/
theorem DenySpec.card_typesDenying_drop (a : ℕ) :
    ((s.drop type).typesDenying a).card =
      (s.typesDenying a).card - if (type, a) ∈ s.denied then 1 else 0 := by
  have herase : (s.drop type).typesDenying a = (s.typesDenying a).erase (type, a) := by
    ext ⟨t, a'⟩
    simp only [DenySpec.typesDenying, DenySpec.drop, Finset.mem_filter, Finset.mem_erase, ne_eq,
      Prod.mk.injEq]
    constructor
    · rintro ⟨⟨hd, ht⟩, rfl⟩
      exact ⟨fun h => ht h.1, hd, rfl⟩
    · rintro ⟨hne, hd, rfl⟩
      exact ⟨⟨hd, fun ht => hne ⟨ht, rfl⟩⟩, rfl⟩
  rw [herase, Finset.card_erase_eq_ite]
  by_cases hd : (type, a) ∈ s.denied
  · have hm : (type, a) ∈ s.typesDenying a := Finset.mem_filter.mpr ⟨hd, rfl⟩
    rw [if_pos hm, if_pos hd]
  · have hm : (type, a) ∉ s.typesDenying a := fun hm => hd (Finset.mem_filter.mp hm).1
    rw [if_neg hm, if_neg hd, Nat.sub_zero]

/-- Decrementing the count of each of a list of distinct addresses, each with
a positive count, takes one from each of their counts. -/
theorem foldlM_decrementDeniedCount :
    ∀ {elements : List ℕ} {deniedCount : Table ℕ ℕ},
      elements.Nodup → CountsPos deniedCount → (∀ a ∈ elements, 0 < countOf deniedCount a) →
      ∃ deniedCount', elements.foldlM decrementDeniedCount deniedCount = .ok deniedCount' ∧
        CountsPos deniedCount' ∧
        ∀ a, countOf deniedCount' a = countOf deniedCount a - if a ∈ elements then 1 else 0
  | [], deniedCount, _, hpos, _ => ⟨deniedCount, rfl, hpos, fun a => by simp⟩
  | e :: elements, deniedCount, hnd, hpos, hall => by
    obtain ⟨hfresh, hnd'⟩ := List.nodup_cons.mp hnd
    obtain ⟨deniedCount₁, hdec, hcounts, hpos₁⟩ :=
      decrementDeniedCount_eq_ok (hall e List.mem_cons_self) hpos
    -- the rest of the addresses still have their counts, all positive
    have hrest : ∀ a ∈ elements, 0 < countOf deniedCount₁ a := fun a ha => by
      have hne : a ≠ e := fun hae => hfresh (hae ▸ ha)
      rw [hcounts a, if_neg hne]
      exact hall a (List.mem_cons_of_mem _ ha)
    obtain ⟨deniedCount', hfold, hpos', hcounts'⟩ := foldlM_decrementDeniedCount hnd' hpos₁ hrest
    refine ⟨deniedCount', by rw [List.foldlM_cons, hdec, ok_bind, hfold], hpos', fun a => ?_⟩
    rw [hcounts', hcounts a]
    by_cases hae : a = e
    · subst hae
      simp [hfresh]
    · simp [hae]

/-- The set a migration takes out of the table: the type's set, or nothing. -/
theorem takeDeniedSet_eq :
    (if !list.deniedAddresses.contains type then
        pure ([], list.deniedAddresses)
      else do
        let removed ← liftField (list.deniedAddresses.remove type)
        pure (removed.1.intoKeys, removed.2) : Except (Abort Code) _) =
      .ok ((deniedSet list type).contents,
        ⟨Function.update list.deniedAddresses.contents type none⟩) := by
  cases hset : list.deniedAddresses.contents type with
  | none =>
    have hc : list.deniedAddresses.contains type = false := Table.contains_eq_false_iff.mpr hset
    rw [hc, Bool.not_false, if_pos rfl, deniedSet, hset]
    have hsame : Function.update list.deniedAddresses.contents type none =
        list.deniedAddresses.contents := Function.update_eq_self_iff.mpr hset.symm
    rw [hsame]
    rfl
  | some set =>
    have hc : list.deniedAddresses.contains type = true := Table.contains_iff.mpr ⟨set, hset⟩
    rw [hc, Bool.not_true, if_neg Bool.false_ne_true, Table.remove_eq_ok hset, liftField_ok,
      ok_bind, deniedSet, hset]
    rfl

variable (type) in
/-- The V1 half of `migrate_v1_to_v2` returns the addresses the type denied,
once each, and leaves the per-type list standing for the spec without the type. -/
theorem migrateV1_refines {denyList : DenyList} {perTypeIndex : ℕ}
    (hlist : denyList.lists.contents perTypeIndex = some list) (h : Represents list s) :
    ∃ elements list', migrateV1 denyList perTypeIndex type =
        .ok (elements, { denyList with lists := denyList.lists.write perTypeIndex list' }) ∧
      elements.Nodup ∧ elements.toFinset = s.deniedFor type ∧ Represents list' (s.drop type) := by
  have hmem : ∀ a, a ∈ (deniedSet list type).contents ↔ (type, a) ∈ s.denied :=
    fun a => h.denied_iff type a
  obtain ⟨deniedCount', hfold, hpos', hcounts'⟩ := foldlM_decrementDeniedCount
    (deniedSet list type).nodup h.count_pos fun a ha => by
      rw [h.count_eq]
      exact Finset.card_pos.mpr ⟨_, Finset.mem_filter.mpr ⟨(hmem a).mp ha, rfl⟩⟩
  refine ⟨_, ⟨deniedCount', ⟨Function.update list.deniedAddresses.contents type none⟩⟩, ?_,
    (deniedSet list type).nodup, ?_, ⟨fun t => ?_, fun t a => ?_, fun a => ?_, hpos'⟩⟩
  · unfold migrateV1
    rw [Table.borrow_eq_ok hlist, liftField_ok, ok_bind, takeDeniedSet_eq, ok_bind, hfold, ok_bind]
    rfl
  · -- the addresses returned are those the type denied
    ext a
    simp only [List.mem_toFinset, hmem, DenySpec.deniedFor, Finset.mem_image, Finset.mem_filter]
    constructor
    · intro hd
      exact ⟨(type, a), ⟨hd, rfl⟩, rfl⟩
    · rintro ⟨⟨t, a'⟩, ⟨hd, rfl⟩, rfl⟩
      exact hd
  · -- the type has no set any more
    simp only [Table.contains, Function.update_apply, DenySpec.drop, Finset.mem_erase]
    rw [← h.types_iff t]
    by_cases ht : t = type
    · simp [ht]
    · simp [ht, Table.contains]
  · -- and denies nothing
    rw [deniedSet_mk]
    dsimp only
    rw [Function.update_apply]
    simp only [DenySpec.drop, Finset.mem_filter]
    by_cases ht : t = type
    · simp [ht]
    · rw [if_neg ht, ← deniedSet, h.denied_iff]
      simp [ht]
  · -- each address it denied has one less in its count
    rw [hcounts', DenySpec.card_typesDenying_drop, ← h.count_eq]
    simp only [hmem]

end Migration

/-! ## Runs of V1 calls on the deny list -/

/-- What the bag stands for at its start: the coin's empty list only. -/
def specCreate : ℕ → Option DenySpec :=
  fun i => if i = coinIndex then some DenySpec.empty else none

/-- v1_add, on the spec of each per-type list. -/
def specV1Add (spec : ℕ → Option DenySpec) (perTypeIndex : ℕ) (type : List UInt8) (addr : ℕ) :
    Except (Abort Code) (ℕ → Option DenySpec) :=
  if reserved.contains addr then .error (.abort .eInvalidAddress)
  else
    match spec perTypeIndex with
    | none => .error (.abort (.dynamicField .eFieldDoesNotExist))
    | some s => .ok (Function.update spec perTypeIndex (some (s.add type addr)))

/-- v1_remove, on the spec of each per-type list. -/
def specV1Remove (spec : ℕ → Option DenySpec) (perTypeIndex : ℕ) (type : List UInt8) (addr : ℕ) :
    Except (Abort Code) (ℕ → Option DenySpec) :=
  if reserved.contains addr then .error (.abort .eInvalidAddress)
  else
    match spec perTypeIndex with
    | none => .error (.abort (.dynamicField .eFieldDoesNotExist))
    | some s => (s.remove type addr).map fun s' => Function.update spec perTypeIndex (some s')

/-- v1_contains, on the spec of each per-type list. -/
def specV1Contains (spec : ℕ → Option DenySpec) (perTypeIndex : ℕ) (type : List UInt8)
    (addr : ℕ) : Except (Abort Code) Bool :=
  if reserved.contains addr then .ok false
  else
    match spec perTypeIndex with
    | none => .error (.abort (.dynamicField .eFieldDoesNotExist))
    | some s => .ok (s.contains type addr)

/-- A call of the V1 interface. -/
inductive Call where
  | add (perTypeIndex : ℕ) (type : List UInt8) (addr : ℕ)
  | remove (perTypeIndex : ℕ) (type : List UInt8) (addr : ℕ)
  deriving DecidableEq, Repr

/-- A call on the deny list. -/
def runCall (denyList : DenyList) : Call → Except (Abort Code) DenyList
  | .add perTypeIndex type addr => v1Add denyList perTypeIndex type addr
  | .remove perTypeIndex type addr => v1Remove denyList perTypeIndex type addr

/-- A call on the spec. -/
def specCall (spec : ℕ → Option DenySpec) : Call → Except (Abort Code) (ℕ → Option DenySpec)
  | .add perTypeIndex type addr => specV1Add spec perTypeIndex type addr
  | .remove perTypeIndex type addr => specV1Remove spec perTypeIndex type addr

/-- The bag stands for `spec`: the same indices hold a list, each standing
for its spec. -/
def ListsRepresent (denyList : DenyList) (spec : ℕ → Option DenySpec) : Prop :=
  ∀ i, Option.Rel Represents (denyList.lists.contents i) (spec i)

/-- Room for `n` more denials of every address in every list before a count
reaches 2^64. -/
def Headroom (n : ℕ) (spec : ℕ → Option DenySpec) : Prop :=
  ∀ i s, spec i = some s → ∀ addr, (s.typesDenying addr).card + n < 2 ^ 64

section Runs

variable {denyList : DenyList} {spec : ℕ → Option DenySpec} {perTypeIndex : ℕ}
  {type : List UInt8} {addr : ℕ}

/-- The relation looks at the bag only. -/
theorem ListsRepresent.of_lists_eq (h : ListsRepresent denyList spec) {denyList' : DenyList}
    (hlists : denyList'.lists = denyList.lists) : ListsRepresent denyList' spec := by
  intro i
  rw [hlists]
  exact h i

theorem ListsRepresent.write (h : ListsRepresent denyList spec) {denyList' : DenyList}
    {list : PerTypeList} {s : DenySpec} (hlists : denyList'.lists = denyList.lists.write perTypeIndex list)
    (hs : Represents list s) : ListsRepresent denyList' (Function.update spec perTypeIndex (some s)) := by
  intro i
  rw [hlists, Table.contents_write, Function.update_apply]
  split
  · exact .some hs
  · exact h i

/-- At each index, both sides have no list, or lists that stand for each other. -/
theorem ListsRepresent.cases (h : ListsRepresent denyList spec) (i : ℕ) :
    (denyList.lists.contents i = none ∧ spec i = none) ∨
      ∃ list s, denyList.lists.contents i = some list ∧ spec i = some s ∧ Represents list s := by
  have hrel := h i
  generalize denyList.lists.contents i = bagEntry at hrel ⊢
  generalize spec i = specEntry at hrel ⊢
  cases hrel with
  | none => exact .inl ⟨rfl, rfl⟩
  | some hs => exact .inr ⟨_, _, rfl, rfl, hs⟩

theorem v1Contains_eq (h : ListsRepresent denyList spec) :
    v1Contains denyList perTypeIndex type addr = specV1Contains spec perTypeIndex type addr := by
  unfold v1Contains specV1Contains
  split
  · rfl
  · rcases h.cases perTypeIndex with ⟨hlist, hspec⟩ | ⟨list, s, hlist, hspec, hs⟩
    · rw [Table.borrow_eq_error hlist, hspec]
      rfl
    · rw [Table.borrow_eq_ok hlist, liftField_ok, ok_bind, v1PerTypeListContains_eq hs, hspec]
      rfl

theorem v1Add_refines (h : ListsRepresent denyList spec) (hroom : Headroom 1 spec) :
    Agree ListsRepresent (v1Add denyList perTypeIndex type addr)
      (specV1Add spec perTypeIndex type addr) := by
  unfold v1Add specV1Add
  by_cases hres : reserved.contains addr
  · rw [if_pos hres, assert, if_neg (by rw [hres]; decide)]
    rfl
  · rw [if_neg hres, assert_eq_ok (by simpa using hres), ok_bind]
    rcases h.cases perTypeIndex with ⟨hlist, hspec⟩ | ⟨list, s, hlist, hspec, hs⟩
    · rw [Table.borrow_eq_error hlist, hspec]
      rfl
    · obtain ⟨list', hadd, hs'⟩ := v1PerTypeListAdd_refines hs (hroom _ s hspec addr)
      rw [Table.borrow_eq_ok hlist, liftField_ok, ok_bind, hadd, ok_bind, hspec]
      exact h.write rfl hs'

theorem v1Remove_refines (h : ListsRepresent denyList spec) :
    Agree ListsRepresent (v1Remove denyList perTypeIndex type addr)
      (specV1Remove spec perTypeIndex type addr) := by
  unfold v1Remove specV1Remove
  by_cases hres : reserved.contains addr
  · rw [if_pos hres, assert, if_neg (by rw [hres]; decide)]
    rfl
  · rw [if_neg hres, assert_eq_ok (by simpa using hres), ok_bind]
    rcases h.cases perTypeIndex with ⟨hlist, hspec⟩ | ⟨list, s, hlist, hspec, hs⟩
    · rw [Table.borrow_eq_error hlist, hspec]
      rfl
    · rw [Table.borrow_eq_ok hlist, liftField_ok, ok_bind, hspec]
      dsimp only
      have hagree : Agree Represents (v1PerTypeListRemove list type addr) (s.remove type addr) :=
        v1PerTypeListRemove_refines hs
      -- the per-type results agree; the bag writes back the list on success
      cases hremove : v1PerTypeListRemove list type addr with
      | error e =>
        cases hspecRemove : s.remove type addr with
        | error e' =>
          rw [hremove, hspecRemove] at hagree
          have hsame : e = e' := hagree
          rw [hsame]
          rfl
        | ok s' => rw [hremove, hspecRemove] at hagree; exact hagree.elim
      | ok list' =>
        cases hspecRemove : s.remove type addr with
        | error e' => rw [hremove, hspecRemove] at hagree; exact hagree.elim
        | ok s' =>
          rw [hremove, hspecRemove] at hagree
          show ListsRepresent { denyList with lists := denyList.lists.write perTypeIndex list' }
            (Function.update spec perTypeIndex (some s'))
          exact h.write rfl hagree

theorem DenySpec.card_typesDenying_add_le (s : DenySpec) (a : ℕ) :
    ((s.add type addr).typesDenying a).card ≤ (s.typesDenying a).card + 1 := by
  unfold DenySpec.typesDenying DenySpec.add
  rw [Finset.filter_insert]
  split
  · exact Finset.card_insert_le _ _
  · exact Nat.le_succ _

theorem DenySpec.card_typesDenying_erase_le (s : DenySpec) (a : ℕ) :
    ((s.erase type addr).typesDenying a).card ≤ (s.typesDenying a).card := by
  unfold DenySpec.typesDenying DenySpec.erase
  rw [Finset.filter_erase]
  exact Finset.card_erase_le

theorem DenySpec.eq_of_remove_eq_ok {s s' : DenySpec} (h : s.remove type addr = .ok s') :
    s' = s.erase type addr := by
  unfold DenySpec.remove at h
  split at h
  · cases h
  · split at h
    · cases h
    · cases h
      rfl

/-- What a spec call that returns does: it rewrites one list that was there,
with a denial of an unreserved address added or lifted. -/
theorem specCall_eq_ok {call : Call} {spec' : ℕ → Option DenySpec}
    (hc : specCall spec call = .ok spec') :
    ∃ i s s' type addr, spec i = some s ∧ reserved.contains addr = false ∧
      spec' = Function.update spec i (some s') ∧ (s' = s.add type addr ∨ s' = s.erase type addr) := by
  cases call with
  | add i type addr =>
    simp only [specCall, specV1Add] at hc
    split_ifs at hc with hres
    cases hspec : spec i with
    | none => rw [hspec] at hc; cases hc
    | some s =>
      rw [hspec] at hc
      cases hc
      exact ⟨i, s, _, type, addr, hspec, by simpa using hres, rfl, .inl rfl⟩
  | remove i type addr =>
    simp only [specCall, specV1Remove] at hc
    split_ifs at hc with hres
    cases hspec : spec i with
    | none => rw [hspec] at hc; cases hc
    | some s =>
      rw [hspec] at hc
      dsimp only at hc
      cases hremove : s.remove type addr with
      | error e => rw [hremove] at hc; cases hc
      | ok s' =>
        rw [hremove] at hc
        cases hc
        exact ⟨i, s, s', type, addr, hspec, by simpa using hres, rfl,
          .inr (DenySpec.eq_of_remove_eq_ok hremove)⟩

/-- A spec call that returns leaves every list with at most one more type
denying each address. -/
theorem specCall_card_le {call : Call} {spec' : ℕ → Option DenySpec}
    (hc : specCall spec call = .ok spec') (i : ℕ) (s' : DenySpec) (hs' : spec' i = some s') :
    ∃ s, spec i = some s ∧ ∀ a, (s'.typesDenying a).card ≤ (s.typesDenying a).card + 1 := by
  obtain ⟨j, s, change, type, addr, hspec, -, rfl, hchange⟩ := specCall_eq_ok hc
  rw [Function.update_apply] at hs'
  split at hs'
  · -- the list the call rewrote gains at most the one denial
    rename_i hij
    cases hs'
    refine ⟨s, hij ▸ hspec, fun a => ?_⟩
    rcases hchange with rfl | rfl
    · exact DenySpec.card_typesDenying_add_le s a
    · exact Nat.le_succ_of_le (DenySpec.card_typesDenying_erase_le s a)
  · exact ⟨s', hs', fun a => Nat.le_succ _⟩

theorem headroom_specCall {n : ℕ} {call : Call} {spec' : ℕ → Option DenySpec}
    (h : Headroom (n + 1) spec) (hc : specCall spec call = .ok spec') : Headroom n spec' := by
  intro i s' hs' a
  obtain ⟨s, hspec, hle⟩ := specCall_card_le hc i s' hs'
  have hroom := h i s hspec a
  have hs'a := hle a
  omega

theorem Headroom.one {n : ℕ} (h : Headroom (n + 1) spec) : Headroom 1 spec := fun i s hs a => by
  have hroom := h i s hs a
  omega

theorem runCall_refines {n : ℕ} (call : Call) (h : ListsRepresent denyList spec)
    (hroom : Headroom (n + 1) spec) :
    Agree ListsRepresent (runCall denyList call) (specCall spec call) := by
  have hroom₁ : Headroom 1 spec := hroom.one
  cases call with
  | add j t b => exact v1Add_refines h hroom₁
  | remove j t b => exact v1Remove_refines h

theorem represents_perTypeList : Represents perTypeList DenySpec.empty where
  types_iff _ := by simp [perTypeList, Table.contains, Table.new, DenySpec.empty]
  denied_iff _ _ := by simp [perTypeList, deniedSet, Table.new, DenySpec.empty]
  count_eq _ := by simp [perTypeList, countOf, Table.new, DenySpec.empty, DenySpec.typesDenying]
  count_pos _ _ hc := by simp [perTypeList, Table.new] at hc

theorem create_eq : create 0 = .ok ⟨Table.new.write coinIndex perTypeList, Table.new⟩ := by
  rw [create, assert_eq_ok rfl, ok_bind, Table.add_eq_ok rfl]
  rfl

theorem listsRepresent_create :
    ListsRepresent ⟨Table.new.write coinIndex perTypeList, Table.new⟩ specCreate := by
  intro i
  rw [Table.contents_write, specCreate]
  split
  · exact .some represents_perTypeList
  · exact .none

/-- A fresh deny list has room for any number of calls below 2^64. -/
theorem headroom_specCreate {n : ℕ} (hn : n < 2 ^ 64) : Headroom n specCreate := by
  intro i s hs a
  rw [specCreate] at hs
  split at hs
  · cases hs
    simpa [DenySpec.typesDenying, DenySpec.empty] using hn
  · cases hs

theorem Headroom.mono {n : ℕ} (h : Headroom (n + 1) spec) : Headroom n spec := fun i s hs a => by
  have hroom := h i s hs a
  omega

end Runs

/-- Every run of V1 calls on a fresh deny list is simulated by the spec: it
aborts exactly when the spec's run does, with the same code, and otherwise
`v1_contains` answers as the spec does for every list, type and address.
The only condition is that the run is shorter than 2^64 calls, so that no
count can overflow. -/
theorem v1_runs_refine (calls : List Call) (hlen : calls.length < 2 ^ 64) :
    ∃ denyList, create 0 = .ok denyList ∧
      Agree (fun denyList' spec' => ∀ perTypeIndex type addr,
          v1Contains denyList' perTypeIndex type addr = specV1Contains spec' perTypeIndex type addr)
        (calls.foldlM runCall denyList) (calls.foldlM specCall specCreate) := by
  have hrun := foldlM_agree ListsRepresent (fun rest spec => Headroom rest.length spec)
    (fun call _ _ _ h hroom => runCall_refines call h hroom)
    (fun _ _ _ _ hroom hc => headroom_specCall hroom hc) calls listsRepresent_create
    (headroom_specCreate hlen)
  refine ⟨_, create_eq, Agree.imp_ok hrun ?_⟩
  intro _ _ _ _ h _ _ _
  exact v1Contains_eq h

theorem v1_runs_refine_three :
    [Call.add coinIndex [7] 0x1234, .add coinIndex [8] 0x1234, .remove coinIndex [7] 0x1234].length <
      2 ^ 64 ∧
    ∃ denyList, create 0 = .ok denyList ∧
      Agree (fun denyList' spec' => ∀ perTypeIndex type addr,
          v1Contains denyList' perTypeIndex type addr = specV1Contains spec' perTypeIndex type addr)
        ([Call.add coinIndex [7] 0x1234, .add coinIndex [8] 0x1234,
          .remove coinIndex [7] 0x1234].foldlM runCall denyList)
        ([Call.add coinIndex [7] 0x1234, .add coinIndex [8] 0x1234,
          .remove coinIndex [7] 0x1234].foldlM specCall specCreate) :=
  ⟨by decide, v1_runs_refine _ (by decide)⟩

end DenyList

end Sui
