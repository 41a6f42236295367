import Sui.MoveArith
import Mathlib.Data.Finset.Card

/-!
# Sets backed by a vector (`vec_set.move`)

A `VecSet<K>` keeps its keys in a vector, in the order they were inserted.
Its documentation promises no key twice; the Move struct does not say so, but
`insert` checks for the key before it pushes it and `remove` only deletes, so
every set the module builds has distinct keys. The model carries that promise
as a field, `nodup`, and each operation that builds a set proves it.

The set a `VecSet` stands for is `elems`, the `Finset` of its vector. Each
operation is the `Finset` operation on it (`elems_of_insert_eq_ok`,
`elems_of_remove_eq_ok`),
with the abort when the key is present for `insert` and absent for `remove`;
`length` is the number of elements.
-/

namespace Sui

/-- A `VecSet<K>`: the keys in insertion order, none of them twice. -/
structure VecSet (K : Type) where
  contents : List K
  nodup : contents.Nodup

namespace VecSet

open MoveArith

/-- The abort codes of vec_set. -/
inductive Code where
  /-- EKeyAlreadyExists -/
  | eKeyAlreadyExists
  /-- EKeyDoesNotExist -/
  | eKeyDoesNotExist
  deriving DecidableEq, Repr

variable {K : Type}

/-- vec_set::empty -/
def empty : VecSet K :=
  ⟨[], List.nodup_nil⟩

/-- vec_set::singleton -/
def singleton (key : K) : VecSet K :=
  ⟨[key], List.nodup_singleton key⟩

/-- vec_set::contains: the scan of the vector that returns at the first equal key. -/
def contains [DecidableEq K] (self : VecSet K) (key : K) : Bool :=
  self.contents.contains key

/-- vec_set::insert: aborts when the key is present, else pushes it at the back. -/
def insert [DecidableEq K] (self : VecSet K) (key : K) : Except (Abort Code) (VecSet K) :=
  if h : self.contains key then .error (.abort .eKeyAlreadyExists)
  else .ok ⟨self.contents ++ [key],
    List.nodup_append_comm.mp (List.nodup_cons.mpr ⟨by simpa [contains] using h, self.nodup⟩)⟩

/-- vec_set::remove: deletes the key at the index `find_index!` returns, and
aborts when there is none. -/
def remove [DecidableEq K] (self : VecSet K) (key : K) : Except (Abort Code) (VecSet K) :=
  match self.contents.findIdx? (· == key) with
  | some idx => .ok ⟨self.contents.eraseIdx idx, self.nodup.eraseIdx idx⟩
  | none => .error (.abort .eKeyDoesNotExist)

/-- vec_set::length -/
def length (self : VecSet K) : ℕ :=
  self.contents.length

/-- vec_set::is_empty -/
def isEmpty (self : VecSet K) : Bool :=
  self.length == 0

/-- vec_set::into_keys -/
def intoKeys (self : VecSet K) : List K :=
  self.contents

/-- vec_set::from_keys: the keys inserted one by one into the empty set. -/
def fromKeys [DecidableEq K] (keys : List K) : Except (Abort Code) (VecSet K) :=
  keys.foldlM insert empty

/-- The set of keys. -/
def elems (self : VecSet K) : Finset K :=
  ⟨self.contents, self.nodup⟩

theorem ext {self self' : VecSet K} (h : self.contents = self'.contents) : self = self' := by
  cases self
  cases self'
  cases h
  rfl

section Lemmas

variable {self self' : VecSet K} {key k : K}

@[simp] theorem mem_elems : k ∈ self.elems ↔ k ∈ self.contents :=
  Iff.rfl

@[simp] theorem elems_empty : (empty : VecSet K).elems = ∅ :=
  rfl

@[simp] theorem elems_singleton : (singleton key).elems = {key} :=
  rfl

variable [DecidableEq K]

@[simp] theorem contains_iff : self.contains key = true ↔ key ∈ self.elems := by
  simp [contains]

theorem insert_eq_error (h : key ∈ self.elems) :
    self.insert key = .error (.abort .eKeyAlreadyExists) := by
  rw [insert, dif_pos (contains_iff.mpr h)]

theorem eq_of_insert_eq_ok (h : self.insert key = .ok self') :
    key ∉ self.elems ∧ self'.contents = self.contents ++ [key] := by
  unfold insert at h
  split at h
  · cases h
  · rename_i hkey
    cases h
    exact ⟨fun hmem => hkey (contains_iff.mpr hmem), rfl⟩

/-- An insertion that returns adds the key to the set. -/
theorem elems_of_insert_eq_ok (h : self.insert key = .ok self') :
    self'.elems = Insert.insert key self.elems := by
  ext k
  simp [(eq_of_insert_eq_ok h).2, or_comm]

theorem insert_isOk (h : key ∉ self.elems) : ∃ self', self.insert key = .ok self' := by
  unfold insert
  rw [dif_neg (by simpa using h)]
  exact ⟨_, rfl⟩

/-- The index `remove` deletes at is the first one of the key, so the removal
is the list's `erase`. -/
theorem remove_eq_ok (h : key ∈ self.elems) :
    ∃ self', self.remove key = .ok self' ∧ self'.contents = self.contents.erase key := by
  have hidx : self.contents.findIdx? (· == key) = some (self.contents.idxOf key) := by
    rw [List.findIdx?_eq_some_iff_findIdx_eq]
    exact ⟨List.idxOf_lt_length_of_mem h, rfl⟩
  unfold remove
  rw [hidx]
  exact ⟨_, rfl, (List.erase_eq_eraseIdx_of_idxOf rfl).symm⟩

theorem remove_eq_error (h : key ∉ self.elems) :
    self.remove key = .error (.abort .eKeyDoesNotExist) := by
  have hidx : self.contents.findIdx? (· == key) = none := by
    rw [List.findIdx?_eq_none_iff]
    intro k hk
    simpa using ne_of_mem_of_not_mem hk h
  rw [remove, hidx]

theorem eq_of_remove_eq_ok (h : self.remove key = .ok self') :
    key ∈ self.elems ∧ self'.contents = self.contents.erase key := by
  by_cases hkey : key ∈ self.elems
  · obtain ⟨s, hs, hcontents⟩ := remove_eq_ok hkey
    rw [hs] at h
    cases h
    exact ⟨hkey, hcontents⟩
  · rw [remove_eq_error hkey] at h
    cases h

/-- A removal that returns takes the key out of the set. -/
theorem elems_of_remove_eq_ok (h : self.remove key = .ok self') :
    self'.elems = self.elems.erase key := by
  ext k
  rw [mem_elems, (eq_of_remove_eq_ok h).2, Finset.mem_erase, mem_elems]
  exact List.Nodup.mem_erase_iff self.nodup

/-- Inserting the keys of `keys` one by one into `self` returns exactly when
they are new and distinct, and then appends them. -/
theorem foldlM_insert_eq_ok_iff :
    ∀ {keys : List K} {self : VecSet K},
      (∃ self', keys.foldlM insert self = .ok self') ↔ (self.contents ++ keys).Nodup
  | [], self => by
    simp only [List.foldlM_nil, List.append_nil]
    exact ⟨fun _ => self.nodup, fun _ => ⟨self, rfl⟩⟩
  | key :: keys, self => by
    rw [List.foldlM_cons]
    by_cases hkey : key ∈ self.elems
    · rw [insert_eq_error hkey]
      have hdup : ¬(self.contents ++ key :: keys).Nodup := fun hnd =>
        List.disjoint_of_nodup_append hnd hkey List.mem_cons_self
      simp only [hdup, iff_false, not_exists]
      intro s h
      cases h
    · obtain ⟨s, hs⟩ := insert_isOk hkey
      rw [hs, ok_bind, foldlM_insert_eq_ok_iff, (eq_of_insert_eq_ok hs).2, List.append_assoc,
        List.singleton_append]

theorem contents_of_foldlM_insert_eq_ok :
    ∀ {keys : List K} {self self' : VecSet K},
      keys.foldlM insert self = .ok self' → self'.contents = self.contents ++ keys
  | [], self, self', h => by
    cases h
    simp
  | key :: keys, self, self', h => by
    rw [List.foldlM_cons] at h
    obtain ⟨s, hs, hrest⟩ := bind_eq_ok.mp h
    rw [contents_of_foldlM_insert_eq_ok hrest, (eq_of_insert_eq_ok hs).2, List.append_assoc,
      List.singleton_append]

end Lemmas

end VecSet

end Sui
