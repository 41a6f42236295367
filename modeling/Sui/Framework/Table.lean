import Sui.MoveArith
import Mathlib.Logic.Function.Basic

/-!
# Tables (`table.move`, over `dynamic_field.move`)

A `Table<K, V>` stores its entries as dynamic fields of its object. The model
keeps the value stored under each key, if any, as a partial function; a write
through the reference `borrow_mut` hands out is `write`. The aborts are those
of dynamic_field: adding a key that is present, and borrowing or removing one
that is not. The table's `size` counter is not modelled: none of the modelled
callers reads it, and its increment could only overflow at 2^64 entries.

`contents_write` and `borrow_write` say what a write does to the contents, and
`eq_of_add_eq_ok`, `eq_of_borrow_eq_ok`, `eq_of_remove_eq_ok` invert the
operations that may abort.
-/

namespace Sui

/-- A `Table<K, V>`: the value stored under each key. -/
structure Table (K V : Type) where
  contents : K → Option V

namespace Table

open MoveArith

/-- The abort codes of dynamic_field that a table raises. -/
inductive Code where
  /-- dynamic_field::EFieldAlreadyExists -/
  | eFieldAlreadyExists
  /-- dynamic_field::EFieldDoesNotExist -/
  | eFieldDoesNotExist
  deriving DecidableEq, Repr

variable {K V : Type}

/-- table::new -/
def new : Table K V :=
  ⟨fun _ => none⟩

/-- table::contains -/
def contains (table : Table K V) (k : K) : Bool :=
  (table.contents k).isSome

/-- table::add, which aborts when the key is present. -/
def add [DecidableEq K] (table : Table K V) (k : K) (v : V) : Except (Abort Code) (Table K V) :=
  if table.contains k then .error (.abort .eFieldAlreadyExists)
  else .ok ⟨Function.update table.contents k (some v)⟩

/-- table::borrow and table::borrow_mut: the value under the key, which must be present. -/
def borrow (table : Table K V) (k : K) : Except (Abort Code) V :=
  match table.contents k with
  | some v => .ok v
  | none => .error (.abort .eFieldDoesNotExist)

/-- A write of `v` through the reference table::borrow_mut returned for `k`. -/
def write [DecidableEq K] (table : Table K V) (k : K) (v : V) : Table K V :=
  ⟨Function.update table.contents k (some v)⟩

/-- table::remove: the value under the key, which must be present, and the
table without it. -/
def remove [DecidableEq K] (table : Table K V) (k : K) : Except (Abort Code) (V × Table K V) := do
  let v ← borrow table k
  pure (v, ⟨Function.update table.contents k none⟩)

section Lemmas

variable {table : Table K V} {k k' : K} {v : V}

@[simp] theorem contents_new : (new : Table K V).contents k = none := rfl

theorem contains_iff : table.contains k = true ↔ ∃ v, table.contents k = some v :=
  Option.isSome_iff_exists

theorem contains_eq_false_iff : table.contains k = false ↔ table.contents k = none := by
  simp [contains]

theorem borrow_eq_ok (h : table.contents k = some v) : table.borrow k = .ok v := by
  rw [borrow, h]

theorem eq_of_borrow_eq_ok (h : table.borrow k = .ok v) : table.contents k = some v := by
  unfold borrow at h
  split at h
  · rename_i v' hv
    rw [hv, Except.ok.inj h]
  · cases h

theorem borrow_eq_error (h : table.contents k = none) :
    table.borrow k = .error (.abort .eFieldDoesNotExist) := by
  rw [borrow, h]

variable [DecidableEq K]

@[simp] theorem contents_write : (table.write k v).contents k' =
    if k' = k then some v else table.contents k' := by
  simp only [write, Function.update_apply]

theorem add_eq_ok (h : table.contains k = false) :
    table.add k v = .ok (table.write k v) := by
  rw [add, if_neg (by simp [h])]
  rfl

theorem eq_of_add_eq_ok {table' : Table K V} (h : table.add k v = .ok table') :
    table.contains k = false ∧ table' = table.write k v := by
  unfold add at h
  split at h
  · cases h
  · rename_i hk
    exact ⟨by simpa using hk, (Except.ok.inj h).symm⟩

@[simp] theorem contains_write :
    (table.write k v).contains k' = if k' = k then true else table.contains k' := by
  simp only [contains, contents_write]
  split <;> rfl

@[simp] theorem write_write {v' : V} : (table.write k v).write k v' = table.write k v' := by
  simp only [write, Function.update_idem]

/-- Writing back the value a key holds leaves the table as it is. -/
theorem write_eq_self (h : table.contents k = some v) : table.write k v = table := by
  rw [write, ← h, Function.update_eq_self]

@[simp] theorem borrow_write : (table.write k v).borrow k = .ok v :=
  borrow_eq_ok (by simp)

theorem remove_eq_ok (h : table.contents k = some v) :
    table.remove k = .ok (v, ⟨Function.update table.contents k none⟩) := by
  rw [remove, borrow_eq_ok h, ok_bind]
  rfl

theorem eq_of_remove_eq_ok {r : V × Table K V} (h : table.remove k = .ok r) :
    table.contents k = some r.1 ∧ ∀ k', r.2.contents k' = if k' = k then none else table.contents k' := by
  obtain ⟨v', hv', hr⟩ := bind_eq_ok.mp h
  obtain rfl := (Except.ok.inj hr).symm
  exact ⟨eq_of_borrow_eq_ok hv', fun k' => Function.update_apply _ _ _ _⟩

end Lemmas

end Table

end Sui
