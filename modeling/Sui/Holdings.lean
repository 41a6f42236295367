import Mathlib.Algebra.BigOperators.Group.List.Basic
import Mathlib.Data.List.Basic
import Mathlib.Data.List.Nodup

/-!
# Values held by position

A program that holds values in a vector names each by its position. A call
that consumes one moves it out of the vector (`take`); a call that changes one
in place writes it back with `List.set`. What the vector holds in total then
changes by exactly what moved: `add_sum_of_take` for a value moved out, and
`sum_set_add` for a value changed in place. These are the two steps of every
conservation argument over such a vector.

A call that deletes the values at several positions keeps those at the
others, in their order (`withoutPositions`), and reads the deleted ones at
their positions (`atPositions`); every value of the vector is one or the
other (`mem_withoutPositions_or_mem_atPositions`).
-/

namespace Holdings

variable {α : Type}

/-- The value at position `i`, moved out of `l`, with what is left. -/
def take (l : List α) (i : ℕ) : Option (α × List α) :=
  l[i]?.map fun a => (a, l.eraseIdx i)

theorem take_eq_some_iff {l rest : List α} {i : ℕ} {a : α} :
    take l i = some (a, rest) ↔ l[i]? = some a ∧ l.eraseIdx i = rest := by
  unfold take
  constructor
  · intro h
    obtain ⟨a', ha', heq⟩ := Option.map_eq_some_iff.mp h
    cases heq
    exact ⟨ha', rfl⟩
  · rintro ⟨ha, rfl⟩
    rw [ha, Option.map_some]

/-- The values of `l` at the positions not in `removals`, in their order. -/
def withoutPositions (removals : List ℕ) (l : List α) : List α :=
  (l.zipIdx.filter fun p => decide (p.2 ∉ removals)).map Prod.fst

/-- The values of `l` at `positions`, in that order. -/
def atPositions (positions : List ℕ) (l : List α) : List α :=
  positions.filterMap fun i => l[i]?

theorem withoutPositions_nil (l : List α) : withoutPositions [] l = l := by
  simp [withoutPositions, List.zipIdx_map_fst]

/-- Only which positions are listed matters. -/
theorem withoutPositions_congr {removals removals' : List ℕ} (h : ∀ i, i ∈ removals ↔ i ∈ removals')
    (l : List α) : withoutPositions removals l = withoutPositions removals' l := by
  unfold withoutPositions
  congr 1
  exact List.filter_congr fun p _ => by simp [h p.2]

/-- Deleting the value at position `i` first and then those at positions
below it deletes them all: the positions below `i` do not move. -/
theorem withoutPositions_cons {i : ℕ} {ds : List ℕ} {A B : List α} {a : α} (hA : A.length = i)
    (hbelow : ∀ d ∈ ds, d < i) :
    withoutPositions (i :: ds) (A ++ a :: B) = withoutPositions ds (A ++ B) := by
  -- before position i the two tests agree, and every later position is kept by both
  have hfront : A.zipIdx.filter (fun p => decide (p.2 ∉ i :: ds)) =
      A.zipIdx.filter (fun p => decide (p.2 ∉ ds)) := by
    refine List.filter_congr fun p hp => ?_
    have hlt := (List.mem_zipIdx hp).2.1
    have hne : p.2 ≠ i := by omega
    simp [hne]
  have hkept : ∀ k (q : ℕ → Prop) [DecidablePred q], (∀ j, k ≤ j → q j) →
      (B.zipIdx k).filter (fun p => decide (q p.2)) = B.zipIdx k := by
    intro k q _ hq
    refine List.filter_eq_self.mpr fun p hp => ?_
    simpa using hq p.2 (List.mem_zipIdx hp).1
  have hback : (B.zipIdx (0 + A.length + 1)).filter (fun p => decide (p.2 ∉ i :: ds)) =
      B.zipIdx (0 + A.length + 1) :=
    hkept (0 + A.length + 1) (fun j => j ∉ i :: ds) fun j hj => by
      simp only [List.mem_cons, not_or]
      exact ⟨by omega, fun hd => by have := hbelow j hd; omega⟩
  have hback' : (B.zipIdx (0 + A.length)).filter (fun p => decide (p.2 ∉ ds)) =
      B.zipIdx (0 + A.length) :=
    hkept (0 + A.length) (fun j => j ∉ ds) fun j hj hd => by
      have := hbelow j hd
      omega
  unfold withoutPositions
  rw [List.zipIdx_append, List.zipIdx_append, List.zipIdx_cons, List.filter_append,
    List.filter_append, List.filter_cons_of_neg (by simp [hA]), hfront, hback, hback']
  simp [List.zipIdx_map_fst]

theorem withoutPositions_sublist (removals : List ℕ) (l : List α) :
    List.Sublist (withoutPositions removals l) l := by
  have h := (l.zipIdx.filter_sublist (p := fun p => decide (p.2 ∉ removals))).map Prod.fst
  rwa [List.zipIdx_map_fst] at h

theorem mem_withoutPositions_iff {removals : List ℕ} {l : List α} {a : α} :
    a ∈ withoutPositions removals l ↔ ∃ i, i ∉ removals ∧ l[i]? = some a := by
  unfold withoutPositions
  constructor
  · intro ha
    obtain ⟨⟨a', i⟩, hmem, rfl⟩ := List.mem_map.mp ha
    obtain ⟨hmem, hkept⟩ := List.mem_filter.mp hmem
    exact ⟨i, by simpa using hkept, List.mem_zipIdx_iff_getElem?.mp hmem⟩
  · rintro ⟨i, hi, ha⟩
    refine List.mem_map.mpr ⟨(a, i), List.mem_filter.mpr ⟨?_, by simpa using hi⟩, rfl⟩
    exact List.mem_zipIdx_iff_getElem?.mpr ha

/-- A value of `l` is at a listed position or stays. -/
theorem mem_withoutPositions_or_mem_atPositions {removals positions : List ℕ}
    (h : ∀ i, i ∈ removals ↔ i ∈ positions) {l : List α} {a : α} (ha : a ∈ l) :
    a ∈ withoutPositions removals l ∨ a ∈ atPositions positions l := by
  obtain ⟨i, hi⟩ := List.mem_iff_getElem?.mp ha
  by_cases hremoved : i ∈ removals
  · exact .inr (List.mem_filterMap.mpr ⟨i, (h i).mp hremoved, hi⟩)
  · exact .inl (mem_withoutPositions_iff.mpr ⟨i, hremoved, hi⟩)

/-- In a vector without repeats a value is at one position only. -/
theorem eq_of_getElem?_eq_some {l : List α} (hnodup : l.Nodup) {i j : ℕ} {a : α}
    (hi : l[i]? = some a) (hj : l[j]? = some a) : i = j := by
  obtain ⟨hi', rfl⟩ := List.getElem?_eq_some_iff.mp hi
  obtain ⟨hj', hji⟩ := List.getElem?_eq_some_iff.mp hj
  exact hnodup.getElem_inj_iff.mp hji.symm

/-- Positions below `i` read the same values once the value at `i` is gone. -/
theorem atPositions_append_cons {i : ℕ} {ds : List ℕ} {A B : List α} {a : α} (hA : A.length = i)
    (hbelow : ∀ d ∈ ds, d < i) : atPositions ds (A ++ a :: B) = atPositions ds (A ++ B) := by
  refine List.filterMap_congr fun d hd => ?_
  have hlt : d < A.length := hA ▸ hbelow d hd
  rw [List.getElem?_append_left hlt, List.getElem?_append_left hlt]

variable [AddCommMonoid α]

/-- Moving a value out leaves the rest of the total. -/
theorem add_sum_of_take {l rest : List α} {i : ℕ} {a : α} (h : take l i = some (a, rest)) :
    a + rest.sum = l.sum := by
  obtain ⟨ha, rfl⟩ := take_eq_some_iff.mp h
  obtain ⟨hi, rfl⟩ := List.getElem?_eq_some_iff.mp ha
  exact List.CommMonoid.add_sum_eraseIdx hi

/-- Changing the value at a position from `a` to `b` changes the total by as much. -/
theorem sum_set_add {l : List α} {i : ℕ} {a : α} (h : l[i]? = some a) (b : α) :
    (l.set i b).sum + a = l.sum + b := by
  induction l generalizing i with
  | nil => cases h
  | cons x l ih =>
    cases i with
    | zero =>
      cases h
      rw [List.set_cons_zero, List.sum_cons, List.sum_cons, add_right_comm, add_right_comm a,
        add_comm b]
    | succ i =>
      rw [List.getElem?_cons_succ] at h
      rw [List.set_cons_succ, List.sum_cons, List.sum_cons, add_assoc, ih h, add_assoc]

end Holdings
