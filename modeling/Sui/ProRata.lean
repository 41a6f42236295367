import Mathlib.Algebra.GroupWithZero.Nat
import Mathlib.Algebra.BigOperators.Group.List.Basic
import Mathlib.Algebra.BigOperators.Group.Finset.Piecewise
import Mathlib.Algebra.Order.BigOperators.Group.Finset

/-!
# Pro-rata shares rounded down

A part `v` of a whole `S` entitles its holder to `v * x / S` of an amount `x`,
rounded down. Rounding down each share separately never pays more than rounding
the total once: the shares of two amounts are at most the share of their sum
(`mul_div_add_mul_div_le`), the shares of many parts are at most the share of
their sum (`sum_map_mul_div_le`), and a part of the whole takes at most the
amount (`mul_div_le_of_le`). An amount that is itself a rounded-down conversion
of the whole, `a * S / p`, gives a share of at most the direct conversion of the
part, `a * v / p` (`mul_div_div_le`).

A haircut and its redistribution: when the parts in `t ⊆ s` each give up
`a i` of their amount `u i`, and what they gave up is shared over the other
parts of `s` in proportion to weights `p`, each share rounded down
(`redistribute`), the parts end with at most what they had between them
(`sum_redistribute_le`). Amounts held in a list are summed by position with
`sum_range_getD`, and a list made by position is summed with `sum_map_range`.
-/

namespace ProRata

/-- A part of the whole takes at most the amount. -/
theorem mul_div_le_of_le {v S : ℕ} (x : ℕ) (h : v ≤ S) : v * x / S ≤ x := by
  rcases Nat.eq_zero_or_pos S with hS | _
  · simp [hS]
  · exact Nat.div_le_of_le_mul (Nat.mul_le_mul_right x h)

/-- The shares of two amounts are at most the share of their sum. -/
theorem mul_div_add_mul_div_le (v x y S : ℕ) : v * x / S + v * y / S ≤ v * (x + y) / S := by
  rw [Nat.mul_add]
  exact Nat.div_add_div_le_add_div

/-- Converting more never gives less. -/
theorem mul_div_mono (a : ℕ) {x y : ℕ} (p : ℕ) (h : x ≤ y) : a * x / p ≤ a * y / p :=
  Nat.div_le_div_right (Nat.mul_le_mul_left a h)

/-- The conversions of many parts, each rounded down, are at most the
conversion of their sum. -/
theorem sum_map_mul_div_le (a p : ℕ) (l : List ℕ) :
    (l.map fun x => a * x / p).sum ≤ a * l.sum / p := by
  induction l with
  | nil => simp
  | cons x l ih =>
    rw [List.map_cons, List.sum_cons, List.sum_cons]
    calc a * x / p + (l.map fun x => a * x / p).sum
        ≤ a * x / p + a * l.sum / p := Nat.add_le_add_left ih _
      _ ≤ a * (x + l.sum) / p := mul_div_add_mul_div_le a x l.sum p

/-- The share of a rounded-down conversion of the whole is at most the
conversion of the part. -/
theorem mul_div_div_le {S : ℕ} (hS : 0 < S) (v a p : ℕ) : v * (a * S / p) / S ≤ a * v / p := by
  rcases Nat.eq_zero_or_pos p with hp | hp
  · simp [hp]
  -- multiply through by `S * p`: the share times `S` is at most `v * (a * S / p)`,
  -- and that times `p` is at most `v * a * S`
  have hshare : v * (a * S / p) / S * S ≤ v * (a * S / p) := Nat.div_mul_le_self _ _
  have hconv : a * S / p * p ≤ a * S := Nat.div_mul_le_self _ _
  apply (Nat.le_div_iff_mul_le hp).mpr
  apply Nat.le_of_mul_le_mul_right _ hS
  calc v * (a * S / p) / S * p * S
      = v * (a * S / p) / S * S * p := by rw [Nat.mul_right_comm]
    _ ≤ v * (a * S / p) * p := Nat.mul_le_mul_right p hshare
    _ = v * (a * S / p * p) := by rw [Nat.mul_assoc]
    _ ≤ v * (a * S) := Nat.mul_le_mul_left v hconv
    _ = a * v * S := by rw [← Nat.mul_assoc, Nat.mul_comm v a]

section Redistribution

variable {ι : Type*} [DecidableEq ι]

/-- The amount of part `i` of `s` after each part in `t` gives up `a i` and
what they gave up is shared over the other parts in proportion to `p`, each
share rounded down. -/
def redistribute (s t : Finset ι) (u a p : ι → ℕ) (i : ι) : ℕ :=
  if i ∈ t then u i - a i else u i + (∑ j ∈ t, a j) * p i / ∑ j ∈ s \ t, p j

/-- Shares of one amount in proportion to weights, each rounded down, are at
most the amount's share of the weights' total. -/
theorem sum_mul_div_le (s : Finset ι) (x c : ℕ) (p : ι → ℕ) :
    ∑ i ∈ s, x * p i / c ≤ x * (∑ i ∈ s, p i) / c := by
  induction s using Finset.induction_on with
  | empty => simp
  | insert j s hj ih =>
    rw [Finset.sum_insert hj, Finset.sum_insert hj]
    calc x * p j / c + ∑ i ∈ s, x * p i / c
        ≤ x * p j / c + x * (∑ i ∈ s, p i) / c := Nat.add_le_add_left ih _
      _ ≤ x * (p j + ∑ i ∈ s, p i) / c := mul_div_add_mul_div_le x _ _ c

/-- Redistributing what the parts in `t` give up never pays out more than the
parts had. -/
theorem sum_redistribute_le {s t : Finset ι} (hts : t ⊆ s) (u a p : ι → ℕ)
    (ha : ∀ i ∈ t, a i ≤ u i) :
    ∑ i ∈ s, redistribute s t u a p i ≤ ∑ i ∈ s, u i := by
  -- the parts in t keep what they do not give up
  have hkeep : ∑ i ∈ t, (u i - a i) + ∑ i ∈ t, a i = ∑ i ∈ t, u i := by
    rw [← Finset.sum_add_distrib]
    exact Finset.sum_congr rfl fun i hi => Nat.sub_add_cancel (ha i hi)
  -- the rounded-down shares of the others are at most what was given up
  have hshare : ∑ i ∈ s \ t, (∑ j ∈ t, a j) * p i / ∑ j ∈ s \ t, p j ≤ ∑ j ∈ t, a j :=
    (sum_mul_div_le _ _ _ p).trans (by rw [Nat.mul_comm]; exact mul_div_le_of_le _ le_rfl)
  have hsplit : ∑ i ∈ s, redistribute s t u a p i = ∑ i ∈ t, (u i - a i) +
      (∑ i ∈ s \ t, u i + ∑ i ∈ s \ t, (∑ j ∈ t, a j) * p i / ∑ j ∈ s \ t, p j) := by
    rw [← Finset.sum_add_distrib]
    unfold redistribute
    rw [Finset.sum_ite, Finset.filter_mem_eq_inter, Finset.inter_eq_right.mpr hts,
      ← Finset.sdiff_eq_filter]
  have hparts := Finset.sum_sdiff hts (f := u)
  omega

/-- No part ends with more than all the parts had. -/
theorem redistribute_le_sum {s t : Finset ι} (hts : t ⊆ s) (u a p : ι → ℕ)
    (ha : ∀ i ∈ t, a i ≤ u i) {i : ι} (hi : i ∈ s) :
    redistribute s t u a p i ≤ ∑ j ∈ s, u j :=
  (Finset.single_le_sum (fun _ _ => Nat.zero_le _) hi).trans (sum_redistribute_le hts u a p ha)

end Redistribution

/-- A list of amounts made by position sums as they do over the positions. -/
theorem sum_map_range (n : ℕ) (f : ℕ → ℕ) :
    ((List.range n).map f).sum = ∑ i ∈ Finset.range n, f i := by
  induction n with
  | zero => simp
  | succ n ih =>
    rw [List.range_succ, List.map_append, List.sum_append, ih, Finset.sum_range_succ]
    simp

/-- The amounts of a list, summed by position. -/
theorem sum_range_getD (l : List ℕ) : ∑ i ∈ Finset.range l.length, l.getD i 0 = l.sum := by
  induction l with
  | nil => simp
  | cons x l ih =>
    rw [List.length_cons, Finset.sum_range_succ', List.sum_cons]
    simp only [List.getD_cons_succ, List.getD_cons_zero, ih]
    exact Nat.add_comm _ _

end ProRata
