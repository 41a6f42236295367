import Mathlib.Algebra.GroupWithZero.Nat
import Mathlib.Algebra.Order.BigOperators.Group.List
import Mathlib.Algebra.Order.Group.Nat

/-!
# Walking a ranking within a budget

A greedy selection walks a ranked list adding up the weights of the elements
it takes, and stops before the first element that would take the sum past a
budget (`span`: the elements taken and the rest). Walking the ranking from
its front takes the best elements the budget allows, and walking its reverse
takes the worst.

The walk splits its list (`span_append`, `span_fst_sublist`), what it takes
fits the budget (`acc_add_sum_le`), and it takes nothing exactly when the
first element alone does not fit (`span_fst_eq_nil_iff`). When twice the budget is less than
the whole weight, the walks from the two ends do not meet: the list is the
front walk, a middle part and the back walk reversed (`span_front_back`), so
everything the front walk takes is ranked before everything the back walk
takes.

A second walk, `fit`, skips each element that does not fit and goes on. On a
list ranked by some key, an element it skips did not fit even counting only
what it took of rank at most the element's (`budget_lt_of_not_mem_fit`).
-/

namespace GreedyBudget

variable {α : Type} (w : α → ℕ) (budget : ℕ)

/-- Walk `l` adding up weights from `acc`; stop before the first element that
would take the sum past `budget`. Returns the elements taken and the rest. -/
def span : ℕ → List α → List α × List α
  | _, [] => ([], [])
  | acc, a :: l =>
    if budget < acc + w a then ([], a :: l)
    else
      let rest := span (acc + w a) l
      (a :: rest.1, rest.2)

variable {w budget}

theorem span_nil (acc : ℕ) : span w budget acc [] = ([], []) := rfl

theorem span_cons_of_lt {acc : ℕ} {a : α} {l : List α} (h : budget < acc + w a) :
    span w budget acc (a :: l) = ([], a :: l) := by
  rw [span, if_pos h]

theorem span_cons_of_le {acc : ℕ} {a : α} {l : List α} (h : acc + w a ≤ budget) :
    span w budget acc (a :: l) =
      (a :: (span w budget (acc + w a) l).1, (span w budget (acc + w a) l).2) := by
  rw [span, if_neg (Nat.not_lt.mpr h)]

/-- The walk splits its list into what it took and the rest. -/
theorem span_append : ∀ (acc : ℕ) (l : List α),
    (span w budget acc l).1 ++ (span w budget acc l).2 = l
  | _, [] => rfl
  | acc, a :: l => by
    by_cases h : budget < acc + w a
    · rw [span_cons_of_lt h]
      rfl
    · rw [span_cons_of_le (Nat.le_of_not_lt h), List.cons_append, span_append]

/-- What the walk takes is a sublist of its list. -/
theorem span_fst_sublist (acc : ℕ) (l : List α) : (span w budget acc l).1.Sublist l := by
  have h := List.sublist_append_left (span w budget acc l).1 (span w budget acc l).2
  rwa [span_append] at h

/-- What the walk takes fits the budget. -/
theorem acc_add_sum_le : ∀ {acc : ℕ} (l : List α), acc ≤ budget →
    acc + ((span w budget acc l).1.map w).sum ≤ budget
  | _, [], h => by simpa [span_nil] using h
  | acc, a :: l, h => by
    by_cases hlt : budget < acc + w a
    · rw [span_cons_of_lt hlt]
      simpa using h
    · have hle := Nat.le_of_not_lt hlt
      have ih := acc_add_sum_le l hle
      rw [span_cons_of_le hle, List.map_cons, List.sum_cons]
      omega

/-- The walk takes nothing exactly when the first element alone does not fit. -/
theorem span_fst_eq_nil_iff {acc : ℕ} {a : α} {l : List α} :
    (span w budget acc (a :: l)).1 = [] ↔ budget < acc + w a := by
  by_cases h : budget < acc + w a
  · rw [span_cons_of_lt h]
    exact ⟨fun _ => h, fun _ => rfl⟩
  · rw [span_cons_of_le (Nat.le_of_not_lt h)]
    exact ⟨fun hnil => absurd hnil (List.cons_ne_nil _ _), fun hlt => absurd hlt h⟩

/-- When twice the budget is less than the whole weight, the walks from the
two ends of a list do not meet: the list is what the front walk takes, a
middle part, and what the back walk takes, reversed. -/
theorem span_front_back {l : List α} (h : 2 * budget < (l.map w).sum) :
    ∃ mid, l = (span w budget 0 l).1 ++ mid ++ (span w budget 0 l.reverse).1.reverse := by
  set front := (span w budget 0 l).1
  set back := (span w budget 0 l.reverse).1
  have hfront : l = front ++ (span w budget 0 l).2 := (span_append 0 l).symm
  have hback : l = (span w budget 0 l.reverse).2.reverse ++ back.reverse := by
    rw [← List.reverse_append, span_append, List.reverse_reverse]
  have hfrontSum : (front.map w).sum ≤ budget := by
    have hle := acc_add_sum_le (w := w) l (Nat.zero_le budget)
    rwa [Nat.zero_add] at hle
  have hbackSum : (back.map w).sum ≤ budget := by
    have hle := acc_add_sum_le (w := w) l.reverse (Nat.zero_le budget)
    rwa [Nat.zero_add] at hle
  -- what the front walk leaves and what the back walk takes both end the list
  have hrest : (span w budget 0 l).2 = l.drop front.length := by
    conv_rhs => rw [hfront]
    rw [List.drop_left]
  have hbackDrop : back.reverse = l.drop (l.length - back.length) := by
    have hlen := congrArg List.length hback
    rw [List.length_append, List.length_reverse, List.length_reverse] at hlen
    calc back.reverse
        = ((span w budget 0 l.reverse).2.reverse ++ back.reverse).drop
            (span w budget 0 l.reverse).2.reverse.length := List.drop_left.symm
      _ = l.drop (l.length - back.length) := by
        rw [← hback, List.length_reverse]
        congr 1
        omega
  by_cases hlen : front.length + back.length ≤ l.length
  · -- the rest of the front walk ends with the back walk
    refine ⟨(l.drop front.length).take (l.length - front.length - back.length), ?_⟩
    conv_lhs => rw [hfront, hrest, ← List.take_append_drop
      (l.length - front.length - back.length) (l.drop front.length)]
    rw [List.drop_drop, hbackDrop, List.append_assoc]
    congr 3
    omega
  · -- otherwise the two walks cover the list and weigh at most twice the budget
    exfalso
    have hsuffix : l.drop front.length = (l.drop (l.length - back.length)).drop
        (front.length - (l.length - back.length)) := by
      rw [List.drop_drop]
      congr 1
      omega
    have hcover : ((l.drop front.length).map w).sum ≤ (back.map w).sum :=
      calc ((l.drop front.length).map w).sum
          = (((l.drop (l.length - back.length)).map w).drop
              (front.length - (l.length - back.length))).sum := by
            rw [hsuffix]
            simp only [List.map_drop]
        _ ≤ ((l.drop (l.length - back.length)).map w).sum :=
          (List.drop_sublist _ _).sum_le_sum fun _ _ => Nat.zero_le _
        _ = (back.map w).sum := by rw [← hbackDrop, List.map_reverse, List.sum_reverse]
    have hwhole : (l.map w).sum = (front.map w).sum + ((l.drop front.length).map w).sum := by
      conv_lhs => rw [hfront, hrest]
      rw [List.map_append, List.sum_append]
    omega

/-! ## Skipping what does not fit -/

variable (w budget) in
/-- Walk `l` adding up weights from `acc`, taking each element whose weight
still fits within `budget` and skipping the others. Returns the elements
taken. -/
def fit : ℕ → List α → List α
  | _, [] => []
  | acc, a :: l => if acc + w a ≤ budget then a :: fit (acc + w a) l else fit acc l

theorem fit_cons_of_le {acc : ℕ} {a : α} {l : List α} (h : acc + w a ≤ budget) :
    fit w budget acc (a :: l) = a :: fit w budget (acc + w a) l :=
  if_pos h

theorem fit_cons_of_lt {acc : ℕ} {a : α} {l : List α} (h : budget < acc + w a) :
    fit w budget acc (a :: l) = fit w budget acc l :=
  if_neg (Nat.not_le.mpr h)

/-- What the walk takes is a sublist of its list. -/
theorem fit_sublist : ∀ (acc : ℕ) (l : List α), (fit w budget acc l).Sublist l
  | _, [] => List.Sublist.slnil
  | acc, a :: l => by
    by_cases h : acc + w a ≤ budget
    · rw [fit_cons_of_le h]
      exact (fit_sublist _ l).cons_cons a
    · rw [fit_cons_of_lt (Nat.lt_of_not_le h)]
      exact (fit_sublist acc l).cons a

/-- On a list ranked by `r`, an element the walk skips did not fit even
counting only what it took of rank at most the element's: the elements it
took of a higher rank come after it. -/
theorem budget_lt_of_not_mem_fit {β : Type} [LinearOrder β] {r : α → β} :
    ∀ {acc : ℕ} {l : List α} {a : α}, l.Pairwise (fun b c => r b ≤ r c) → a ∈ l →
      a ∉ fit w budget acc l →
      budget < acc + (((fit w budget acc l).filter fun b => r b ≤ r a).map w).sum + w a
  | acc, b :: l, a, hl, ha, hskip => by
    rw [List.pairwise_cons] at hl
    by_cases hb : acc + w b ≤ budget
    · -- `b` is taken, so `a` comes later and ranks at least as high
      rw [fit_cons_of_le hb] at hskip ⊢
      have hab : a ≠ b := fun h => hskip (h ▸ List.mem_cons_self)
      have hal : a ∈ l := (List.mem_cons.mp ha).resolve_left hab
      have ih := budget_lt_of_not_mem_fit hl.2 hal fun h => hskip (List.mem_cons_of_mem b h)
      rw [List.filter_cons_of_pos (by simpa using hl.1 a hal), List.map_cons, List.sum_cons]
      omega
    · rw [fit_cons_of_lt (Nat.lt_of_not_le hb)] at hskip ⊢
      rcases List.mem_cons.mp ha with rfl | hal
      · omega
      · exact budget_lt_of_not_mem_fit hl.2 hal hskip

end GreedyBudget
