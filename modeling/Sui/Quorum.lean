import Mathlib.Algebra.GroupWithZero.Nat
import Mathlib.Algebra.Order.BigOperators.Group.Finset

/-!
# Weighted quorums

The arithmetic every Byzantine quorum argument rests on, over an arbitrary
type of members with a weight function `w : α → ℕ`:

* `weight w s` — the total weight of a finite set of members;
* the inclusion–exclusion identity `weight_union_add_weight_inter`;
* **quorum intersection** (`exists_mem_inter_not_mem`): two sets inside a
  universe `U` whose weights add up to more than `weight U + weight F` share a
  member outside `F`. With `F` the faulty members this is the familiar "two
  quorums meet in an honest member".

Nothing here knows about blocks, rounds or committees.
-/

namespace Quorum

variable {α : Type*} (w : α → ℕ)

/-- The total weight of a finite set of members. -/
def weight (s : Finset α) : ℕ := ∑ a ∈ s, w a

variable {w}

@[simp] theorem weight_empty : weight w ∅ = 0 := rfl

theorem weight_mono {s t : Finset α} (h : s ⊆ t) : weight w s ≤ weight w t :=
  Finset.sum_le_sum_of_subset h

/-- A set heavier than `F` is not contained in `F`. -/
theorem exists_mem_not_mem_of_weight_lt {s F : Finset α} (h : weight w F < weight w s) :
    ∃ a ∈ s, a ∉ F := by
  have hnot : ¬ s ⊆ F := fun hsub => absurd (weight_mono (w := w) hsub) (by omega)
  exact Finset.not_subset.mp hnot

variable [DecidableEq α]

theorem weight_insert {a : α} {s : Finset α} (h : a ∉ s) :
    weight w (insert a s) = w a + weight w s :=
  Finset.sum_insert h

theorem weight_erase_add {a : α} {s : Finset α} (h : a ∈ s) :
    weight w (s.erase a) + w a = weight w s :=
  Finset.sum_erase_add s w h

/-- A list weighs at least the set of its entries. -/
theorem weight_toFinset_le_sum (l : List α) : weight w l.toFinset ≤ (l.map w).sum := by
  induction l with
  | nil => simp
  | cons a l ih =>
    rw [List.toFinset_cons, List.map_cons, List.sum_cons]
    by_cases ha : a ∈ l.toFinset
    · rw [Finset.insert_eq_of_mem ha]
      omega
    · rw [weight_insert ha]
      omega

/-- Inclusion–exclusion for weights. -/
theorem weight_union_add_weight_inter (s t : Finset α) :
    weight w (s ∪ t) + weight w (s ∩ t) = weight w s + weight w t :=
  Finset.sum_union_inter

/-- Two sets inside `U` overlap by at least the amount their weights exceed
`weight U`. -/
theorem weight_add_le_weight_inter_add {s t U : Finset α} (hs : s ⊆ U) (ht : t ⊆ U) :
    weight w s + weight w t ≤ weight w (s ∩ t) + weight w U := by
  have hunion : weight w (s ∪ t) ≤ weight w U := weight_mono (Finset.union_subset hs ht)
  have hie := weight_union_add_weight_inter (w := w) s t
  omega

/-- A set splits into its parts outside and inside `F`. -/
theorem weight_sdiff_add_weight_inter (s F : Finset α) :
    weight w (s \ F) + weight w (s ∩ F) = weight w s := by
  unfold weight
  rw [← Finset.sum_union (Finset.disjoint_sdiff_inter s F), Finset.sdiff_union_inter]

/-- The part of a set outside `F` weighs at least its weight minus `weight F`. -/
theorem weight_le_weight_sdiff_add (s F : Finset α) :
    weight w s ≤ weight w (s \ F) + weight w F := by
  have hsplit := weight_sdiff_add_weight_inter (w := w) s F
  have hinter : weight w (s ∩ F) ≤ weight w F := weight_mono Finset.inter_subset_right
  omega

/-- **Quorum intersection.** Two sets inside `U` whose weights together exceed
`weight U + weight F` share a member outside `F`. -/
theorem exists_mem_inter_not_mem {s t U F : Finset α} (hs : s ⊆ U) (ht : t ⊆ U)
    (h : weight w U + weight w F < weight w s + weight w t) :
    ∃ a, a ∈ s ∧ a ∈ t ∧ a ∉ F := by
  have hmeet := weight_add_le_weight_inter_add (w := w) hs ht
  obtain ⟨a, ha, haF⟩ := exists_mem_not_mem_of_weight_lt (w := w) (s := s ∩ t) (F := F)
    (by omega)
  exact ⟨a, Finset.mem_of_mem_inter_left ha, Finset.mem_of_mem_inter_right ha, haF⟩

/-- The members two sets inside `U` share outside `F` weigh at least the excess
of their weights over `weight U + weight F`. -/
theorem weight_add_le_weight_inter_sdiff_add {s t U F : Finset α} (hs : s ⊆ U) (ht : t ⊆ U) :
    weight w s + weight w t ≤ weight w ((s ∩ t) \ F) + weight w F + weight w U := by
  have hmeet := weight_add_le_weight_inter_add (w := w) hs ht
  have hout := weight_le_weight_sdiff_add (w := w) (s ∩ t) F
  omega

end Quorum
