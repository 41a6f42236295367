import Mathlib.Algebra.GroupWithZero.Nat
import Mathlib.Algebra.BigOperators.Group.List.Basic
import Mathlib.Data.List.Sort
import Mathlib.Data.Prod.Lex
import Mathlib.Order.Bounds.Defs

/-!
# The first key at which a running weight reaches a threshold

Entries are pairs of a key and a weight. Walking a list of entries and adding
up the weights, `firstReach t` returns the key of the first entry at which the
running sum reaches `t`. On a list sorted by key this is a weighted quantile:
the key `k` it returns has less than `t` weight strictly below it and at least
`t` weight at or below it (`firstReach_spec`), and it returns a key whenever
the whole list weighs `t` (`firstReach_isSome`). So the forward scan finds the
least key at or below which `t` weight lies (`isLeast_firstReach`), and the
scan from the far end the greatest key at or above which it does
(`isGreatest_firstReach_reverse`); when `t` is more than half the weight, the
second lies at or below the first (`le_of_two_mul_gt`).

Those two bounds pin the key down (`eq_of_quantile`, and `eq_of_upper_quantile`
for the bounds from above), and they only depend on the multiset of entries
(`weight_perm`), so any sorted arrangement of the same entries gives the same
key. A test and its negation split the whole weight (`weight_add_weight_not`),
which turns a bound from below into one from above. Walking the list from its far end is the same scan
for the opposite order of keys (`firstReach_reverse_spec`), with the bounds
mirrored.

Nothing here knows what the keys or the weights stand for.
-/

namespace WeightedScan

variable {α β : Type*}

/-- Add up the weights along the entries, starting from `cum`, and return the
key of the first entry at which the sum reaches `t`. -/
def firstReach (t : ℕ) : List (α × ℕ) → ℕ → Option α
  | [], _ => none
  | (k, w) :: l, cum => if t ≤ cum + w then some k else firstReach t l (cum + w)

/-- The total weight of the entries whose key passes `p`. -/
def weight (p : α → Bool) (l : List (α × ℕ)) : ℕ :=
  ((l.filter fun e => p e.1).map Prod.snd).sum

/-! ## Weights -/

@[simp] theorem weight_nil (p : α → Bool) : weight p ([] : List (α × ℕ)) = 0 := rfl

theorem weight_cons (p : α → Bool) (k : α) (w : ℕ) (l : List (α × ℕ)) :
    weight p ((k, w) :: l) = (if p k then w else 0) + weight p l := by
  unfold weight
  by_cases hk : p k <;> simp [hk]

/-- A weaker test passes more weight. -/
theorem weight_mono {p q : α → Bool} (h : ∀ a, p a = true → q a = true) (l : List (α × ℕ)) :
    weight p l ≤ weight q l := by
  induction l with
  | nil => exact le_rfl
  | cons e l ih =>
    obtain ⟨k, w⟩ := e
    rw [weight_cons, weight_cons]
    by_cases hp : p k
    · rw [if_pos hp, if_pos (h k hp)]
      omega
    · rw [if_neg hp]
      omega

/-- The weight of the entries only depends on which entries there are. -/
theorem weight_perm (p : α → Bool) {l l' : List (α × ℕ)} (h : l.Perm l') :
    weight p l = weight p l' :=
  ((h.filter _).map Prod.snd).sum_eq

/-- Two disjoint tests together pass at most the whole weight. -/
theorem weight_add_weight_le {p q : α → Bool} (h : ∀ a, p a = true → q a = false)
    (l : List (α × ℕ)) : weight p l + weight q l ≤ (l.map Prod.snd).sum := by
  induction l with
  | nil => exact le_rfl
  | cons e l ih =>
    obtain ⟨k, w⟩ := e
    rw [weight_cons, weight_cons, List.map_cons, List.sum_cons]
    by_cases hp : p k
    · rw [if_pos hp, if_neg (by simp [h k hp])]
      omega
    · rw [if_neg hp]
      split_ifs <;> omega

/-- A test and its negation split the weight. -/
theorem weight_add_weight_not (p : α → Bool) (l : List (α × ℕ)) :
    weight p l + weight (fun a => !p a) l = (l.map Prod.snd).sum := by
  induction l with
  | nil => rfl
  | cons e l ih =>
    obtain ⟨k, w⟩ := e
    rw [weight_cons, weight_cons, List.map_cons, List.sum_cons]
    cases p k <;> simp only [Bool.not_false, Bool.not_true, Bool.false_eq_true, if_true,
      if_false] <;> omega

/-- Renaming the keys renames the key found. -/
theorem firstReach_map_key (f : α → β) (t : ℕ) :
    ∀ (l : List (α × ℕ)) (cum : ℕ),
      firstReach t (l.map fun e => (f e.1, e.2)) cum = (firstReach t l cum).map f
  | [], _ => rfl
  | (k, w) :: l, cum => by
    simp only [List.map_cons, firstReach]
    split_ifs
    · rfl
    · exact firstReach_map_key f t l (cum + w)

/-- The scan finds a key as soon as the list weighs enough. -/
theorem firstReach_isSome {t : ℕ} : ∀ {l : List (α × ℕ)} {cum : ℕ},
    cum < t → t ≤ cum + (l.map Prod.snd).sum → ∃ k, firstReach t l cum = some k
  | [], cum, hcum, h => by simp at h; omega
  | (k', w) :: l, cum, hcum, h => by
    unfold firstReach
    split_ifs with hreach
    · exact ⟨k', rfl⟩
    · rw [List.map_cons, List.sum_cons] at h
      exact firstReach_isSome (by omega) (by omega)

/-! ## The scan on a sorted list -/

section Sorted

variable [LinearOrder α]

/-- Insertion sort by a key into a linear order sorts by that key. -/
theorem pairwise_insertionSort_key (f : β → α) (l : List β) :
    (l.insertionSort fun a b => f a ≤ f b).Pairwise fun a b => f a ≤ f b := by
  have : Std.Total fun a b : β => f a ≤ f b := ⟨fun a b => le_total (f a) (f b)⟩
  have : IsTrans β fun a b => f a ≤ f b := ⟨fun _ _ _ => le_trans⟩
  exact List.pairwise_insertionSort _ l

/-- Sorting pairs lexicographically sorts them by their first component. -/
theorem pairwise_fst_insertionSort_lex {γ : Type*} [LinearOrder γ] (l : List (α × γ)) :
    (l.insertionSort fun a b => toLex a ≤ toLex b).Pairwise fun a b => a.1 ≤ b.1 :=
  (pairwise_insertionSort_key toLex l).imp fun hab => by
    rcases Prod.Lex.toLex_le_toLex.mp hab with hlt | ⟨heq, -⟩
    · exact hlt.le
    · exact heq.le

/-- Below the head of a sorted list lies no weight of the list. -/
theorem weight_lt_head_eq_zero {k : α} {l : List (α × ℕ)} (h : ∀ e ∈ l, k ≤ e.1) :
    weight (fun x => decide (x < k)) l = 0 := by
  induction l with
  | nil => rfl
  | cons e l ih =>
    rw [weight_cons, ih fun e' he' => h e' (List.mem_cons_of_mem e he'),
      if_neg (by simpa using h e List.mem_cons_self)]

variable {t : ℕ}

/-- **The key found is a weighted quantile.** On a list sorted by key, the key
the scan stops at is a key of the list with less than `t` weight below it and
at least `t` weight at or below it, counting the weight `cum` carried in. -/
theorem firstReach_spec : ∀ {l : List (α × ℕ)} {cum : ℕ} {k : α},
    l.Pairwise (fun a b => a.1 ≤ b.1) → cum < t → firstReach t l cum = some k →
      k ∈ l.map Prod.fst ∧ cum + weight (fun x => decide (x < k)) l < t ∧
        t ≤ cum + weight (fun x => decide (x ≤ k)) l
  | [], _, _, _, _, h => by cases h
  | (k', w) :: l, cum, k, hsorted, hcum, h => by
    have hhead : ∀ e ∈ l, k' ≤ e.1 := fun e he => (List.pairwise_cons.mp hsorted).1 e he
    unfold firstReach at h
    split_ifs at h with hreach
    · -- the head reaches `t`: nothing of the list lies below it
      cases h
      refine ⟨List.mem_cons_self, ?_, ?_⟩
      · rw [weight_cons, if_neg (by simp), weight_lt_head_eq_zero hhead]
        omega
      · rw [weight_cons, if_pos (by simp)]
        omega
    · -- the key is found further on, at or above the head
      obtain ⟨hmem, hbelow, hatMost⟩ :=
        firstReach_spec (List.pairwise_cons.mp hsorted).2 (by omega) h
      have hk' : k' ≤ k := by
        obtain ⟨e, he, rfl⟩ := List.mem_map.mp hmem
        exact hhead e he
      refine ⟨List.mem_cons_of_mem _ hmem, ?_, ?_⟩
      · rw [weight_cons]
        split_ifs <;> omega
      · rw [weight_cons, if_pos (by simpa using hk')]
        omega

/-- **A weighted quantile is unique**: of two keys with less than `t` below
and at least `t` at or below, neither can be the smaller. -/
theorem eq_of_quantile {l : List (α × ℕ)} {k₁ k₂ : α}
    (h₁ : weight (fun x => decide (x < k₁)) l < t ∧ t ≤ weight (fun x => decide (x ≤ k₁)) l)
    (h₂ : weight (fun x => decide (x < k₂)) l < t ∧ t ≤ weight (fun x => decide (x ≤ k₂)) l) :
    k₁ = k₂ := by
  -- the weight at or below the smaller key is weight strictly below the larger one
  have key : ∀ {a b : α}, a < b →
      weight (fun x => decide (x ≤ a)) l ≤ weight (fun x => decide (x < b)) l := fun hab =>
    weight_mono (fun x hx => by simpa using lt_of_le_of_lt (by simpa using hx) hab) l
  rcases lt_trichotomy k₁ k₂ with hlt | heq | hgt
  · have := key hlt
    omega
  · exact heq
  · have := key hgt
    omega

/-- **A weighted quantile from above is unique**: of two keys with less than
`t` above and at least `t` at or above, neither can be the larger. -/
theorem eq_of_upper_quantile {l : List (α × ℕ)} {k₁ k₂ : α}
    (h₁ : weight (fun x => decide (k₁ < x)) l < t ∧ t ≤ weight (fun x => decide (k₁ ≤ x)) l)
    (h₂ : weight (fun x => decide (k₂ < x)) l < t ∧ t ≤ weight (fun x => decide (k₂ ≤ x)) l) :
    k₁ = k₂ := by
  -- the weight at or above the larger key is weight strictly above the smaller one
  have key : ∀ {a b : α}, a < b →
      weight (fun x => decide (b ≤ x)) l ≤ weight (fun x => decide (a < x)) l := fun hab =>
    weight_mono (fun x hx => by simpa using lt_of_lt_of_le hab (by simpa using hx)) l
  rcases lt_trichotomy k₁ k₂ with hlt | heq | hgt
  · have := key hlt
    omega
  · exact heq
  · have := key hgt
    omega

/-- Walking a sorted list from its far end finds the key above which less than
`t` weight lies and at or above which at least `t` does: the scan of the
reversed list, sorted for the opposite order. -/
theorem firstReach_reverse_spec {l : List (α × ℕ)} {cum : ℕ} {k : α}
    (hsorted : l.Pairwise (fun a b => a.1 ≤ b.1)) (hcum : cum < t)
    (h : firstReach t l.reverse cum = some k) :
    k ∈ l.map Prod.fst ∧ cum + weight (fun x => decide (k < x)) l < t ∧
      t ≤ cum + weight (fun x => decide (k ≤ x)) l := by
  -- the same entries with keys in the dual order, where the reversed list is sorted
  set d : List (αᵒᵈ × ℕ) := l.reverse.map fun e => (OrderDual.toDual e.1, e.2) with hd
  have hdsorted : d.Pairwise (fun a b => a.1 ≤ b.1) := by
    rw [hd, List.pairwise_map, List.pairwise_reverse]
    exact hsorted.imp fun hab => OrderDual.toDual_le_toDual.mpr hab
  have hdk : firstReach t d cum = some (OrderDual.toDual k) := by
    rw [hd, firstReach_map_key, h, Option.map_some]
  obtain ⟨hmem, hbelow, hatMost⟩ := firstReach_spec hdsorted hcum hdk
  -- the dual weights are the mirrored weights of the original list
  have hweight : ∀ p : α → Bool, weight (fun x => p (OrderDual.ofDual x)) d = weight p l := by
    intro p
    rw [hd, weight, List.filter_map, List.map_map]
    exact ((List.reverse_perm _).filter _).map _ |>.sum_eq
  refine ⟨?_, ?_, ?_⟩
  · rw [hd, List.map_map, List.mem_map] at hmem
    obtain ⟨e, he, hek⟩ := hmem
    exact List.mem_map.mpr ⟨e, List.mem_reverse.mp he, hek⟩
  · rw [← hweight]
    exact hbelow
  · rw [← hweight]
    exact hatMost

/-- **The forward scan finds the least key at or below which `t` weight lies.** -/
theorem isLeast_firstReach {l : List (α × ℕ)} {k : α} (hsorted : l.Pairwise (fun a b => a.1 ≤ b.1))
    (ht : 0 < t) (h : firstReach t l 0 = some k) :
    IsLeast {r | t ≤ weight (fun x => decide (x ≤ r)) l} k := by
  obtain ⟨-, hbelow, hatMost⟩ := firstReach_spec hsorted ht h
  refine ⟨by simpa using hatMost, fun r hr => ?_⟩
  -- a smaller bound would leave its weight below `k`, which is short of `t`
  by_contra hlt
  have hle : weight (fun x => decide (x ≤ r)) l ≤ weight (fun x => decide (x < k)) l :=
    weight_mono (fun x hx => by simpa using lt_of_le_of_lt (by simpa using hx) (not_le.mp hlt)) l
  simp only [Set.mem_ofPred_eq] at hr
  omega

/-- **The reverse scan finds the greatest key at or above which `t` weight
lies.** -/
theorem isGreatest_firstReach_reverse {l : List (α × ℕ)} {k : α}
    (hsorted : l.Pairwise (fun a b => a.1 ≤ b.1)) (ht : 0 < t)
    (h : firstReach t l.reverse 0 = some k) :
    IsGreatest {r | t ≤ weight (fun x => decide (r ≤ x)) l} k := by
  obtain ⟨-, habove, hatLeast⟩ := firstReach_reverse_spec hsorted ht h
  refine ⟨by simpa using hatLeast, fun r hr => ?_⟩
  by_contra hlt
  have hle : weight (fun x => decide (r ≤ x)) l ≤ weight (fun x => decide (k < x)) l :=
    weight_mono (fun x hx => by simpa using lt_of_lt_of_le (not_le.mp hlt) (by simpa using hx)) l
  simp only [Set.mem_ofPred_eq] at hr
  omega

/-- When `t` is more than half the weight, a key with `t` at or above it lies
at or below every key with `t` at or below it: otherwise the two parts are
disjoint and weigh `2 t` together. -/
theorem le_of_two_mul_gt {l : List (α × ℕ)} {a b : α} (hmaj : (l.map Prod.snd).sum < 2 * t)
    (ha : t ≤ weight (fun x => decide (a ≤ x)) l) (hb : t ≤ weight (fun x => decide (x ≤ b)) l) :
    a ≤ b := by
  by_contra hlt
  have hdisjoint := weight_add_weight_le (p := fun x => decide (x ≤ b)) (q := fun x => decide (a ≤ x))
    (fun x hx => by simpa using lt_of_le_of_lt (by simpa using hx) (not_le.mp hlt)) l
  omega

/-- Sorting the entries lexicographically and scanning forward finds the
least key at or below which `t` weight lies, as soon as there is that much. -/
theorem isLeast_firstReach_sortLex {l : List (α × ℕ)} (ht : 0 < t)
    (hl : t ≤ (l.map Prod.snd).sum) :
    ∃ k, firstReach t (l.insertionSort fun a b => toLex a ≤ toLex b) 0 = some k ∧
      IsLeast {r | t ≤ weight (fun x => decide (x ≤ r)) l} k := by
  have hperm := List.perm_insertionSort (fun a b : α × ℕ => toLex a ≤ toLex b) l
  obtain ⟨k, hk⟩ := firstReach_isSome (t := t) ht (by rw [(hperm.map _).sum_eq]; omega)
  refine ⟨k, hk, ?_⟩
  simpa only [weight_perm _ hperm] using isLeast_firstReach (pairwise_fst_insertionSort_lex l) ht hk

/-- Sorting the entries lexicographically and scanning from the far end finds
the greatest key at or above which `t` weight lies, as soon as there is that
much. -/
theorem isGreatest_firstReach_reverse_sortLex {l : List (α × ℕ)} (ht : 0 < t)
    (hl : t ≤ (l.map Prod.snd).sum) :
    ∃ k, firstReach t (l.insertionSort fun a b => toLex a ≤ toLex b).reverse 0 = some k ∧
      IsGreatest {r | t ≤ weight (fun x => decide (r ≤ x)) l} k := by
  have hperm := List.perm_insertionSort (fun a b : α × ℕ => toLex a ≤ toLex b) l
  obtain ⟨k, hk⟩ := firstReach_isSome (t := t) ht
    (by rw [List.map_reverse, List.sum_reverse, (hperm.map _).sum_eq]; omega)
  refine ⟨k, hk, ?_⟩
  simpa only [weight_perm _ hperm] using
    isGreatest_firstReach_reverse (pairwise_fst_insertionSort_lex l) ht hk

end Sorted

end WeightedScan
