import Mathlib.Order.Lattice
import Mathlib.Logic.Equiv.Basic
import Mathlib.Data.Nat.Basic
import Mathlib.Order.Basic

/-!
# Array binary heaps

A max-heap laid out in an array: the children of position `i` are `i * 2 + 1`
and `i * 2 + 2`, so the parent of `k > 0` is `(k - 1) / 2`. The keys are a function
`f : ℕ → β` into a linear order, of which the first `len` positions are the
heap; a swap of two positions is `f ∘ Equiv.swap i j`.

* `HeapFrom f len lo` — every position whose parent is at `lo` or past it is
  at most its parent; at `lo = 0` it is the heap order (`IsHeap`).
* **`DownOrder`** — what sifting down from `hole` needs: the pairs whose parent
  is not the hole are in order, and the hole's children are at most the hole's
  parent. `DownOrder.swap` moves the hole to its larger child,
  `DownOrder.finish` ends when the hole is at least both children.
* **`UpOrder`** — what sifting up from `hole` needs: the pairs off the hole are
  in order, and the hole's children are at most its parent. `UpOrder.swap`
  moves the hole to its parent, `UpOrder.finish` ends when the hole is at most
  its parent.
* **`IsHeap.le_root`** — the root is a maximum.

The invariants follow the usual "heap except at the hole" formulation of the
two sifts.
-/

namespace BinaryHeap

/-- The parent of position `k > 0`. -/
def parent (k : ℕ) : ℕ := (k - 1) / 2

theorem parent_lt {k : ℕ} (hk : 0 < k) : parent k < k := by
  unfold parent
  omega

/-- The children of `i` are `i * 2 + 1` and the one after it. -/
theorem parent_eq_iff {k i : ℕ} (hk : 0 < k) : parent k = i ↔ k = i * 2 + 1 ∨ k = i * 2 + 1 + 1 := by
  unfold parent
  omega

theorem parent_left (i : ℕ) : parent (i * 2 + 1) = i := by
  unfold parent
  omega

theorem parent_right (i : ℕ) : parent (i * 2 + 1 + 1) = i := by
  unfold parent
  omega

variable {β : Type*} [LinearOrder β] (f : ℕ → β) (len : ℕ)

/-- The pairs of the first `len` positions whose parent is at `lo` or past it are in order. -/
def HeapFrom (lo : ℕ) : Prop :=
  ∀ k < len, 0 < k → lo ≤ parent k → f k ≤ f (parent k)

/-- The heap order on the first `len` positions. -/
def IsHeap : Prop :=
  ∀ k < len, 0 < k → f k ≤ f (parent k)

/-- What sifting down from `hole` needs, the subtrees at `lo` and past it being heaps otherwise. -/
structure DownOrder (lo hole : ℕ) : Prop where
  except : ∀ k < len, 0 < k → lo ≤ parent k → parent k ≠ hole → f k ≤ f (parent k)
  grand : 0 < hole → lo ≤ parent hole → ∀ k < len, 0 < k → parent k = hole → f k ≤ f (parent hole)

/-- What sifting up from `hole` needs. -/
structure UpOrder (hole : ℕ) : Prop where
  except : ∀ k < len, 0 < k → k ≠ hole → f k ≤ f (parent k)
  grand : 0 < hole → ∀ k < len, 0 < k → parent k = hole → f k ≤ f (parent hole)

/-- `m` is where the keys of `i` and its children peak: `i` itself, or a child above it. -/
structure Largest (i m : ℕ) : Prop where
  le_self : f i ≤ f m
  le_children : ∀ k < len, 0 < k → parent k = i → f k ≤ f m
  eq_or_child : m = i ∨ (0 < m ∧ m < len ∧ parent m = i ∧ f i < f m)

variable {f len}

theorem Largest.of_children {i m : ℕ} (hle : f i ≤ f m) (hl : i * 2 + 1 < len → f (i * 2 + 1) ≤ f m)
    (hr : i * 2 + 1 + 1 < len → f (i * 2 + 1 + 1) ≤ f m)
    (h : m = i ∨ (0 < m ∧ m < len ∧ parent m = i ∧ f i < f m)) : Largest f len i m where
  le_self := hle
  le_children k hk hk0 hpk := by
    rcases (parent_eq_iff hk0).mp hpk with rfl | rfl
    · exact hl hk
    · exact hr hk
  eq_or_child := h

theorem isHeap_iff_heapFrom_zero : IsHeap f len ↔ HeapFrom f len 0 :=
  ⟨fun h k hk hk0 _ => h k hk hk0, fun h k hk hk0 => h k hk hk0 (Nat.zero_le _)⟩

/-- Past the middle no position has a child, so every array is a heap from there. -/
theorem heapFrom_half (f : ℕ → β) (len : ℕ) : HeapFrom f len (len / 2) := by
  intro k hk hk0 hlo
  unfold parent at hlo
  omega

/-- The root is at least every position of a heap. The induction climbs from a position to its
parent. -/
theorem IsHeap.le_root (h : IsHeap f len) : ∀ k < len, f k ≤ f 0 := by
  intro k
  induction k using Nat.strong_induction_on with
  | _ k ih =>
    intro hk
    rcases Nat.eq_zero_or_pos k with rfl | hk0
    · exact le_rfl
    · have hp := parent_lt hk0
      exact (h k hk hk0).trans (ih (parent k) hp (by omega))

/-! ### Sifting down -/

/-- Below a heap from `i + 1`, sifting down starts at `i`. -/
theorem HeapFrom.downOrder {i : ℕ} (h : HeapFrom f len (i + 1)) : DownOrder f len i i where
  except k hk hk0 hlo hne := h k hk hk0 (by omega)
  grand hi hlo := absurd hlo (Nat.not_le.mpr (parent_lt hi))

/-- A heap with its root replaced, and its last position dropped, sifts down from the root. -/
theorem IsHeap.downOrder_of_eqOn {g : ℕ → β} (h : IsHeap f (len + 1))
    (heq : ∀ k, 0 < k → k < len → g k = f k) : DownOrder g len 0 0 where
  except k hk hk0 _ hne := by
    rw [heq k hk0 hk, heq (parent k) (Nat.pos_of_ne_zero hne) ((parent_lt hk0).trans hk)]
    exact h k (by omega) hk0
  grand h0 := absurd h0 (lt_irrefl 0)

/-- The hole moves to its child `m`, the larger of its children and larger than the hole. -/
theorem DownOrder.swap {lo i m : ℕ} (o : DownOrder f len lo i) (hlo : lo ≤ i) (hm0 : 0 < m)
    (hm : m < len) (hpm : parent m = i) (hlt : f i < f m)
    (hmax : ∀ k < len, 0 < k → parent k = i → f k ≤ f m) :
    DownOrder (f ∘ Equiv.swap i m) len lo m := by
  have him : i < m := hpm ▸ parent_lt hm0
  have hpi : ∀ k, 0 < k → parent k = m → k ≠ i := by
    intro k hk0 hk h
    have := parent_lt hk0
    omega
  constructor
  · intro k hk hk0 hlok hne
    simp only [Function.comp_apply]
    by_cases hki : k = i
    · -- the hole's old parent and the child moved up into the hole
      subst hki
      have hpk : parent k ≠ m := by have := parent_lt hk0; omega
      rw [Equiv.swap_apply_left, Equiv.swap_apply_of_ne_of_ne (parent_lt hk0).ne hpk]
      exact o.grand hk0 hlok m hm hm0 hpm
    · by_cases hkm : k = m
      · subst hkm
        rw [Equiv.swap_apply_right, hpm, Equiv.swap_apply_left]
        exact hlt.le
      · rw [Equiv.swap_apply_of_ne_of_ne hki hkm]
        by_cases hpki : parent k = i
        · rw [hpki, Equiv.swap_apply_left]
          exact hmax k hk hk0 hpki
        · rw [Equiv.swap_apply_of_ne_of_ne hpki hne]
          exact o.except k hk hk0 hlok hpki
  · intro _ hlom k hk hk0 hpk
    simp only [Function.comp_apply]
    rw [hpm, Equiv.swap_apply_left, Equiv.swap_apply_of_ne_of_ne (hpi k hk0 hpk)
      (by have := parent_lt hk0; omega)]
    have := o.except k hk hk0 (by omega) (by omega)
    rwa [hpk] at this

/-- The sift stops where the hole is at least its children. -/
theorem DownOrder.finish {lo i : ℕ} (o : DownOrder f len lo i)
    (hstop : ∀ k < len, 0 < k → parent k = i → f k ≤ f i) : HeapFrom f len lo := by
  intro k hk hk0 hlo
  by_cases hpk : parent k = i
  · rw [hpk]
    exact hstop k hk hk0 hpk
  · exact o.except k hk hk0 hlo hpk

/-! ### Sifting up -/

/-- A heap with one more position pushed at its end sifts up from there. -/
theorem IsHeap.upOrder_push {g : ℕ → β} (h : IsHeap f len) (heq : ∀ k < len, g k = f k) :
    UpOrder g (len + 1) len where
  except k hk hk0 hne := by
    rw [heq k (by omega), heq (parent k) ((parent_lt hk0).trans (by omega))]
    exact h k (by omega) hk0
  grand _ k hk hk0 hpk := by
    rw [parent_eq_iff hk0] at hpk
    omega

/-- The hole moves to its parent when it is larger. -/
theorem UpOrder.swap {j : ℕ} (o : UpOrder f len j) (hj0 : 0 < j) (hj : j < len)
    (hlt : f (parent j) < f j) : UpOrder (f ∘ Equiv.swap j (parent j)) len (parent j) := by
  have hpj := parent_lt hj0
  constructor
  · intro k hk hk0 hne
    simp only [Function.comp_apply]
    by_cases hkj : k = j
    · subst hkj
      rw [Equiv.swap_apply_left, Equiv.swap_apply_right]
      exact hlt.le
    · rw [Equiv.swap_apply_of_ne_of_ne hkj hne]
      by_cases hpkj : parent k = j
      · -- a child of the hole, now below the hole's old parent
        rw [hpkj, Equiv.swap_apply_left]
        exact o.grand hj0 k hk hk0 hpkj
      · by_cases hpkp : parent k = parent j
        · -- the hole's sibling, below the old parent and so below the hole's key
          rw [hpkp, Equiv.swap_apply_right]
          exact (o.except k hk hk0 hkj |>.trans_eq (by rw [hpkp])).trans hlt.le
        · rw [Equiv.swap_apply_of_ne_of_ne hpkj hpkp]
          exact o.except k hk hk0 hkj
  · intro hp0 k hk hk0 hpk
    simp only [Function.comp_apply]
    have hpp := parent_lt hp0
    have hgj : parent (parent j) ≠ j := by omega
    have hgp : parent (parent j) ≠ parent j := by omega
    rw [Equiv.swap_apply_of_ne_of_ne hgj hgp]
    have hup := o.except (parent j) (hpj.trans hj) hp0 (by omega)
    by_cases hkj : k = j
    · subst hkj
      rw [Equiv.swap_apply_left]
      exact hup
    · have hkp : k ≠ parent j := by have := parent_lt hk0; omega
      rw [Equiv.swap_apply_of_ne_of_ne hkj hkp]
      have := o.except k hk hk0 hkj
      rw [hpk] at this
      exact this.trans hup

/-- The sift stops where the hole is at most its parent, or at the root. -/
theorem UpOrder.finish {j : ℕ} (o : UpOrder f len j) (hstop : 0 < j → j < len → f j ≤ f (parent j)) :
    IsHeap f len := by
  intro k hk hk0
  by_cases hkj : k = j
  · subst hkj
    exact hstop hk0 hk
  · exact o.except k hk hk0 hkj

end BinaryHeap
