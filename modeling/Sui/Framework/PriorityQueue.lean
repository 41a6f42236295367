import Sui.MoveArith
import Sui.BinaryHeap

set_option linter.dupNamespace false

/-!
# Priority queues (`sui::priority_queue`)

A `PriorityQueue` keeps its entries in a vector laid out as a binary max-heap
on their priorities. `new` heapifies a vector bottom-up, sifting down every
parent from the middle of the vector to the root; `insert` pushes an entry and
sifts it up (`restore_heap_recursive`); `pop_max` swaps the root out with
`swap_remove` and sifts the moved entry down (`max_heapify_recursive`).

The model keeps the entries a `List`, with every read, swap and assertion the
source makes, each of which may abort (`MoveArith`). The heap order is that of
`BinaryHeap` on `priorityAt`, the priority at each position.

* **`largestOf_spec`** — the `max` of `max_heapify_recursive` is where the
  priorities of `i` and its children peak, read only within the vector.
* **`maxHeapifyRecursive_spec`**, **`restoreHeapRecursive_spec`** — the two
  sifts never abort and take a vector that is a heap but at the hole to a
  permutation that is a heap (`BinaryHeap.DownOrder`, `BinaryHeap.UpOrder`).
* **`new_spec`**, **`insert_spec`**, **`popMax_spec`** — each operation keeps
  the heap and the multiset of entries, and `pop_max` returns a maximum.
* **`popMaxN_spec`**, **`runCalls_spec`** — popping a heap empty returns its
  entries by non-increasing priority, and over any sequence of calls the only
  abort is a pop of an empty queue.

**Proof shape.** Each sift is an induction along its recursion, one
`BinaryHeap` step lemma per swap and a `finish` lemma where it stops.
-/

namespace Sui

namespace PriorityQueue

open MoveArith BinaryHeap

/-- The abort codes of `sui::priority_queue`. -/
inductive Code
  | ePopFromEmptyHeap
  | eLengthMismatch
  | eIndexOutOfBounds
  deriving DecidableEq, Repr

/-- `Entry`: a value and its priority; a higher priority is popped first. -/
structure Entry (T : Type) where
  priority : ℕ
  value : T
  deriving DecidableEq, Repr

/-- `PriorityQueue`: the entries, a max-heap on their priorities. -/
structure PriorityQueue (T : Type) where
  entries : List (Entry T)
  deriving DecidableEq, Repr

variable {T : Type}

/-- The child of `i` with the higher priority when it beats `i`, else `i`: the `max` that
`max_heapify_recursive` computes, with the bound the recursion descends by. -/
def largestOf (v : List (Entry T)) (len i : ℕ) :
    Except (Abort Code) {m : ℕ // m = i ∨ i < m ∧ m < len} := do
  let left := i * 2 + 1
  let right := left + 1
  let max : {m : ℕ // m = i ∨ i < m ∧ m < len} := ⟨i, .inl rfl⟩
  -- `left < len && v[left] > v[max]` reads `v[left]` only when `left < len`
  let max ← if hl : left < len then do
      if (← getAt v left).priority > (← getAt v max.val).priority then
        pure ⟨left, .inr ⟨by omega, hl⟩⟩
      else pure max
    else pure max
  let max ← if hr : right < len then do
      if (← getAt v right).priority > (← getAt v max.val).priority then
        pure ⟨right, .inr ⟨by omega, hr⟩⟩
      else pure max
    else pure max
  pure max

/-- `max_heapify_recursive`: sift the entry at `i` down the heap of the first `len` entries. -/
def maxHeapifyRecursive (v : List (Entry T)) (len i : ℕ) : Except (Abort Code) (List (Entry T)) :=
  if len = 0 then pure v
  else do
    assert (i < len) Code.eIndexOutOfBounds
    let max ← largestOf v len i
    if max.val ≠ i then
      let v ← swapAt v max.val i
      maxHeapifyRecursive v len max.val
    else pure v
termination_by len - i
decreasing_by
  rcases max.property with h | h
  · omega
  · omega

/-- `restore_heap_recursive`: sift the entry at `i` up while it beats its parent. -/
def restoreHeapRecursive (v : List (Entry T)) (i : ℕ) : Except (Abort Code) (List (Entry T)) :=
  if h : i = 0 then pure v
  else do
    let parent := (i - 1) / 2
    if (← getAt v i).priority > (← getAt v parent).priority then
      let v ← swapAt v i parent
      restoreHeapRecursive v parent
    else pure v
termination_by i
decreasing_by omega

/-- The loop of `new`: `i` counts down to zero, heapifying below each position. -/
def newLoop (v : List (Entry T)) (len : ℕ) : ℕ → Except (Abort Code) (List (Entry T))
  | 0 => pure v
  | i + 1 => do
    let v ← maxHeapifyRecursive v len i
    newLoop v len i

/-- `new`. -/
def new (entries : List (Entry T)) : Except (Abort Code) (PriorityQueue T) := do
  let len := entries.length
  let entries ← newLoop entries len (len / 2)
  pure ⟨entries⟩

/-- `pop_max`: the priority and value of the root, and the queue without it. -/
def popMax (pq : PriorityQueue T) : Except (Abort Code) ((ℕ × T) × PriorityQueue T) := do
  let len := pq.entries.length
  assert (len > 0) Code.ePopFromEmptyHeap
  let (⟨priority, value⟩, entries) ← swapRemove pq.entries 0
  let entries ← maxHeapifyRecursive entries (len - 1) 0
  pure ((priority, value), ⟨entries⟩)

/-- `insert`. -/
def insert (pq : PriorityQueue T) (priority : ℕ) (value : T) : Except (Abort Code) (PriorityQueue T) := do
  let entries := pq.entries ++ [⟨priority, value⟩]
  let index := entries.length - 1
  let entries ← restoreHeapRecursive entries index
  pure ⟨entries⟩

/-- `new_entry`. -/
def newEntry (priority : ℕ) (value : T) : Entry T := ⟨priority, value⟩

/-- `create_entries`: the entries paired up from a vector of priorities and one of values. -/
def createEntries (p : List ℕ) (v : List T) : Except (Abort Code) (List (Entry T)) := do
  assert (v.length = p.length) Code.eLengthMismatch
  -- `zip_do_reverse!` pushes the pairs from the back, and the result is reversed
  let res := ((p.zip v).reverse.map fun (priority, value) => (⟨priority, value⟩ : Entry T))
  pure res.reverse

/-- `priorities`. -/
def priorities (pq : PriorityQueue T) : List ℕ := pq.entries.map Entry.priority

/-- The priority at position `k`, zero past the end. -/
def priorityAt (v : List (Entry T)) (k : ℕ) : ℕ := (v[k]?.map Entry.priority).getD 0

/-- The heap property of the entries: no entry has a higher priority than its parent. -/
def IsHeap (v : List (Entry T)) : Prop :=
  ∀ i < v.length, 0 < i → priorityAt v i ≤ priorityAt v ((i - 1) / 2)


/-! ### Priorities and the heap order -/

section Priorities

variable {v : List (Entry T)} {k : ℕ}

@[simp]
theorem priority_getElem (hk : k < v.length) : v[k].priority = priorityAt v k := by
  simp [priorityAt, List.getElem?_eq_getElem hk]

theorem isHeap_iff : IsHeap v ↔ BinaryHeap.IsHeap (priorityAt v) v.length := Iff.rfl

/-- A swap of two entries swaps their priorities. -/
theorem priorityAt_swap {i j : ℕ} (hi : i < v.length) (hj : j < v.length) :
    priorityAt (v.swap i j) = priorityAt v ∘ Equiv.swap i j := by
  funext k
  simp only [Function.comp_apply, priorityAt]
  by_cases hk : k < v.length
  · rw [List.getElem?_eq_getElem (by rw [List.length_swap]; exact hk), List.getElem_swap]
    by_cases hki : k = i
    · subst hki
      rw [Equiv.swap_apply_left, List.getElem?_eq_getElem hj]
      split_ifs <;> simp_all
    · by_cases hkj : k = j
      · subst hkj
        rw [Equiv.swap_apply_right, List.getElem?_eq_getElem hi]
        simp [hki, hi]
      · rw [Equiv.swap_apply_of_ne_of_ne hki hkj, List.getElem?_eq_getElem hk]
        simp [hki, hkj]
  · have hki : k ≠ i := by omega
    have hkj : k ≠ j := by omega
    rw [Equiv.swap_apply_of_ne_of_ne hki hkj, List.getElem?_eq_none (by rw [List.length_swap]; omega),
      List.getElem?_eq_none (by omega)]

theorem priorityAt_dropLast (hk : k < v.length - 1) : priorityAt v.dropLast k = priorityAt v k := by
  simp only [priorityAt, List.getElem?_dropLast, if_pos hk]

theorem priorityAt_append_left {w : List (Entry T)} (hk : k < v.length) :
    priorityAt (v ++ w) k = priorityAt v k := by
  simp only [priorityAt, List.getElem?_append_left hk]

end Priorities

/-- `largestOf` reads only entries in range, and returns where the priorities of `i` and its
children peak. -/
theorem largestOf_spec {v : List (Entry T)} {len i : ℕ} (hlen : len ≤ v.length) (hi : i < len) :
    ∃ m, largestOf v len i = .ok m ∧ Largest (priorityAt v) len i m.val := by
  unfold largestOf
  dsimp only
  have hiv : i < v.length := by omega
  split_ifs with hl hr hr
  · -- both children in range: the two comparisons of the source
    simp only [getAt_eq_ok hiv, getAt_eq_ok (show i * 2 + 1 < v.length by omega),
      getAt_eq_ok (show i * 2 + 1 + 1 < v.length by omega), ok_bind, pure_bind, priority_getElem]
    split_ifs with h1 h2 h3
    all_goals refine ⟨_, rfl, ?_⟩
    all_goals dsimp only
    all_goals refine .of_children (by omega) (fun _ => by omega) (fun _ => by omega) ?_
    · exact .inr ⟨by omega, hr, parent_right i, by omega⟩
    · exact .inr ⟨by omega, hl, parent_left i, h1⟩
    · exact .inr ⟨by omega, hr, parent_right i, h3⟩
    · exact .inl rfl
  · simp only [getAt_eq_ok hiv, getAt_eq_ok (show i * 2 + 1 < v.length by omega), ok_bind,
      priority_getElem]
    split_ifs with h1
    all_goals refine ⟨_, rfl, ?_⟩
    all_goals dsimp only
    all_goals refine .of_children (by omega) (fun _ => by omega) (fun h => absurd h hr) ?_
    · exact .inr ⟨by omega, hl, parent_left i, h1⟩
    · exact .inl rfl
  · omega
  · exact ⟨_, rfl, .of_children le_rfl (fun h => absurd h hl) (fun h => absurd h hr) (.inl rfl)⟩

theorem maxHeapifyRecursive_zero (v : List (Entry T)) (i : ℕ) : maxHeapifyRecursive v 0 i = .ok v := by
  rw [maxHeapifyRecursive, if_pos rfl]
  rfl

/-- `max_heapify_recursive` over the whole vector, from a position where sifting down may start,
never aborts: it returns a permutation of the vector whose subtrees at `lo` and past it are
heaps. The induction is on `len - i`, which each recursive call decreases. -/
theorem maxHeapifyRecursive_spec {len lo : ℕ} :
    ∀ (n : ℕ) (v : List (Entry T)) (i : ℕ), len - i = n → v.length = len → i < len → lo ≤ i →
      DownOrder (priorityAt v) len lo i →
      ∃ v', maxHeapifyRecursive v len i = .ok v' ∧ v'.Perm v ∧ HeapFrom (priorityAt v') len lo := by
  intro n
  induction n using Nat.strong_induction_on with
  | _ n ih =>
    intro v i hn hlen hi hlo o
    obtain ⟨m, hm, hlarge⟩ := largestOf_spec (le_of_eq hlen.symm) hi
    rw [maxHeapifyRecursive, if_neg (by omega), assert_eq_ok hi, ok_bind, hm, ok_bind]
    by_cases hmi : m.val = i
    · -- `i` is at least its children: the sift stops
      rw [if_neg (not_not.mpr hmi)]
      refine ⟨v, rfl, List.Perm.refl v, o.finish fun k hk hk0 hpk => ?_⟩
      rw [← hmi]
      exact hlarge.le_children k hk hk0 hpk
    · -- the larger child moves up and the sift continues from it
      obtain ⟨hm0, hmlen, hpm, hlt⟩ := hlarge.eq_or_child.resolve_left hmi
      rw [if_pos hmi, swapAt_eq_ok (by omega) (by omega), ok_bind]
      have hswap : priorityAt (v.swap m i) = priorityAt v ∘ Equiv.swap i m := by
        rw [priorityAt_swap (by omega) (by omega), Equiv.swap_comm]
      have o' := o.swap hlo hm0 hmlen hpm hlt hlarge.le_children
      rw [← hswap] at o'
      obtain ⟨v', hv', hperm, hheap⟩ := ih (len - m) (by omega) (v.swap m i) m rfl
        (by rw [List.length_swap, hlen]) hmlen (by omega) o'
      exact ⟨v', hv', hperm.trans (List.swap_perm v m i), hheap⟩

/-- `restore_heap_recursive` from a position where sifting up may start never aborts: it returns
a permutation that is a heap. The induction climbs from a position to its parent. -/
theorem restoreHeapRecursive_spec {len : ℕ} :
    ∀ (j : ℕ) (v : List (Entry T)), v.length = len → j < len → UpOrder (priorityAt v) len j →
      ∃ v', restoreHeapRecursive v j = .ok v' ∧ v'.Perm v ∧ BinaryHeap.IsHeap (priorityAt v') len := by
  intro j
  induction j using Nat.strong_induction_on with
  | _ j ih =>
    intro v hlen hj o
    rcases Nat.eq_zero_or_pos j with rfl | hj0
    · rw [restoreHeapRecursive, dif_pos rfl]
      exact ⟨v, rfl, List.Perm.refl v, o.finish fun h => absurd h (lt_irrefl 0)⟩
    have hpj : (j - 1) / 2 = parent j := rfl
    have hp := parent_lt hj0
    rw [restoreHeapRecursive, dif_neg (by omega)]
    dsimp only
    rw [getAt_eq_ok (show j < v.length by omega), ok_bind,
      getAt_eq_ok (show (j - 1) / 2 < v.length by rw [hpj]; omega), ok_bind]
    simp only [priority_getElem, hpj]
    by_cases hlt : priorityAt v (parent j) < priorityAt v j
    · -- the entry beats its parent: they swap and the sift continues from the parent
      rw [if_pos hlt, swapAt_eq_ok (by omega) (by omega), ok_bind]
      have o' := o.swap hj0 hj hlt
      rw [← priorityAt_swap (by omega) (by omega)] at o'
      obtain ⟨v', hv', hperm, hheap⟩ := ih (parent j) hp (v.swap j (parent j))
        (by rw [List.length_swap, hlen]) (by omega) o'
      exact ⟨v', hv', hperm.trans (List.swap_perm v j (parent j)), hheap⟩
    · rw [if_neg hlt]
      exact ⟨v, rfl, List.Perm.refl v, o.finish fun _ _ => Nat.le_of_not_lt hlt⟩

/-- The loop of `new` heapifies below each position it visits, so from the middle down it
leaves a heap. The induction is on the positions still to visit. -/
theorem newLoop_spec {len : ℕ} :
    ∀ (i : ℕ) (v : List (Entry T)), v.length = len → i ≤ len / 2 → HeapFrom (priorityAt v) len i →
      ∃ v', newLoop v len i = .ok v' ∧ v'.Perm v ∧ BinaryHeap.IsHeap (priorityAt v') len
  | 0, v, _, _, h => ⟨v, rfl, List.Perm.refl v, isHeap_iff_heapFrom_zero.mpr h⟩
  | i + 1, v, hlen, hi, h => by
    obtain ⟨v₁, hv₁, hperm₁, hheap₁⟩ :=
      maxHeapifyRecursive_spec (len - i) v i rfl hlen (by omega) le_rfl h.downOrder
    obtain ⟨v', hv', hperm, hheap⟩ :=
      newLoop_spec i v₁ (hperm₁.length_eq.trans hlen) (by omega) hheap₁
    rw [newLoop, hv₁, ok_bind]
    exact ⟨v', hv', hperm.trans hperm₁, hheap⟩

/-- `new` never aborts, and returns a heap of the entries it is given. -/
theorem new_spec (entries : List (Entry T)) :
    ∃ pq, new entries = .ok pq ∧ pq.entries.Perm entries ∧ IsHeap pq.entries := by
  obtain ⟨v', hv', hperm, hheap⟩ :=
    newLoop_spec (entries.length / 2) entries rfl le_rfl (heapFrom_half _ _)
  refine ⟨⟨v'⟩, ?_, hperm, ?_⟩
  · rw [new, hv']
    rfl
  · rw [isHeap_iff, hperm.length_eq]
    exact hheap

/-- `insert` never aborts, keeps the heap, and adds exactly the new entry. -/
theorem insert_spec {pq : PriorityQueue T} (h : IsHeap pq.entries) (priority : ℕ) (value : T) :
    ∃ pq', insert pq priority value = .ok pq' ∧
      pq'.entries.Perm (pq.entries ++ [⟨priority, value⟩]) ∧ IsHeap pq'.entries := by
  have hlen : (pq.entries ++ [Entry.mk priority value]).length = pq.entries.length + 1 := by simp
  -- the pushed entry sifts up from the end of a heap
  have o : UpOrder (priorityAt (pq.entries ++ [Entry.mk priority value])) (pq.entries.length + 1)
      pq.entries.length :=
    (isHeap_iff.mp h).upOrder_push fun k hk => priorityAt_append_left hk
  obtain ⟨v', hv', hperm, hheap⟩ :=
    restoreHeapRecursive_spec pq.entries.length (pq.entries ++ [Entry.mk priority value]) hlen
      (by omega) o
  refine ⟨⟨v'⟩, ?_, hperm, ?_⟩
  · rw [insert, hlen, Nat.add_sub_cancel, hv']
    rfl
  · rw [isHeap_iff, hperm.length_eq, hlen]
    exact hheap

/-- `pop_max` on a non-empty heap never aborts: it returns the root, an entry of the highest
priority, and leaves a heap of the other entries. -/
theorem popMax_spec {pq : PriorityQueue T} (h : IsHeap pq.entries) (hne : pq.entries ≠ []) :
    ∃ e pq', popMax pq = .ok ((e.priority, e.value), pq') ∧ (e :: pq'.entries).Perm pq.entries ∧
      (∀ x ∈ pq.entries, x.priority ≤ e.priority) ∧ IsHeap pq'.entries := by
  set v := pq.entries with hv
  have hpos : 0 < v.length := List.length_pos_iff.mpr hne
  set w := (v.swap 0 (v.length - 1)).dropLast with hw
  have hwlen : w.length = v.length - 1 := by rw [hw, List.length_dropLast, List.length_swap]
  -- `swap_remove(0)` leaves the heap with its root replaced and its last position dropped
  have hagree : ∀ k, 0 < k → k < v.length - 1 → priorityAt w k = priorityAt v k := by
    intro k hk0 hk
    rw [hw, priorityAt_dropLast (by rw [List.length_swap]; exact hk),
      priorityAt_swap hpos (by omega), Function.comp_apply,
      Equiv.swap_apply_of_ne_of_ne (by omega) (by omega)]
  have hheap : BinaryHeap.IsHeap (priorityAt v) (v.length - 1 + 1) := by
    rw [Nat.sub_add_cancel hpos]
    exact h
  have o := hheap.downOrder_of_eqOn hagree
  have hsift : ∃ v', maxHeapifyRecursive w (v.length - 1) 0 = .ok v' ∧ v'.Perm w ∧
      BinaryHeap.IsHeap (priorityAt v') (v.length - 1) := by
    rcases Nat.eq_zero_or_pos (v.length - 1) with hone | hmore
    · rw [hone]
      exact ⟨w, maxHeapifyRecursive_zero w 0, List.Perm.refl w, fun k hk => absurd hk (Nat.not_lt_zero k)⟩
    · obtain ⟨v', hv', hperm, hheap'⟩ :=
        maxHeapifyRecursive_spec (v.length - 1) w 0 (Nat.sub_zero _) hwlen hmore le_rfl o
      exact ⟨v', hv', hperm, isHeap_iff_heapFrom_zero.mpr hheap'⟩
  obtain ⟨v', hv', hperm, hheap'⟩ := hsift
  refine ⟨v[0], ⟨v'⟩, ?_, ?_, ?_, ?_⟩
  · rw [popMax]
    simp only [← hv]
    rw [assert_eq_ok hpos, ok_bind, swapRemove_eq_ok hpos, ok_bind]
    dsimp only
    rw [← hw, hv']
    rfl
  · exact (hperm.cons v[0]).trans (perm_of_swapRemove 0 hpos)
  · intro x hx
    obtain ⟨k, hk, rfl⟩ := List.getElem_of_mem hx
    rw [priority_getElem, priority_getElem]
    exact (isHeap_iff.mp h).le_root k hk
  · rw [isHeap_iff, hperm.length_eq, hwlen]
    exact hheap'

/-! ### Runs of calls -/

/-- A client popping `n` times in a row. -/
def popMaxN : ℕ → PriorityQueue T → Except (Abort Code) (List (ℕ × T))
  | 0, _ => pure []
  | n + 1, pq => do
    let (entry, pq) ← popMax pq
    let rest ← popMaxN n pq
    pure (entry :: rest)

/-- A call a client makes on a queue, its result dropped. -/
inductive Call (T : Type)
  | insert (priority : ℕ) (value : T)
  | popMax

/-- One call on a queue. -/
def Call.run (pq : PriorityQueue T) : Call T → Except (Abort Code) (PriorityQueue T)
  | .insert priority value => Sui.PriorityQueue.insert pq priority value
  | .popMax => do
    let (_, pq) ← Sui.PriorityQueue.popMax pq
    pure pq

/-- A sequence of calls, stopping at the first abort. -/
def runCalls (pq : PriorityQueue T) (calls : List (Call T)) : Except (Abort Code) (PriorityQueue T) :=
  calls.foldlM Call.run pq

theorem popMax_nil : (popMax ⟨([] : List (Entry T))⟩ : Except (Abort Code) _) =
    .error (.abort .ePopFromEmptyHeap) := rfl

/-- Popping a heap until it is empty returns its entries by non-increasing priority. The
induction is on the number of entries left. -/
theorem popMaxN_spec :
    ∀ (n : ℕ) (pq : PriorityQueue T), pq.entries.length = n → IsHeap pq.entries →
      ∃ out, popMaxN n pq = .ok out ∧ out.Perm (pq.entries.map fun e => (e.priority, e.value)) ∧
        (out.map Prod.fst).Pairwise (· ≥ ·)
  | 0, pq, hlen, _ => ⟨[], rfl, by rw [List.length_eq_zero_iff.mp hlen]; exact List.Perm.refl _,
      List.Pairwise.nil⟩
  | n + 1, pq, hlen, h => by
    obtain ⟨e, pq', hpop, hperm, hmax, hheap⟩ := popMax_spec h (List.ne_nil_of_length_pos (by omega))
    have hlen' : pq'.entries.length = n := by
      have := hperm.length_eq
      rw [List.length_cons] at this
      omega
    obtain ⟨out, hout, hperm', hsorted⟩ := popMaxN_spec n pq' hlen' hheap
    refine ⟨(e.priority, e.value) :: out, ?_, ?_, ?_⟩
    · rw [popMaxN, hpop, ok_bind]
      dsimp only
      rw [hout]
      rfl
    · exact (hperm'.cons _).trans (hperm.map fun e : Entry T => (e.priority, e.value))
    · -- every later priority is one of the entries left, none above the one popped
      refine List.pairwise_cons.mpr ⟨fun y hy => ?_, hsorted⟩
      obtain ⟨⟨p, val⟩, hmem, rfl⟩ := List.mem_map.mp hy
      obtain ⟨x, hx, hxe⟩ := List.mem_map.mp (hperm'.subset hmem)
      rw [← hxe]
      exact hmax x (hperm.subset (List.mem_cons_of_mem e hx))

/-- Over any sequence of calls on a heap, the queue stays a heap, and the only abort is a pop of
an empty queue. -/
theorem runCalls_spec :
    ∀ (calls : List (Call T)) (pq : PriorityQueue T), IsHeap pq.entries →
      (∃ pq', runCalls pq calls = .ok pq' ∧ IsHeap pq'.entries) ∨
        runCalls pq calls = .error (.abort .ePopFromEmptyHeap)
  | [], pq, h => .inl ⟨pq, rfl, h⟩
  | call :: calls, pq, h => by
    -- one call keeps the heap or pops an empty queue
    have hstep : (∃ pq', call.run pq = .ok pq' ∧ IsHeap pq'.entries) ∨
        call.run pq = .error (.abort .ePopFromEmptyHeap) := by
      cases call with
      | insert priority value =>
        obtain ⟨pq', hins, -, hheap⟩ := insert_spec h priority value
        exact .inl ⟨pq', hins, hheap⟩
      | popMax =>
        by_cases hnil : pq.entries = []
        · right
          rw [Call.run, show pq = ⟨[]⟩ from congrArg PriorityQueue.mk hnil, popMax_nil]
          rfl
        · obtain ⟨e, pq', hpop, -, -, hheap⟩ := popMax_spec h hnil
          left
          refine ⟨pq', ?_, hheap⟩
          rw [Call.run, hpop]
          rfl
    unfold runCalls
    rw [List.foldlM_cons]
    rcases hstep with ⟨pq', hrun, hheap⟩ | hrun
    · rw [hrun, ok_bind]
      exact runCalls_spec calls pq' hheap
    · rw [hrun]
      exact .inr rfl

/-! ### The queue is a max-heap -/

/-- `new`, `insert` and `pop_max` keep the queue a binary max-heap of exactly its entries, a heap
pops out by non-increasing priority, and on any run from `new` no call aborts except a pop of an
empty queue. -/
theorem priorityQueue_is_max_heap :
    (∀ entries : List (Entry T),
      ∃ pq, new entries = .ok pq ∧ pq.entries.Perm entries ∧ IsHeap pq.entries) ∧
    (∀ (pq : PriorityQueue T) (priority : ℕ) (value : T), IsHeap pq.entries →
      ∃ pq', insert pq priority value = .ok pq' ∧
        pq'.entries.Perm (pq.entries ++ [Entry.mk priority value]) ∧ IsHeap pq'.entries) ∧
    (∀ pq : PriorityQueue T, IsHeap pq.entries → pq.entries ≠ [] →
      ∃ e pq', popMax pq = .ok ((e.priority, e.value), pq') ∧ (e :: pq'.entries).Perm pq.entries ∧
        (∀ x ∈ pq.entries, x.priority ≤ e.priority) ∧ IsHeap pq'.entries) ∧
    (∀ pq : PriorityQueue T, IsHeap pq.entries →
      ∃ out, popMaxN pq.entries.length pq = .ok out ∧
        out.Perm (pq.entries.map fun e => (e.priority, e.value)) ∧
        (out.map Prod.fst).Pairwise (· ≥ ·)) ∧
    (∀ (entries : List (Entry T)) (calls : List (Call T)), ∃ pq, new entries = .ok pq ∧
      ((∃ pq', runCalls pq calls = .ok pq' ∧ IsHeap pq'.entries) ∨
        runCalls pq calls = .error (.abort .ePopFromEmptyHeap))) := by
  refine ⟨new_spec, fun pq priority value h => insert_spec h priority value,
    fun pq h hne => popMax_spec h hne, fun pq h => popMaxN_spec _ pq rfl h, fun entries calls => ?_⟩
  obtain ⟨pq, hnew, -, h⟩ := new_spec entries
  exact ⟨pq, hnew, runCalls_spec calls pq h⟩

/-- A queue built from three entries, an insert into it, and a pop from the
result: each step's heap order lets the next one apply, and the pop returns
the highest priority of the four, 9. -/
theorem priorityQueue_is_max_heap_three :
    ∃ (pq pq' pq'' : PriorityQueue Char) (e : Entry Char),
      new [⟨5, 'a'⟩, ⟨9, 'b'⟩, ⟨1, 'c'⟩] = .ok pq ∧ insert pq 7 'd' = .ok pq' ∧
      popMax pq' = .ok ((e.priority, e.value), pq'') ∧ e.priority = 9 ∧ IsHeap pq''.entries := by
  obtain ⟨hnew, hinsert, hpop, -, -⟩ := priorityQueue_is_max_heap (T := Char)
  obtain ⟨pq, hpq, hperm, hheap⟩ := hnew [⟨5, 'a'⟩, ⟨9, 'b'⟩, ⟨1, 'c'⟩]
  obtain ⟨pq', hpq', hperm', hheap'⟩ := hinsert pq 7 'd' hheap
  -- the four entries, in some order
  have hall := hperm'.trans ((hperm.append_right _))
  have hne : pq'.entries ≠ [] := fun h => by simpa [h] using hall.length_eq
  obtain ⟨e, pq'', hpop', hperm'', hmax, hheap''⟩ := hpop pq' hheap' hne
  refine ⟨pq, pq', pq'', e, hpq, hpq', hpop', ?_, hheap''⟩
  -- the popped entry is one of the four and at least the one of priority 9
  have he : e ∈ [⟨5, 'a'⟩, ⟨9, 'b'⟩, ⟨1, 'c'⟩, ⟨7, 'd'⟩] :=
    hall.subset (hperm''.subset List.mem_cons_self)
  have h9 := hmax ⟨9, 'b'⟩ (hall.symm.subset (by simp))
  simp only [List.mem_cons, List.not_mem_nil, or_false] at he
  rcases he with rfl | rfl | rfl | rfl <;> simp_all

end PriorityQueue

end Sui
