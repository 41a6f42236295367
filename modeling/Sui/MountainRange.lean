import Mathlib.Data.Nat.Size
import Mathlib.Data.List.GetD
import Mathlib.Algebra.Order.Group.Nat
import Mathlib.Tactic.NormNum

/-!
# Merkle mountain ranges as binary counters

A Merkle mountain range keeps one slot per bit of the number of leaves
inserted so far. Slot `i` is empty (zero) when bit `i` of the count is clear,
and otherwise holds the root of the perfect tree over the `2 ^ i` leaves that
bit counts. Inserting a leaf is the increment of a binary counter: the leaf is
carried up through the full slots, each merged into it and emptied, until an
empty slot (or a new one past the end) takes it (`carry`; `carryM` when the
hash may fail).

* **`carry_peaks`** — inserting a leaf into the slots of `n` leaves gives the
  slots of the `n + 1` leaves (`peaks`), as long as no leaf and no hash is
  zero, so that zero marks exactly the empty slots;
* **`foldl_carry_peaks`** — hence inserting leaves one by one into no slots
  gives `peaks`: as many slots as `n` has bits, slot `i` full exactly when bit
  `i` of `n` is set (`peak_ne_zero_iff`), holding the tree over its block
  (`peak`).

**Proof shape.** The carry passes slot `i` while the bits of `n` below `i` are
set; it then carries the tree over the last `2 ^ i` of the `n + 1` leaves
(`carry_peaks_from`, by induction on the slots left). At a clear bit the
carry stops: bit `i` of `n + 1` is set with its block the last `2 ^ i`
leaves, and no higher bit or block changes (`peak_append_of_div_eq`). At a set
bit the slot's tree and the carried one are the two halves of the tree over
the last `2 ^ (i + 1)` leaves, and bit `i` of `n + 1` is clear. The bit
arithmetic is that of `n % 2 ^ (i + 1)` (`testBit_iff_le_mod`,
`succ_div_two_pow_eq`, `size_succ_eq`).
-/

namespace MountainRange

/-! ## The bits of a counter -/

section Bits

variable {n i : ℕ}

/-- Bit `i` of `n` is set when `n` is at least `2 ^ i` past a multiple of `2 ^ (i + 1)`. -/
theorem testBit_iff_le_mod : n.testBit i = true ↔ 2 ^ i ≤ n % 2 ^ (i + 1) := by
  rw [Nat.testBit_eq_decide_div_mod_eq, decide_eq_true_iff, Nat.mod_pow_succ]
  have hlow : n % 2 ^ i < 2 ^ i := Nat.mod_lt _ (Nat.two_pow_pos i)
  rcases Nat.mod_two_eq_zero_or_one (n / 2 ^ i) with h | h <;> rw [h] <;> omega

/-- Adding one to `n` changes no bit from `k` on while the low `k` bits do not overflow. -/
theorem succ_div_two_pow_eq {k j : ℕ} (h : n % 2 ^ k + 1 < 2 ^ k) (hkj : k ≤ j) :
    (n + 1) / 2 ^ j = n / 2 ^ j := by
  have hk : (n + 1) / 2 ^ k = n / 2 ^ k := by
    have hdm := Nat.div_add_mod n (2 ^ k)
    have hpos := Nat.two_pow_pos k
    rw [Nat.div_eq_of_lt_le (k := n / 2 ^ k) (by rw [Nat.mul_comm]; omega)
      (by rw [Nat.succ_mul, Nat.mul_comm]; omega)]
  obtain ⟨d, rfl⟩ := Nat.exists_eq_add_of_le hkj
  rw [pow_add, ← Nat.div_div_eq_div_mul, ← Nat.div_div_eq_div_mul, hk]

/-- Adding one to `n` keeps its bit length while the low bits below a set one do not overflow. -/
theorem size_succ_eq {k : ℕ} (h : n % 2 ^ (k + 1) + 1 < 2 ^ (k + 1)) (hk : 2 ^ k ≤ n) :
    Nat.size (n + 1) = Nat.size n := by
  apply le_antisymm _ (Nat.size_le_size (Nat.le_succ n))
  rw [Nat.size_le]
  have hlt : n < 2 ^ Nat.size n := Nat.size_le.mp le_rfl
  -- the size is past `k`, where adding one changes no quotient
  have hks : k + 1 ≤ Nat.size n := Nat.lt_size.mpr hk
  have hdiv := succ_div_two_pow_eq h hks
  have hz : n / 2 ^ Nat.size n = 0 := (Nat.div_eq_zero_iff_lt (Nat.two_pow_pos _)).mpr hlt
  rw [← hdiv] at hz
  exact (Nat.div_eq_zero_iff_lt (Nat.two_pow_pos _)).mp hz

/-- The block of bit `i` ends within `n` when the bit is set. -/
theorem block_add_le (hbit : n.testBit i = true) :
    n / 2 ^ (i + 1) * 2 ^ (i + 1) + 2 ^ i ≤ n := by
  have hdm := Nat.div_add_mod n (2 ^ (i + 1))
  have hle := testBit_iff_le_mod.mp hbit
  rw [Nat.mul_comm] at hdm
  omega

end Bits

variable {α : Type} [Zero α] [DecidableEq α]

/-! ## Inserting a leaf -/

/-- Carry `cur` into the slots from the head of the list on: an empty slot
takes it, a full one is hashed into it and emptied, and past the last slot a
new one is added. The hash may fail, in the monad `m`. -/
def carryM {m : Type → Type} [Monad m] (H : α → α → m α) : α → List α → m (List α)
  | cur, [] => pure [cur]
  | cur, r :: rs =>
    if r = 0 then pure (cur :: rs)
    else do
      let cur ← H r cur
      let rs ← carryM H cur rs
      pure (0 :: rs)

variable (H : α → α → α)

/-- `carryM` with a hash that cannot fail. -/
def carry : α → List α → List α
  | cur, [] => [cur]
  | cur, r :: rs => if r = 0 then cur :: rs else 0 :: carry (H r cur) rs

/-- A carry whose hash always succeeds is the pure carry. -/
theorem carryM_eq_pure {m : Type → Type} [Monad m] [LawfulMonad m] {H' : α → α → m α}
    (h : ∀ a b, H' a b = pure (H a b)) :
    ∀ (cur : α) (l : List α), carryM H' cur l = pure (carry H cur l)
  | cur, [] => rfl
  | cur, r :: rs => by
    by_cases hr : r = 0
    · simp [carryM, carry, hr]
    · simp [carryM, carry, hr, h, carryM_eq_pure h]

/-! ## The slots of a count -/

/-- The root of the perfect tree of height `h` over the leaves
`f base, …, f (base + 2 ^ h - 1)`, the older half on the left. -/
def treeRoot (f : ℕ → α) : ℕ → ℕ → α
  | base, 0 => f base
  | base, h + 1 => H (treeRoot f base h) (treeRoot f (base + 2 ^ h) h)

omit [Zero α] [DecidableEq α] in
/-- A tree only reads the leaves it covers. -/
theorem treeRoot_congr {f g : ℕ → α} :
    ∀ (h base : ℕ), (∀ j, base ≤ j → j < base + 2 ^ h → f j = g j) →
      treeRoot H f base h = treeRoot H g base h
  | 0, base, hfg => hfg base le_rfl (by simp)
  | h + 1, base, hfg => by
    have hpow : 2 ^ (h + 1) = 2 ^ h + 2 ^ h := by rw [pow_succ]; omega
    rw [treeRoot, treeRoot,
      treeRoot_congr h base fun j h1 h2 => hfg j h1 (by omega),
      treeRoot_congr h (base + 2 ^ h) fun j h1 h2 => hfg j (by omega) (by omega)]

omit [DecidableEq α] in
/-- A tree over a nonzero first leaf with a hash that is never zero is not zero. -/
theorem treeRoot_ne_zero {f : ℕ → α} (hH : ∀ a b, H a b ≠ 0) {base : ℕ} (hf : f base ≠ 0) :
    ∀ h, treeRoot H f base h ≠ 0
  | 0 => hf
  | _ + 1 => hH _ _

/-- The leaves of a list, read by position. -/
def leaf (leaves : List α) (j : ℕ) : α := leaves.getD j 0

/-- Slot `i` for the leaves: the tree over the block of `2 ^ i` leaves that
bit `i` of their number counts, or empty. -/
def peak (leaves : List α) (i : ℕ) : α :=
  if leaves.length.testBit i then
    treeRoot H (leaf leaves) (leaves.length / 2 ^ (i + 1) * 2 ^ (i + 1)) i
  else 0

/-- The slots of the leaves: one per bit of their number. -/
def peaks (leaves : List α) : List α := (List.range (Nat.size leaves.length)).map (peak H leaves)

omit [DecidableEq α] in
/-- A slot whose bit and block are the same for one more leaf does not change. -/
theorem peak_append_of_div_eq (leaves : List α) (x : α) {j : ℕ}
    (hj : (leaves.length + 1) / 2 ^ j = leaves.length / 2 ^ j)
    (hj' : (leaves.length + 1) / 2 ^ (j + 1) = leaves.length / 2 ^ (j + 1)) :
    peak H (leaves ++ [x]) j = peak H leaves j := by
  have hbit : (leaves.length + 1).testBit j = leaves.length.testBit j := by
    rw [Nat.testBit_eq_decide_div_mod_eq, Nat.testBit_eq_decide_div_mod_eq, hj]
  unfold peak
  rw [List.length_append, List.length_singleton, hbit, hj']
  split_ifs with hset
  · -- the block ends within the old leaves
    apply treeRoot_congr
    intro idx _ hidx
    have hend := block_add_le hset
    exact List.getD_append _ _ _ _ (by omega)
  · rfl

/-- **The carry from slot `i`**: when the bits of `n` below `i` are all set,
carrying the tree over the last `2 ^ i` of the `n + 1` leaves into the slots
of the `n` leaves from `i` on gives the slots of the `n + 1` leaves from `i`
on. The induction is on the number of slots left. -/
theorem carry_peaks_from {leaves : List α} {x : α} (hleaves : ∀ a ∈ leaves, a ≠ 0)
    (hH : ∀ a b, H a b ≠ 0) :
    ∀ (k i : ℕ), Nat.size leaves.length = i + k → leaves.length % 2 ^ i + 1 = 2 ^ i →
      carry H (treeRoot H (leaf (leaves ++ [x])) (leaves.length + 1 - 2 ^ i) i)
          ((List.range' i k).map (peak H leaves)) =
        (List.range' i (Nat.size (leaves.length + 1) - i)).map (peak H (leaves ++ [x]))
  | 0, i, hsize, hlow => by
    -- past the last slot: `n = 2 ^ i - 1` and the new slot holds all `2 ^ i` leaves
    set n := leaves.length with hn
    have hlt : n < 2 ^ i := Nat.size_le.mp (by omega)
    have hsucc : n + 1 = 2 ^ i := by rw [Nat.mod_eq_of_lt hlt] at hlow; exact hlow
    have hstart : (n + 1) / 2 ^ (i + 1) * 2 ^ (i + 1) = 0 := by
      rw [hsucc, Nat.div_eq_of_lt (Nat.pow_lt_pow_right (by norm_num) (Nat.lt_succ_self i)),
        Nat.zero_mul]
    have hpeak : peak H (leaves ++ [x]) i = treeRoot H (leaf (leaves ++ [x])) 0 i := by
      rw [peak, List.length_append, List.length_singleton, ← hn, hstart, hsucc,
        Nat.testBit_two_pow_self, if_pos rfl]
    rw [List.range'_zero, List.map_nil, carry, hsucc, Nat.size_pow, Nat.add_sub_cancel_left,
      Nat.sub_self, List.range'_one, List.map_singleton, hpeak]
  | k + 1, i, hsize, hlow => by
    set n := leaves.length with hn
    have hi : 2 ^ i ≤ n := Nat.lt_size.mp (by omega)
    have hmod := Nat.mod_pow_succ (x := n) (b := 2) (k := i)
    have hdm := Nat.div_add_mod n (2 ^ (i + 1))
    have hpow : 2 ^ (i + 1) = 2 ^ i + 2 ^ i := by rw [pow_succ]; omega
    rw [List.range'_succ, List.map_cons]
    by_cases hbit : n.testBit i = true
    · -- a full slot: merge it into the carry and go on with the next bit
      have hhigh : n % 2 ^ (i + 1) = 2 ^ i - 1 + 2 ^ i := by
        have h1 : n / 2 ^ i % 2 = 1 := by
          rw [Nat.testBit_eq_decide_div_mod_eq, decide_eq_true_iff] at hbit
          exact hbit
        rw [hmod, h1, Nat.mul_one]
        omega
      have hstart : n / 2 ^ (i + 1) * 2 ^ (i + 1) = n + 1 - 2 ^ (i + 1) := by
        rw [Nat.mul_comm]; omega
      have hslot : peak H leaves i =
          treeRoot H (leaf leaves) (n + 1 - 2 ^ (i + 1)) i := by
        rw [peak, ← hn, if_pos hbit, hstart]
      have hne : peak H leaves i ≠ 0 := by
        rw [hslot]
        apply treeRoot_ne_zero H hH
        have hpos : n + 1 - 2 ^ (i + 1) < n := by omega
        rw [leaf, List.getD_eq_getElem _ _ hpos]
        exact hleaves _ (List.getElem_mem hpos)
      -- the slot's tree and the carried one are the halves of the next tree
      have hmerge : H (peak H leaves i)
            (treeRoot H (leaf (leaves ++ [x])) (n + 1 - 2 ^ i) i) =
          treeRoot H (leaf (leaves ++ [x])) (n + 1 - 2 ^ (i + 1)) (i + 1) := by
        rw [hslot, treeRoot, show n + 1 - 2 ^ (i + 1) + 2 ^ i = n + 1 - 2 ^ i by omega]
        congr 1
        apply treeRoot_congr
        intro idx _ hidx
        exact (List.getD_append _ _ _ _ (by omega)).symm
      have hclear : (n + 1).testBit i = false := by
        rw [← Bool.not_eq_true, testBit_iff_le_mod]
        have hnext : n + 1 = 2 ^ (i + 1) * (n / 2 ^ (i + 1) + 1) := by
          rw [Nat.mul_add, Nat.mul_one]; omega
        rw [hnext, Nat.mul_mod_right]
        omega
      have hsize' : i < Nat.size (n + 1) := by
        have := Nat.size_le_size (Nat.le_add_right n 1); omega
      rw [carry, if_neg hne, hmerge,
        carry_peaks_from hleaves hH k (i + 1) (by rw [← hn]; omega) (by rw [← hn]; omega),
        show Nat.size (n + 1) - i = Nat.size (n + 1) - (i + 1) + 1 by omega, List.range'_succ,
        List.map_cons]
      congr 1
      rw [peak, List.length_append, List.length_singleton, ← hn, hclear]
      rfl
    · -- an empty slot: it takes the carry, and no higher slot changes
      have hlow' : n % 2 ^ (i + 1) = 2 ^ i - 1 := by
        have h0 : n / 2 ^ i % 2 = 0 := by
          rw [Nat.testBit_eq_decide_div_mod_eq, decide_eq_true_iff] at hbit
          omega
        rw [hmod, h0, Nat.mul_zero, Nat.add_zero]
        omega
      have hfit : n % 2 ^ (i + 1) + 1 < 2 ^ (i + 1) := by omega
      have hslot : peak H leaves i = 0 := by
        rw [peak, ← hn, if_neg hbit]
      have hstart : (n + 1) / 2 ^ (i + 1) * 2 ^ (i + 1) = n + 1 - 2 ^ i := by
        rw [succ_div_two_pow_eq hfit le_rfl, Nat.mul_comm]; omega
      have hset : (n + 1).testBit i = true := by
        rw [testBit_iff_le_mod]
        have hdm' := Nat.div_add_mod (n + 1) (2 ^ (i + 1))
        rw [succ_div_two_pow_eq hfit le_rfl] at hdm'
        omega
      rw [carry, if_pos hslot, size_succ_eq hfit hi, hsize, show i + (k + 1) - i = k + 1 by omega,
        List.range'_succ, List.map_cons]
      congr 1
      · rw [peak, List.length_append, List.length_singleton, ← hn, if_pos hset, hstart]
      · apply List.map_congr_left
        intro j hj
        have hij : i + 1 ≤ j := (List.mem_range'_1.mp hj).1
        exact (peak_append_of_div_eq H leaves x (succ_div_two_pow_eq hfit hij)
          (succ_div_two_pow_eq hfit (by omega))).symm

/-- **Inserting a leaf increments the counter.** -/
theorem carry_peaks {leaves : List α} {x : α} (hleaves : ∀ a ∈ leaves, a ≠ 0)
    (hH : ∀ a b, H a b ≠ 0) : carry H x (peaks H leaves) = peaks H (leaves ++ [x]) := by
  have h := carry_peaks_from H (x := x) hleaves hH (Nat.size leaves.length) 0 (by omega)
    (by rw [pow_zero, Nat.mod_one, Nat.zero_add])
  have hx : treeRoot H (leaf (leaves ++ [x])) (leaves.length + 1 - 2 ^ 0) 0 = x := by
    simp [treeRoot, leaf]
  rw [hx, Nat.sub_zero, ← List.range_eq_range'] at h
  rw [peaks, h, peaks, List.length_append, List.length_singleton, List.range_eq_range']

/-- **Inserting leaves one by one** gives the slots of all of them. -/
theorem foldl_carry_peaks (hH : ∀ a b, H a b ≠ 0) :
    ∀ (init leaves : List α), (∀ a ∈ init ++ leaves, a ≠ 0) →
      leaves.foldl (fun mmr v => carry H v mmr) (peaks H init) = peaks H (init ++ leaves)
  | init, [], _ => by rw [List.append_nil]; rfl
  | init, x :: rest, hne => by
    rw [List.foldl_cons,
      carry_peaks H (fun a ha => hne a (List.mem_append_left _ ha)) hH,
      foldl_carry_peaks hH (init ++ [x]) rest (by simpa using hne), List.append_assoc,
      List.singleton_append]

omit [DecidableEq α] in
theorem peaks_nil : peaks H ([] : List α) = [] := by
  rw [peaks, List.length_nil, Nat.size_zero, List.range_zero, List.map_nil]

omit [DecidableEq α] in
theorem getD_peaks (leaves : List α) {i : ℕ} (hi : i < Nat.size leaves.length) :
    (peaks H leaves).getD i 0 = peak H leaves i := by
  rw [peaks, List.getD_eq_getElem?_getD, List.getElem?_map, List.getElem?_range hi]
  rfl

omit [DecidableEq α] in
theorem length_peaks (leaves : List α) : (peaks H leaves).length = Nat.size leaves.length := by
  rw [peaks, List.length_map, List.length_range]

omit [DecidableEq α] in
/-- Slot `i` is full exactly when bit `i` of the number of leaves is set. -/
theorem peak_ne_zero_iff {leaves : List α} (hleaves : ∀ a ∈ leaves, a ≠ 0)
    (hH : ∀ a b, H a b ≠ 0) (i : ℕ) : peak H leaves i ≠ 0 ↔ leaves.length.testBit i = true := by
  constructor
  · intro hne
    by_contra hbit
    exact hne (by rw [peak, if_neg hbit])
  · intro hbit
    rw [peak, if_pos hbit]
    apply treeRoot_ne_zero H hH
    have hlt : leaves.length / 2 ^ (i + 1) * 2 ^ (i + 1) < leaves.length := by
      have := block_add_le hbit
      have := Nat.two_pow_pos i
      omega
    rw [leaf, List.getD_eq_getElem _ _ hlt]
    exact hleaves _ (List.getElem_mem hlt)

end MountainRange
