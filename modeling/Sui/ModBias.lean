import Mathlib.Data.Int.CardIntervalMod
import Mathlib.Algebra.BigOperators.Intervals
import Mathlib.Data.Fintype.Fin
import Mathlib.Order.Interval.Finset.Nat
import Mathlib.Algebra.BigOperators.Fin
import Mathlib.Data.Nat.Digits.Defs
import Mathlib.Algebra.Order.Field.Basic
import Mathlib.Tactic.FieldSimp
import Mathlib.Tactic.Positivity

/-!
# The bias of reducing a uniform number modulo a range

A program that wants a uniform value below `r` and has a uniform value below
`M` usually takes the remainder. Unless `r` divides `M`, the `M % r` smallest
residues are hit once more than the others, so the result is only close to
uniform. This module measures how close, and says how a big-endian number
read from uniform digits is itself uniform.

* **`count_modEq_eq`** — below `M`, residue `i` occurs `M / r` times, plus
  one when `i < M % r` (Mathlib's `Nat.count_modEq_card`).
* **`modBias_eq`** — the statistical distance of `n % r`, for `n` uniform
  below `M`, from the uniform law below `r` is exactly
  `(M % r) * (r - M % r) / (r * M)`, hence at most `r / M` (`modBias_le`).
* **`card_filter_bigEndian`** — reading `k` digits of base `b` big-endian
  is a bijection onto the numbers below `b ^ k`, so it carries uniform digits
  to a uniform number.
* **`rangeBias_le`** — hence `lo + n % r`, for `n` read from `k` uniform
  digits with `b ^ k = 2 ^ (w + s)` and `r ≤ 2 ^ w`, is within `2 ^ -s` of
  uniform on `[lo, lo + r)`.
-/

namespace ModBias

open Finset

/-! ### How often each residue occurs -/

theorem count_modEq_eq {M r i : ℕ} (hr : 0 < r) (hi : i < r) :
    Nat.count (· ≡ i [MOD r]) M = M / r + if i < M % r then 1 else 0 := by
  rw [Nat.count_modEq_card M hr i, Nat.mod_eq_of_lt hi]

/-- The statistical distance between the law of `n % r`, for `n` uniform below `M`, and the
uniform law below `r`. -/
def modBias (M r : ℕ) : ℚ :=
  1 / 2 * ∑ i ∈ range r, |(Nat.count (· ≡ i [MOD r]) M : ℚ) / M - 1 / r|

/-- How far residue `i` is from its fair share: the residues below `M % r` are over by
`r - M % r` parts in `r * M`, the others under by `M % r` parts. -/
theorem deviation_eq {M r i : ℕ} (hr : 0 < r) (hM : 0 < M) (hi : i < r) :
    (Nat.count (· ≡ i [MOD r]) M : ℚ) / M - 1 / r =
      ((if i < M % r then (r : ℚ) else 0) - (M % r : ℕ)) / (r * M) := by
  have hsplit : (M : ℚ) = r * (M / r : ℕ) + (M % r : ℕ) := by
    exact_mod_cast (Nat.div_add_mod M r).symm
  have hr' : (r : ℚ) ≠ 0 := by positivity
  have hM' : (M : ℚ) ≠ 0 := by positivity
  rw [count_modEq_eq hr hi]
  split_ifs with h
  · field_simp
    push_cast
    rw [hsplit]
    ring
  · field_simp
    push_cast
    rw [hsplit]
    ring

theorem modBias_eq {M r : ℕ} (hr : 0 < r) (hM : 0 < M) :
    modBias M r = (M % r : ℕ) * (r - (M % r : ℕ)) / (r * M) := by
  have hs : M % r ≤ r := (Nat.mod_lt M hr).le
  have hpos : (0 : ℚ) < r * M := by positivity
  -- the residues below `M % r` and the others each contribute a constant
  have hlow : ∀ i ∈ Ico 0 (M % r), |(Nat.count (· ≡ i [MOD r]) M : ℚ) / M - 1 / r| =
      (r - (M % r : ℕ)) / (r * M) := by
    intro i hi
    have hi' : i < M % r := (mem_Ico.mp hi).2
    rw [deviation_eq hr hM (hi'.trans_le hs), if_pos hi']
    have hnonneg : (0 : ℚ) ≤ r - (M % r : ℕ) := by
      rw [sub_nonneg]
      exact_mod_cast hs
    rw [abs_of_nonneg (div_nonneg hnonneg hpos.le)]
  have hhigh : ∀ i ∈ Ico (M % r) r, |(Nat.count (· ≡ i [MOD r]) M : ℚ) / M - 1 / r| =
      (M % r : ℕ) / (r * M) := by
    intro i hi
    have hi' : ¬i < M % r := Nat.not_lt.mpr (mem_Ico.mp hi).1
    rw [deviation_eq hr hM (mem_Ico.mp hi).2, if_neg hi', zero_sub, neg_div, abs_neg,
      abs_of_nonneg (div_nonneg (Nat.cast_nonneg _) hpos.le)]
  rw [modBias, range_eq_Ico, ← sum_Ico_consecutive _ (Nat.zero_le _) hs, sum_congr rfl hlow,
    sum_congr rfl hhigh, sum_const, sum_const, Nat.card_Ico, Nat.card_Ico, nsmul_eq_mul,
    nsmul_eq_mul, Nat.sub_zero, Nat.cast_sub hs]
  field_simp
  ring

theorem modBias_le {M r : ℕ} (hr : 0 < r) (hM : 0 < M) : modBias M r ≤ r / M := by
  have hs : M % r ≤ r := (Nat.mod_lt M hr).le
  have hr' : (0 : ℚ) < r := by positivity
  have hM' : (0 : ℚ) < M := by positivity
  rw [modBias_eq hr hM, div_le_div_iff₀ (by positivity) hM']
  -- `s * (r - s) ≤ r * r` for `s ≤ r`
  have hs' : ((M % r : ℕ) : ℚ) ≤ r := by exact_mod_cast hs
  have hsub : (r : ℚ) - (M % r : ℕ) ≤ r := by
    have : (0 : ℚ) ≤ (M % r : ℕ) := Nat.cast_nonneg _
    linarith
  have hsub' : (0 : ℚ) ≤ r - (M % r : ℕ) := by linarith
  calc ((M % r : ℕ) : ℚ) * (r - (M % r : ℕ)) * M ≤ r * r * M := by
        gcongr
    _ = r * (r * M) := by ring

/-! ### Big-endian digits -/

/-- The number whose base-`b` digits, most significant first, are `digits`. -/
def bigEndian (b : ℕ) (digits : List ℕ) : ℕ := digits.foldl (fun acc d => acc * b + d) 0

theorem foldl_bigEndian (b : ℕ) :
    ∀ (digits : List ℕ) (acc : ℕ),
      digits.foldl (fun acc d => acc * b + d) acc = acc * b ^ digits.length + bigEndian b digits
  | [], acc => by simp [bigEndian]
  | d :: digits, acc => by
    have h := foldl_bigEndian b digits
    simp only [bigEndian, List.foldl_cons] at h ⊢
    rw [h (acc * b + d), h (0 * b + d), List.length_cons, pow_succ]
    ring

theorem bigEndian_eq_ofDigits (b : ℕ) (digits : List ℕ) :
    bigEndian b digits = Nat.ofDigits b digits.reverse := by
  induction digits using List.reverseRecOn with
  | nil => rfl
  | append_singleton digits d ih =>
    rw [bigEndian, List.foldl_append, List.foldl_cons, List.foldl_nil, List.reverse_append,
      List.reverse_singleton, List.singleton_append, Nat.ofDigits_cons, ← bigEndian, ih]
    ring

/-- Digits below the base spell a number below `b ^ length`. -/
theorem bigEndian_lt {b : ℕ} {digits : List ℕ} (hb : 1 < b) (hd : ∀ d ∈ digits, d < b) :
    bigEndian b digits < b ^ digits.length := by
  rw [bigEndian_eq_ofDigits, ← List.length_reverse]
  exact Nat.ofDigits_lt_base_pow_length hb fun d h => hd d (List.mem_reverse.mp h)

theorem ofDigits_ofFn (b : ℕ) : ∀ {k : ℕ} (f : Fin k → ℕ),
    Nat.ofDigits b (List.ofFn f) = ∑ i, f i * b ^ (i : ℕ)
  | 0, _ => rfl
  | k + 1, f => by
    rw [List.ofFn_succ, Nat.ofDigits_cons, ofDigits_ofFn b, Fin.sum_univ_succ, mul_sum]
    simp only [Fin.val_zero, pow_zero, mul_one, Fin.val_succ, pow_succ]
    congr 1
    exact sum_congr rfl fun i _ => by ring

theorem reverse_ofFn {α : Type} : ∀ {k : ℕ} (f : Fin k → α),
    (List.ofFn f).reverse = List.ofFn fun i => f i.rev
  | 0, _ => rfl
  | k + 1, f => by
    rw [List.ofFn_succ, List.reverse_cons, reverse_ofFn, List.ofFn_succ', List.concat_eq_append]
    simp only [Fin.rev_castSucc, Fin.rev_last]

/-- Reading `k` digits big-endian, as a bijection onto the numbers below `b ^ k`. -/
def bigEndianEquiv (b k : ℕ) : (Fin k → Fin b) ≃ Fin (b ^ k) :=
  (Equiv.arrowCongr Fin.revPerm (Equiv.refl _)).trans finFunctionFinEquiv

theorem bigEndianEquiv_apply (b k : ℕ) (digits : Fin k → Fin b) :
    (bigEndianEquiv b k digits : ℕ) = bigEndian b (List.ofFn fun j => (digits j : ℕ)) := by
  rw [bigEndian_eq_ofDigits, reverse_ofFn, ofDigits_ofFn, bigEndianEquiv,
    Equiv.trans_apply, finFunctionFinEquiv_apply]
  rfl

/-- Uniform digits read big-endian give a uniform number: each property holds of as many digit
strings as numbers below `b ^ k`. -/
theorem card_filter_bigEndian (b k : ℕ) (P : ℕ → Prop) [DecidablePred P] :
    #{digits : Fin k → Fin b | P (bigEndian b (List.ofFn fun j => (digits j : ℕ)))} =
      #{n ∈ range (b ^ k) | P n} := by
  have hequiv : #{digits : Fin k → Fin b | P (bigEndian b (List.ofFn fun j => (digits j : ℕ)))} =
      #{n : Fin (b ^ k) | P n} := by
    apply card_equiv (bigEndianEquiv b k)
    intro digits
    simp only [mem_filter, mem_univ, true_and, bigEndianEquiv_apply]
  have hmap : (univ.filter fun n : Fin (b ^ k) => P n).map Fin.valEmbedding =
      (range (b ^ k)).filter P := by
    rw [show (univ.filter fun n : Fin (b ^ k) => P n) = univ.filter (P ∘ Fin.valEmbedding) from rfl,
      ← filter_map, Fin.map_valEmbedding_univ, Nat.Iio_eq_range]
  rw [hequiv, ← card_map Fin.valEmbedding, hmap]

/-! ### A uniform number reduced into a range -/

/-- The statistical distance between the law of `lo + n % r`, for `n` read big-endian from `k`
uniform digits of base `b`, and the uniform law on `[lo, lo + r)`; both laws live on that
interval. -/
def rangeBias (b k lo r : ℕ) : ℚ :=
  1 / 2 * ∑ x ∈ Ico lo (lo + r),
    |(#{digits : Fin k → Fin b | lo + bigEndian b (List.ofFn fun j => (digits j : ℕ)) % r = x} : ℚ) /
      (b ^ k : ℕ) - 1 / r|

theorem card_filter_residue (b k r i : ℕ) (hi : i < r) :
    #{digits : Fin k → Fin b | bigEndian b (List.ofFn fun j => (digits j : ℕ)) % r = i} =
      Nat.count (· ≡ i [MOD r]) (b ^ k) := by
  rw [card_filter_bigEndian b k (fun n => n % r = i), Nat.count_eq_card_filter_range]
  congr 1
  apply filter_congr
  intro n _
  rw [Nat.ModEq, Nat.mod_eq_of_lt hi]

/-- Reducing into a range is as biased as reducing into `[0, r)`. -/
theorem rangeBias_eq (b k lo r : ℕ) : rangeBias b k lo r = modBias (b ^ k) r := by
  rw [rangeBias, modBias, sum_Ico_eq_sum_range, Nat.add_sub_cancel_left]
  congr 1
  apply sum_congr rfl
  intro i hi
  have hcount : #{digits : Fin k → Fin b |
      lo + bigEndian b (List.ofFn fun j => (digits j : ℕ)) % r = lo + i} =
        Nat.count (· ≡ i [MOD r]) (b ^ k) := by
    rw [← card_filter_residue b k r i (mem_range.mp hi)]
    congr 1
    apply filter_congr
    intro digits _
    exact Nat.add_left_cancel_iff
  rw [hcount]

/-- With `k` digits of base `b` for a range of at most `2 ^ w` values, and `b ^ k = 2 ^ (w + s)`,
the reduced value is within `2 ^ -s` of uniform. -/
theorem rangeBias_le {b k lo r w s : ℕ} (hr : 0 < r) (hrw : r ≤ 2 ^ w)
    (hbk : b ^ k = 2 ^ (w + s)) : rangeBias b k lo r ≤ 1 / 2 ^ s := by
  have hM : 0 < b ^ k := by rw [hbk]; positivity
  rw [rangeBias_eq]
  calc modBias (b ^ k) r ≤ r / (b ^ k : ℕ) := modBias_le hr hM
    _ ≤ (2 ^ w : ℕ) / (2 ^ (w + s) : ℕ) := by
        rw [hbk]
        exact div_le_div_of_nonneg_right (by exact_mod_cast hrw) (Nat.cast_nonneg _)
    _ = 1 / 2 ^ s := by
        push_cast
        rw [pow_add]
        field_simp

end ModBias
