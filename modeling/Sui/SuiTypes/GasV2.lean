import Mathlib.Data.Nat.Log
import Mathlib.Tactic.NormNum
import Sui.RoundUp
import Sui.MoveArith
import Sui.Consensus.Types

/-!
# Rounding of the computation charge (`sui_types::gas_model::gas_v2`)

At the end of a transaction `bucketize_computation` turns the gas units used
into the computation cost: it rounds the units by the protocol's
`GasRoundingMode`, multiplies them by the effective gas price, and charges the
whole budget with `InsufficientGas` when that reaches the budget. The modes are
`KeepHalfDigits` (`half_digits_rounding`: round up to a multiple of
`10 ^ (⌊log₁₀ n⌋ / 2)`, at least 1000), `Stepped(s)` (round up to a positive
multiple of `s`) and `Bucketize` (the cost of the first bucket of
`computation_bucket` whose maximum is not below the units).

The module is compiled under `with_checked_arithmetic`, which turns every
`+`, `-`, `*`, `/` and `%` into the checked operation and panics when it
fails, in every build; a panic is `none` (`checkedAdd`, `checkedMul`).

* **`halfDigitsRounding_eq_some`**, **`halfDigitsRounding_eq_none`** — up to
  `18,446,744,073,000,000,000` the product fits and `half_digits_rounding`
  returns `halfDigitsRounded`, `roundUp` by its base; past that bound the
  exact product is at least `2^64` (`roundUp_ge_two_pow_of_bound_lt`) and it
  panics.
* **`halfDigitsRounded_monotone`**, **`halfDigitsRounded_idem`** — the
  rounding is monotone across changes of the digit count and idempotent,
  since a rounded value that gains a digit is a power of ten.
* **`stepped_spec`** — the stepped mode in closed form;
  **`getBucketCost_monotone`**: any table whose costs do not decrease
  along it charges monotonically, whatever its maxima.
* **`computationCost_le_gasBudget`** — whenever it returns, the cost charged
  never exceeds the budget.
-/

namespace Sui.SuiTypes

namespace GasV2

open RoundUp

/-- `half_digits_rounding`: keep just over half of the digits of `n`, rounding up; `none` is the
panic of the checked product. -/
def halfDigitsRounding (n : ℕ) : Option ℕ :=
  if n < 1000 then some 1000
  else
    let digits := Nat.log 10 n
    let drop := digits / 2
    let base := 10 ^ drop
    checkedMul (n ⌈/⌉ base) base

/-- A `ComputationBucket`: the units from `min` to `max` are charged `cost`. -/
structure ComputationBucket where
  min : ℕ
  max : ℕ
  cost : ℕ
  deriving DecidableEq, Repr

/-- `ComputationBucket::simple`: a bucket charged its maximum. -/
def ComputationBucket.simple (min max : ℕ) : ComputationBucket := ⟨min, max, max⟩

/-- `get_bucket_cost`: the cost of the first bucket whose maximum is not below the units, else
the last bucket's cost, else five million. -/
def getBucketCost (table : List ComputationBucket) (computationCost : ℕ) : ℕ :=
  match table.find? (fun bucket => bucket.max ≥ computationCost) with
  | some bucket => bucket.cost
  | none =>
    match table.getLast? with
    | none => 5000000
    | some bucket => bucket.cost

/-- `computation_bucket`, which asserts that the last bucket reaches five million. -/
def computationBucket (maxBucketCost : ℕ) : Option (List ComputationBucket) :=
  if maxBucketCost ≥ 5000000 then
    some [ComputationBucket.simple 0 1000, ComputationBucket.simple 1000 5000,
      ComputationBucket.simple 5000 10000, ComputationBucket.simple 10000 20000,
      ComputationBucket.simple 20000 50000, ComputationBucket.simple 50000 200000,
      ComputationBucket.simple 200000 1000000, ComputationBucket.simple 1000000 maxBucketCost]
  else none

/-- `GasRoundingMode`. -/
inductive GasRoundingMode where
  | bucketize
  | stepped (gasRounding : ℕ)
  | keepHalfDigits
  deriving DecidableEq, Repr

/-- The two fields of `SuiCostTable` that `bucketize_computation` reads. -/
structure SuiCostTable where
  computationBucket : List ComputationBucket
  maxGasPriceRgpFactorForAbortedTransactions : Option ℕ

/-- The fields of `SuiGasStatus` that `bucketize_computation` reads and writes. Its rounding mode
is the one `SuiGasStatus::new` stored, which raises a step of zero to one. -/
structure SuiGasStatus where
  gasBudget : ℕ
  computationCost : ℕ
  gasPrice : ℕ
  referenceGasPrice : ℕ
  gasRoundingMode : GasRoundingMode
  costTable : SuiCostTable
  step_pos : ∀ gasRounding, gasRoundingMode = .stepped gasRounding → 0 < gasRounding

/-- The rounding mode as `SuiGasStatus::new` stores it. -/
def GasRoundingMode.normalize : GasRoundingMode → GasRoundingMode
  | .bucketize => .bucketize
  | .stepped val => .stepped (max val 1)
  | .keepHalfDigits => .keepHalfDigits

theorem GasRoundingMode.normalize_step_pos (mode : GasRoundingMode) (gasRounding : ℕ)
    (h : mode.normalize = .stepped gasRounding) : 0 < gasRounding := by
  cases mode with
  | bucketize => cases h
  | stepped val =>
    cases h
    exact lt_of_lt_of_le Nat.one_pos (le_max_right val 1)
  | keepHalfDigits => cases h

/-- `SuiGasStatus::new`, for the fields the model keeps. -/
def SuiGasStatus.new (gasBudget gasPrice referenceGasPrice : ℕ) (gasRoundingMode : GasRoundingMode)
    (costTable : SuiCostTable) : SuiGasStatus where
  gasBudget := gasBudget
  computationCost := 0
  gasPrice := gasPrice
  referenceGasPrice := referenceGasPrice
  gasRoundingMode := gasRoundingMode.normalize
  costTable := costTable
  step_pos := gasRoundingMode.normalize_step_pos

/-- `ExecutionErrorKind`, of which `bucketize_computation` raises one. -/
inductive ExecutionErrorKind where
  | insufficientGas
  deriving DecidableEq, Repr

/-- The units each arm of the rounding match multiplies by the effective gas price. -/
def roundedGasUnits (mode : GasRoundingMode) (computationBucket : List ComputationBucket)
    (gasUsed : ℕ) : Option ℕ :=
  match mode with
  | .keepHalfDigits => halfDigitsRounding gasUsed
  | .stepped gasRounding =>
    -- the checked `%` and `/` panic on a zero step, in either branch
    if gasRounding = 0 then none
    else if gasUsed > 0 ∧ gasUsed % gasRounding = 0 then some gasUsed
    else do
      let steps ← checkedAdd (gasUsed / gasRounding) 1
      checkedMul steps gasRounding
  | .bucketize => some (getBucketCost computationBucket gasUsed)

/-- The price `bucketize_computation` charges: an aborted transaction pays at most the reference
price times the protocol's factor, when there is one. -/
def effectiveGasPrice (s : SuiGasStatus) (aborted : Option Bool) : Option ℕ :=
  match s.costTable.maxGasPriceRgpFactorForAbortedTransactions with
  | some factor =>
    if aborted.getD false then (checkedMul factor s.referenceGasPrice).map (min s.gasPrice)
    else some s.gasPrice
  | none => some s.gasPrice

/-- `bucketize_computation`, from the units used before the gas price. -/
def bucketizeComputation (s : SuiGasStatus) (gasUsed : ℕ) (aborted : Option Bool) :
    Option (Except ExecutionErrorKind Unit × SuiGasStatus) := do
  let effectiveGasPrice ← effectiveGasPrice s aborted
  let gasUnits ← roundedGasUnits s.gasRoundingMode s.costTable.computationBucket gasUsed
  let gasUsed ← checkedMul gasUnits effectiveGasPrice
  if s.gasBudget ≤ gasUsed then pure (.error .insufficientGas, { s with computationCost := s.gasBudget })
  else pure (.ok (), { s with computationCost := gasUsed })

/-! ### `half_digits_rounding` below the bound -/

section HalfDigits

/-- The base `half_digits_rounding` rounds `n` up to a multiple of. -/
def halfDigitsBase (n : ℕ) : ℕ := 10 ^ (Nat.log 10 n / 2)

/-- What `half_digits_rounding` returns where its product fits. -/
def halfDigitsRounded (n : ℕ) : ℕ := if n < 1000 then 1000 else roundUp (halfDigitsBase n) n

variable {n m r : ℕ}

theorem halfDigitsBase_pos (n : ℕ) : 0 < halfDigitsBase n := Nat.pow_pos (by decide)

theorem halfDigitsRounding_of_lt (h : n < 1000) : halfDigitsRounding n = some 1000 := if_pos h

/-- From a thousand on, `half_digits_rounding` is the checked product that rounds up by its base. -/
theorem halfDigitsRounding_of_le (h : 1000 ≤ n) :
    halfDigitsRounding n = checkedMul (n ⌈/⌉ halfDigitsBase n) (halfDigitsBase n) :=
  if_neg (Nat.not_lt.mpr h)

theorem halfDigitsRounded_of_le (h : 1000 ≤ n) : halfDigitsRounded n = roundUp (halfDigitsBase n) n :=
  if_neg (Nat.not_lt.mpr h)

/-- Below the bound the base divides it: a value below `10^20` has at most twenty digits, so its
base divides `10^9`, and the bound is a multiple of `10^9`. -/
theorem halfDigitsBase_dvd_bound (h : n ≤ 18446744073000000000) :
    halfDigitsBase n ∣ 18446744073000000000 := by
  have hlog : Nat.log 10 n < 20 := by
    rcases Nat.eq_zero_or_pos n with rfl | hpos
    · simp
    · exact Nat.log_lt_of_lt_pow (by omega) (lt_of_le_of_lt h (by norm_num))
  have hbase : halfDigitsBase n ∣ 10 ^ 9 := pow_dvd_pow 10 (by omega)
  exact hbase.trans ⟨18446744073, by norm_num⟩

theorem roundUp_le_bound (h : n ≤ 18446744073000000000) :
    roundUp (halfDigitsBase n) n ≤ 18446744073000000000 :=
  roundUp_le_of_dvd (halfDigitsBase_pos n) (halfDigitsBase_dvd_bound h) h

theorem halfDigitsRounded_le_bound (h : n ≤ 18446744073000000000) :
    halfDigitsRounded n ≤ 18446744073000000000 := by
  by_cases h1000 : n < 1000
  · rw [halfDigitsRounded, if_pos h1000]
    norm_num
  · rw [halfDigitsRounded_of_le (by omega)]
    exact roundUp_le_bound h

/-- Up to the bound the product fits, and `half_digits_rounding` returns. -/
theorem halfDigitsRounding_eq_some (h : n ≤ 18446744073000000000) :
    halfDigitsRounding n = some (halfDigitsRounded n) := by
  by_cases h1000 : n < 1000
  · rw [halfDigitsRounding_of_lt h1000, halfDigitsRounded, if_pos h1000]
  · rw [halfDigitsRounding_of_le (by omega), halfDigitsRounded_of_le (by omega)]
    exact checkedMul_eq_some (lt_of_le_of_lt (roundUp_le_bound h) (by norm_num [u64Bound]))

/-- Past the bound the exact product `n.div_ceil(base) * base` does not fit in a `u64`: between
the bound and `2^64` the base is `10^9`, and the next multiple of `10^9` above the bound is past
`2^64`. -/
theorem roundUp_ge_two_pow_of_bound_lt (h : 18446744073000000000 < n) :
    2 ^ 64 ≤ roundUp (halfDigitsBase n) n := by
  by_cases hbig : 2 ^ 64 ≤ n
  · exact le_trans hbig (le_roundUp (halfDigitsBase_pos n) n)
  have hlog : Nat.log 10 n = 19 := Nat.log_eq_of_pow_le_of_lt_pow (by omega) (by omega)
  have hbase : halfDigitsBase n = 10 ^ 9 := by rw [halfDigitsBase, hlog]
  obtain ⟨k, hk⟩ := dvd_roundUp (halfDigitsBase n) n
  have hle := le_roundUp (halfDigitsBase_pos n) n
  rw [hk, hbase] at hle ⊢
  omega

/-- Past the bound the checked product panics. -/
theorem halfDigitsRounding_eq_none (h : 18446744073000000000 < n) : halfDigitsRounding n = none := by
  rw [halfDigitsRounding_of_le (by omega)]
  exact checkedMul_eq_none (roundUp_ge_two_pow_of_bound_lt h)

theorem le_bound_of_halfDigitsRounding (h : halfDigitsRounding n = some r) :
    n ≤ 18446744073000000000 := by
  by_contra hlt
  rw [halfDigitsRounding_eq_none (Nat.lt_of_not_le hlt)] at h
  cases h

/-- `n` rounds to at most the next power of ten, a multiple of its base. -/
theorem roundUp_le_pow_succ_log (n : ℕ) :
    roundUp (halfDigitsBase n) n ≤ 10 ^ (Nat.log 10 n + 1) :=
  roundUp_le_of_dvd (halfDigitsBase_pos n) (pow_dvd_pow 10 (by omega))
    (Nat.lt_pow_succ_log_self (by decide) n).le

theorem halfDigitsRounded_of_dvd (h1 : 1000 ≤ n) (hdvd : halfDigitsBase n ∣ n) :
    halfDigitsRounded n = n := by
  rw [halfDigitsRounded_of_le h1, roundUp_of_dvd (halfDigitsBase_pos n) hdvd]

theorem halfDigitsRounded_thousand : halfDigitsRounded 1000 = 1000 := by
  have hlog : Nat.log 10 1000 = 3 := Nat.log_eq_of_pow_le_of_lt_pow (by norm_num) (by norm_num)
  exact halfDigitsRounded_of_dvd le_rfl (by rw [halfDigitsBase, hlog]; norm_num)

theorem le_halfDigitsRounded (n : ℕ) : n ≤ halfDigitsRounded n := by
  by_cases h1000 : n < 1000
  · rw [halfDigitsRounded, if_pos h1000]
    exact h1000.le
  · rw [halfDigitsRounded_of_le (by omega)]
    exact le_roundUp (halfDigitsBase_pos n) n

/-- Monotone, also where the digit count grows and the base with it. -/
theorem halfDigitsRounded_monotone : Monotone halfDigitsRounded := by
  intro n m hnm
  by_cases hm1000 : m < 1000
  · rw [halfDigitsRounded, halfDigitsRounded, if_pos (lt_of_le_of_lt hnm hm1000), if_pos hm1000]
  by_cases hn1000 : n < 1000
  · rw [halfDigitsRounded, if_pos hn1000]
    exact le_trans (by omega) (le_halfDigitsRounded m)
  rw [halfDigitsRounded_of_le (by omega), halfDigitsRounded_of_le (by omega)]
  rcases (Nat.log_mono_right hnm).eq_or_lt with hlog | hlog
  · -- the same number of digits: the same base
    have hbase : halfDigitsBase n = halfDigitsBase m := by rw [halfDigitsBase, hlog, halfDigitsBase]
    rw [hbase]
    exact roundUp_mono (halfDigitsBase_pos m) hnm
  · -- fewer digits: `n` rounds to at most a power of ten that `m` reaches
    calc roundUp (halfDigitsBase n) n ≤ 10 ^ (Nat.log 10 n + 1) := roundUp_le_pow_succ_log n
      _ ≤ 10 ^ Nat.log 10 m := Nat.pow_le_pow_right (by decide) hlog
      _ ≤ m := Nat.pow_log_le_self 10 (by omega)
      _ ≤ roundUp (halfDigitsBase m) m := le_roundUp (halfDigitsBase_pos m) m

/-- Idempotent: a rounded value keeps its digit count, and is then a multiple of its own base, or
gains one and is a power of ten. -/
theorem halfDigitsRounded_idem (n : ℕ) :
    halfDigitsRounded (halfDigitsRounded n) = halfDigitsRounded n := by
  by_cases h1000 : n < 1000
  · have h : halfDigitsRounded n = 1000 := if_pos h1000
    rw [h]
    exact halfDigitsRounded_thousand
  rw [halfDigitsRounded_of_le (n := n) (by omega)]
  have hnr : n ≤ roundUp (halfDigitsBase n) n := le_roundUp (halfDigitsBase_pos n) n
  apply halfDigitsRounded_of_dvd (by omega)
  rcases (Nat.log_mono_right hnr).eq_or_lt with hlog | hlog
  · rw [halfDigitsBase, ← hlog]
    exact dvd_roundUp _ n
  · have hpow : roundUp (halfDigitsBase n) n = 10 ^ (Nat.log 10 n + 1) :=
      le_antisymm (roundUp_le_pow_succ_log n)
        (le_trans (Nat.pow_le_pow_right (by decide) hlog) (Nat.pow_log_le_self 10 (by omega)))
    rw [hpow, halfDigitsBase, Nat.log_pow (by decide)]
    exact pow_dvd_pow 10 (Nat.div_le_self _ _)

end HalfDigits

/-! ### The other modes -/

section Modes

variable {step gasUsed r : ℕ} {table : List ComputationBucket}

/-- Off a positive multiple the source adds one step to the quotient, which is the ceiling of
at least one unit. -/
theorem succ_div_mul_eq_roundUp (hstep : 0 < step) (hoff : ¬(gasUsed > 0 ∧ gasUsed % step = 0)) :
    (gasUsed / step + 1) * step = roundUp step (max gasUsed 1) := by
  by_cases hzero : gasUsed = 0
  · subst hzero
    rw [Nat.zero_div, Nat.zero_add, Nat.one_mul, max_eq_right (Nat.zero_le 1), roundUp,
      Nat.ceilDiv_eq_add_pred_div, Nat.add_sub_cancel_left, Nat.div_self hstep, Nat.one_mul]
  · rw [max_eq_left (by omega), roundUp, MoveArith.ceilDiv_eq_ite hstep,
      if_neg fun h => hoff ⟨by omega, h⟩]

/-- Whenever `Stepped(step)` returns, it rounds up to a positive multiple of the step, and below
`2^64` what it returns is a `u64`. -/
theorem stepped_spec (hstep : 0 < step) (h : roundedGasUnits (.stepped step) table gasUsed = some r) :
    r = roundUp step (max gasUsed 1) ∧ (gasUsed < u64Bound → r < u64Bound) := by
  simp only [roundedGasUnits, if_neg (Nat.pos_iff_ne_zero.mp hstep)] at h
  split_ifs at h with hdiv
  · -- a positive multiple is returned as it is
    cases h
    rw [max_eq_left hdiv.1, roundUp_of_dvd hstep (Nat.dvd_of_mod_eq_zero hdiv.2)]
    exact ⟨rfl, id⟩
  · obtain ⟨steps, hsteps, hmul⟩ := Option.bind_eq_some_iff.mp h
    obtain ⟨-, rfl⟩ := checkedAdd_eq_some_iff.mp hsteps
    obtain ⟨hlt, rfl⟩ := checkedMul_eq_some_iff.mp hmul
    exact ⟨succ_div_mul_eq_roundUp hstep hdiv, fun _ => hlt⟩

/-- `Stepped(step)` returns whenever its rounding fits in a `u64`. -/
theorem stepped_eq_some (hstep : 0 < step) (hfit : roundUp step (max gasUsed 1) < u64Bound) :
    roundedGasUnits (.stepped step) table gasUsed = some (roundUp step (max gasUsed 1)) := by
  simp only [roundedGasUnits, if_neg (Nat.pos_iff_ne_zero.mp hstep)]
  split_ifs with hdiv
  · rw [max_eq_left hdiv.1, roundUp_of_dvd hstep (Nat.dvd_of_mod_eq_zero hdiv.2)]
  · have hceil := succ_div_mul_eq_roundUp hstep hdiv
    have hsteps : gasUsed / step + 1 < u64Bound :=
      lt_of_le_of_lt (Nat.le_mul_of_pos_right _ hstep) (hceil ▸ hfit)
    rw [checkedAdd_eq_some hsteps, Option.bind_eq_bind, Option.bind_some, checkedMul_eq_some (hceil ▸ hfit),
      hceil]

/-- Where `Stepped(step)` returns on a `u64`, it returns on every smaller amount, no more. -/
theorem stepped_monotone (hstep : 0 < step) {gasUsed' r' : ℕ} (hle : gasUsed ≤ gasUsed')
    (hfit : gasUsed' < u64Bound) (h' : roundedGasUnits (.stepped step) table gasUsed' = some r') :
    ∃ r, roundedGasUnits (.stepped step) table gasUsed = some r ∧ r ≤ r' := by
  obtain ⟨rfl, hlt⟩ := stepped_spec hstep h'
  have hmono : roundUp step (max gasUsed 1) ≤ roundUp step (max gasUsed' 1) :=
    roundUp_mono hstep (max_le_max hle le_rfl)
  exact ⟨_, stepped_eq_some hstep (lt_of_le_of_lt hmono (hlt hfit)), hmono⟩

theorem getBucketCost_cons (bucket : ComputationBucket) {rest : List ComputationBucket}
    (hrest : rest ≠ []) (g : ℕ) :
    getBucketCost (bucket :: rest) g = if g ≤ bucket.max then bucket.cost else getBucketCost rest g := by
  unfold getBucketCost
  rw [List.find?_cons]
  by_cases h : g ≤ bucket.max
  · simp [h]
  · obtain ⟨last, hlast⟩ := Option.isSome_iff_exists.mp (List.getLast?_isSome.mpr hrest)
    simp [h, List.getLast?_cons, hlast]

theorem getBucketCost_singleton (bucket : ComputationBucket) (g : ℕ) :
    getBucketCost [bucket] g = bucket.cost := by
  unfold getBucketCost
  by_cases h : g ≤ bucket.max <;> simp [h]

/-- Every bucket the table falls back on costs at least a lower bound of the table's costs. -/
theorem le_getBucketCost {k : ℕ} :
    ∀ {table : List ComputationBucket}, table ≠ [] → (∀ bucket ∈ table, k ≤ bucket.cost) →
      ∀ g, k ≤ getBucketCost table g
  | [], hne, _, _ => absurd rfl hne
  | [bucket], _, hk, g => by
    rw [getBucketCost_singleton]
    exact hk bucket (List.mem_singleton_self bucket)
  | bucket :: next :: rest, _, hk, g => by
    rw [getBucketCost_cons bucket (List.cons_ne_nil next rest)]
    split_ifs
    · exact hk bucket List.mem_cons_self
    · exact le_getBucketCost (List.cons_ne_nil next rest)
        (fun b hb => hk b (List.mem_cons_of_mem bucket hb)) g

/-- A table whose costs do not decrease along it charges monotonically: more units can only
move the first bucket that holds them further down the table. -/
theorem getBucketCost_monotone :
    ∀ {table : List ComputationBucket}, table.Pairwise (fun a b => a.cost ≤ b.cost) →
      Monotone (getBucketCost table)
  | [], _ => fun _ _ _ => le_rfl
  | [bucket], _ => fun g g' _ => by rw [getBucketCost_singleton, getBucketCost_singleton]
  | bucket :: next :: rest, hsorted => by
    have hrest : next :: rest ≠ [] := List.cons_ne_nil next rest
    have hfirst := (List.pairwise_cons.mp hsorted).1
    have ih := getBucketCost_monotone (List.pairwise_cons.mp hsorted).2
    intro g g' hle
    rw [getBucketCost_cons bucket hrest, getBucketCost_cons bucket hrest]
    split_ifs with h h'
    · exact le_rfl
    · exact le_getBucketCost hrest hfirst g'
    · omega
    · exact ih hle

theorem bucketize_monotone {maxBucketCost : ℕ} (h : computationBucket maxBucketCost = some table) :
    Monotone (getBucketCost table) := by
  unfold computationBucket at h
  split_ifs at h with hm
  cases h
  apply getBucketCost_monotone
  simp only [ComputationBucket.simple, List.pairwise_cons, List.mem_cons, List.not_mem_nil,
    forall_eq_or_imp, List.Pairwise.nil, false_implies, implies_true, and_true]
  omega

end Modes

/-- Whenever `bucketize_computation` returns, it never charges more than the budget: it charges
the budget itself when the rounded charge reaches it. -/
theorem computationCost_le_gasBudget {s s' : SuiGasStatus} {gasUsed : ℕ} {aborted : Option Bool}
    {result : Except ExecutionErrorKind Unit}
    (h : bucketizeComputation s gasUsed aborted = some (result, s')) :
    s'.computationCost ≤ s.gasBudget := by
  simp only [bucketizeComputation, Option.bind_eq_bind, Option.bind_eq_some_iff] at h
  obtain ⟨-, -, -, -, charge, -, h⟩ := h
  split_ifs at h with hle
  · cases h
    exact le_rfl
  · cases h
    exact (Nat.not_le.mp hle).le

/-! ### Rounding under checked arithmetic -/

/-- `half_digits_rounding` returns up to the last bound at which its product fits in a `u64` and
panics past it, and each rounding mode is monotone where it returns and returns on every smaller
amount: the rounded units are exact, at least the units used (outside the bucket cap), and the
charge never exceeds the budget. -/
theorem gasRounding_within_u64 :
    (∀ n < 1000, halfDigitsRounding n = some 1000) ∧
    (∀ n, 1000 ≤ n → n ≤ 18446744073000000000 → ∃ r, halfDigitsRounding n = some r ∧
      IsLeast {m | halfDigitsBase n ∣ m ∧ n ≤ m} r ∧ r < n + halfDigitsBase n) ∧
    (∀ n ≤ 18446744073000000000, ∃ r, halfDigitsRounding n = some r ∧ n ≤ r ∧
      halfDigitsRounding r = some r) ∧
    (∀ n m r r', n ≤ m → halfDigitsRounding n = some r → halfDigitsRounding m = some r' → r ≤ r') ∧
    (∀ n, 18446744073000000000 < n →
      2 ^ 64 ≤ roundUp (halfDigitsBase n) n ∧ halfDigitsRounding n = none) ∧
    (∀ table g g' r', g ≤ g' → roundedGasUnits .keepHalfDigits table g' = some r' →
      ∃ r, roundedGasUnits .keepHalfDigits table g = some r ∧ g ≤ r ∧ r ≤ r') ∧
    (∀ step table, 0 < step →
      (∀ g g' r', g ≤ g' → g' < 2 ^ 64 → roundedGasUnits (.stepped step) table g' = some r' →
        ∃ r, roundedGasUnits (.stepped step) table g = some r ∧ r ≤ r') ∧
      ∀ g r, roundedGasUnits (.stepped step) table g = some r → g ≤ r) ∧
    (∀ maxBucketCost table, computationBucket maxBucketCost = some table →
      (∀ g, roundedGasUnits .bucketize table g = some (getBucketCost table g)) ∧
      Monotone (getBucketCost table)) ∧
    (∀ s gasUsed aborted result s', bucketizeComputation s gasUsed aborted = some (result, s') →
      s'.computationCost ≤ s.gasBudget) := by
  refine ⟨fun n hn => halfDigitsRounding_of_lt hn, fun n h1 h2 => ?_, fun n hn => ?_,
    fun n m r r' hnm h h' => ?_, fun n hn => ⟨roundUp_ge_two_pow_of_bound_lt hn, halfDigitsRounding_eq_none hn⟩,
    fun table g g' r' hle h' => ?_,
    fun step table hstep => ⟨fun g g' r' hle hfit h' => stepped_monotone hstep hle hfit h',
      fun g r h => ?_⟩,
    fun _ _ h => ⟨fun _ => rfl, bucketize_monotone h⟩,
    fun _ _ _ _ _ h => computationCost_le_gasBudget h⟩
  · have hpos := halfDigitsBase_pos n
    refine ⟨_, halfDigitsRounding_eq_some h2, ?_⟩
    rw [halfDigitsRounded_of_le h1]
    exact ⟨isLeast_roundUp hpos n, roundUp_lt_add hpos n⟩
  · refine ⟨_, halfDigitsRounding_eq_some hn, le_halfDigitsRounded n, ?_⟩
    rw [halfDigitsRounding_eq_some (halfDigitsRounded_le_bound hn), halfDigitsRounded_idem]
  · -- both return, so both are at most the bound and round by `halfDigitsRounded`
    rw [halfDigitsRounding_eq_some (le_bound_of_halfDigitsRounding h), Option.some.injEq] at h
    rw [halfDigitsRounding_eq_some (le_bound_of_halfDigitsRounding h'), Option.some.injEq] at h'
    rw [← h, ← h']
    exact halfDigitsRounded_monotone hnm
  · -- the larger amount returns, so it is at most the bound, and so is the smaller
    have hbound := le_bound_of_halfDigitsRounding (show halfDigitsRounding g' = some r' from h')
    rw [show roundedGasUnits .keepHalfDigits table g' = halfDigitsRounding g' from rfl,
      halfDigitsRounding_eq_some hbound, Option.some.injEq] at h'
    refine ⟨_, halfDigitsRounding_eq_some (le_trans hle hbound), le_halfDigitsRounded g, ?_⟩
    rw [← h']
    exact halfDigitsRounded_monotone hle
  · obtain ⟨rfl, -⟩ := stepped_spec hstep h
    exact le_trans (le_max_left _ _) (le_roundUp hstep _)

/-- A charge of 123456 rounds up to the least multiple of its base not below
it, and the largest `u64` charge overflows the rounding. -/
theorem gasRounding_within_u64_at_u64_max :
    (∃ r, halfDigitsRounding 123456 = some r ∧
      IsLeast {m | halfDigitsBase 123456 ∣ m ∧ 123456 ≤ m} r ∧ r < 123456 + halfDigitsBase 123456) ∧
    (2 ^ 64 ≤ roundUp (halfDigitsBase (2 ^ 64 - 1)) (2 ^ 64 - 1) ∧
      halfDigitsRounding (2 ^ 64 - 1) = none) :=
  ⟨gasRounding_within_u64.2.1 123456 (by decide) (by decide),
    gasRounding_within_u64.2.2.2.2.1 (2 ^ 64 - 1) (by decide)⟩

end GasV2

end Sui.SuiTypes
