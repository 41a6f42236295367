import Mathlib.Algebra.Group.Nat.Defs
import Mathlib.Logic.Function.Basic
import Mathlib.Order.Basic

/-!
# Per-object congestion control (`SharedObjectCongestionTracker`)

While a consensus commit is scheduled, the tracker keeps for every shared
object the cost (the estimated execution time) of the work scheduled on it so
far. A transaction starts at the largest cost among its shared inputs; it is
deferred when that start is past the commit's budget plus the allowed burst,
and otherwise scheduled, moving each input it accesses exclusively to its end
cost. At the end of the commit whatever exceeds the budget is carried to the
next commit as a debt, which later commits decay by their own budgets.

The model keeps the cost map as a function to `ℕ`, a missing entry reading as
0 as the source's `unwrap_or(&0)` does; a panic (`expect`, `assert!`) is
`none`. All values are `u64`: the additions are saturating, and the costs stay
at most `u64Max`.

* **`shouldDefer_eq`** — a transaction with shared inputs is scheduled exactly
  when its start cost is within `saturatingAdd budget burst`, and otherwise
  deferred with the non-empty list of its inputs at the start cost.
* **`bump_eq`** — scheduling never fails its assertion: every exclusive input
  moves to the end cost, which is at least every input's cost.
* **`transaction_spec`** — the two together, for one transaction in any
  tracker state with `u64` costs.
* **`scheduleLoop_spec`**, **`scheduleLoop_new_spec`** — over any run of the
  loop every cost only grows and stays below its start or the burst limit
  plus the largest transaction cost, so the debt carried forward from the
  initial debts is bounded.

**Proof shape.** The start cost is a maximum (`computeTxStartAtCost_eq_some_iff`),
the exclusive writes are read pointwise (`bumpLoop_eq`), and the run is an
induction over the transactions carrying the `u64` range and the bound, one
`schedule_cases` per step.
-/

namespace Sui

namespace CongestionControl

/-! ### Saturating `u64` arithmetic -/

/-- `u64::MAX`. -/
def u64Max : ℕ := 2 ^ 64 - 1

/-- `saturating_add` on `u64`. -/
def saturatingAdd (a b : ℕ) : ℕ := min (a + b) u64Max

/-- `saturating_mul` on `u64`. -/
def saturatingMul (a b : ℕ) : ℕ := min (a * b) u64Max

theorem saturatingAdd_le_add (a b : ℕ) : saturatingAdd a b ≤ a + b := by
  unfold saturatingAdd
  omega

theorem saturatingAdd_le_max (a b : ℕ) : saturatingAdd a b ≤ u64Max := by
  unfold saturatingAdd
  omega

theorem le_saturatingAdd {a : ℕ} (ha : a ≤ u64Max) (b : ℕ) : a ≤ saturatingAdd a b := by
  unfold saturatingAdd
  omega

/-! ### Parameters and inputs -/

/-- `ExecutionTimeEstimateParams`: the fields the budgets read. -/
structure ExecutionTimeEstimateParams where
  targetUtilization : ℕ
  allowedTxnCostOverageBurstLimitUs : ℕ
  randomnessScalar : ℕ

/-- `Params`: the estimate parameters, and whether the tracker is the one for
randomness-using transactions. -/
structure Params where
  params : ExecutionTimeEstimateParams
  forRandomness : Bool

/-- `commit_budget`, for a commit whose estimated period is `commitPeriodMicros`. -/
def Params.commitBudget (p : Params) (commitPeriodMicros : ℕ) : ℕ :=
  let budget := saturatingMul commitPeriodMicros p.params.targetUtilization / 100
  if p.forRandomness then saturatingMul budget p.params.randomnessScalar / 100 else budget

/-- `max_burst`. -/
def Params.maxBurst (p : Params) : ℕ :=
  let burst := p.params.allowedTxnCostOverageBurstLimitUs
  if p.forRandomness then saturatingMul burst p.params.randomnessScalar / 100 else burst

/-- `SharedObjectMutability`. -/
inductive SharedObjectMutability
  | immutable
  | mutable
  | nonExclusiveWrite
  deriving DecidableEq, Repr

/-- `is_exclusive`: only a mutable access is exclusive. -/
def SharedObjectMutability.isExclusive : SharedObjectMutability → Bool
  | .mutable => true
  | .immutable => false
  | .nonExclusiveWrite => false

/-- `SharedInputObject`: the id of a shared input and how it is accessed. -/
structure SharedInputObject (O : Type) where
  id : O
  mutability : SharedObjectMutability

/-- `is_accessed_exclusively`. -/
def SharedInputObject.isAccessedExclusively {O : Type} (obj : SharedInputObject O) : Bool :=
  obj.mutability.isExclusive

/-- `DeferralKey`. -/
inductive DeferralKey
  | randomness (deferredFromRound : ℕ)
  | consensusRound (futureRound deferredFromRound : ℕ)
  deriving DecidableEq, Repr

/-- `deferred_from_round`. -/
def DeferralKey.deferredFromRound : DeferralKey → ℕ
  | .randomness deferredFromRound => deferredFromRound
  | .consensusRound _ deferredFromRound => deferredFromRound

/-- `TransactionCostLogEntry`, without the digest it is logged under. -/
structure TransactionCostLogEntry where
  startCost : ℕ
  endCost : ℕ

/-! ### The tracker -/

/-- `SharedObjectCongestionTracker`: the cost scheduled on each object (a missing entry
reading as 0), the parameters, and the cost log when logging is on. -/
structure SharedObjectCongestionTracker (O : Type) where
  objectExecutionCost : O → ℕ
  params : Params
  logEntries : Option (List TransactionCostLogEntry)

/-- `FinishedCommitData`: the debts carried to the next commit (a missing entry as 0), the
log, the final costs and the budget. -/
structure FinishedCommitData (O : Type) where
  accumulatedDebts : O → ℕ
  logEntries : List TransactionCostLogEntry
  finalObjectExecutionCosts : O → ℕ
  commitBudget : ℕ

namespace SharedObjectCongestionTracker

variable {O : Type} [DecidableEq O]

/-- `new`: the initial debts, `u64` values, are the starting costs. -/
def new (initialObjectDebts : O → Fin (2 ^ 64)) (params : ExecutionTimeEstimateParams)
    (forRandomness enableLogging : Bool) : SharedObjectCongestionTracker O :=
  ⟨fun o => initialObjectDebts o, ⟨params, forRandomness⟩,
    if enableLogging then some [] else none⟩

/-- `compute_tx_start_at_cost`: the largest cost among the inputs; `none` is the `expect`
on an empty list. -/
def computeTxStartAtCost (t : SharedObjectCongestionTracker O)
    (sharedInputObjects : List (SharedInputObject O)) : Option ℕ :=
  (sharedInputObjects.map fun obj => t.objectExecutionCost obj.id).max?

/-- `should_defer_due_to_object_congestion`: `some none` schedules the transaction,
`some (some (key, objects))` defers it; `none` is a panic. -/
def shouldDeferDueToObjectCongestion (t : SharedObjectCongestionTracker O)
    (sharedInputObjects : List (SharedInputObject O)) (previousKey : Option DeferralKey)
    (commitRound commitPeriodMicros : ℕ) : Option (Option (DeferralKey × List O)) := do
  if sharedInputObjects.isEmpty then return none
  let startCost ← t.computeTxStartAtCost sharedInputObjects
  let budget := t.params.commitBudget commitPeriodMicros
  let burstLimit := saturatingAdd budget t.params.maxBurst
  if startCost ≤ burstLimit then return none
  -- the inputs on the critical path, the ones at the start cost
  let congestedObjects :=
    (sharedInputObjects.filter fun obj => t.objectExecutionCost obj.id = startCost).map (·.id)
  if congestedObjects.isEmpty then failure
  let deferralKey := match previousKey with
    | some previous => DeferralKey.consensusRound (commitRound + 1) previous.deferredFromRound
    | none => DeferralKey.consensusRound (commitRound + 1) commitRound
  return some (deferralKey, congestedObjects)

/-- The loop of `bump_object_execution_cost` over the inputs: each exclusive input moves to
`endCost`; `none` is its `assert!` on the old cost failing. -/
def bumpLoop (endCost : ℕ) (cost : O → ℕ) : List (SharedInputObject O) → Option (O → ℕ)
  | [] => some cost
  | obj :: rest =>
    if obj.isAccessedExclusively then
      if cost obj.id ≤ endCost then bumpLoop endCost (Function.update cost obj.id endCost) rest
      else none
    else bumpLoop endCost cost rest

/-- `bump_object_execution_cost`: the transaction is scheduled at its start cost. -/
def bumpObjectExecutionCost (t : SharedObjectCongestionTracker O) (txCost : ℕ)
    (sharedInputObjects : List (SharedInputObject O)) :
    Option (SharedObjectCongestionTracker O) := do
  if sharedInputObjects.isEmpty then return t
  let startCost ← t.computeTxStartAtCost sharedInputObjects
  let endCost := saturatingAdd startCost txCost
  let cost ← bumpLoop endCost t.objectExecutionCost sharedInputObjects
  let logEntries := t.logEntries.map (· ++ [⟨startCost, endCost⟩])
  return { t with objectExecutionCost := cost, logEntries }

/-- `finish_commit`: what exceeds the budget is carried forward. -/
def finishCommit (t : SharedObjectCongestionTracker O) (commitPeriodMicros : ℕ) :
    FinishedCommitData O :=
  let commitBudget := t.params.commitBudget commitPeriodMicros
  { accumulatedDebts := fun o => t.objectExecutionCost o - commitBudget
    logEntries := t.logEntries.getD []
    finalObjectExecutionCosts := t.objectExecutionCost
    commitBudget }

end SharedObjectCongestionTracker

/-- A transaction as the scheduling loop sees it: its shared inputs, its estimated cost
(`get_tx_cost`), and the key it was deferred under before, if any. -/
structure Tx (O : Type) where
  sharedInputObjects : List (SharedInputObject O)
  txCost : ℕ
  previousKey : Option DeferralKey

open SharedObjectCongestionTracker

variable {O : Type} [DecidableEq O]

/-- The congestion part of the consensus handler's scheduling loop: each transaction is
deferred when the tracker says so, and otherwise its cost is bumped. The loop returns the
tracker and what `should_defer` said of each transaction. -/
def scheduleLoop (commitRound commitPeriodMicros : ℕ) :
    SharedObjectCongestionTracker O → List (Tx O) →
      Option (SharedObjectCongestionTracker O × List (Option (DeferralKey × List O)))
  | t, [] => some (t, [])
  | t, tx :: txs => do
    let deferral ← t.shouldDeferDueToObjectCongestion tx.sharedInputObjects tx.previousKey
      commitRound commitPeriodMicros
    let t' ← match deferral with
      | some _ => pure t
      | none => t.bumpObjectExecutionCost tx.txCost tx.sharedInputObjects
    let (t'', deferrals) ← scheduleLoop commitRound commitPeriodMicros t' txs
    pure (t'', deferral :: deferrals)

/-- The decay of a stored debt in `load_initial_object_debts`: the budgets of the commits
since the round it was stored in are taken off, saturating at 0. The product
`per_commit_budget * num_rounds` is an unchecked `u64` product, wrapping in a release build;
`none` is the `assert!` that the stored round is past. -/
def decayDebt (perCommitBudget currentRound round debt : ℕ) : Option ℕ :=
  if round < currentRound then
    let numRounds := currentRound - round - 1
    some (debt - perCommitBudget * numRounds % 2 ^ 64)
  else none

/-! ### One transaction -/

namespace SharedObjectCongestionTracker

variable {t : SharedObjectCongestionTracker O} {sharedInputObjects : List (SharedInputObject O)}

omit [DecidableEq O] in
/-- The start cost is the largest cost among the inputs, attained at one of them. -/
theorem computeTxStartAtCost_eq_some_iff {s : ℕ} :
    t.computeTxStartAtCost sharedInputObjects = some s ↔
      (∃ obj ∈ sharedInputObjects, t.objectExecutionCost obj.id = s) ∧
        ∀ obj ∈ sharedInputObjects, t.objectExecutionCost obj.id ≤ s := by
  rw [computeTxStartAtCost, List.max?_eq_some_iff]
  simp

omit [DecidableEq O] in
theorem computeTxStartAtCost_isSome (hne : sharedInputObjects ≠ []) :
    ∃ s, t.computeTxStartAtCost sharedInputObjects = some s :=
  Option.isSome_iff_exists.mp (List.isSome_max?_of_ne_nil (by simpa using hne))

omit [DecidableEq O] in
/-- A transaction with shared inputs is scheduled exactly when its start cost is within the
burst limit, and otherwise deferred with its inputs at the start cost, of which there is one. -/
theorem shouldDefer_eq (hne : sharedInputObjects ≠ []) {s : ℕ}
    (hs : t.computeTxStartAtCost sharedInputObjects = some s) (previousKey : Option DeferralKey)
    (commitRound commitPeriodMicros : ℕ) :
    (s ≤ saturatingAdd (t.params.commitBudget commitPeriodMicros) t.params.maxBurst →
      t.shouldDeferDueToObjectCongestion sharedInputObjects previousKey commitRound
        commitPeriodMicros = some none) ∧
    (saturatingAdd (t.params.commitBudget commitPeriodMicros) t.params.maxBurst < s →
      ∃ key, t.shouldDeferDueToObjectCongestion sharedInputObjects previousKey commitRound
        commitPeriodMicros = some (some (key,
          (sharedInputObjects.filter fun obj => t.objectExecutionCost obj.id = s).map (·.id))) ∧
        (sharedInputObjects.filter fun obj => t.objectExecutionCost obj.id = s) ≠ []) := by
  have hempty : sharedInputObjects.isEmpty = false := List.isEmpty_eq_false_iff.mpr hne
  -- the start cost is attained, so some input is congested
  obtain ⟨⟨obj, hobj, hcost⟩, -⟩ := computeTxStartAtCost_eq_some_iff.mp hs
  have hcongested : (sharedInputObjects.filter fun obj => t.objectExecutionCost obj.id = s) ≠ [] :=
    List.ne_nil_of_mem (List.mem_filter.mpr ⟨hobj, by simpa using hcost⟩)
  refine ⟨fun hle => ?_, fun hlt => ?_⟩
  · simp [shouldDeferDueToObjectCongestion, hempty, hs, hle]
  · refine ⟨match previousKey with
      | some previous => .consensusRound (commitRound + 1) previous.deferredFromRound
      | none => .consensusRound (commitRound + 1) commitRound, ?_, hcongested⟩
    have hsome : ¬∀ a ∈ sharedInputObjects, ¬t.objectExecutionCost a.id = s :=
      fun h => h obj hobj hcost
    cases previousKey <;>
      simp [shouldDeferDueToObjectCongestion, hempty, hs, Nat.not_le.mpr hlt, hsome]

omit [DecidableEq O] in
/-- A scheduled transaction starts within the burst limit. -/
theorem start_le_of_scheduled (hne : sharedInputObjects ≠ []) {s : ℕ}
    (hs : t.computeTxStartAtCost sharedInputObjects = some s) {previousKey : Option DeferralKey}
    {commitRound commitPeriodMicros : ℕ}
    (h : t.shouldDeferDueToObjectCongestion sharedInputObjects previousKey commitRound
      commitPeriodMicros = some none) :
    s ≤ saturatingAdd (t.params.commitBudget commitPeriodMicros) t.params.maxBurst := by
  by_contra hgt
  obtain ⟨key, hkey, -⟩ :=
    (shouldDefer_eq hne hs previousKey commitRound commitPeriodMicros).2 (Nat.lt_of_not_le hgt)
  rw [h] at hkey
  cases hkey

omit [DecidableEq O] in
/-- A deferral names exactly the inputs at the start cost, and there is one. -/
theorem congested_of_deferred (hne : sharedInputObjects ≠ []) {s : ℕ}
    (hs : t.computeTxStartAtCost sharedInputObjects = some s) {previousKey : Option DeferralKey}
    {commitRound commitPeriodMicros : ℕ} {key : DeferralKey} {congested : List O}
    (h : t.shouldDeferDueToObjectCongestion sharedInputObjects previousKey commitRound
      commitPeriodMicros = some (some (key, congested))) :
    congested ≠ [] ∧
      congested = (sharedInputObjects.filter fun obj => t.objectExecutionCost obj.id = s).map (·.id) := by
  have hspec := shouldDefer_eq hne hs previousKey commitRound commitPeriodMicros
  have hgt : saturatingAdd (t.params.commitBudget commitPeriodMicros) t.params.maxBurst < s := by
    by_contra hle
    rw [hspec.1 (Nat.le_of_not_lt hle)] at h
    cases h
  obtain ⟨key', hkey', hne'⟩ := hspec.2 hgt
  rw [hkey'] at h
  obtain ⟨-, rfl⟩ := Prod.mk.inj (Option.some_inj.mp (Option.some_inj.mp h))
  exact ⟨by simpa using hne', rfl⟩

omit [DecidableEq O] in
/-- `should_defer_due_to_object_congestion` never panics on a transaction with shared inputs. -/
theorem shouldDefer_ne_none (hne : sharedInputObjects ≠ []) (previousKey : Option DeferralKey)
    (commitRound commitPeriodMicros : ℕ) :
    t.shouldDeferDueToObjectCongestion sharedInputObjects previousKey commitRound
      commitPeriodMicros ≠ none := by
  obtain ⟨s, hs⟩ := computeTxStartAtCost_isSome hne
  have hspec := shouldDefer_eq hne hs previousKey commitRound commitPeriodMicros
  by_cases hle : s ≤ saturatingAdd (t.params.commitBudget commitPeriodMicros) t.params.maxBurst
  · simp [hspec.1 hle]
  · obtain ⟨key, hkey, -⟩ := hspec.2 (Nat.lt_of_not_le hle)
    simp [hkey]

/-- The exclusive writes of `bump_object_execution_cost` read pointwise: when no exclusive
input is above the end cost, the assertion holds and every exclusive input is at the end cost.
The induction is on the inputs, the cost map growing as it goes. -/
theorem bumpLoop_eq {endCost : ℕ} :
    ∀ (cost : O → ℕ) (l : List (SharedInputObject O)),
      (∀ obj ∈ l, obj.isAccessedExclusively → cost obj.id ≤ endCost) →
      bumpLoop endCost cost l = some fun o =>
        if ∃ obj ∈ l, obj.isAccessedExclusively ∧ obj.id = o then endCost else cost o
  | cost, [], _ => by simp [bumpLoop]
  | cost, obj :: rest, h => by
    by_cases hex : obj.isAccessedExclusively
    · have hle := h obj List.mem_cons_self hex
      have hrest : ∀ obj' ∈ rest, obj'.isAccessedExclusively →
          Function.update cost obj.id endCost obj'.id ≤ endCost := by
        intro obj' hobj' hex'
        by_cases hid : obj'.id = obj.id
        · simp [hid]
        · rw [Function.update_of_ne hid]
          exact h obj' (List.mem_cons_of_mem _ hobj') hex'
      rw [bumpLoop, if_pos hex, if_pos hle, bumpLoop_eq _ rest hrest]
      congr 1
      funext o
      by_cases ho : obj.id = o
      · simp [hex, ho]
      · simp [Function.update_of_ne (Ne.symm ho), ho]
    · rw [bumpLoop, if_neg hex,
        bumpLoop_eq cost rest fun obj' hobj' => h obj' (List.mem_cons_of_mem _ hobj')]
      congr 1
      funext o
      simp [hex]

/-- `bump_object_execution_cost` on a transaction with shared inputs, in a tracker whose
costs are `u64` values: its assertion holds, and every exclusive input moves to the end cost. -/
theorem bump_eq (hu64 : ∀ o, t.objectExecutionCost o ≤ u64Max) (hne : sharedInputObjects ≠ [])
    {s : ℕ} (hs : t.computeTxStartAtCost sharedInputObjects = some s) (txCost : ℕ) :
    t.bumpObjectExecutionCost txCost sharedInputObjects = some { t with
      objectExecutionCost := fun o =>
        if ∃ obj ∈ sharedInputObjects, obj.isAccessedExclusively ∧ obj.id = o then
          saturatingAdd s txCost
        else t.objectExecutionCost o
      logEntries := t.logEntries.map (· ++ [⟨s, saturatingAdd s txCost⟩]) } := by
  obtain ⟨⟨obj, _, hcost⟩, hmax⟩ := computeTxStartAtCost_eq_some_iff.mp hs
  -- the end cost is at least the start cost, which is at least every input's cost
  have hs64 : s ≤ u64Max := hcost ▸ hu64 obj.id
  have hend : ∀ obj ∈ sharedInputObjects, obj.isAccessedExclusively →
      t.objectExecutionCost obj.id ≤ saturatingAdd s txCost :=
    fun obj hobj _ => Nat.le_trans (hmax obj hobj) (le_saturatingAdd hs64 txCost)
  simp [bumpObjectExecutionCost, hne, hs, bumpLoop_eq _ _ hend]

/-- One transaction through the loop, from a tracker with `u64` costs: it is deferred, or it is
scheduled at a start cost within the burst limit and bumped. -/
theorem schedule_cases (hu64 : ∀ o, t.objectExecutionCost o ≤ u64Max)
    (hne : sharedInputObjects ≠ []) (txCost : ℕ) (previousKey : Option DeferralKey)
    (commitRound commitPeriodMicros : ℕ) :
    (∃ deferral, t.shouldDeferDueToObjectCongestion sharedInputObjects previousKey commitRound
        commitPeriodMicros = some (some deferral)) ∨
    ∃ s, t.computeTxStartAtCost sharedInputObjects = some s ∧
      s ≤ saturatingAdd (t.params.commitBudget commitPeriodMicros) t.params.maxBurst ∧
      t.shouldDeferDueToObjectCongestion sharedInputObjects previousKey commitRound
        commitPeriodMicros = some none ∧
      t.bumpObjectExecutionCost txCost sharedInputObjects = some { t with
        objectExecutionCost := fun o =>
          if ∃ obj ∈ sharedInputObjects, obj.isAccessedExclusively ∧ obj.id = o then
            saturatingAdd s txCost
          else t.objectExecutionCost o
        logEntries := t.logEntries.map (· ++ [⟨s, saturatingAdd s txCost⟩]) } := by
  obtain ⟨s, hs⟩ := computeTxStartAtCost_isSome hne
  have hspec := shouldDefer_eq hne hs previousKey commitRound commitPeriodMicros
  by_cases hle : s ≤ saturatingAdd (t.params.commitBudget commitPeriodMicros) t.params.maxBurst
  · exact .inr ⟨s, hs, hle, hspec.1 hle, bump_eq hu64 hne hs txCost⟩
  · obtain ⟨key, hkey, -⟩ := hspec.2 (Nat.lt_of_not_le hle)
    exact .inl ⟨_, hkey⟩

/-- The costs after a bump at start cost `s`: still `u64` values, no smaller than before, and
no larger than before or than `s` plus the transaction's cost. -/
theorem bumped_bounds (hu64 : ∀ o, t.objectExecutionCost o ≤ u64Max) {s : ℕ}
    (hs : t.computeTxStartAtCost sharedInputObjects = some s) (txCost : ℕ) (o : O) :
    let cost := if ∃ obj ∈ sharedInputObjects, obj.isAccessedExclusively ∧ obj.id = o then
      saturatingAdd s txCost else t.objectExecutionCost o
    cost ≤ u64Max ∧ t.objectExecutionCost o ≤ cost ∧
      cost ≤ max (t.objectExecutionCost o) (s + txCost) := by
  obtain ⟨⟨obj₀, _, hcost₀⟩, hmax⟩ := computeTxStartAtCost_eq_some_iff.mp hs
  have hs64 : s ≤ u64Max := hcost₀ ▸ hu64 obj₀.id
  intro cost
  by_cases hex : ∃ obj ∈ sharedInputObjects, obj.isAccessedExclusively ∧ obj.id = o
  · obtain ⟨obj, hobj, hexc, rfl⟩ := hex
    have hcost : cost = saturatingAdd s txCost := if_pos ⟨obj, hobj, hexc, rfl⟩
    rw [hcost]
    exact ⟨saturatingAdd_le_max s txCost,
      Nat.le_trans (hmax obj hobj) (le_saturatingAdd hs64 txCost),
      Nat.le_trans (saturatingAdd_le_add s txCost) (Nat.le_max_right _ _)⟩
  · have hcost : cost = t.objectExecutionCost o := if_neg hex
    rw [hcost]
    exact ⟨hu64 o, Nat.le_refl _, Nat.le_max_left _ _⟩

/-- One transaction with shared inputs, in a tracker with `u64` costs: `should_defer` never
panics; when it schedules, the start cost is within `budget + burst` and the bump returns,
raising no cost and moving each exclusive input to the end cost, at least every input's cost;
when it defers, it names exactly the inputs at the start cost, and some. -/
theorem transaction_spec (hu64 : ∀ o, t.objectExecutionCost o ≤ u64Max)
    (hne : sharedInputObjects ≠ []) (previousKey : Option DeferralKey) (txCost : ℕ)
    (commitRound commitPeriodMicros : ℕ) :
    ∃ s, t.computeTxStartAtCost sharedInputObjects = some s ∧
      (∀ obj ∈ sharedInputObjects, t.objectExecutionCost obj.id ≤ s) ∧
      t.shouldDeferDueToObjectCongestion sharedInputObjects previousKey commitRound
        commitPeriodMicros ≠ none ∧
      (t.shouldDeferDueToObjectCongestion sharedInputObjects previousKey commitRound
          commitPeriodMicros = some none →
        s ≤ t.params.commitBudget commitPeriodMicros + t.params.maxBurst ∧
          ∃ t', t.bumpObjectExecutionCost txCost sharedInputObjects = some t' ∧
            (∀ o, t.objectExecutionCost o ≤ t'.objectExecutionCost o) ∧
            ∀ obj ∈ sharedInputObjects, obj.isAccessedExclusively →
              t'.objectExecutionCost obj.id = saturatingAdd s txCost ∧
              ∀ obj' ∈ sharedInputObjects,
                t.objectExecutionCost obj'.id ≤ t'.objectExecutionCost obj.id) ∧
      ∀ key congested, t.shouldDeferDueToObjectCongestion sharedInputObjects previousKey
          commitRound commitPeriodMicros = some (some (key, congested)) →
        congested ≠ [] ∧ congested =
          (sharedInputObjects.filter fun obj => t.objectExecutionCost obj.id = s).map (·.id) := by
  obtain ⟨s, hs⟩ := computeTxStartAtCost_isSome hne
  obtain ⟨⟨obj₀, _, hcost₀⟩, hmax⟩ := computeTxStartAtCost_eq_some_iff.mp hs
  have hs64 : s ≤ u64Max := hcost₀ ▸ hu64 obj₀.id
  refine ⟨s, hs, hmax, shouldDefer_ne_none hne previousKey commitRound commitPeriodMicros,
    fun hsched => ⟨?_, _, bump_eq hu64 hne hs txCost, fun o => (bumped_bounds hu64 hs txCost o).2.1,
      fun obj hobj hexc => ⟨if_pos ⟨obj, hobj, hexc, rfl⟩, fun obj' hobj' => ?_⟩⟩,
    fun key congested => congested_of_deferred hne hs⟩
  · exact Nat.le_trans (start_le_of_scheduled hne hs hsched) (saturatingAdd_le_add _ _)
  · -- the exclusive input is at the end cost, above the start cost
    show t.objectExecutionCost obj'.id ≤
      if ∃ obj'' ∈ sharedInputObjects, obj''.isAccessedExclusively ∧ obj''.id = obj.id then
        saturatingAdd s txCost else t.objectExecutionCost obj.id
    rw [if_pos ⟨obj, hobj, hexc, rfl⟩]
    exact Nat.le_trans (hmax obj' hobj') (le_saturatingAdd hs64 txCost)

end SharedObjectCongestionTracker

/-! ### Runs of the loop -/

/-- The largest estimated cost among the transactions. -/
def maxTxCost (txs : List (Tx O)) : ℕ := (txs.map Tx.txCost).foldr max 0

omit [DecidableEq O] in
theorem le_maxTxCost {txs : List (Tx O)} {tx : Tx O} (h : tx ∈ txs) : tx.txCost ≤ maxTxCost txs := by
  induction txs with
  | nil => cases h
  | cons a txs ih =>
    simp only [maxTxCost, List.map_cons, List.foldr_cons] at ih ⊢
    rcases List.mem_cons.mp h with rfl | h
    · exact Nat.le_max_left _ _
    · exact Nat.le_trans (ih h) (Nat.le_max_right _ _)

/-- A run of the loop over transactions with shared inputs and costs at most `M`, from a
tracker with `u64` costs, never panics; every cost only grows, stays a `u64` value, and ends
at most its start or the burst limit plus `M`. The induction is on the transactions, one
`schedule_cases` per step. -/
theorem scheduleLoop_spec (commitRound commitPeriodMicros M : ℕ) :
    ∀ (txs : List (Tx O)) (t : SharedObjectCongestionTracker O),
      (∀ tx ∈ txs, tx.sharedInputObjects ≠ [] ∧ tx.txCost ≤ M) →
      (∀ o, t.objectExecutionCost o ≤ u64Max) →
      ∃ t' deferrals, scheduleLoop commitRound commitPeriodMicros t txs = some (t', deferrals) ∧
        t'.params = t.params ∧
        ∀ o, t'.objectExecutionCost o ≤ u64Max ∧
          t.objectExecutionCost o ≤ t'.objectExecutionCost o ∧
          t'.objectExecutionCost o ≤ max (t.objectExecutionCost o)
            (t.params.commitBudget commitPeriodMicros + t.params.maxBurst + M)
  | [], t, _, hu64 => ⟨t, [], rfl, rfl, fun o => ⟨hu64 o, Nat.le_refl _, Nat.le_max_left _ _⟩⟩
  | tx :: txs, t, htx, hu64 => by
    obtain ⟨hne, hcostM⟩ := htx tx List.mem_cons_self
    have hrest : ∀ tx' ∈ txs, tx'.sharedInputObjects ≠ [] ∧ tx'.txCost ≤ M :=
      fun tx' h' => htx tx' (List.mem_cons_of_mem _ h')
    rcases schedule_cases hu64 hne tx.txCost tx.previousKey commitRound commitPeriodMicros with
      ⟨deferral, hdefer⟩ | ⟨s, hs, hle, hdefer, hbump⟩
    · -- deferred: the tracker is unchanged
      obtain ⟨t', deferrals, hrun, hparams, hbound⟩ :=
        scheduleLoop_spec commitRound commitPeriodMicros M txs t hrest hu64
      exact ⟨t', some deferral :: deferrals, by simp [scheduleLoop, hdefer, hrun], hparams, hbound⟩
    · -- scheduled: the bumped costs are within the burst limit plus the transaction's cost
      obtain ⟨t₁, ht₁⟩ : ∃ t₁ : SharedObjectCongestionTracker O, t₁ = { t with
          objectExecutionCost := fun o =>
            if ∃ obj ∈ tx.sharedInputObjects, obj.isAccessedExclusively ∧ obj.id = o then
              saturatingAdd s tx.txCost
            else t.objectExecutionCost o
          logEntries := t.logEntries.map (· ++ [⟨s, saturatingAdd s tx.txCost⟩]) } := ⟨_, rfl⟩
      rw [← ht₁] at hbump
      have hstep := bumped_bounds hu64 hs tx.txCost
      obtain ⟨t', deferrals, hrun, hparams, hbound⟩ :=
        scheduleLoop_spec commitRound commitPeriodMicros M txs t₁ hrest fun o => by
          rw [ht₁]
          exact (hstep o).1
      refine ⟨t', none :: deferrals, by simp [scheduleLoop, hdefer, hbump, hrun], ?_, fun o => ?_⟩
      · rw [hparams, ht₁]
      obtain ⟨h64, hmono, hle₁⟩ := hstep o
      obtain ⟨h64', hmono', hle'⟩ := hbound o
      have hburst := saturatingAdd_le_add (t.params.commitBudget commitPeriodMicros)
        t.params.maxBurst
      subst ht₁
      refine ⟨h64', Nat.le_trans hmono hmono', ?_⟩
      simp only at hle' hle₁ hmono'
      omega

/-- The decayed debt is never above the stored one, and is the stored debt less the
budgets of the rounds in between when their product fits in a `u64`. -/
theorem decayDebt_spec {perCommitBudget currentRound round debt d : ℕ}
    (h : decayDebt perCommitBudget currentRound round debt = some d) :
    d ≤ debt ∧ (perCommitBudget * (currentRound - round - 1) < 2 ^ 64 →
      d = debt - perCommitBudget * (currentRound - round - 1)) := by
  unfold decayDebt at h
  split at h
  · cases h
    refine ⟨Nat.sub_le _ _, fun hfit => ?_⟩
    rw [Nat.mod_eq_of_lt hfit]
  · cases h

/-- A run of the loop from the initial debts over transactions with shared inputs: it
returns, every cost grows from its debt, and what `finish_commit` carries beyond the budget is
at most the debt or the burst plus the largest transaction cost, beyond the budget. -/
theorem scheduleLoop_new_spec (initialObjectDebts : O → Fin (2 ^ 64))
    (params : ExecutionTimeEstimateParams) (forRandomness enableLogging : Bool)
    (commitRound commitPeriodMicros : ℕ) (txs : List (Tx O))
    (hne : ∀ tx ∈ txs, tx.sharedInputObjects ≠ []) :
    ∃ t' deferrals, scheduleLoop commitRound commitPeriodMicros
        (new initialObjectDebts params forRandomness enableLogging) txs = some (t', deferrals) ∧
      ∀ o, (initialObjectDebts o : ℕ) ≤ t'.objectExecutionCost o ∧
        t'.objectExecutionCost o ≤ u64Max ∧
        (t'.finishCommit commitPeriodMicros).accumulatedDebts o =
          t'.objectExecutionCost o - (Params.mk params forRandomness).commitBudget commitPeriodMicros ∧
        t'.objectExecutionCost o - (Params.mk params forRandomness).commitBudget commitPeriodMicros ≤
          max (initialObjectDebts o - (Params.mk params forRandomness).commitBudget commitPeriodMicros)
            ((Params.mk params forRandomness).maxBurst + maxTxCost txs) := by
  -- the initial debts are `u64` values
  have hu64 : ∀ o, (new initialObjectDebts params forRandomness enableLogging :
      SharedObjectCongestionTracker O).objectExecutionCost o ≤ u64Max := fun o => by
    have := (initialObjectDebts o).isLt
    simp only [new, u64Max]
    omega
  obtain ⟨t', deferrals, hrun, hparams, hbound⟩ :=
    scheduleLoop_spec commitRound commitPeriodMicros (maxTxCost txs) txs _
      (fun tx htx => ⟨hne tx htx, le_maxTxCost htx⟩) hu64
  refine ⟨t', deferrals, hrun, fun o => ?_⟩
  obtain ⟨h64, hmono, hle⟩ := hbound o
  simp only [new] at hle hmono hparams
  refine ⟨hmono, h64, by simp [finishCommit, hparams], ?_⟩
  omega

end CongestionControl

end Sui
