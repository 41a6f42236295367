import Sui.Framework.Balance
import Mathlib.Algebra.BigOperators.Group.List.Basic

set_option linter.dupNamespace false

/-!
# The storage fund (`storage_fund.move`)

The storage fund holds two balances. `total_object_storage_rebates` takes in
the storage charges of each epoch and pays out the storage rebates, both the
part refunded to the senders and the non-refundable part, which moves to
`non_refundable_balance`. The non-refundable balance also takes in the fund's
reinvestment and the rewards left over from the distribution, and nothing ever
leaves it.

**Main results.**

* `advanceEpoch_eq_ok`: advance_epoch returns when the non-refundable fee
  and the rebate together fit in the rebates plus the epoch's charges and no
  join overflows, and then moves the amounts as described above, returning
  the rebate;
* `eq_of_advanceEpoch_eq_ok`, `afterEpoch_conserves`: when it returns, it
  returned the rebate, and what the fund holds and the rebate add up to what
  it held and took in;
* `storageFund_runs_conserve`: over every run of epochs from new, the
  non-refundable balance is the initial fund plus every inflow to it, so it
  never decreases; the rebates left are the charges less every fee and rebate
  paid out, which therefore never exceed the charges; and the fund returns
  each epoch's rebate.
-/

namespace Sui.StorageFund

open MoveArith

/-- The abort codes the modelled functions can raise. -/
inductive Code where
  /-- balance::ENotEnough -/
  | eNotEnough
  deriving DecidableEq, Repr

/-- StorageFund: the values of its two balances. total_object_storage_rebates()
is the projection of the first. -/
structure StorageFund where
  totalObjectStorageRebates : ℕ
  nonRefundableBalance : ℕ
  deriving DecidableEq, Repr

/-- storage_fund::new: no object is stored yet, and the initial fund is not refundable. -/
def new (initialFund : ℕ) : StorageFund :=
  ⟨0, initialFund⟩

/-- storage_fund::advance_epoch: the storage rebate returned, to be burnt, and
the new fund. -/
def advanceEpoch (self : StorageFund) (storageCharges storageFundReinvestment
    leftoverStakingRewards storageRebateAmount nonRefundableStorageFeeAmount : ℕ) :
    Except (Abort Code) (ℕ × StorageFund) := do
  let nonRefundableBalance ← Balance.join self.nonRefundableBalance storageFundReinvestment
  let nonRefundableBalance ← Balance.join nonRefundableBalance leftoverStakingRewards
  let totalObjectStorageRebates ← Balance.join self.totalObjectStorageRebates storageCharges
  let totalObjectStorageRebates ←
    Balance.split .eNotEnough totalObjectStorageRebates nonRefundableStorageFeeAmount
  let nonRefundableBalance ← Balance.join nonRefundableBalance nonRefundableStorageFeeAmount
  let totalObjectStorageRebates ←
    Balance.split .eNotEnough totalObjectStorageRebates storageRebateAmount
  pure (storageRebateAmount, ⟨totalObjectStorageRebates, nonRefundableBalance⟩)

/-- storage_fund::total_balance -/
def totalBalance (self : StorageFund) : Except (Abort Code) ℕ :=
  add 64 self.totalObjectStorageRebates self.nonRefundableBalance

/-! ## One epoch -/

section Step

variable {self : StorageFund} {storageCharges storageFundReinvestment leftoverStakingRewards
  storageRebateAmount nonRefundableStorageFeeAmount : ℕ}

/-- What advance_epoch needs to return: the joins into the non-refundable
balance fit in u64, the charges fit with the rebates, and the fee and the
rebate together are at most the rebates with the charges. -/
structure Fits (s : StorageFund) (storageCharges storageFundReinvestment leftoverStakingRewards
    storageRebateAmount nonRefundableStorageFeeAmount : ℕ) : Prop where
  nonRefundable_lt : s.nonRefundableBalance + storageFundReinvestment + leftoverStakingRewards +
    nonRefundableStorageFeeAmount < 2 ^ 64
  rebates_lt : s.totalObjectStorageRebates + storageCharges < 2 ^ 64
  outflow_le : nonRefundableStorageFeeAmount + storageRebateAmount ≤
    s.totalObjectStorageRebates + storageCharges

/-- The fund after an epoch that returns. -/
def afterEpoch (self : StorageFund) (storageCharges storageFundReinvestment leftoverStakingRewards
    storageRebateAmount nonRefundableStorageFeeAmount : ℕ) : StorageFund :=
  ⟨self.totalObjectStorageRebates + storageCharges - nonRefundableStorageFeeAmount -
      storageRebateAmount,
    self.nonRefundableBalance + storageFundReinvestment + leftoverStakingRewards +
      nonRefundableStorageFeeAmount⟩

/-- When the epoch's amounts fit the fund, advance_epoch returns the
storage rebate and leaves the fund as `afterEpoch` says: every join stays
within `u64` and every split within the balance it splits. -/
theorem advanceEpoch_eq_ok
    (h : Fits self storageCharges storageFundReinvestment leftoverStakingRewards
      storageRebateAmount nonRefundableStorageFeeAmount) :
    advanceEpoch self storageCharges storageFundReinvestment leftoverStakingRewards
        storageRebateAmount nonRefundableStorageFeeAmount =
      .ok (storageRebateAmount, afterEpoch self storageCharges storageFundReinvestment
        leftoverStakingRewards storageRebateAmount nonRefundableStorageFeeAmount) := by
  have h₁ := h.nonRefundable_lt
  have h₂ := h.outflow_le
  rw [advanceEpoch, Balance.join_eq_ok (by omega), ok_bind, Balance.join_eq_ok (by omega), ok_bind,
    Balance.join_eq_ok h.rebates_lt, ok_bind, Balance.split_eq_ok (by omega), ok_bind,
    Balance.join_eq_ok (by omega), ok_bind, Balance.split_eq_ok (by omega), ok_bind]
  rfl

/-- The inversion of advance_epoch: when it returns, it returned the rebate and
the fund `afterEpoch` describes, and its inputs fit. -/
theorem eq_of_advanceEpoch_eq_ok {r : ℕ × StorageFund}
    (h : advanceEpoch self storageCharges storageFundReinvestment leftoverStakingRewards
      storageRebateAmount nonRefundableStorageFeeAmount = .ok r) :
    Fits self storageCharges storageFundReinvestment leftoverStakingRewards storageRebateAmount
        nonRefundableStorageFeeAmount ∧
      r = (storageRebateAmount, afterEpoch self storageCharges storageFundReinvestment
        leftoverStakingRewards storageRebateAmount nonRefundableStorageFeeAmount) := by
  simp only [advanceEpoch, bind_eq_ok] at h
  obtain ⟨n₁, h₁, n₂, h₂, t₁, h₃, t₂, h₄, n₃, h₅, t₃, h₆, hr⟩ := h
  obtain ⟨rfl, -⟩ := Balance.eq_of_join_eq_ok h₁
  obtain ⟨rfl, -⟩ := Balance.eq_of_join_eq_ok h₂
  obtain ⟨rfl, hcharges⟩ := Balance.eq_of_join_eq_ok h₃
  obtain ⟨rfl, hfee⟩ := Balance.eq_of_split_eq_ok h₄
  obtain ⟨rfl, hnonRefundable⟩ := Balance.eq_of_join_eq_ok h₅
  obtain ⟨rfl, hrebate⟩ := Balance.eq_of_split_eq_ok h₆
  exact ⟨⟨hnonRefundable, hcharges, by omega⟩, (Except.ok.inj hr).symm⟩

/-- Across an epoch that returns, the fund and the rebate returned hold what
the fund held and took in. -/
theorem afterEpoch_conserves
    (h : Fits self storageCharges storageFundReinvestment leftoverStakingRewards
      storageRebateAmount nonRefundableStorageFeeAmount) :
    let fund := afterEpoch self storageCharges storageFundReinvestment leftoverStakingRewards
      storageRebateAmount nonRefundableStorageFeeAmount
    fund.totalObjectStorageRebates + fund.nonRefundableBalance + storageRebateAmount =
      self.totalObjectStorageRebates + self.nonRefundableBalance + storageCharges +
        storageFundReinvestment + leftoverStakingRewards := by
  have := h.outflow_le
  simp only [afterEpoch]
  omega

end Step

/-! ## Runs -/

/-- The arguments of one call of advance_epoch. -/
structure EpochFlow where
  storageCharges : ℕ
  storageFundReinvestment : ℕ
  leftoverStakingRewards : ℕ
  storageRebateAmount : ℕ
  nonRefundableStorageFeeAmount : ℕ
  deriving DecidableEq, Repr

/-- advance_epoch at each epoch change of a run: the rebates returned, in
order, and the fund they leave. -/
def advanceEpochs : List EpochFlow → StorageFund → Except (Abort Code) (List ℕ × StorageFund)
  | [], self => .ok ([], self)
  | f :: flows, self => do
    let step ← advanceEpoch self f.storageCharges f.storageFundReinvestment
      f.leftoverStakingRewards f.storageRebateAmount f.nonRefundableStorageFeeAmount
    let rest ← advanceEpochs flows step.2
    pure (step.1 :: rest.1, rest.2)

/-- What one epoch adds to the non-refundable balance. -/
def EpochFlow.nonRefundableInflow (f : EpochFlow) : ℕ :=
  f.storageFundReinvestment + f.leftoverStakingRewards + f.nonRefundableStorageFeeAmount

/-- What one epoch pays out of the rebates. -/
def EpochFlow.rebateOutflow (f : EpochFlow) : ℕ :=
  f.nonRefundableStorageFeeAmount + f.storageRebateAmount

/-- The run lemma: a run that returns moves every inflow and outflow of its
epochs, and returns each epoch's rebate. The induction is on the epochs, from
any fund. -/
theorem advanceEpochs_flows :
    ∀ (flows : List EpochFlow) (self : StorageFund) (refunds : List ℕ) (fund : StorageFund),
      advanceEpochs flows self = .ok (refunds, fund) →
      refunds = flows.map (·.storageRebateAmount) ∧
        fund.nonRefundableBalance =
          self.nonRefundableBalance + (flows.map (·.nonRefundableInflow)).sum ∧
        fund.totalObjectStorageRebates + (flows.map (·.rebateOutflow)).sum =
          self.totalObjectStorageRebates + (flows.map (·.storageCharges)).sum
  | [], self, refunds, fund, h => by
    obtain ⟨rfl, rfl⟩ := Prod.mk.inj (Except.ok.inj h).symm
    simp
  | f :: flows, self, refunds, fund, h => by
    simp only [advanceEpochs, bind_eq_ok] at h
    obtain ⟨step, hstep, rest, hrest, hout⟩ := h
    obtain ⟨hfits, rfl⟩ := eq_of_advanceEpoch_eq_ok hstep
    obtain ⟨rfl, rfl⟩ := Prod.mk.inj (Except.ok.inj hout).symm
    obtain ⟨hrefunds, hnonRefundable, hrebates⟩ := advanceEpochs_flows flows _ _ _ hrest
    have hout := hfits.outflow_le
    refine ⟨by rw [hrefunds, List.map_cons], ?_, ?_⟩
    · rw [hnonRefundable, List.map_cons, List.sum_cons]
      simp only [afterEpoch, EpochFlow.nonRefundableInflow]
      omega
    · rw [List.map_cons, List.sum_cons, List.map_cons, List.sum_cons]
      simp only [afterEpoch, EpochFlow.rebateOutflow] at hrebates ⊢
      omega

/-- Over every run of epochs from new that returns, the non-refundable balance
is the initial fund plus every reinvestment, leftover reward and
non-refundable fee taken in, so it never decreases; the rebates left are the
storage charges collected less every fee and rebate paid out, so those never
exceed the charges; and the fund returns each epoch's rebate. -/
theorem storageFund_runs_conserve (initialFund : ℕ) (flows : List EpochFlow)
    (refunds : List ℕ) (fund : StorageFund)
    (h : advanceEpochs flows (new initialFund) = .ok (refunds, fund)) :
    refunds = flows.map (·.storageRebateAmount) ∧
      fund.nonRefundableBalance = initialFund + (flows.map (·.nonRefundableInflow)).sum ∧
      fund.totalObjectStorageRebates + (flows.map (·.rebateOutflow)).sum =
        (flows.map (·.storageCharges)).sum := by
  obtain ⟨hrefunds, hnonRefundable, hrebates⟩ := advanceEpochs_flows flows _ _ _ h
  refine ⟨hrefunds, hnonRefundable, ?_⟩
  rw [hrebates]
  exact Nat.zero_add _

theorem storageFund_runs_conserve_two :
    advanceEpochs [⟨100, 5, 3, 20, 10⟩, ⟨50, 0, 1, 60, 30⟩] (new 1000) =
        .ok ([20, 60], ⟨30, 1049⟩) ∧
      [20, 60] = ([⟨100, 5, 3, 20, 10⟩, ⟨50, 0, 1, 60, 30⟩] : List EpochFlow).map
        (·.storageRebateAmount) ∧
      (⟨30, 1049⟩ : StorageFund).nonRefundableBalance = 1000 +
        (([⟨100, 5, 3, 20, 10⟩, ⟨50, 0, 1, 60, 30⟩] : List EpochFlow).map
          (·.nonRefundableInflow)).sum ∧
      (⟨30, 1049⟩ : StorageFund).totalObjectStorageRebates +
          (([⟨100, 5, 3, 20, 10⟩, ⟨50, 0, 1, 60, 30⟩] : List EpochFlow).map (·.rebateOutflow)).sum =
        (([⟨100, 5, 3, 20, 10⟩, ⟨50, 0, 1, 60, 30⟩] : List EpochFlow).map (·.storageCharges)).sum :=
  have h : advanceEpochs [⟨100, 5, 3, 20, 10⟩, ⟨50, 0, 1, 60, 30⟩] (new 1000) =
      .ok ([20, 60], ⟨30, 1049⟩) := by decide
  ⟨h, storageFund_runs_conserve 1000 _ _ _ h⟩

end Sui.StorageFund
