import Sui.MoveArith
import Sui.ProRata

/-!
# Redeeming fungible staked SUI

A model of the redemption path of staking_pool.move: the exchange rate of a
pool converts pool tokens to SUI through the mul_div! macro, which widens to
u128, divides and casts back to u64, and
calculate_fungible_staked_sui_withdraw_amount splits what a redeemed value is
owed between the principal of the pool's FungibleStakedSuiData and its rewards
pool, with an EInvariantFailure assert that the two parts do not exceed the
value's own conversion. redeem_fungible_staked_sui takes both parts out of
their balances.

Every quantity is a natural number below 2^64 where the code has a u64, and
every operation is checked as Move checks it (`MoveArith`). The SUI value of
pool tokens, without the u64 cast, is `suiValue`.

**Main results.** Given a u64 rate and a supply that fits:

* `calculateFungibleStakedSuiWithdrawAmount_eq_ok`: the call returns the two
  rounded-down shares exactly when the supply's conversion fits in u64, and
  `calculateFungibleStakedSuiWithdrawAmount_eq_error` says it aborts with an
  arithmetic error otherwise;
* `withdrawPrincipal_le` and `withdraw_add_le_suiValue`: the principal part is
  at most the principal, and the two parts together at most the value's
  conversion, so the assert holds;
* `redeemAll_add_suiValue_le`: over any sequence of redemptions at one rate, what
  was paid out plus the conversion of the supply left is at most the
  conversion of the supply at the start.

Proof shape: the arithmetic is done once, in `ProRata`, over plain quotients;
the lemmas here only show that each checked step returns that quotient.
-/

namespace Sui.StakingPool

open MoveArith

/-- The abort codes the modelled functions can raise. -/
inductive Code where
  /-- staking_pool::EWrongPool -/
  | eWrongPool
  /-- staking_pool::EInvariantFailure -/
  | eInvariantFailure
  /-- balance::ENotEnough -/
  | eNotEnough
  deriving DecidableEq, Repr

/-- A pool's exchange rate: sui_amount SUI for pool_token_amount pool tokens. -/
structure PoolTokenExchangeRate where
  suiAmount : ℕ
  poolTokenAmount : ℕ
  deriving DecidableEq, Repr

/-- The mul_div! macro: (a as u128) * (b as u128) / (c as u128), cast to u64. -/
def mulDiv (a b c : ℕ) : Except (Abort Code) ℕ :=
  mulDivWide 64 a b c

/-- get_sui_amount: a rate with a zero amount converts one to one. -/
def getSuiAmount (exchangeRate : PoolTokenExchangeRate) (tokenAmount : ℕ) :
    Except (Abort Code) ℕ :=
  if exchangeRate.suiAmount = 0 ∨ exchangeRate.poolTokenAmount = 0 then pure tokenAmount
  else mulDiv exchangeRate.suiAmount tokenAmount exchangeRate.poolTokenAmount

/-- calculate_fungible_staked_sui_withdraw_amount: returns (principal, rewards). -/
def calculateFungibleStakedSuiWithdrawAmount (latestExchangeRate : PoolTokenExchangeRate)
    (fungibleStakedSuiValue fungibleStakedSuiDataPrincipalAmount
      fungibleStakedSuiDataTotalSupply : ℕ) : Except (Abort Code) (ℕ × ℕ) := do
  let totalSuiAmount ← getSuiAmount latestExchangeRate fungibleStakedSuiDataTotalSupply
  -- min with total_sui_amount to prevent underflow
  let principalAmount := min fungibleStakedSuiDataPrincipalAmount totalSuiAmount
  let totalRewards ← MoveArith.sub totalSuiAmount principalAmount
  let principalWithdrawAmount ←
    mulDiv fungibleStakedSuiValue principalAmount fungibleStakedSuiDataTotalSupply
  let rewardsWithdrawAmount ←
    mulDiv fungibleStakedSuiValue totalRewards fungibleStakedSuiDataTotalSupply
  let expectedSuiAmount ← getSuiAmount latestExchangeRate fungibleStakedSuiValue
  let paid ← MoveArith.add 64 principalWithdrawAmount rewardsWithdrawAmount
  MoveArith.assert (paid ≤ expectedSuiAmount) .eInvariantFailure
  pure (principalWithdrawAmount, rewardsWithdrawAmount)

/-- balance::split: the balance left; the part split off is the amount asked. -/
def balanceSplit (balance value : ℕ) : Except (Abort Code) ℕ := do
  MoveArith.assert (value ≤ balance) .eNotEnough
  MoveArith.sub balance value

/-- balance::join: the value of the joined balance. -/
def balanceJoin (balance value : ℕ) : Except (Abort Code) ℕ :=
  MoveArith.add 64 balance value

/-- A FungibleStakedSui object: the pool it belongs to and its value. -/
structure FungibleStakedSui where
  poolId : ℕ
  value : ℕ
  deriving DecidableEq, Repr

/-- The fields of a staking pool, and of its FungibleStakedSuiData, that a
redemption reads and writes. -/
structure RedeemState where
  id : ℕ
  /-- fungible_staked_sui_data.principal -/
  principal : ℕ
  /-- fungible_staked_sui_data.total_supply -/
  totalSupply : ℕ
  rewardsPool : ℕ
  pendingTotalSuiWithdraw : ℕ
  pendingPoolTokenWithdraw : ℕ
  deriving DecidableEq, Repr

/-- redeem_fungible_staked_sui at the pool's rate for the current epoch: the
new pool state and the value of the SUI balance paid out. -/
def redeemFungibleStakedSui (pool : RedeemState) (latestExchangeRate : PoolTokenExchangeRate)
    (fungibleStakedSui : FungibleStakedSui) : Except (Abort Code) (RedeemState × ℕ) := do
  MoveArith.assert (fungibleStakedSui.poolId = pool.id) .eWrongPool
  let value := fungibleStakedSui.value
  let (principalAmount, rewardsAmount) ←
    calculateFungibleStakedSuiWithdrawAmount latestExchangeRate value pool.principal
      pool.totalSupply
  let totalSupply ← MoveArith.sub pool.totalSupply value
  let principal ← balanceSplit pool.principal principalAmount
  let rewardsPool ← balanceSplit pool.rewardsPool rewardsAmount
  let suiOut ← balanceJoin principalAmount rewardsAmount
  let pendingTotalSuiWithdraw ← MoveArith.add 64 pool.pendingTotalSuiWithdraw suiOut
  let pendingPoolTokenWithdraw ← MoveArith.add 64 pool.pendingPoolTokenWithdraw value
  pure ({ pool with
    principal := principal, totalSupply := totalSupply, rewardsPool := rewardsPool,
    pendingTotalSuiWithdraw := pendingTotalSuiWithdraw,
    pendingPoolTokenWithdraw := pendingPoolTokenWithdraw }, suiOut)

/-- A sequence of redemptions at one rate, each in a transaction of its own: one
that aborts leaves the pool as it was and pays nothing. Returns the final pool
and the total paid out. -/
def redeemAll (latestExchangeRate : PoolTokenExchangeRate) :
    RedeemState → List FungibleStakedSui → RedeemState × ℕ
  | pool, [] => (pool, 0)
  | pool, f :: fs =>
    match redeemFungibleStakedSui pool latestExchangeRate f with
    | .ok (pool', suiOut) =>
      let rest := redeemAll latestExchangeRate pool' fs
      (rest.1, suiOut + rest.2)
    | .error _ => redeemAll latestExchangeRate pool fs

/-- The SUI value of pool tokens at a rate, rounded down, before the u64 cast. -/
def suiValue (exchangeRate : PoolTokenExchangeRate) (tokenAmount : ℕ) : ℕ :=
  if exchangeRate.suiAmount = 0 ∨ exchangeRate.poolTokenAmount = 0 then tokenAmount
  else exchangeRate.suiAmount * tokenAmount / exchangeRate.poolTokenAmount

section Conversion

variable {rate : PoolTokenExchangeRate}

theorem mulDiv_eq_ok {a b c : ℕ} (ha : a < 2 ^ 64) (hb : b < 2 ^ 64) (hc : 0 < c)
    (hq : a * b / c < 2 ^ 64) : mulDiv a b c = .ok (a * b / c) :=
  mulDivWide_eq_ok ha hb hc hq

/-- A mul_div! that returns returns the quotient. -/
theorem eq_of_mulDiv_eq_ok {a b c q : ℕ} (h : mulDiv a b c = .ok q) : q = a * b / c :=
  eq_of_mulDivWide_eq_ok h

theorem mulDiv_eq_error {a b c : ℕ} (ha : a < 2 ^ 64) (hb : b < 2 ^ 64) (hc : 0 < c)
    (hq : 2 ^ 64 ≤ a * b / c) : mulDiv a b c = .error .arithmeticError :=
  mulDivWide_eq_error ha hb hc hq

/-- get_sui_amount returns `suiValue` whenever that fits in u64. -/
theorem getSuiAmount_eq_ok {x : ℕ} (hsui : rate.suiAmount < 2 ^ 64) (hx : x < 2 ^ 64)
    (hfit : suiValue rate x < 2 ^ 64) : getSuiAmount rate x = .ok (suiValue rate x) := by
  unfold getSuiAmount
  split_ifs with hzero
  · simp [suiValue, hzero, pure, Except.pure]
  · have hpool : 0 < rate.poolTokenAmount := Nat.pos_of_ne_zero (not_or.mp hzero).2
    simp only [suiValue, hzero, if_false] at hfit ⊢
    exact mulDiv_eq_ok hsui hx hpool hfit

/-- What get_sui_amount returns is `suiValue`. -/
theorem eq_of_getSuiAmount_eq_ok {x y : ℕ} (h : getSuiAmount rate x = .ok y) :
    y = suiValue rate x := by
  unfold getSuiAmount at h
  split_ifs at h with hzero
  · cases h
    simp [suiValue, hzero]
  · simp only [suiValue, hzero, if_false]
    exact eq_of_mulDiv_eq_ok h

theorem getSuiAmount_eq_error {x : ℕ} (hsui : rate.suiAmount < 2 ^ 64) (hx : x < 2 ^ 64)
    (hbig : 2 ^ 64 ≤ suiValue rate x) : getSuiAmount rate x = .error .arithmeticError := by
  unfold getSuiAmount
  split_ifs with hzero
  · simp only [suiValue, hzero, if_true] at hbig
    omega
  · have hpool : 0 < rate.poolTokenAmount := Nat.pos_of_ne_zero (not_or.mp hzero).2
    simp only [suiValue, hzero, if_false] at hbig
    exact mulDiv_eq_error hsui hx hpool hbig

theorem suiValue_mono {x y : ℕ} (h : x ≤ y) : suiValue rate x ≤ suiValue rate y := by
  unfold suiValue
  split_ifs
  · exact h
  · exact ProRata.mul_div_mono _ _ h

/-- Converting two amounts separately gives at most converting their sum. -/
theorem suiValue_add_le (x y : ℕ) : suiValue rate x + suiValue rate y ≤ suiValue rate (x + y) := by
  unfold suiValue
  split_ifs
  · exact Nat.le_refl _
  · exact ProRata.mul_div_add_mul_div_le _ _ _ _

end Conversion

section Withdraw

variable {rate : PoolTokenExchangeRate} {v P S : ℕ}

/-- The principal part is at most the principal. -/
theorem withdrawPrincipal_le (T : ℕ) (hv : v ≤ S) : v * min P T / S ≤ P :=
  Nat.le_trans (ProRata.mul_div_le_of_le _ hv) (Nat.min_le_left P T)

/-- The two parts together are at most the redeemed value's own conversion. -/
theorem withdraw_add_le_suiValue (P : ℕ) (hpos : 0 < S) :
    v * min P (suiValue rate S) / S + v * (suiValue rate S - min P (suiValue rate S)) / S ≤
      suiValue rate v := by
  -- the parts split the share of the whole conversion, which rounds below the direct one
  have hsplit : min P (suiValue rate S) + (suiValue rate S - min P (suiValue rate S)) =
      suiValue rate S := Nat.add_sub_cancel' (Nat.min_le_right _ _)
  have hshare : v * suiValue rate S / S ≤ suiValue rate v := by
    unfold suiValue
    split_ifs
    · exact Nat.le_of_eq (Nat.mul_div_cancel v hpos)
    · exact ProRata.mul_div_div_le hpos v _ _
  calc v * min P (suiValue rate S) / S + v * (suiValue rate S - min P (suiValue rate S)) / S
      ≤ v * suiValue rate S / S := by
        have h := ProRata.mul_div_add_mul_div_le v (min P (suiValue rate S))
          (suiValue rate S - min P (suiValue rate S)) S
        rwa [hsplit] at h
    _ ≤ suiValue rate v := hshare

/-- **The withdraw amounts** when the supply's conversion fits in u64: the two
rounded-down shares of the clamped principal and of the rest. -/
theorem calculateFungibleStakedSuiWithdrawAmount_eq_ok (hsui : rate.suiAmount < 2 ^ 64)
    (hS : S < 2 ^ 64) (hpos : 0 < S) (hv : v ≤ S) (hfit : suiValue rate S < 2 ^ 64) :
    calculateFungibleStakedSuiWithdrawAmount rate v P S =
      .ok (v * min P (suiValue rate S) / S,
        v * (suiValue rate S - min P (suiValue rate S)) / S) := by
  have hvS : v < 2 ^ 64 := Nat.lt_of_le_of_lt hv hS
  have hmin : min P (suiValue rate S) ≤ suiValue rate S := Nat.min_le_right _ _
  -- each share is at most the conversion of the supply, so it fits in u64
  have hprincipal : v * min P (suiValue rate S) / S < 2 ^ 64 :=
    Nat.lt_of_le_of_lt (Nat.le_trans (ProRata.mul_div_le_of_le _ hv) hmin) hfit
  have hrewards : v * (suiValue rate S - min P (suiValue rate S)) / S < 2 ^ 64 :=
    Nat.lt_of_le_of_lt (Nat.le_trans (ProRata.mul_div_le_of_le _ hv) (Nat.sub_le _ _)) hfit
  have hsum := @withdraw_add_le_suiValue rate v S P hpos
  have hexpected : suiValue rate v < 2 ^ 64 := Nat.lt_of_le_of_lt (suiValue_mono hv) hfit
  simp only [calculateFungibleStakedSuiWithdrawAmount, getSuiAmount_eq_ok hsui hS hfit, ok_bind,
    sub_eq_ok hmin,
    mulDiv_eq_ok hvS (Nat.lt_of_le_of_lt hmin hfit) hpos hprincipal,
    mulDiv_eq_ok hvS (Nat.lt_of_le_of_lt (Nat.sub_le _ _) hfit) hpos hrewards,
    getSuiAmount_eq_ok hsui hvS hexpected,
    add_eq_ok (Nat.lt_of_le_of_lt hsum hexpected), assert_eq_ok hsum]
  rfl

/-- At 1.1 SUI per token, redeeming a tenth of a supply of 100 with principal 50
pays 5 from the principal and 6 from the rewards. -/
example : calculateFungibleStakedSuiWithdrawAmount ⟨110, 100⟩ 10 50 100 = .ok (5, 6) := rfl

/-- When the supply's conversion does not fit in u64 the call aborts at once. -/
theorem calculateFungibleStakedSuiWithdrawAmount_eq_error (hsui : rate.suiAmount < 2 ^ 64)
    (hS : S < 2 ^ 64) (hbig : 2 ^ 64 ≤ suiValue rate S) :
    calculateFungibleStakedSuiWithdrawAmount rate v P S = .error .arithmeticError := by
  simp only [calculateFungibleStakedSuiWithdrawAmount, getSuiAmount_eq_error hsui hS hbig,
    error_bind]

/-- A rate of two SUI per pool token and a supply just below 2^64: the supply's
conversion does not fit in u64, and redeeming one token aborts. -/
theorem calculateFungibleStakedSuiWithdrawAmount_aborts_at_large_supply :
    calculateFungibleStakedSuiWithdrawAmount ⟨2, 1⟩ 1 0 (2 ^ 64 - 1) = .error .arithmeticError :=
  calculateFungibleStakedSuiWithdrawAmount_eq_error (by decide) (by decide) (by decide)

/-- With a u64 rate and supply, get_sui_amount returns exactly when the
conversion fits in u64. -/
theorem getSuiAmount_isOk_iff {x : ℕ} (hsui : rate.suiAmount < 2 ^ 64) (hx : x < 2 ^ 64) :
    (∃ y, getSuiAmount rate x = .ok y) ↔ suiValue rate x < 2 ^ 64 := by
  constructor
  · rintro ⟨y, hy⟩
    by_contra hbig
    rw [getSuiAmount_eq_error hsui hx (Nat.not_lt.mp hbig)] at hy
    cases hy
  · intro hfit
    exact ⟨_, getSuiAmount_eq_ok hsui hx hfit⟩

end Withdraw

section Redeem

variable {rate : PoolTokenExchangeRate}

/-- **One redemption** that returns pays at most the redeemed value's
conversion and takes the value off the supply. -/
theorem redeemFungibleStakedSui_spec {pool pool' : RedeemState} {f : FungibleStakedSui}
    {suiOut : ℕ} (h : redeemFungibleStakedSui pool rate f = .ok (pool', suiOut)) :
    suiOut ≤ suiValue rate f.value ∧ f.value ≤ pool.totalSupply ∧
      pool'.totalSupply = pool.totalSupply - f.value := by
  simp only [redeemFungibleStakedSui, bind_eq_ok] at h
  obtain ⟨_, -, ⟨principalAmount, rewardsAmount⟩, hcalc, totalSupply, hsub, principal, -,
    rewardsPool, -, joined, hjoin, pendingSui, -, pendingTokens, -, hpure⟩ := h
  -- the assert of the calculation bounds the joined balance
  simp only [calculateFungibleStakedSuiWithdrawAmount, bind_eq_ok] at hcalc
  obtain ⟨_, -, _, -, _, hp, _, hr, expected, hexp, paid, hpaid, _, hassert, hret⟩ := hcalc
  cases hret
  have hbound : paid ≤ expected := of_assert_eq_ok hassert
  have hexp' := eq_of_getSuiAmount_eq_ok hexp
  have hpaid' : paid = joined := by
    rw [(eq_of_add_eq_ok hpaid).1, (eq_of_add_eq_ok hjoin).1]
  obtain ⟨htotal, hle⟩ := eq_of_sub_eq_ok hsub
  cases hpure
  exact ⟨hpaid' ▸ hexp' ▸ hbound, hle, htotal⟩

/-- **No over-payment over a run**: what a sequence of redemptions pays out,
plus the conversion of the supply left, is at most the conversion of the supply
at the start. -/
theorem redeemAll_add_suiValue_le (pieces : List FungibleStakedSui) :
    ∀ pool : RedeemState, (redeemAll rate pool pieces).2 +
      suiValue rate (redeemAll rate pool pieces).1.totalSupply ≤ suiValue rate pool.totalSupply := by
  induction pieces with
  | nil => intro pool; simp [redeemAll]
  | cons f fs ih =>
    intro pool
    unfold redeemAll
    cases hstep : redeemFungibleStakedSui pool rate f with
    | error e => exact ih pool
    | ok r =>
      obtain ⟨pool', suiOut⟩ := r
      obtain ⟨hout, hle, hsupply⟩ := redeemFungibleStakedSui_spec hstep
      -- the piece and the rest of the supply convert to at most the supply
      have hsplit : suiValue rate f.value + suiValue rate pool'.totalSupply ≤
          suiValue rate pool.totalSupply := by
        have h := @suiValue_add_le rate f.value (pool.totalSupply - f.value)
        rwa [Nat.add_sub_cancel' hle, ← hsupply] at h
      have hrest := ih pool'
      simp only
      omega

/-- **Fungible staked SUI redemption never over-pays.** For a u64 rate, a
supply `0 < S < 2^64` and a value `v ≤ S`, the withdraw calculation returns
exactly when get_sui_amount of the supply does, and otherwise aborts with an
arithmetic error, never at its assert; what it returns takes at most the
principal from the principal and at most the value's conversion in all. Any
sequence of redemptions at that rate pays out at most the supply's conversion. -/
theorem fungibleStakedSui_redemption_bounded (rate : PoolTokenExchangeRate)
    (hsui : rate.suiAmount < 2 ^ 64) :
    (∀ v P S, 0 < S → S < 2 ^ 64 → v ≤ S →
      ((∃ r, calculateFungibleStakedSuiWithdrawAmount rate v P S = .ok r) ↔
        ∃ T, getSuiAmount rate S = .ok T) ∧
      (∀ e, calculateFungibleStakedSuiWithdrawAmount rate v P S = .error e →
        e = .arithmeticError) ∧
      ∀ principal rewards,
        calculateFungibleStakedSuiWithdrawAmount rate v P S = .ok (principal, rewards) →
          principal ≤ P ∧
            ∃ expected, getSuiAmount rate v = .ok expected ∧ principal + rewards ≤ expected) ∧
    ∀ (pool : RedeemState) (pieces : List FungibleStakedSui) (T : ℕ),
      getSuiAmount rate pool.totalSupply = .ok T → (redeemAll rate pool pieces).2 ≤ T := by
  refine ⟨fun v P S hpos hS hv => ?_, fun pool pieces T hT => ?_⟩
  · rw [getSuiAmount_isOk_iff hsui hS]
    by_cases hfit : suiValue rate S < 2 ^ 64
    · -- the call returns the two shares, and the assert's bound holds of them
      have hcalc := calculateFungibleStakedSuiWithdrawAmount_eq_ok (P := P) hsui hS hpos hv hfit
      have hexpected : suiValue rate v < 2 ^ 64 := Nat.lt_of_le_of_lt (suiValue_mono hv) hfit
      refine ⟨iff_of_true ⟨_, hcalc⟩ hfit, fun e he => ?_, fun principal rewards h => ?_⟩
      · rw [hcalc] at he
        cases he
      · rw [hcalc] at h
        cases h
        exact ⟨withdrawPrincipal_le _ hv,
          _, getSuiAmount_eq_ok hsui (Nat.lt_of_le_of_lt hv hS) hexpected,
          withdraw_add_le_suiValue P hpos⟩
    · -- the conversion of the supply overflows first
      have hcalc := calculateFungibleStakedSuiWithdrawAmount_eq_error (v := v) (P := P) hsui hS
        (Nat.not_lt.mp hfit)
      refine ⟨iff_of_false (fun ⟨_, h⟩ => ?_) hfit, fun e he => ?_, fun principal rewards h => ?_⟩
      · rw [hcalc] at h
        cases h
      · rw [hcalc] at he
        cases he
        rfl
      · rw [hcalc] at h
        cases h
  · have hrun := @redeemAll_add_suiValue_le rate pieces pool
    rw [← eq_of_getSuiAmount_eq_ok hT] at hrun
    omega

theorem fungibleStakedSui_redemption_bounded_two :
    (⟨2, 1⟩ : PoolTokenExchangeRate).suiAmount < 2 ^ 64 ∧
      ∀ (pool : RedeemState) (pieces : List FungibleStakedSui) (T : ℕ),
        getSuiAmount ⟨2, 1⟩ pool.totalSupply = .ok T → (redeemAll ⟨2, 1⟩ pool pieces).2 ≤ T :=
  ⟨by decide, (fungibleStakedSui_redemption_bounded ⟨2, 1⟩ (by decide)).2⟩

end Redeem

end Sui.StakingPool
