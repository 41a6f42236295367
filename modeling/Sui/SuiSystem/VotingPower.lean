import Sui.MoveArith
import Sui.ProRata
import Sui.OptionList
import Mathlib.Data.List.Sort
import Mathlib.Algebra.Order.BigOperators.Group.List
import Mathlib.Algebra.Order.Group.Nat

/-!
# Validator voting power

A model of voting_power.move. set_voting_power gives every validator a voting
power out of a total of 10 000: each starts at its stake's share of the total,
rounded down and capped at a threshold; the validators, sorted by stake in
descending order, then receive what the caps and the rounding left over, each
in turn getting the remainder divided by the number of validators left,
rounded up, as far as its cap allows. check_invariants asserts that the result
is positive, sums to 10 000 and is monotone in stake.

The greedy hand-out without its checks is `distribute`. Its two facts are
**`distribute_uncapped`**: once a validator is not held back by its cap, none
after it is, each gets at most what it did, and everything is handed out; and
**`distribute_spec`**: when the rooms under the cap grow along the list and
together hold the remainder, the remainder is used up and the powers stay
sorted. The rooms grow because the list is sorted by stake and the initial
power is monotone in stake; they hold the remainder because the threshold is
at least the average power.

**Main result.** `setVotingPower_spec`: for validators whose stakes sum to a
positive u64 total and each own at least one ten-thousandth of it,
set_voting_power returns, and the powers are positive, at most the threshold,
sum to 10 000 and are monotone in stake.
-/

namespace Sui.VotingPower

open MoveArith

/-- The abort codes of voting_power.move. -/
inductive Code where
  | eTotalPowerMismatch
  | eRelativePowerMismatch
  | eVotingPowerOverThreshold
  | eInvalidVotingPower
  deriving DecidableEq, Repr

/-- TOTAL_VOTING_POWER -/
def totalVotingPower : ℕ := 10_000

/-- MAX_VOTING_POWER -/
def maxVotingPower : ℕ := 1_000

/-- QUORUM_THRESHOLD -/
def quorumThreshold : ℕ := 6_667

/-- The fields of a validator that the voting power derivation reads and
writes: total_stake() and voting_power. -/
structure Validator where
  totalStake : ℕ
  votingPower : ℕ
  deriving DecidableEq, Repr

/-- Validator::set_voting_power -/
def Validator.setVotingPower (self : Validator) (newVotingPower : ℕ) : Validator :=
  { self with votingPower := newVotingPower }

structure VotingPowerInfoV2 where
  validatorIndex : ℕ
  votingPower : ℕ
  stake : ℕ
  deriving DecidableEq, Repr

/-- derive_raw_voting_power: the stake's share of the total voting power,
computed in u128 and cast back to u64. -/
def deriveRawVotingPower (stake totalStake : ℕ) : Except (Abort Code) ℕ := do
  let product ← MoveArith.mul 128 stake totalVotingPower
  let quotient ← MoveArith.div product totalStake
  MoveArith.cast 64 quotient

/-- insert: before the first entry whose stake is at most the new one's, or at
the end. -/
def insert (infoList : List VotingPowerInfoV2) (newInfo : VotingPowerInfoV2) :
    List VotingPowerInfoV2 :=
  let idx := infoList.findIdx? fun info => decide (info.stake ≤ newInfo.stake)
  infoList.insertIdx (idx.getD infoList.length) newInfo

/-- The loop of init_voting_power_info over validators i, i + 1, ...: each one's
raw power, capped at the threshold, is inserted into the sorted list and added
to total_power. -/
def initVotingPowerInfoLoop (threshold totalStake : ℕ) :
    ℕ → List Validator → List VotingPowerInfoV2 → ℕ →
      Except (Abort Code) (List VotingPowerInfoV2 × ℕ)
  | _, [], result, totalPower => pure (result, totalPower)
  | i, validator :: validators, result, totalPower => do
    let stake := validator.totalStake
    let raw ← deriveRawVotingPower stake totalStake
    let votingPower := min raw threshold
    let result := insert result ⟨i, votingPower, stake⟩
    let totalPower ← MoveArith.add 64 totalPower votingPower
    initVotingPowerInfoLoop threshold totalStake (i + 1) validators result totalPower

/-- init_voting_power_info: the sorted list and the power left to hand out. -/
def initVotingPowerInfo (validators : List Validator) (threshold totalStake : ℕ) :
    Except (Abort Code) (List VotingPowerInfoV2 × ℕ) := do
  let (result, totalPower) ← initVotingPowerInfoLoop threshold totalStake 0 validators [] 0
  let remainingPower ← MoveArith.sub totalVotingPower totalPower
  pure (result, remainingPower)

/-- The while loop of adjust_voting_power from entry i on: the entries from i on
and the power still to hand out. The loop stops at the end of the list or when
nothing remains. -/
def adjustVotingPowerLoop (threshold : ℕ) :
    List VotingPowerInfoV2 → ℕ → Except (Abort Code) (List VotingPowerInfoV2 × ℕ)
  | [], remainingPower => pure ([], remainingPower)
  | v :: rest, remainingPower =>
    if 0 < remainingPower then do
      -- len - i is the number of entries from this one on
      let planned ← MoveArith.divCeil 64 remainingPower (rest.length + 1)
      let raised ← MoveArith.add 64 v.votingPower planned
      let target := min threshold raised
      let room ← MoveArith.sub target v.votingPower
      let actual := min remainingPower room
      let votingPower ← MoveArith.add 64 v.votingPower actual
      MoveArith.assert (votingPower ≤ threshold) .eVotingPowerOverThreshold
      let remainingPower ← MoveArith.sub remainingPower actual
      let (rest, remainingPower) ← adjustVotingPowerLoop threshold rest remainingPower
      pure ({ v with votingPower := votingPower } :: rest, remainingPower)
    else pure (v :: rest, remainingPower)

/-- adjust_voting_power -/
def adjustVotingPower (infoList : List VotingPowerInfoV2) (threshold remainingPower : ℕ) :
    Except (Abort Code) (List VotingPowerInfoV2) := do
  let (infoList, remainingPower) ← adjustVotingPowerLoop threshold infoList remainingPower
  MoveArith.assert (remainingPower = 0) .eTotalPowerMismatch
  pure infoList

/-- update_voting_power: destroy! takes the entries from the back. -/
def updateVotingPower (validators : List Validator) (infoList : List VotingPowerInfoV2) :
    Except (Abort Code) (List Validator) :=
  infoList.reverse.foldlM (fun validators info =>
    MoveArith.modifyAt validators info.validatorIndex (·.setVotingPower info.votingPower))
    validators

/-- The checks of check_invariants on validators a and b, a before b. -/
def checkRelativePair (validatorA validatorB : Validator) : Except (Abort Code) Unit := do
  if validatorB.totalStake < validatorA.totalStake then
    MoveArith.assert (validatorB.votingPower ≤ validatorA.votingPower) .eRelativePowerMismatch
  if validatorA.totalStake < validatorB.totalStake then
    MoveArith.assert (validatorA.votingPower ≤ validatorB.votingPower) .eRelativePowerMismatch

/-- The nested loops of check_invariants over the pairs a < b. -/
def checkRelativePower : List Validator → Except (Abort Code) Unit
  | [] => pure ()
  | validatorA :: rest => do
    rest.forM (checkRelativePair validatorA)
    checkRelativePower rest

/-- The body of the first loop of check_invariants: a validator's power must be
positive, and is added to the total. -/
def addPositivePower (total : ℕ) (validator : Validator) : Except (Abort Code) ℕ := do
  MoveArith.assert (0 < validator.votingPower) .eInvalidVotingPower
  MoveArith.add 64 total validator.votingPower

/-- check_invariants -/
def checkInvariants (v : List Validator) : Except (Abort Code) Unit := do
  let total ← v.foldlM addPositivePower 0
  MoveArith.assert (total = totalVotingPower) .eTotalPowerMismatch
  checkRelativePower v

/-- set_voting_power: the validators with their new voting powers. -/
def setVotingPower (validators : List Validator) (totalStake : ℕ) :
    Except (Abort Code) (List Validator) := do
  let averageVotingPower ← MoveArith.divCeil 64 totalVotingPower validators.length
  let threshold := min totalVotingPower (max maxVotingPower averageVotingPower)
  let (infoList, remainingPower) ← initVotingPowerInfo validators threshold totalStake
  let infoList ← adjustVotingPower infoList threshold remainingPower
  let validators ← updateVotingPower validators infoList
  checkInvariants validators
  pure validators

/-- The stake's share of the total voting power, rounded down: what
derive_raw_voting_power computes when it returns. -/
def rawVotingPower (stake totalStake : ℕ) : ℕ :=
  stake * totalVotingPower / totalStake

/-- The threshold of set_voting_power for `n` validators:
min(10 000, max(1 000, ceil(10 000 / n))). -/
def votingPowerThreshold (n : ℕ) : ℕ :=
  min totalVotingPower (max maxVotingPower (totalVotingPower ⌈/⌉ n))

/-- The entries init_voting_power_info creates for validators i, i + 1, ...,
in index order. -/
def initialInfos (threshold totalStake : ℕ) : ℕ → List Validator → List VotingPowerInfoV2
  | _, [] => []
  | i, v :: vs => ⟨i, min (rawVotingPower v.totalStake totalStake) threshold, v.totalStake⟩ ::
      initialInfos threshold totalStake (i + 1) vs

/-- The hand-out of adjust_voting_power without its checks: each entry gets the
remainder divided by the number of entries left, rounded up, as far as its room
under the threshold allows. -/
def distribute (threshold : ℕ) : List VotingPowerInfoV2 → ℕ → List VotingPowerInfoV2 × ℕ
  | [], remainingPower => ([], remainingPower)
  | v :: rest, remainingPower =>
    if 0 < remainingPower then
      let actual := min (threshold - v.votingPower) (remainingPower ⌈/⌉ (rest.length + 1))
      let result := distribute threshold rest (remainingPower - actual)
      ({ v with votingPower := v.votingPower + actual } :: result.1, result.2)
    else (v :: rest, remainingPower)

/-- `a` may stand before `b` in the list insert keeps: its stake is at least
b's. -/
def StakeGe (a b : VotingPowerInfoV2) : Prop := b.stake ≤ a.stake

instance : DecidableRel StakeGe := fun a b => inferInstanceAs (Decidable (b.stake ≤ a.stake))

instance : Std.Total StakeGe := ⟨fun a b => Nat.le_total b.stake a.stake⟩

instance : IsTrans VotingPowerInfoV2 StakeGe := ⟨fun _ _ _ hab hbc => Nat.le_trans hbc hab⟩

/-- `a`'s power is at least `b`'s. -/
def PowerGe (a b : VotingPowerInfoV2) : Prop := b.votingPower ≤ a.votingPower

section Derive

variable {stake totalStake : ℕ}

theorem deriveRawVotingPower_eq_ok (hpos : 0 < totalStake) (hfit : totalStake < 2 ^ 64)
    (hle : stake ≤ totalStake) :
    deriveRawVotingPower stake totalStake = .ok (rawVotingPower stake totalStake) := by
  have hmul : stake * totalVotingPower < 2 ^ 128 :=
    mul_lt_two_pow_double (w := 64) (Nat.lt_of_le_of_lt hle hfit) (by decide)
  -- a share of the total is at most the total voting power
  have hraw : stake * totalVotingPower / totalStake < 2 ^ 64 :=
    Nat.lt_of_le_of_lt (ProRata.mul_div_le_of_le _ hle) (by decide)
  simp only [deriveRawVotingPower, mul_eq_ok hmul, ok_bind, div_eq_ok hpos, cast_eq_ok hraw]
  rfl

theorem rawVotingPower_mono {s s' : ℕ} (h : s ≤ s') :
    rawVotingPower s totalStake ≤ rawVotingPower s' totalStake :=
  Nat.div_le_div_right (Nat.mul_le_mul_right _ h)

theorem rawVotingPower_pos (hpos : 0 < totalStake) (h : totalStake ≤ stake * totalVotingPower) :
    0 < rawVotingPower stake totalStake :=
  Nat.div_pos h hpos

/-- The raw powers of stakes that make up the total sum to at most the total
voting power. -/
theorem sum_rawVotingPower_le (stakes : List ℕ) :
    (stakes.map fun s => rawVotingPower s stakes.sum).sum ≤ totalVotingPower := by
  have hcomm : (stakes.map fun s => rawVotingPower s stakes.sum) =
      stakes.map fun s => totalVotingPower * s / stakes.sum := by
    apply List.map_congr_left
    intro s _
    rw [rawVotingPower, Nat.mul_comm]
  calc (stakes.map fun s => rawVotingPower s stakes.sum).sum
      ≤ totalVotingPower * stakes.sum / stakes.sum := by
        rw [hcomm]
        exact ProRata.sum_map_mul_div_le totalVotingPower stakes.sum stakes
    _ ≤ totalVotingPower := Nat.div_le_of_le_mul (Nat.le_of_eq (Nat.mul_comm _ _))

end Derive

section Threshold

variable {n : ℕ}

theorem votingPowerThreshold_le_total (n : ℕ) : votingPowerThreshold n ≤ totalVotingPower :=
  Nat.min_le_left _ _

theorem maxVotingPower_le_votingPowerThreshold (n : ℕ) :
    maxVotingPower ≤ votingPowerThreshold n :=
  Nat.le_min.mpr ⟨by decide, Nat.le_max_left _ _⟩

/-- `n` validators at the threshold hold at least the total voting power. -/
theorem totalVotingPower_le_mul_threshold (hn : 0 < n) :
    totalVotingPower ≤ n * votingPowerThreshold n := by
  have hceil : totalVotingPower ≤ n * (totalVotingPower ⌈/⌉ n) :=
    (ceilDiv_le_iff_le_mul hn).mp le_rfl
  unfold votingPowerThreshold
  rcases Nat.le_total totalVotingPower (max maxVotingPower (totalVotingPower ⌈/⌉ n)) with h | h
  · rw [Nat.min_eq_left h]
    exact Nat.le_mul_of_pos_left _ hn
  · rw [Nat.min_eq_right h]
    exact Nat.le_trans hceil (Nat.mul_le_mul_left n (Nat.le_max_right _ _))

theorem divCeil_totalVotingPower (hn : 0 < n) :
    (MoveArith.divCeil 64 totalVotingPower n : Except (Abort Code) ℕ) =
      .ok (totalVotingPower ⌈/⌉ n) := by
  have hle : totalVotingPower ⌈/⌉ n ≤ totalVotingPower :=
    (ceilDiv_le_iff_le_mul hn).mpr (Nat.le_mul_of_pos_left _ hn)
  exact divCeil_eq_ok hn (Nat.lt_of_le_of_lt hle (by decide))

end Threshold

section Insert

/-- insert is the ordered insertion that keeps stakes descending. -/
theorem insert_eq_orderedInsert (newInfo : VotingPowerInfoV2) :
    ∀ infoList : List VotingPowerInfoV2,
      insert infoList newInfo = infoList.orderedInsert StakeGe newInfo
  | [] => rfl
  | info :: infoList => by
    have ih := insert_eq_orderedInsert newInfo infoList
    unfold insert at ih ⊢
    rw [List.orderedInsert_cons, List.findIdx?_cons]
    by_cases h : info.stake ≤ newInfo.stake
    · simp [StakeGe, h, List.insertIdx_zero]
    · -- the index found in the rest moves one place on
      simp only [StakeGe, h, decide_false, Bool.false_eq_true, if_false, List.length_cons]
      rw [← ih]
      cases List.findIdx? (fun i => decide (i.stake ≤ newInfo.stake)) infoList <;>
        simp [List.insertIdx_succ_cons]

theorem insert_perm (infoList : List VotingPowerInfoV2) (newInfo : VotingPowerInfoV2) :
    (insert infoList newInfo).Perm (newInfo :: infoList) := by
  rw [insert_eq_orderedInsert]
  exact List.perm_orderedInsert _ _ _

theorem insert_pairwise {infoList : List VotingPowerInfoV2} (newInfo : VotingPowerInfoV2)
    (h : infoList.Pairwise StakeGe) : (insert infoList newInfo).Pairwise StakeGe := by
  rw [insert_eq_orderedInsert]
  exact h.orderedInsert _ _

end Insert

section Init

variable {threshold totalStake : ℕ}

theorem map_validatorIndex_initialInfos (i : ℕ) (validators : List Validator) :
    (initialInfos threshold totalStake i validators).map (·.validatorIndex) =
      List.range' i validators.length := by
  induction validators generalizing i with
  | nil => rfl
  | cons v vs ih => simp [initialInfos, ih, List.range'_succ]

/-- Each entry made for validators i, i + 1, ... is the capped raw power of one
of them. -/
theorem mem_initialInfos {info : VotingPowerInfoV2} {i : ℕ} {validators : List Validator}
    (h : info ∈ initialInfos threshold totalStake i validators) :
    ∃ j, ∃ hj : j < validators.length, info.validatorIndex = i + j ∧
      info.stake = validators[j].totalStake ∧
      info.votingPower = min (rawVotingPower validators[j].totalStake totalStake) threshold := by
  induction validators generalizing i with
  | nil => cases h
  | cons v vs ih =>
    rcases List.mem_cons.mp h with rfl | h
    · exact ⟨0, by simp, rfl, rfl, rfl⟩
    · obtain ⟨j, hj, hidx, hstake, hpower⟩ := ih h
      refine ⟨j + 1, by simpa using hj, ?_, hstake, hpower⟩
      rw [hidx]
      omega

theorem sum_initialInfos_le (i : ℕ) (validators : List Validator) :
    ((initialInfos threshold totalStake i validators).map (·.votingPower)).sum ≤
      (validators.map fun v => rawVotingPower v.totalStake totalStake).sum := by
  induction validators generalizing i with
  | nil => simp [initialInfos]
  | cons v vs ih =>
    simp only [initialInfos, List.map_cons, List.sum_cons]
    exact Nat.add_le_add (Nat.min_le_left _ _) (ih (i + 1))

/-- **The loop of init_voting_power_info** returns the entries of the remaining
validators inserted into the sorted list, and their total power added. -/
theorem initVotingPowerInfoLoop_eq_ok (hpos : 0 < totalStake) (hfit : totalStake < 2 ^ 64) :
    ∀ {validators : List Validator} {i totalPower : ℕ} {result : List VotingPowerInfoV2},
      (∀ v ∈ validators, v.totalStake ≤ totalStake) →
      totalPower + ((initialInfos threshold totalStake i validators).map (·.votingPower)).sum <
        2 ^ 64 →
      result.Pairwise StakeGe →
      ∃ result', initVotingPowerInfoLoop threshold totalStake i validators result totalPower =
          .ok (result', totalPower +
            ((initialInfos threshold totalStake i validators).map (·.votingPower)).sum) ∧
        result'.Perm (initialInfos threshold totalStake i validators ++ result) ∧
        result'.Pairwise StakeGe
  | [], _, _, result, _, _, hsorted =>
    ⟨result, by simp [initVotingPowerInfoLoop, initialInfos, pure, Except.pure], by
      simp [initialInfos], hsorted⟩
  | v :: vs, i, totalPower, result, hle, hsum, hsorted => by
    -- this validator's entry goes in first; the rest of the loop runs on the new list
    have hsum' : totalPower + min (rawVotingPower v.totalStake totalStake) threshold +
        ((initialInfos threshold totalStake (i + 1) vs).map (·.votingPower)).sum < 2 ^ 64 := by
      simpa [initialInfos, Nat.add_assoc] using hsum
    have hadd : totalPower + min (rawVotingPower v.totalStake totalStake) threshold < 2 ^ 64 := by
      omega
    obtain ⟨result', hloop, hperm, hsorted'⟩ := initVotingPowerInfoLoop_eq_ok hpos hfit
      (fun w hw => hle w (List.mem_cons_of_mem _ hw)) hsum'
      (insert_pairwise ⟨i, min (rawVotingPower v.totalStake totalStake) threshold, v.totalStake⟩
        hsorted)
    refine ⟨result', ?_, ?_, hsorted'⟩
    · simp only [initVotingPowerInfoLoop,
        deriveRawVotingPower_eq_ok hpos hfit (hle v List.mem_cons_self), ok_bind, add_eq_ok hadd]
      rw [hloop]
      simp [initialInfos, Nat.add_assoc]
    · have hinsert := (insert_perm result
        ⟨i, min (rawVotingPower v.totalStake totalStake) threshold, v.totalStake⟩).append_left
          (initialInfos threshold totalStake (i + 1) vs)
      simp only [initialInfos, List.cons_append]
      exact hperm.trans (hinsert.trans List.perm_middle)

/-- **init_voting_power_info** returns a permutation of the entries, sorted by
stake, and the power their caps and roundings leave over. -/
theorem initVotingPowerInfo_eq_ok {validators : List Validator} (hpos : 0 < totalStake)
    (hfit : totalStake < 2 ^ 64) (htotal : totalStake = (validators.map (·.totalStake)).sum) :
    ∃ result, initVotingPowerInfo validators threshold totalStake =
        .ok (result, totalVotingPower -
          ((initialInfos threshold totalStake 0 validators).map (·.votingPower)).sum) ∧
      result.Perm (initialInfos threshold totalStake 0 validators) ∧
      result.Pairwise StakeGe ∧
      ((initialInfos threshold totalStake 0 validators).map (·.votingPower)).sum ≤
        totalVotingPower := by
  have hle : ∀ v ∈ validators, v.totalStake ≤ totalStake := fun v hv => by
    rw [htotal]
    exact List.le_sum_of_mem (List.mem_map_of_mem hv)
  -- the capped powers are at most the raw ones, which share out the total voting power
  have hsum : ((initialInfos threshold totalStake 0 validators).map (·.votingPower)).sum ≤
      totalVotingPower := by
    refine Nat.le_trans (sum_initialInfos_le 0 validators) ?_
    have h := sum_rawVotingPower_le (validators.map (·.totalStake))
    rwa [← htotal, List.map_map] at h
  obtain ⟨result, hloop, hperm, hsorted⟩ := initVotingPowerInfoLoop_eq_ok hpos hfit hle
    (by rw [Nat.zero_add]; exact Nat.lt_of_le_of_lt hsum (by decide)) List.Pairwise.nil
  refine ⟨result, ?_, by simpa using hperm, hsorted, hsum⟩
  simp only [initVotingPowerInfo, hloop, ok_bind, Nat.zero_add, sub_eq_ok hsum]
  rfl

end Init

section Distribute

variable {threshold : ℕ}

/-- Rounding up a share of a remainder never gives more than the remainder. -/
theorem ceilDiv_succ_le (r k : ℕ) : r ⌈/⌉ (k + 1) ≤ r :=
  (ceilDiv_le_iff_le_mul (Nat.succ_pos k)).mpr (Nat.le_mul_of_pos_left r (Nat.succ_pos k))

/-- **The loop of adjust_voting_power** hands out as `distribute` does: none of
its checked steps aborts while the powers are under the threshold. -/
theorem adjustVotingPowerLoop_eq_ok :
    ∀ {infoList : List VotingPowerInfoV2} {remainingPower : ℕ},
      (∀ v ∈ infoList, v.votingPower ≤ threshold) → threshold + remainingPower < 2 ^ 64 →
      adjustVotingPowerLoop threshold infoList remainingPower =
        .ok (distribute threshold infoList remainingPower)
  | [], _, _, _ => rfl
  | v :: rest, r, hle, hfit => by
    by_cases hr : 0 < r
    · have hvp := hle v List.mem_cons_self
      have hk : 0 < rest.length + 1 := Nat.succ_pos _
      have hc := ceilDiv_succ_le r rest.length
      -- the share, the target it raises the power to, and what is actually handed out
      have hplanned : (MoveArith.divCeil 64 r (rest.length + 1) : Except (Abort Code) ℕ) =
          .ok (r ⌈/⌉ (rest.length + 1)) := divCeil_eq_ok hk (by omega)
      have hraised : (MoveArith.add 64 v.votingPower (r ⌈/⌉ (rest.length + 1)) :
          Except (Abort Code) ℕ) = .ok (v.votingPower + r ⌈/⌉ (rest.length + 1)) :=
        add_eq_ok (by omega)
      have hroom : (MoveArith.sub (min threshold (v.votingPower + r ⌈/⌉ (rest.length + 1)))
          v.votingPower : Except (Abort Code) ℕ) =
          .ok (min threshold (v.votingPower + r ⌈/⌉ (rest.length + 1)) - v.votingPower) :=
        sub_eq_ok (by omega)
      have hactual : min r (min threshold (v.votingPower + r ⌈/⌉ (rest.length + 1)) -
          v.votingPower) = min (threshold - v.votingPower) (r ⌈/⌉ (rest.length + 1)) := by
        omega
      have hnew : v.votingPower + min (threshold - v.votingPower) (r ⌈/⌉ (rest.length + 1)) ≤
          threshold := by omega
      have hpower : (MoveArith.add 64 v.votingPower
          (min (threshold - v.votingPower) (r ⌈/⌉ (rest.length + 1))) : Except (Abort Code) ℕ) =
          .ok (v.votingPower + min (threshold - v.votingPower) (r ⌈/⌉ (rest.length + 1))) :=
        add_eq_ok (by omega)
      have hleft : (MoveArith.sub r (min (threshold - v.votingPower) (r ⌈/⌉ (rest.length + 1))) :
          Except (Abort Code) ℕ) =
          .ok (r - min (threshold - v.votingPower) (r ⌈/⌉ (rest.length + 1))) :=
        sub_eq_ok (by omega)
      have ih := adjustVotingPowerLoop_eq_ok (fun w hw => hle w (List.mem_cons_of_mem _ hw))
        (show threshold + (r - min (threshold - v.votingPower) (r ⌈/⌉ (rest.length + 1))) <
          2 ^ 64 by omega)
      simp only [adjustVotingPowerLoop, if_pos hr, hplanned, ok_bind, hraised, hroom, hactual,
        hpower, assert_eq_ok hnew, hleft, ih]
      simp [distribute, hr, pure, Except.pure]
    · simp [adjustVotingPowerLoop, distribute, hr, pure, Except.pure]

/-- The hand-out changes powers only. -/
theorem distribute_frame : ∀ (infoList : List VotingPowerInfoV2) (r : ℕ),
    (distribute threshold infoList r).1.map (fun v => (v.validatorIndex, v.stake)) =
      infoList.map fun v => (v.validatorIndex, v.stake)
  | [], _ => rfl
  | v :: rest, r => by
    unfold distribute
    split_ifs
    · simp [distribute_frame rest]
    · rfl

/-- What is handed out comes off the remainder. -/
theorem distribute_sum : ∀ (infoList : List VotingPowerInfoV2) (r : ℕ),
    ((distribute threshold infoList r).1.map (·.votingPower)).sum +
        (distribute threshold infoList r).2 =
      (infoList.map (·.votingPower)).sum + r
  | [], _ => rfl
  | v :: rest, r => by
    unfold distribute
    split_ifs
    · have ih := distribute_sum rest
        (r - min (threshold - v.votingPower) (r ⌈/⌉ (rest.length + 1)))
      have hc := ceilDiv_succ_le r rest.length
      simp only [List.map_cons, List.sum_cons]
      omega
    · rfl

/-- Powers only grow. -/
theorem le_of_mem_distribute {b : ℕ} : ∀ {infoList : List VotingPowerInfoV2} {r : ℕ},
    (∀ v ∈ infoList, b ≤ v.votingPower) →
      ∀ v ∈ (distribute threshold infoList r).1, b ≤ v.votingPower
  | [], _, _, v, hv => by cases hv
  | w :: rest, r, hb, v, hv => by
    unfold distribute at hv
    split_ifs at hv
    · rcases List.mem_cons.mp hv with rfl | hv
      · exact Nat.le_trans (hb w List.mem_cons_self) (Nat.le_add_right _ _)
      · exact le_of_mem_distribute (fun u hu => hb u (List.mem_cons_of_mem _ hu)) v hv
    · exact hb v hv

/-- No power is raised above the threshold. -/
theorem distribute_le_threshold : ∀ {infoList : List VotingPowerInfoV2} {r : ℕ},
    (∀ v ∈ infoList, v.votingPower ≤ threshold) →
      ∀ v ∈ (distribute threshold infoList r).1, v.votingPower ≤ threshold
  | [], _, _, v, hv => by cases hv
  | w :: rest, r, hle, v, hv => by
    unfold distribute at hv
    split_ifs at hv
    · rcases List.mem_cons.mp hv with rfl | hv
      · have hw := hle w List.mem_cons_self
        show w.votingPower + min (threshold - w.votingPower) (r ⌈/⌉ (rest.length + 1)) ≤ threshold
        omega
      · exact distribute_le_threshold (fun u hu => hle u (List.mem_cons_of_mem _ hu)) v hv
    · exact hle v hv

/-- **An uncapped run.** When every entry has room for a share `c` above a bound
`top` of the initial powers, and the remainder is at most `c` per entry, every
entry gets its share in full: the remainder is used up, the powers stay sorted,
and none rises above `top + c`. -/
theorem distribute_uncapped : ∀ (infoList : List VotingPowerInfoV2) (r c top : ℕ),
    r ≤ infoList.length * c → (∀ v ∈ infoList, v.votingPower ≤ top) → top + c ≤ threshold →
    infoList.Pairwise PowerGe →
    (distribute threshold infoList r).2 = 0 ∧
      (distribute threshold infoList r).1.Pairwise PowerGe ∧
      ∀ v ∈ (distribute threshold infoList r).1, v.votingPower ≤ top + c
  | [], r, _, _, hr, _, _, _ =>
    ⟨by simpa [distribute] using hr, List.Pairwise.nil, fun v hv => by cases hv⟩
  | v :: rest, r, c, top, hr, htop, hcap, hsorted => by
    rcases Nat.eq_zero_or_pos r with rfl | hr0
    · -- nothing is left: the list comes back as it is
      refine ⟨by simp [distribute], by simpa [distribute] using hsorted, fun w hw => ?_⟩
      simp only [distribute, Nat.lt_irrefl, if_false] at hw
      exact Nat.le_trans (htop w hw) (Nat.le_add_right _ _)
    · have hk : 0 < rest.length + 1 := Nat.succ_pos _
      -- this entry's share is at most c, fits in its room, and covers the remainder
      have hshare : r ⌈/⌉ (rest.length + 1) ≤ c := (ceilDiv_le_iff_le_mul hk).mpr hr
      have hcover : r ≤ (rest.length + 1) * (r ⌈/⌉ (rest.length + 1)) :=
        (ceilDiv_le_iff_le_mul hk).mp le_rfl
      rw [Nat.add_one_mul] at hcover
      have hvp := htop v List.mem_cons_self
      have hgrant : min (threshold - v.votingPower) (r ⌈/⌉ (rest.length + 1)) =
          r ⌈/⌉ (rest.length + 1) := by omega
      have hrest : ∀ w ∈ rest, w.votingPower ≤ v.votingPower := fun w hw =>
        List.rel_of_pairwise_cons hsorted hw
      -- the rest is an uncapped run with this share, under this entry's power
      obtain ⟨hzero, hsorted', hbound⟩ := distribute_uncapped rest
        (r - r ⌈/⌉ (rest.length + 1)) (r ⌈/⌉ (rest.length + 1)) v.votingPower (by omega) hrest
        (by omega) hsorted.of_cons
      simp only [distribute, if_pos hr0, hgrant]
      refine ⟨hzero, List.Pairwise.cons (fun w hw => hbound w hw) hsorted', fun w hw => ?_⟩
      rcases List.mem_cons.mp hw with rfl | hw
      · show v.votingPower + r ⌈/⌉ (rest.length + 1) ≤ top + c
        omega
      · have := hbound w hw
        omega

/-- **The hand-out uses up the remainder** when the powers are sorted in
descending order under the threshold, so that the rooms grow along the list, and
the rooms together hold the remainder; the powers stay sorted. -/
theorem distribute_spec : ∀ {infoList : List VotingPowerInfoV2} {r : ℕ},
    (∀ v ∈ infoList, v.votingPower ≤ threshold) → infoList.Pairwise PowerGe →
    r ≤ (infoList.map fun v => threshold - v.votingPower).sum →
    (distribute threshold infoList r).2 = 0 ∧ (distribute threshold infoList r).1.Pairwise PowerGe
  | [], _, _, _, hr => ⟨by simpa [distribute] using hr, List.Pairwise.nil⟩
  | v :: rest, r, hle, hsorted, hr => by
    rcases Nat.eq_zero_or_pos r with rfl | hr0
    · exact ⟨by simp [distribute], by simpa [distribute] using hsorted⟩
    have hk : 0 < rest.length + 1 := Nat.succ_pos _
    have hvp := hle v List.mem_cons_self
    by_cases hfree : r ⌈/⌉ (rest.length + 1) ≤ threshold - v.votingPower
    · -- this entry is not held back by its cap, and the rooms after it are no smaller:
      -- the whole list is an uncapped run
      have htop : ∀ w ∈ v :: rest, w.votingPower ≤ v.votingPower := by
        intro w hw
        rcases List.mem_cons.mp hw with rfl | hw
        · exact Nat.le_refl _
        · exact List.rel_of_pairwise_cons hsorted hw
      obtain ⟨hzero, hsorted', -⟩ := @distribute_uncapped threshold (v :: rest) r
        (r ⌈/⌉ (rest.length + 1))
        v.votingPower ((ceilDiv_le_iff_le_mul hk).mp le_rfl) htop (by omega) hsorted
      exact ⟨hzero, hsorted'⟩
    · -- capped: the entry reaches the threshold, and what is left fits in the rest's rooms
      have hgrant : min (threshold - v.votingPower) (r ⌈/⌉ (rest.length + 1)) =
          threshold - v.votingPower := by omega
      have hr' : r - (threshold - v.votingPower) ≤
          (rest.map fun w => threshold - w.votingPower).sum := by
        simp only [List.map_cons, List.sum_cons] at hr
        omega
      have hrest : ∀ w ∈ rest, w.votingPower ≤ threshold := fun w hw =>
        hle w (List.mem_cons_of_mem _ hw)
      obtain ⟨hzero, hsorted'⟩ := distribute_spec hrest hsorted.of_cons hr'
      have hcap := distribute_le_threshold (r := r - (threshold - v.votingPower)) hrest
      simp only [distribute, if_pos hr0, hgrant]
      refine ⟨hzero, List.Pairwise.cons (fun w hw => ?_) hsorted'⟩
      have := hcap w hw
      show w.votingPower ≤ v.votingPower + (threshold - v.votingPower)
      omega

end Distribute

section Update

/-- The validators with the powers of `power` written at the indices in `done`. -/
def writePowers (power : ℕ → ℕ) (done : List ℕ) (validators : List Validator) :
    List Validator :=
  validators.mapIdx fun i v => if i ∈ done then v.setVotingPower (power i) else v

variable (power : ℕ → ℕ) (validators : List Validator)

theorem length_writePowers (done : List ℕ) :
    (writePowers power done validators).length = validators.length := by
  simp [writePowers]

theorem writePowers_nil : writePowers power [] validators = validators := by
  apply List.ext_getElem (length_writePowers power validators [])
  intro j _ _
  simp [writePowers]

/-- One step of update_voting_power writes one more index. -/
theorem modifyAt_writePowers {done : List ℕ} {i : ℕ} (h : i < validators.length) :
    (MoveArith.modifyAt (writePowers power done validators) i (·.setVotingPower (power i)) :
      Except (Abort Code) (List Validator)) = .ok (writePowers power (i :: done) validators) := by
  rw [modifyAt_eq_ok _ (by rw [length_writePowers]; exact h)]
  congr 1
  apply List.ext_getElem (by simp [writePowers])
  intro j _ _
  simp only [List.getElem_modify, writePowers, List.getElem_mapIdx, List.mem_cons]
  by_cases hij : i = j
  · subst hij
    by_cases hdone : i ∈ done <;> simp [hdone, Validator.setVotingPower]
  · simp [hij, Ne.symm hij]

/-- The steps of update_voting_power over entries whose powers `power` gives
write those entries' indices. -/
theorem foldlM_writePowers : ∀ (infos : List VotingPowerInfoV2) (done : List ℕ),
    (∀ info ∈ infos, power info.validatorIndex = info.votingPower) →
    (∀ info ∈ infos, info.validatorIndex < validators.length) →
    ∃ done', infos.foldlM (fun validators info =>
        (MoveArith.modifyAt validators info.validatorIndex (·.setVotingPower info.votingPower) :
          Except (Abort Code) (List Validator)))
        (writePowers power done validators) = .ok (writePowers power done' validators) ∧
      ∀ i, i ∈ done' ↔ i ∈ done ∨ i ∈ infos.map (·.validatorIndex)
  | [], done, _, _ => ⟨done, rfl, by simp⟩
  | info :: infos, done, hpower, hidx => by
    have hstep : (MoveArith.modifyAt (writePowers power done validators) info.validatorIndex
        (·.setVotingPower info.votingPower) : Except (Abort Code) (List Validator)) =
        .ok (writePowers power (info.validatorIndex :: done) validators) := by
      rw [← hpower info List.mem_cons_self]
      exact modifyAt_writePowers power validators (hidx info List.mem_cons_self)
    obtain ⟨done', hfold, hdone'⟩ := foldlM_writePowers infos (info.validatorIndex :: done)
      (fun i h => hpower i (List.mem_cons_of_mem _ h)) (fun i h => hidx i (List.mem_cons_of_mem _ h))
    refine ⟨done', ?_, fun i => ?_⟩
    · rw [List.foldlM_cons, hstep, ok_bind, hfold]
    · rw [hdone' i]
      simp only [List.mem_cons, List.map_cons]
      tauto

/-- **update_voting_power** writes every validator's power, when every index
has an entry and the entries' powers are those of `power`. -/
theorem updateVotingPower_eq_ok {infoList : List VotingPowerInfoV2}
    (hpower : ∀ info ∈ infoList, power info.validatorIndex = info.votingPower)
    (hidx : ∀ info ∈ infoList, info.validatorIndex < validators.length)
    (hall : ∀ i < validators.length, i ∈ infoList.map (·.validatorIndex)) :
    updateVotingPower validators infoList =
      .ok (validators.mapIdx fun i v => v.setVotingPower (power i)) := by
  obtain ⟨done, hfold, hdone⟩ := foldlM_writePowers power validators infoList.reverse []
    (fun info h => hpower info (List.mem_reverse.mp h))
    (fun info h => hidx info (List.mem_reverse.mp h))
  rw [writePowers_nil] at hfold
  unfold updateVotingPower
  rw [hfold]
  congr 1
  apply List.ext_getElem (by simp [writePowers])
  intro j h _
  have hj : j ∈ done := (hdone j).mpr
    (Or.inr (by simpa using hall j (by simpa [length_writePowers] using h)))
  simp [writePowers, hj]

end Update

/-- Entries with distinct indices give one power per index. -/
theorem exists_power : ∀ {infoList : List VotingPowerInfoV2},
    (infoList.map (·.validatorIndex)).Nodup →
      ∃ power : ℕ → ℕ, ∀ info ∈ infoList, power info.validatorIndex = info.votingPower
  | [], _ => ⟨fun _ => 0, by simp⟩
  | info :: infoList, hnd => by
    rw [List.map_cons, List.nodup_cons] at hnd
    obtain ⟨power, hpower⟩ := exists_power hnd.2
    refine ⟨fun i => if i = info.validatorIndex then info.votingPower else power i, ?_⟩
    intro info' hinfo'
    rcases List.mem_cons.mp hinfo' with rfl | hmem
    · simp
    · have hne : info'.validatorIndex ≠ info.validatorIndex := fun h =>
        hnd.1 (h ▸ List.mem_map_of_mem hmem)
      simp [hne, hpower info' hmem]

section Check

theorem foldlM_addPositivePower : ∀ (validators : List Validator) (total : ℕ),
    (∀ v ∈ validators, 0 < v.votingPower) →
    total + (validators.map (·.votingPower)).sum < 2 ^ 64 →
    validators.foldlM addPositivePower total =
      .ok (total + (validators.map (·.votingPower)).sum)
  | [], total, _, _ => rfl
  | v :: vs, total, hpos, hfit => by
    rw [List.map_cons, List.sum_cons, ← Nat.add_assoc] at hfit ⊢
    have hadd : (MoveArith.add 64 total v.votingPower : Except (Abort Code) ℕ) =
        .ok (total + v.votingPower) := add_eq_ok (by omega)
    have hstep : addPositivePower total v = .ok (total + v.votingPower) := by
      simp only [addPositivePower, assert_eq_ok (hpos v List.mem_cons_self), ok_bind, hadd]
    rw [List.foldlM_cons, hstep, ok_bind]
    exact foldlM_addPositivePower vs _ (fun w hw => hpos w (List.mem_cons_of_mem _ hw)) hfit

theorem checkRelativePair_eq_ok {validatorA validatorB : Validator}
    (hba : validatorB.totalStake < validatorA.totalStake →
      validatorB.votingPower ≤ validatorA.votingPower)
    (hab : validatorA.totalStake < validatorB.totalStake →
      validatorA.votingPower ≤ validatorB.votingPower) :
    checkRelativePair validatorA validatorB = .ok () := by
  unfold checkRelativePair
  by_cases h₁ : validatorB.totalStake < validatorA.totalStake <;>
    by_cases h₂ : validatorA.totalStake < validatorB.totalStake <;>
    simp [h₁, h₂, assert, hba, hab, pure, Except.pure, bind, Except.bind]

/-- The pair checks pass when a larger stake never has less power. -/
theorem checkRelativePower_eq_ok : ∀ {validators : List Validator},
    (∀ a ∈ validators, ∀ b ∈ validators, b.totalStake < a.totalStake →
      b.votingPower ≤ a.votingPower) →
    checkRelativePower validators = .ok ()
  | [], _ => rfl
  | a :: rest, hmono => by
    have hpairs : rest.forM (checkRelativePair a) = .ok () :=
      OptionList.forM_eq_ok.mpr fun b hb => checkRelativePair_eq_ok
        (hmono a List.mem_cons_self b (List.mem_cons_of_mem _ hb))
        (hmono b (List.mem_cons_of_mem _ hb) a List.mem_cons_self)
    simp only [checkRelativePower, hpairs, ok_bind]
    exact checkRelativePower_eq_ok fun x hx y hy =>
      hmono x (List.mem_cons_of_mem _ hx) y (List.mem_cons_of_mem _ hy)

/-- **check_invariants passes** on positive powers that sum to the total and are
monotone in stake. -/
theorem checkInvariants_eq_ok {validators : List Validator}
    (hpos : ∀ v ∈ validators, 0 < v.votingPower)
    (hsum : (validators.map (·.votingPower)).sum = totalVotingPower)
    (hmono : ∀ a ∈ validators, ∀ b ∈ validators, b.totalStake < a.totalStake →
      b.votingPower ≤ a.votingPower) :
    checkInvariants validators = .ok () := by
  have htotal := foldlM_addPositivePower validators 0 hpos (by rw [Nat.zero_add, hsum]; decide)
  rw [Nat.zero_add, hsum] at htotal
  simp only [checkInvariants, htotal, ok_bind]
  exact checkRelativePower_eq_ok hmono

end Check

section Main

variable {threshold totalStake : ℕ} {validators : List Validator}

theorem votingPower_le_of_mem_initialInfos {info : VotingPowerInfoV2} {i : ℕ}
    (h : info ∈ initialInfos threshold totalStake i validators) : info.votingPower ≤ threshold := by
  obtain ⟨j, hj, -, -, hpower⟩ := mem_initialInfos h
  rw [hpower]
  exact Nat.min_le_right _ _

theorem pos_of_mem_initialInfos (hpos : 0 < totalStake) (hthreshold : 0 < threshold)
    (hraw : ∀ v ∈ validators, totalStake ≤ v.totalStake * totalVotingPower)
    {info : VotingPowerInfoV2} {i : ℕ} (h : info ∈ initialInfos threshold totalStake i validators) :
    0 < info.votingPower := by
  obtain ⟨j, hj, -, -, hpower⟩ := mem_initialInfos h
  rw [hpower]
  exact Nat.lt_min.mpr ⟨rawVotingPower_pos hpos (hraw _ (List.getElem_mem hj)), hthreshold⟩

/-- Entries sorted by stake are sorted by initial power, which is monotone in
stake. -/
theorem pairwise_powerGe_of_stakeGe {infoList : List VotingPowerInfoV2} {i : ℕ}
    (hsub : ∀ info ∈ infoList, info ∈ initialInfos threshold totalStake i validators)
    (hsorted : infoList.Pairwise StakeGe) : infoList.Pairwise PowerGe := by
  refine hsorted.imp_of_mem fun ha hb hab => ?_
  obtain ⟨_, _, -, ha₁, ha₂⟩ := mem_initialInfos (hsub _ ha)
  obtain ⟨_, _, -, hb₁, hb₂⟩ := mem_initialInfos (hsub _ hb)
  unfold StakeGe at hab
  unfold PowerGe
  rw [ha₁, hb₁] at hab
  rw [ha₂, hb₂]
  exact min_le_min (rawVotingPower_mono hab) le_rfl

/-- Under the threshold, each entry's room and power make up the threshold. -/
theorem sum_rooms_add_sum (infoList : List VotingPowerInfoV2)
    (hle : ∀ v ∈ infoList, v.votingPower ≤ threshold) :
    (infoList.map fun v => threshold - v.votingPower).sum + (infoList.map (·.votingPower)).sum =
      infoList.length * threshold := by
  induction infoList with
  | nil => simp
  | cons v rest ih =>
    have hv := hle v List.mem_cons_self
    have hrest := ih fun w hw => hle w (List.mem_cons_of_mem _ hw)
    simp only [List.map_cons, List.sum_cons, List.length_cons, Nat.add_one_mul]
    omega

/-- **adjust_voting_power returns** the hand-out of `distribute` when the entries
are sorted by power under the threshold and their rooms hold the remainder. -/
theorem adjustVotingPower_eq_ok {infoList : List VotingPowerInfoV2} {r : ℕ}
    (hle : ∀ v ∈ infoList, v.votingPower ≤ threshold) (hsorted : infoList.Pairwise PowerGe)
    (hrooms : r ≤ (infoList.map fun v => threshold - v.votingPower).sum)
    (hfit : threshold + r < 2 ^ 64) :
    adjustVotingPower infoList threshold r = .ok (distribute threshold infoList r).1 := by
  obtain ⟨hzero, -⟩ := distribute_spec hle hsorted hrooms
  have hloop := adjustVotingPowerLoop_eq_ok hle hfit
  have hsplit : distribute threshold infoList r = ((distribute threshold infoList r).1, 0) :=
    Prod.ext rfl hzero
  rw [hsplit] at hloop
  simp only [adjustVotingPower, hloop, ok_bind]
  rfl

/-- The hand-out keeps the order by stake. -/
theorem pairwise_stakeGe_of_frame {infoList infoList' : List VotingPowerInfoV2}
    (hframe : infoList'.map (fun v => (v.validatorIndex, v.stake)) =
      infoList.map fun v => (v.validatorIndex, v.stake))
    (h : infoList.Pairwise StakeGe) : infoList'.Pairwise StakeGe := by
  have hstakes : infoList'.map (·.stake) = infoList.map (·.stake) := by
    simpa [List.map_map, Function.comp_def] using congrArg (List.map Prod.snd) hframe
  have hmapped : (infoList.map (·.stake)).Pairwise fun a b => b ≤ a := List.pairwise_map.mpr h
  rw [← hstakes] at hmapped
  exact (List.pairwise_map.mp hmapped : infoList'.Pairwise fun a b => b.stake ≤ a.stake)

/-- In a list sorted by stake and by power, a larger stake has no less power. -/
theorem power_le_of_stake_lt : ∀ {infoList : List VotingPowerInfoV2},
    infoList.Pairwise (fun a b => StakeGe a b ∧ PowerGe a b) →
    ∀ a ∈ infoList, ∀ b ∈ infoList, b.stake < a.stake → b.votingPower ≤ a.votingPower
  | [], _, _, ha, _, _, _ => by cases ha
  | x :: xs, h, a, ha, b, hb, hlt => by
    rw [List.pairwise_cons] at h
    rcases List.mem_cons.mp ha with rfl | ha' <;> rcases List.mem_cons.mp hb with rfl | hb'
    · exact absurd hlt (Nat.lt_irrefl _)
    · exact (h.1 b hb').2
    · -- b stands before a, so its stake is at least a's
      exact absurd (h.1 a ha').1 (Nat.not_le.mpr hlt)
    · exact power_le_of_stake_lt h.2 a ha' b hb' hlt

variable (power : ℕ → ℕ)

/-- Each validator after the write has the stake and the power of its entry. -/
theorem exists_info_of_mem_mapIdx {infoList : List VotingPowerInfoV2}
    (hidx : (infoList.map (·.validatorIndex)).Perm (List.range validators.length))
    (hstake : ∀ info ∈ infoList, ∃ h : info.validatorIndex < validators.length,
      info.stake = validators[info.validatorIndex].totalStake)
    (hpower : ∀ info ∈ infoList, power info.validatorIndex = info.votingPower) :
    ∀ v ∈ validators.mapIdx (fun i v => v.setVotingPower (power i)),
      ∃ info ∈ infoList, v.totalStake = info.stake ∧ v.votingPower = info.votingPower := by
  intro v hv
  obtain ⟨i, hi, rfl⟩ := List.mem_mapIdx.mp hv
  obtain ⟨info, hinfo, rfl⟩ := List.mem_map.mp (hidx.mem_iff.mpr (List.mem_range.mpr hi))
  obtain ⟨_, hs⟩ := hstake info hinfo
  exact ⟨info, hinfo, hs.symm, hpower info hinfo⟩

/-- The written powers sum to the entries' powers. -/
theorem sum_mapIdx_votingPower {infoList : List VotingPowerInfoV2}
    (hidx : (infoList.map (·.validatorIndex)).Perm (List.range validators.length))
    (hpower : ∀ info ∈ infoList, power info.validatorIndex = info.votingPower) :
    ((validators.mapIdx fun i v => v.setVotingPower (power i)).map (·.votingPower)).sum =
      (infoList.map (·.votingPower)).sum := by
  have hwritten : (validators.mapIdx fun i v => v.setVotingPower (power i)).map (·.votingPower) =
      (List.range validators.length).map power :=
    List.ext_getElem (by simp) (fun j _ _ => by simp [Validator.setVotingPower])
  have hentries : infoList.map (·.votingPower) = (infoList.map (·.validatorIndex)).map power := by
    rw [List.map_map]
    exact List.map_congr_left fun info h => (hpower info h).symm
  rw [hwritten, hentries]
  exact ((hidx.map power).sum_eq).symm

/-- What the entries written by update_voting_power must be for the checks to
pass: one entry per validator index, carrying that validator's stake, with
positive powers at most the threshold that sum to the total voting power,
sorted by stake and by power. -/
structure FinalEntries (validators : List Validator) (threshold : ℕ)
    (infoList : List VotingPowerInfoV2) : Prop where
  perm_indices : (infoList.map (·.validatorIndex)).Perm (List.range validators.length)
  stake_eq : ∀ info ∈ infoList, ∃ h : info.validatorIndex < validators.length,
    info.stake = validators[info.validatorIndex].totalStake
  pos : ∀ info ∈ infoList, 0 < info.votingPower
  le_threshold : ∀ info ∈ infoList, info.votingPower ≤ threshold
  sum_eq : (infoList.map (·.votingPower)).sum = totalVotingPower
  sorted : infoList.Pairwise fun a b => StakeGe a b ∧ PowerGe a b

/-- **The adjusted entries.** Starting from the sorted entries of
init_voting_power_info under a threshold that `n` validators can fill,
adjust_voting_power returns entries that update_voting_power can write. -/
theorem adjustVotingPower_finalEntries {infoList : List VotingPowerInfoV2}
    (hpos : 0 < totalStake) (hthreshold : 0 < threshold)
    (hcover : totalVotingPower ≤ validators.length * threshold)
    (hle : threshold ≤ totalVotingPower)
    (hraw : ∀ v ∈ validators, totalStake ≤ v.totalStake * totalVotingPower)
    (hperm : infoList.Perm (initialInfos threshold totalStake 0 validators))
    (hsorted : infoList.Pairwise StakeGe)
    (hsum : ((initialInfos threshold totalStake 0 validators).map (·.votingPower)).sum ≤
      totalVotingPower) :
    let remainingPower := totalVotingPower -
      ((initialInfos threshold totalStake 0 validators).map (·.votingPower)).sum
    adjustVotingPower infoList threshold remainingPower =
        .ok (distribute threshold infoList remainingPower).1 ∧
      FinalEntries validators threshold (distribute threshold infoList remainingPower).1 := by
  intro remainingPower
  have hsub : ∀ info ∈ infoList, info ∈ initialInfos threshold totalStake 0 validators :=
    fun info h => hperm.subset h
  have hleL : ∀ v ∈ infoList, v.votingPower ≤ threshold := fun v h =>
    votingPower_le_of_mem_initialInfos (hsub v h)
  have hpowL := pairwise_powerGe_of_stakeGe hsub hsorted
  -- the rooms under the threshold hold the remainder, since n powers at the threshold fill the total
  have hlen : infoList.length = validators.length := by
    rw [hperm.length_eq, ← List.length_map (f := (·.validatorIndex)),
      map_validatorIndex_initialInfos, List.length_range']
  have hsumL : (infoList.map (·.votingPower)).sum =
      ((initialInfos threshold totalStake 0 validators).map (·.votingPower)).sum :=
    (hperm.map _).sum_eq
  have hrooms : remainingPower ≤ (infoList.map fun v => threshold - v.votingPower).sum := by
    have h := sum_rooms_add_sum infoList hleL
    rw [hlen, hsumL] at h
    omega
  have hfit : threshold + remainingPower < 2 ^ 64 := by
    have : totalVotingPower = 10_000 := rfl
    omega
  obtain ⟨hzero, hpowF⟩ := distribute_spec hleL hpowL hrooms
  have hframe := @distribute_frame threshold infoList remainingPower
  have hindices : (distribute threshold infoList remainingPower).1.map (·.validatorIndex) =
      infoList.map (·.validatorIndex) := by
    simpa [List.map_map, Function.comp_def] using congrArg (List.map Prod.fst) hframe
  refine ⟨adjustVotingPower_eq_ok hleL hpowL hrooms hfit, ⟨?_, ?_, ?_, ?_, ?_, ?_⟩⟩
  · rw [hindices, List.range_eq_range',
      ← @map_validatorIndex_initialInfos threshold totalStake 0 validators]
    exact hperm.map _
  · -- an adjusted entry keeps the index and the stake of the entry it came from
    intro info h
    obtain ⟨l, hl, hkey⟩ := List.mem_map.mp (hframe ▸ List.mem_map_of_mem h :
      (info.validatorIndex, info.stake) ∈ infoList.map fun v => (v.validatorIndex, v.stake))
    obtain ⟨j, hj, hidx, hstake, -⟩ := mem_initialInfos (hsub l hl)
    obtain ⟨hidx', hstake'⟩ := Prod.mk.inj hkey
    obtain rfl : j = info.validatorIndex := by omega
    exact ⟨hj, hstake'.symm.trans hstake⟩
  · exact fun v h => le_of_mem_distribute (fun w hw =>
      pos_of_mem_initialInfos hpos hthreshold hraw (hsub w hw)) v h
  · exact distribute_le_threshold hleL
  · have h := @distribute_sum threshold infoList remainingPower
    rw [hzero, hsumL] at h
    omega
  · exact (pairwise_stakeGe_of_frame hframe hsorted).and hpowF

/-- **The written validators.** Writing final entries gives every validator the
power of its entry, and the validators then pass check_invariants. -/
theorem FinalEntries.update {infoList : List VotingPowerInfoV2}
    (hfinal : FinalEntries validators threshold infoList) :
    ∃ validators', updateVotingPower validators infoList = .ok validators' ∧
      checkInvariants validators' = .ok () ∧
      validators'.map (·.totalStake) = validators.map (·.totalStake) ∧
      (∀ v ∈ validators', 0 < v.votingPower ∧ v.votingPower ≤ threshold) ∧
      (validators'.map (·.votingPower)).sum = totalVotingPower ∧
      ∀ a ∈ validators', ∀ b ∈ validators', b.totalStake < a.totalStake →
        b.votingPower ≤ a.votingPower := by
  obtain ⟨power, hpower⟩ := exists_power (hfinal.perm_indices.nodup_iff.mpr List.nodup_range)
  have hupdate := updateVotingPower_eq_ok power validators hpower
    (fun info h => (hfinal.stake_eq info h).1)
    (fun i hi => hfinal.perm_indices.mem_iff.mpr (List.mem_range.mpr hi))
  have hmem := exists_info_of_mem_mapIdx power hfinal.perm_indices hfinal.stake_eq hpower
  have hbounds : ∀ v ∈ validators.mapIdx (fun i v => v.setVotingPower (power i)),
      0 < v.votingPower ∧ v.votingPower ≤ threshold := by
    intro v hv
    obtain ⟨info, hinfo, -, hpow⟩ := hmem v hv
    rw [hpow]
    exact ⟨hfinal.pos info hinfo, hfinal.le_threshold info hinfo⟩
  have hsum := (sum_mapIdx_votingPower power hfinal.perm_indices hpower).trans hfinal.sum_eq
  -- a larger stake has no less power, as in the sorted entries
  have hmono : ∀ a ∈ validators.mapIdx (fun i v => v.setVotingPower (power i)),
      ∀ b ∈ validators.mapIdx (fun i v => v.setVotingPower (power i)),
        b.totalStake < a.totalStake → b.votingPower ≤ a.votingPower := by
    intro a ha b hb hlt
    obtain ⟨infoA, hA, hsA, hpA⟩ := hmem a ha
    obtain ⟨infoB, hB, hsB, hpB⟩ := hmem b hb
    rw [hpA, hpB]
    rw [hsA, hsB] at hlt
    exact power_le_of_stake_lt hfinal.sorted infoA hA infoB hB hlt
  refine ⟨_, hupdate, checkInvariants_eq_ok (fun v h => (hbounds v h).1) hsum hmono, ?_,
    hbounds, hsum, hmono⟩
  exact List.ext_getElem (by simp) (fun j _ _ => by simp [Validator.setVotingPower])

end Main

/-- **Validator voting power derivation.** For a non-empty list of validators
whose stakes sum to a positive u64 total, each at least a ten-thousandth of it,
set_voting_power returns: it keeps every stake, and gives positive powers at
most the threshold that sum to the total voting power and are monotone in
stake. -/
theorem setVotingPower_spec (validators : List Validator) (totalStake : ℕ)
    (hne : validators ≠ []) (htotal : totalStake = (validators.map (·.totalStake)).sum)
    (hpos : 0 < totalStake) (hfit : totalStake < 2 ^ 64)
    (hraw : ∀ v ∈ validators, totalStake ≤ v.totalStake * totalVotingPower) :
    ∃ validators', setVotingPower validators totalStake = .ok validators' ∧
      validators'.map (·.totalStake) = validators.map (·.totalStake) ∧
      (∀ v ∈ validators', 0 < v.votingPower ∧
        v.votingPower ≤ votingPowerThreshold validators.length) ∧
      (validators'.map (·.votingPower)).sum = totalVotingPower ∧
      ∀ a ∈ validators', ∀ b ∈ validators', b.totalStake < a.totalStake →
        b.votingPower ≤ a.votingPower := by
  have hn : 0 < validators.length := List.length_pos_iff.mpr hne
  have hthreshold : votingPowerThreshold validators.length =
      min totalVotingPower (max maxVotingPower (totalVotingPower ⌈/⌉ validators.length)) := rfl
  -- init_voting_power_info, then adjust_voting_power, then the write and the checks
  obtain ⟨infoList, hinit, hperm, hsorted, hsum⟩ :=
    @initVotingPowerInfo_eq_ok (votingPowerThreshold validators.length) totalStake validators
      hpos hfit htotal
  obtain ⟨hadjust, hfinal⟩ := adjustVotingPower_finalEntries hpos
    (Nat.lt_of_lt_of_le (by decide) (maxVotingPower_le_votingPowerThreshold _))
    (totalVotingPower_le_mul_threshold hn) (votingPowerThreshold_le_total _) hraw hperm hsorted
    hsum
  obtain ⟨validators', hupdate, hcheck, hrest⟩ := hfinal.update
  refine ⟨validators', ?_, hrest⟩
  simp only [setVotingPower, divCeil_totalVotingPower hn, ok_bind, ← hthreshold, hinit, hadjust,
    hupdate, hcheck]
  rfl

theorem setVotingPower_spec_two :
    let validators : List Validator := [⟨3, 0⟩, ⟨1, 0⟩]
    validators ≠ [] ∧ 4 = (validators.map (·.totalStake)).sum ∧ 0 < 4 ∧ 4 < 2 ^ 64 ∧
      (∀ v ∈ validators, 4 ≤ v.totalStake * totalVotingPower) ∧
      ∃ validators', setVotingPower validators 4 = .ok validators' ∧
        (validators'.map (·.votingPower)).sum = totalVotingPower := by
  intro validators
  have hne : validators ≠ [] := by decide
  have htotal : 4 = (validators.map (·.totalStake)).sum := rfl
  have hraw : ∀ v ∈ validators, 4 ≤ v.totalStake * totalVotingPower := by decide
  obtain ⟨validators', hset, -, -, hsum, -⟩ :=
    setVotingPower_spec validators 4 hne htotal (by decide) (by decide) hraw
  exact ⟨hne, htotal, by decide, by decide, hraw, validators', hset, hsum⟩

/-- At stakes 3 and 1 the cap is 5 000: the larger validator is capped at once,
and the smaller receives the rest. -/
example : setVotingPower [⟨3, 0⟩, ⟨1, 0⟩] 4 = .ok [⟨3, 5000⟩, ⟨1, 5000⟩] := rfl

end Sui.VotingPower
