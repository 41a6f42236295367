import Sui.Framework.PriorityQueue
import Sui.SuiSystem.VotingPower
import Sui.WeightedScan

/-!
# The reference gas price (`validator_set.move`)

At each epoch change ValidatorSet::derive_reference_gas_price sets the gas
price of the new epoch from the prices the active validators quote. It puts
every quote into a priority queue with the validator's voting power, pops the
quotes from the highest down and adds up their voting power until the sum
reaches the total voting power less the quorum threshold, a third of the
total, and returns the last quote popped.

The while loop is the scan `WeightedScan.firstReach` over the quotes in the
order they are popped (`deriveReferenceGasPriceLoop_eq`), and a heap pops them
by non-increasing price (`PriorityQueue.popMaxN_spec`). So the scan stops at a
weighted quantile from above.

**Main results.**

* `deriveReferenceGasPrice_spec`: when the voting powers add up to the total,
  as set_voting_power makes them, derive_reference_gas_price returns one of
  the quoted prices; the validators quoting more than it hold less than a
  third of the voting power, those quoting at least it hold at least a third,
  and those quoting at most it more than the quorum threshold;
* `deriveReferenceGasPrice_perm`: the price does not depend on the order of
  the active validators, even though the heap breaks ties by position.
-/

namespace Sui.ValidatorSet

open MoveArith PriorityQueue

/-- The fields of an active validator that derive_reference_gas_price reads:
gas_price() and voting_power(). -/
structure Validator where
  gasPrice : ℕ
  votingPower : ℕ
  deriving DecidableEq, Repr

/-- The while loop of derive_reference_gas_price, for at most `fuel` rounds:
while the voting power summed so far is below the threshold, pop the highest
quote, keep it as the result and add its voting power. Each round pops an
entry, so on a queue of `n` entries round `n + 1` pops an empty queue if it
runs; with `n + 1` rounds the fuel never runs out first
(`deriveReferenceGasPriceLoop_eq`). -/
def deriveReferenceGasPriceLoop (threshold : ℕ) :
    ℕ → PriorityQueue ℕ → ℕ → ℕ → Except (Abort Code) ℕ
  | 0, _, _, _ => .error (.abort .ePopFromEmptyHeap)
  | fuel + 1, pq, sum, result =>
    if sum < threshold then do
      let ((gasPrice, votingPower), pq) ← popMax pq
      let sum ← add 64 sum votingPower
      deriveReferenceGasPriceLoop threshold fuel pq sum gasPrice
    else pure result

/-- ValidatorSet::derive_reference_gas_price -/
def deriveReferenceGasPrice (activeValidators : List Validator) : Except (Abort Code) ℕ := do
  let entries := activeValidators.map fun v => newEntry v.gasPrice v.votingPower
  let pq ← new entries
  let threshold ← sub VotingPower.totalVotingPower VotingPower.quorumThreshold
  deriveReferenceGasPriceLoop threshold (activeValidators.length + 1) pq 0 0

/-- The voting power of the validators whose quote passes `p`. -/
def votingPowerQuoting (validators : List Validator) (p : ℕ → Bool) : ℕ :=
  ((validators.filter fun v => p v.gasPrice).map (·.votingPower)).sum

/-- The quotes with their voting powers, as the scan weighs them. -/
def quotes (validators : List Validator) : List (ℕ × ℕ) :=
  validators.map fun v => (v.gasPrice, v.votingPower)

theorem votingPowerQuoting_eq_weight (validators : List Validator) (p : ℕ → Bool) :
    votingPowerQuoting validators p = WeightedScan.weight p (quotes validators) := by
  simp only [votingPowerQuoting, WeightedScan.weight, quotes, List.filter_map, List.map_map]
  rfl

theorem entries_map_quotes (activeValidators : List Validator) :
    (activeValidators.map fun v => newEntry v.gasPrice v.votingPower).map
      (fun e => (e.priority, e.value)) = quotes activeValidators := by
  simp only [List.map_map, quotes]
  rfl

/-! ## The loop is a scan of the popped quotes -/

/-- The round that pops an entry reaching the threshold ends the loop with its quote. -/
theorem deriveReferenceGasPriceLoop_of_le {threshold sum : ℕ} (fuel : ℕ) (pq : PriorityQueue ℕ)
    (result : ℕ) (h : threshold ≤ sum) :
    deriveReferenceGasPriceLoop threshold (fuel + 1) pq sum result = .ok result := by
  rw [deriveReferenceGasPriceLoop, if_neg (not_lt.mpr h)]
  rfl

/-- On a heap of `n` entries, the loop with `n + 1` rounds returns the quote at
which the scan of the popped quotes reaches the threshold, and aborts on the
empty queue when it never does. The induction is on the entries left. -/
theorem deriveReferenceGasPriceLoop_eq (threshold : ℕ) :
    ∀ (n : ℕ) (pq : PriorityQueue ℕ) (sum result : ℕ) (out : List (ℕ × ℕ)),
      pq.entries.length = n → IsHeap pq.entries → popMaxN n pq = .ok out → sum < threshold →
      sum + (out.map Prod.snd).sum < 2 ^ 64 →
      deriveReferenceGasPriceLoop threshold (n + 1) pq sum result =
        (WeightedScan.firstReach threshold out sum).elim (.error (.abort .ePopFromEmptyHeap)) .ok
  | 0, pq, sum, result, out, hlen, _, hout, hsum, _ => by
    obtain ⟨entries⟩ := pq
    obtain rfl : entries = [] := List.length_eq_zero_iff.mp hlen
    obtain rfl : out = [] := (Except.ok.inj hout).symm
    rw [deriveReferenceGasPriceLoop, if_pos hsum, popMax_nil]
    rfl
  | n + 1, pq, sum, result, out, hlen, hheap, hout, hsum, hfit => by
    obtain ⟨e, pq', hpop, hperm, -, hheap'⟩ := popMax_spec hheap (List.ne_nil_of_length_pos (by omega))
    have hlen' : pq'.entries.length = n := by
      have := hperm.length_eq
      rw [List.length_cons] at this
      omega
    -- the popped quote heads the list the pops return
    rw [popMaxN, hpop, ok_bind] at hout
    obtain ⟨rest, hrest, hout⟩ := bind_eq_ok.mp hout
    obtain rfl : (e.priority, e.value) :: rest = out := Except.ok.inj hout
    rw [List.map_cons, List.sum_cons] at hfit
    have hadd : (add 64 sum e.value : Except (Abort Code) ℕ) = .ok (sum + e.value) :=
      add_eq_ok (by omega)
    rw [deriveReferenceGasPriceLoop, if_pos hsum, hpop, ok_bind]
    dsimp only
    rw [hadd, ok_bind, WeightedScan.firstReach]
    by_cases hreach : threshold ≤ sum + e.value
    · rw [if_pos hreach, deriveReferenceGasPriceLoop_of_le n pq' e.priority hreach]
      rfl
    · rw [if_neg hreach]
      exact deriveReferenceGasPriceLoop_eq threshold n pq' (sum + e.value) e.priority rest hlen'
        hheap' hrest (by omega) (by omega)

/-! ## The price -/

section Price

variable {activeValidators : List Validator}

/-- The price found is a quoted price with less than the threshold's voting
power quoting above it and at least that much quoting at or above it. -/
theorem deriveReferenceGasPrice_quantile
    (hpower : (activeValidators.map (·.votingPower)).sum = VotingPower.totalVotingPower) :
    ∃ p, deriveReferenceGasPrice activeValidators = .ok p ∧
      p ∈ activeValidators.map (·.gasPrice) ∧
      WeightedScan.weight (fun q => decide (p < q)) (quotes activeValidators) <
        VotingPower.totalVotingPower - VotingPower.quorumThreshold ∧
      VotingPower.totalVotingPower - VotingPower.quorumThreshold ≤
        WeightedScan.weight (fun q => decide (p ≤ q)) (quotes activeValidators) := by
  set entries := activeValidators.map fun v => newEntry v.gasPrice v.votingPower with hentries
  set t := VotingPower.totalVotingPower - VotingPower.quorumThreshold with ht
  have ht_pos : 0 < t := by decide
  obtain ⟨pq, hnew, hperm, hheap⟩ := new_spec entries
  have hlen : pq.entries.length = activeValidators.length := by
    rw [hperm.length_eq, hentries, List.length_map]
  obtain ⟨out, hout, hpermOut, hsorted⟩ := popMaxN_spec activeValidators.length pq hlen hheap
  -- the pops are the quotes, rearranged
  have hquotes : out.Perm (quotes activeValidators) := by
    rw [← entries_map_quotes]
    exact hpermOut.trans (hperm.map _)
  have hsum : (out.map Prod.snd).sum = VotingPower.totalVotingPower := by
    rw [(hquotes.map _).sum_eq, quotes, List.map_map]
    exact hpower
  -- the scan reaches the threshold at some popped quote
  obtain ⟨p, hp⟩ := WeightedScan.firstReach_isSome (t := t) (l := out) ht_pos
    (by rw [hsum]; decide)
  have hloop := deriveReferenceGasPriceLoop_eq t activeValidators.length pq 0 0 out hlen hheap hout
    ht_pos (by rw [hsum]; decide)
  rw [hp] at hloop
  -- the pops come by non-increasing price, so their reverse is sorted
  have hrev : out.reverse.Pairwise (fun a b => a.1 ≤ b.1) := by
    rw [List.pairwise_reverse]
    exact List.pairwise_map.mp hsorted
  obtain ⟨hmem, habove, hatLeast⟩ := WeightedScan.firstReach_reverse_spec hrev ht_pos
    (by rw [List.reverse_reverse]; exact hp)
  have hrevQuotes : out.reverse.Perm (quotes activeValidators) := (List.reverse_perm out).trans hquotes
  refine ⟨p, ?_, ?_, ?_, ?_⟩
  · rw [deriveReferenceGasPrice, hnew, ok_bind, sub_eq_ok (by decide), ok_bind]
    exact hloop
  · have := (hrevQuotes.map Prod.fst).subset hmem
    rwa [quotes, List.map_map] at this
  · rw [← WeightedScan.weight_perm _ hrevQuotes]
    omega
  · rw [← WeightedScan.weight_perm _ hrevQuotes]
    omega

/-- The reference gas price is a quoted price. Validators quoting more than it
hold less than a third of the voting power (the total less the quorum
threshold), those quoting at least it hold at least that third, and those
quoting at most it hold more than the quorum threshold. -/
theorem deriveReferenceGasPrice_spec
    (hpower : (activeValidators.map (·.votingPower)).sum = VotingPower.totalVotingPower) :
    ∃ p, deriveReferenceGasPrice activeValidators = .ok p ∧
      p ∈ activeValidators.map (·.gasPrice) ∧
      votingPowerQuoting activeValidators (fun q => decide (p < q)) <
        VotingPower.totalVotingPower - VotingPower.quorumThreshold ∧
      VotingPower.totalVotingPower - VotingPower.quorumThreshold ≤
        votingPowerQuoting activeValidators (fun q => decide (p ≤ q)) ∧
      VotingPower.quorumThreshold < votingPowerQuoting activeValidators (fun q => decide (q ≤ p)) := by
  obtain ⟨p, hp, hmem, habove, hatLeast⟩ := deriveReferenceGasPrice_quantile hpower
  refine ⟨p, hp, hmem, ?_, ?_, ?_⟩
  · rwa [votingPowerQuoting_eq_weight]
  · rwa [votingPowerQuoting_eq_weight]
  · -- the quotes at most `p` and those above it share the whole voting power
    have hsplit := WeightedScan.weight_add_weight_not (fun q => decide (q ≤ p))
      (quotes activeValidators)
    have hnot : (fun q => !decide (q ≤ p)) = fun q => decide (p < q) := by
      funext q
      simp only [← decide_not, not_le]
    have htotal : (quotes activeValidators).map Prod.snd = activeValidators.map (·.votingPower) := by
      rw [quotes, List.map_map]
      rfl
    rw [hnot, htotal, hpower] at hsplit
    have hq : VotingPower.quorumThreshold +
        (VotingPower.totalVotingPower - VotingPower.quorumThreshold) =
          VotingPower.totalVotingPower := by decide
    rw [votingPowerQuoting_eq_weight]
    omega

end Price

theorem deriveReferenceGasPrice_spec_three :
    (([⟨500, 3000⟩, ⟨1000, 2000⟩, ⟨800, 5000⟩] : List Validator).map (·.votingPower)).sum =
        VotingPower.totalVotingPower ∧
      ∃ p, deriveReferenceGasPrice [⟨500, 3000⟩, ⟨1000, 2000⟩, ⟨800, 5000⟩] = .ok p ∧
        p ∈ ([⟨500, 3000⟩, ⟨1000, 2000⟩, ⟨800, 5000⟩] : List Validator).map (·.gasPrice) ∧
        votingPowerQuoting [⟨500, 3000⟩, ⟨1000, 2000⟩, ⟨800, 5000⟩] (fun q => decide (p < q)) <
          VotingPower.totalVotingPower - VotingPower.quorumThreshold ∧
        VotingPower.totalVotingPower - VotingPower.quorumThreshold ≤
          votingPowerQuoting [⟨500, 3000⟩, ⟨1000, 2000⟩, ⟨800, 5000⟩] (fun q => decide (p ≤ q)) ∧
        VotingPower.quorumThreshold <
          votingPowerQuoting [⟨500, 3000⟩, ⟨1000, 2000⟩, ⟨800, 5000⟩] (fun q => decide (q ≤ p)) :=
  ⟨by decide, deriveReferenceGasPrice_spec (by decide)⟩

/-- The reference gas price depends only on the quotes and voting powers, not on
the order of the active validators: the heap's order among equal quotes does not
reach the result. -/
theorem deriveReferenceGasPrice_perm {activeValidators activeValidators' : List Validator}
    (hperm : activeValidators.Perm activeValidators')
    (hpower : (activeValidators.map (·.votingPower)).sum = VotingPower.totalVotingPower) :
    deriveReferenceGasPrice activeValidators = deriveReferenceGasPrice activeValidators' := by
  have hpower' : (activeValidators'.map (·.votingPower)).sum = VotingPower.totalVotingPower := by
    rw [← (hperm.map _).sum_eq]
    exact hpower
  obtain ⟨p, hp, -, habove, hatLeast⟩ := deriveReferenceGasPrice_quantile hpower
  obtain ⟨p', hp', -, habove', hatLeast'⟩ := deriveReferenceGasPrice_quantile hpower'
  have hquotes : (quotes activeValidators).Perm (quotes activeValidators') := hperm.map _
  rw [WeightedScan.weight_perm _ hquotes] at habove hatLeast
  rw [hp, hp', WeightedScan.eq_of_upper_quantile ⟨habove, hatLeast⟩ ⟨habove', hatLeast'⟩]

theorem deriveReferenceGasPrice_perm_three :
    [⟨800, 5000⟩, ⟨1000, 2000⟩, ⟨500, 3000⟩].Perm [(⟨500, 3000⟩ : Validator), ⟨1000, 2000⟩, ⟨800, 5000⟩] ∧
      (([⟨800, 5000⟩, ⟨1000, 2000⟩, ⟨500, 3000⟩] : List Validator).map (·.votingPower)).sum =
        VotingPower.totalVotingPower ∧
      deriveReferenceGasPrice [⟨800, 5000⟩, ⟨1000, 2000⟩, ⟨500, 3000⟩] =
        deriveReferenceGasPrice [⟨500, 3000⟩, ⟨1000, 2000⟩, ⟨800, 5000⟩] :=
  ⟨by decide, by decide, deriveReferenceGasPrice_perm (by decide) (by decide)⟩

end Sui.ValidatorSet
