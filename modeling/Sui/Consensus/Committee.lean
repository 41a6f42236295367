import Mathlib.Tactic.Ring
import Sui.Quorum
import Sui.Consensus.Types

/-!
# The consensus committee (`consensus_config::Committee`)

A committee is the list of authorities of an epoch with their stakes, the
total stake and three thresholds. Two constructors derive the thresholds:

* `Committee.new` — the v2 rule: tolerate `f = (total - 1) / 3` faults,
  quorum `total - f`, validity `f + 1`; the certification threshold equals
  the quorum;
* `Committee.new_v3` — hybrid budgets of `f` malicious and `c` crash stake,
  scaled from the nominal `5f + 3c + 1` to the actual total.

Both end in assertions, so both are modelled as `Option Committee`, `none`
being a failed assertion. Sets of authorities are `Finset AuthorityIndex`
and are weighed by `Committee.weight`; the facts the commit rules need —
two quorums meet outside any set of at most `f` stake — are proved here once
from the constructors' arithmetic and the library in `Sui.Quorum`.
-/

namespace Sui

/-- An authority of the committee; only its stake is read by the modelled
code. -/
structure Authority where
  /-- voting power of the authority -/
  stake : ℕ
  deriving DecidableEq, Repr

/-- `consensus_config::Committee`. -/
structure Committee where
  /-- the epoch of this committee -/
  epoch : ℕ
  /-- the authorities, indexed by `AuthorityIndex` -/
  authorities : List Authority
  /-- total stake of the committee -/
  totalStake : ℕ
  /-- stake needed for a quorum -/
  quorumThreshold : ℕ
  /-- stake needed to certify (v3) -/
  certificationThreshold : ℕ
  /-- stake needed for validity -/
  validityThreshold : ℕ
  deriving DecidableEq, Repr

namespace Committee

/-- The sum of the authorities' stakes. -/
def stakeSum (authorities : List Authority) : ℕ := (authorities.map (·.stake)).sum

/-- `Committee::new`: the v2 thresholds. -/
def new (epoch : ℕ) (authorities : List Authority) : Option Committee :=
  if authorities.isEmpty then none
  else if 2 ^ 32 - 1 ≤ authorities.length then none
  else
    let totalStake := stakeSum authorities
    if totalStake = 0 then none
    else
      -- Tolerate integer f faults when total stake is 3f+1.
      let faultTolerance := (totalStake - 1) / 3
      let quorumThreshold := totalStake - faultTolerance
      let validityThreshold := faultTolerance + 1
      if 2 * quorumThreshold - faultTolerance > totalStake then
        some { epoch, authorities, totalStake, quorumThreshold, validityThreshold,
               certificationThreshold := quorumThreshold }
      else none

/-- The fault budgets of `Committee::new_v3`: the nominal malicious and
crash stakes scaled to the actual total stake with truncating division, or
zero when both are zero. `none` is the overflow panic. -/
def scaledBudgets (actualTotalStake maliciousStake crashStake : ℕ) : Option (ℕ × ℕ) :=
  let baseStake := 5 * maliciousStake + 3 * crashStake
  if baseStake > 0 then
    -- Use truncating division to get realistic fault budgets.
    let scale := fun (nominal : ℕ) =>
      (checkedMul nominal (actualTotalStake - 1)).map (· / baseStake)
    (scale maliciousStake).bind fun f => (scale crashStake).map fun c => (f, c)
  else some (0, 0)

/-- `Committee::new_v3`: thresholds from the scaled malicious budget `f` and
crash budget `c`, checked against the two intersection properties the v3
commit rule relies on. -/
def new_v3 (epoch : ℕ) (authorities : List Authority) (maliciousStake crashStake : ℕ) :
    Option Committee :=
  if authorities.isEmpty then none
  else if 2 ^ 32 - 1 ≤ authorities.length then none
  else
    let actualTotalStake := stakeSum authorities
    if actualTotalStake = 0 then none
    else
      (scaledBudgets actualTotalStake maliciousStake crashStake).bind fun (f, c) =>
        let validityThreshold := f + 1
        let certificationThreshold := 2 * f + c + 1
        let quorumThreshold := actualTotalStake - f - c
        -- Ensure intersection between committed certification and quorum thresholds.
        if certificationThreshold + quorumThreshold < actualTotalStake + f + 1 then none
        -- Ensure a committed certificate survives with the intersection between quorum thresholds.
        else if quorumThreshold * 2 < actualTotalStake + f + certificationThreshold then none
        else
          some { epoch, totalStake := actualTotalStake, quorumThreshold, certificationThreshold,
                 validityThreshold, authorities }

variable (c : Committee)

/-- Number of authorities. -/
def size : ℕ := c.authorities.length

/-- `Committee::stake`; an index outside the committee has no stake. -/
def stake (i : ℕ) : ℕ :=
  match c.authorities[i]? with
  | some a => a.stake
  | none => 0

/-- `Committee::is_valid_index`. -/
def isValidIndex (i : ℕ) : Bool := decide (i < c.size)

/-- `Committee::to_authority_index`. -/
def toAuthorityIndex (index : ℕ) : Option ℕ := if index < c.size then some index else none

/-- `Committee::reached_quorum`. -/
def reachedQuorum (s : ℕ) : Bool := decide (c.quorumThreshold ≤ s)

/-- `Committee::reached_validity`. -/
def reachedValidity (s : ℕ) : Bool := decide (c.validityThreshold ≤ s)

/-- The stake of a set of authorities. -/
def weight (s : Finset ℕ) : ℕ := Quorum.weight c.stake s

/-- All authorities of the committee. -/
def members : Finset ℕ := Finset.range c.size

/-- The faults the v2 thresholds tolerate. -/
def faultTolerance : ℕ := (c.totalStake - 1) / 3

variable {c}

theorem stake_eq_zero_of_le {i : ℕ} (h : c.size ≤ i) : c.stake i = 0 := by
  simp [stake, List.getElem?_eq_none (show c.authorities.length ≤ i from h)]

/-- The members weigh the sum of the authorities' stakes. -/
theorem weight_members : c.weight c.members = stakeSum c.authorities := by
  unfold weight members size stake Quorum.weight
  generalize c.authorities = authorities
  induction authorities with
  | nil => rfl
  | cons a as ih =>
    rw [List.length_cons, Finset.sum_range_succ', stakeSum, List.map_cons, List.sum_cons,
      ← stakeSum, ← ih]
    simp only [List.getElem?_cons_succ, List.getElem?_cons_zero]
    rw [add_comm]

/-- Indices outside the committee carry no stake. -/
theorem weight_sdiff_members (s : Finset ℕ) : c.weight (s \ c.members) = 0 := by
  apply Finset.sum_eq_zero
  intro i hi
  have hi' : ¬ i < c.size := by
    simpa only [members, Finset.mem_range] using (Finset.mem_sdiff.mp hi).2
  exact stake_eq_zero_of_le (Nat.le_of_not_lt hi')

/-- The weight of a set is the weight of its members inside the committee. -/
theorem weight_inter_members (s : Finset ℕ) : c.weight (s ∩ c.members) = c.weight s := by
  have hsplit := Quorum.weight_sdiff_add_weight_inter (w := c.stake) s c.members
  change c.weight (s \ c.members) + c.weight (s ∩ c.members) = c.weight s at hsplit
  rw [weight_sdiff_members, Nat.zero_add] at hsplit
  exact hsplit

/-- Two sets of authorities whose weights together exceed the total stake
and the weight of `F` share an authority outside `F`. -/
theorem exists_mem_inter_not_mem_of_total (htotal : c.totalStake = stakeSum c.authorities)
    {F S S' : Finset ℕ} (h : c.totalStake + c.weight F < c.weight S + c.weight S') :
    ∃ a, a ∈ S ∧ a ∈ S' ∧ a ∉ F := by
  have hU : c.weight c.members = c.totalStake := by rw [weight_members, htotal]
  obtain ⟨a, haS, haS', haF⟩ := Quorum.exists_mem_inter_not_mem (w := c.stake) (F := F)
    (Finset.inter_subset_right : S ∩ c.members ⊆ c.members)
    (Finset.inter_subset_right : S' ∩ c.members ⊆ c.members) (by
      change c.weight c.members + c.weight F < c.weight (S ∩ c.members) + c.weight (S' ∩ c.members)
      rw [weight_inter_members, weight_inter_members, hU]
      exact h)
  exact ⟨a, Finset.mem_of_mem_inter_left haS, Finset.mem_of_mem_inter_left haS', haF⟩

section V2

variable {epoch : ℕ} {authorities : List Authority}

/-- The thresholds `Committee.new` sets. -/
theorem new_spec (h : new epoch authorities = some c) :
    c.totalStake = stakeSum c.authorities ∧ 0 < c.totalStake ∧
      c.quorumThreshold = c.totalStake - c.faultTolerance := by
  unfold new at h
  by_cases h1 : authorities.isEmpty = true
  · rw [if_pos h1] at h
    cases h
  rw [if_neg h1] at h
  by_cases h2 : 2 ^ 32 - 1 ≤ authorities.length
  · rw [if_pos h2] at h
    cases h
  rw [if_neg h2] at h
  by_cases h3 : stakeSum authorities = 0
  · rw [if_pos h3] at h
    cases h
  rw [if_neg h3] at h
  dsimp only at h
  split_ifs at h
  cases h
  exact ⟨rfl, Nat.pos_of_ne_zero h3, rfl⟩

/-- A v2 quorum is never empty. -/
theorem quorumThreshold_pos_of_new (h : new epoch authorities = some c) : 0 < c.quorumThreshold := by
  obtain ⟨-, hpos, hq⟩ := new_spec h
  rw [hq, faultTolerance]
  omega

/-- **Two v2 quorums meet in an honest authority**: with at most `f` faulty
stake, two sets of quorum weight share an authority outside the faulty set. -/
theorem exists_honest_of_quorums (h : new epoch authorities = some c) {F S S' : Finset ℕ}
    (hF : c.weight F ≤ c.faultTolerance) (hS : c.quorumThreshold ≤ c.weight S)
    (hS' : c.quorumThreshold ≤ c.weight S') : ∃ a, a ∈ S ∧ a ∈ S' ∧ a ∉ F := by
  obtain ⟨htotal, hpos, hq⟩ := new_spec h
  refine exists_mem_inter_not_mem_of_total htotal ?_
  -- `n ≥ 3f + 1` and the quorum is `n - f`
  rw [hq, faultTolerance] at hS hS'
  rw [faultTolerance] at hF
  omega

end V2

section V3

variable {epoch maliciousStake crashStake : ℕ} {authorities : List Authority}

/-- What `Committee.new_v3` guarantees, with `f = validityThreshold - 1` the
scaled malicious budget: the total stake is the authorities' stake, a
certificate and a quorum overlap in more than `f`, two quorums overlap in a
certificate beyond `f`, and a certificate is never empty. -/
theorem new_v3_spec (h : new_v3 epoch authorities maliciousStake crashStake = some c) :
    c.totalStake = stakeSum c.authorities ∧
      c.totalStake + (c.validityThreshold - 1) + 1 ≤
        c.certificationThreshold + c.quorumThreshold ∧
      c.totalStake + (c.validityThreshold - 1) + c.certificationThreshold ≤
        2 * c.quorumThreshold ∧
      1 ≤ c.certificationThreshold := by
  unfold new_v3 at h
  dsimp only at h
  split_ifs at h
  obtain ⟨⟨f, cr⟩, -, h⟩ := Option.bind_eq_some_iff.mp h
  dsimp only at h
  split_ifs at h with hcert hquorum
  cases h
  refine ⟨rfl, ?_, ?_, ?_⟩ <;> simp only [Nat.add_sub_cancel] <;> omega

/-- The authorities two sets share outside `F` weigh at least what the two
weigh beyond the total stake and `F`. -/
theorem weight_add_le_weight_inter_sdiff_add (htotal : c.totalStake = stakeSum c.authorities)
    (F S S' : Finset ℕ) :
    c.weight S + c.weight S' ≤ c.weight ((S ∩ S') \ F) + c.weight F + c.totalStake := by
  have hU : c.weight c.members = c.totalStake := by rw [weight_members, htotal]
  have hmeet := Quorum.weight_add_le_weight_inter_sdiff_add (w := c.stake) (F := F)
    (Finset.inter_subset_right : S ∩ c.members ⊆ c.members)
    (Finset.inter_subset_right : S' ∩ c.members ⊆ c.members)
  change c.weight (S ∩ c.members) + c.weight (S' ∩ c.members) ≤
    c.weight ((S ∩ c.members ∩ (S' ∩ c.members)) \ F) + c.weight F + c.weight c.members at hmeet
  have hsub : (S ∩ c.members ∩ (S' ∩ c.members)) \ F ⊆ (S ∩ S') \ F := by
    intro x hx
    simp only [Finset.mem_sdiff, Finset.mem_inter] at hx ⊢
    exact ⟨⟨hx.1.1.1, hx.1.2.1⟩, hx.2⟩
  have hle := Quorum.weight_mono (w := c.stake) hsub
  change c.weight _ ≤ c.weight _ at hle
  rw [weight_inter_members, weight_inter_members, hU] at hmeet
  omega

end V3

section Thresholds

variable {epoch maliciousStake crashStake : ℕ} {authorities : List Authority}

/-- Any two sets of authorities overlap by at least what their weights exceed
the total stake. -/
theorem weight_add_le_weight_inter_add (htotal : c.totalStake = stakeSum c.authorities)
    (S S' : Finset ℕ) : c.weight S + c.weight S' ≤ c.weight (S ∩ S') + c.totalStake := by
  have h := weight_add_le_weight_inter_sdiff_add htotal ∅ S S'
  have hempty : c.weight ∅ = 0 := Finset.sum_empty (f := c.stake)
  rwa [Finset.sdiff_empty, hempty, Nat.add_zero] at h

/-- The v2 fault tolerance of a positive total always passes the
intersection assertion of `Committee::new`. -/
theorem total_lt_two_mul_quorum_sub {T : ℕ} (hT : 0 < T) :
    T < 2 * (T - (T - 1) / 3) - (T - 1) / 3 := by
  omega

/-- `Committee.new` on a non-empty list with positive total stake: the only
assertion that can fail is the bound on the number of authorities. -/
theorem new_eq (hne : authorities ≠ []) (hT : 0 < stakeSum authorities) :
    new epoch authorities =
      if 2 ^ 32 - 1 ≤ authorities.length then none
      else some { epoch, authorities, totalStake := stakeSum authorities,
                  quorumThreshold := stakeSum authorities - (stakeSum authorities - 1) / 3,
                  validityThreshold := (stakeSum authorities - 1) / 3 + 1,
                  certificationThreshold := stakeSum authorities - (stakeSum authorities - 1) / 3 } := by
  have hempty : authorities.isEmpty = false := List.isEmpty_eq_false_iff.mpr hne
  unfold new
  simp only [hempty, Bool.false_eq_true, if_false, Nat.pos_iff_ne_zero.mp hT]
  rw [if_pos (total_lt_two_mul_quorum_sub hT)]

/-- The budgets `Committee::new_v3` scales to a positive total: the products
checked for overflow fit, and by truncating division the scaled budgets keep
`5 f + 3 c` below the total. -/
theorem scaledBudgets_spec {T : ℕ} (hT : 0 < T) (hf : maliciousStake * (T - 1) < u64Bound)
    (hc : crashStake * (T - 1) < u64Bound) :
    ∃ f cr, scaledBudgets T maliciousStake crashStake = some (f, cr) ∧ 5 * f + 3 * cr + 1 ≤ T := by
  unfold scaledBudgets
  dsimp only
  split_ifs with hbase
  · set B := 5 * maliciousStake + 3 * crashStake with hB
    refine ⟨maliciousStake * (T - 1) / B, crashStake * (T - 1) / B, ?_, ?_⟩
    · simp only [checkedMul_eq_some hf, checkedMul_eq_some hc, Option.map_some, Option.bind_some]
    · -- B (5 f + 3 c) ≤ 5 f₀ (T - 1) + 3 c₀ (T - 1) = B (T - 1)
      have hfB := Nat.div_mul_le_self (maliciousStake * (T - 1)) B
      have hcB := Nat.div_mul_le_self (crashStake * (T - 1)) B
      have hle : B * (5 * (maliciousStake * (T - 1) / B) + 3 * (crashStake * (T - 1) / B)) ≤
          B * (T - 1) :=
        calc B * (5 * (maliciousStake * (T - 1) / B) + 3 * (crashStake * (T - 1) / B))
            = 5 * (maliciousStake * (T - 1) / B * B) + 3 * (crashStake * (T - 1) / B * B) := by
              ring
          _ ≤ 5 * (maliciousStake * (T - 1)) + 3 * (crashStake * (T - 1)) := by omega
          _ = B * (T - 1) := by rw [hB]; ring
      have := Nat.le_of_mul_le_mul_left hle hbase
      omega
  · exact ⟨0, 0, rfl, by omega⟩

/-- `Committee.new_v3` on a non-empty list with positive total stake and
budgets whose scaling does not overflow: neither stake-safety assertion
fails, and the thresholds are those of the scaled budgets. -/
theorem new_v3_eq (hne : authorities ≠ []) (hT : 0 < stakeSum authorities) {f cr : ℕ}
    (hbudgets : scaledBudgets (stakeSum authorities) maliciousStake crashStake = some (f, cr))
    (hsum : 5 * f + 3 * cr + 1 ≤ stakeSum authorities) :
    new_v3 epoch authorities maliciousStake crashStake =
      if 2 ^ 32 - 1 ≤ authorities.length then none
      else some { epoch, totalStake := stakeSum authorities,
                  quorumThreshold := stakeSum authorities - f - cr,
                  certificationThreshold := 2 * f + cr + 1, validityThreshold := f + 1,
                  authorities } := by
  have hempty : authorities.isEmpty = false := List.isEmpty_eq_false_iff.mpr hne
  unfold new_v3
  simp only [hempty, Bool.false_eq_true, if_false, Nat.pos_iff_ne_zero.mp hT, hbudgets,
    Option.bind_some]
  split_ifs with hlen h1 h2
  · rfl
  · omega
  · omega
  · rfl

end Thresholds

/-! ## Quorums are strict majorities -/

/-- What every constructed committee's quorum is: a positive strict majority
of the total stake, which the total reaches, the total being the
authorities' stake. -/
structure MajorityQuorum (c : Committee) : Prop where
  total_eq : c.totalStake = stakeSum c.authorities
  quorum_pos : 0 < c.quorumThreshold
  quorum_le_total : c.quorumThreshold ≤ c.totalStake
  total_lt_two_mul_quorum : c.totalStake < 2 * c.quorumThreshold

section Majority

variable {epoch maliciousStake crashStake : ℕ} {authorities : List Authority}

theorem majorityQuorum_of_new (h : new epoch authorities = some c) : MajorityQuorum c := by
  obtain ⟨htotal, hpos, hq⟩ := new_spec h
  refine ⟨htotal, ?_, ?_, ?_⟩ <;> rw [hq, faultTolerance] <;> omega

/-- The v3 quorum `T - f - c` is below the total, and a strict majority since
two quorums overlap in a certificate. -/
theorem majorityQuorum_of_new_v3 (h : new_v3 epoch authorities maliciousStake crashStake = some c) :
    MajorityQuorum c := by
  obtain ⟨htotal, -, hquorums, hcert⟩ := new_v3_spec h
  have hle : c.quorumThreshold ≤ c.totalStake := by
    unfold new_v3 at h
    dsimp only at h
    split_ifs at h
    obtain ⟨⟨f, cr⟩, -, h⟩ := Option.bind_eq_some_iff.mp h
    dsimp only at h
    split_ifs at h
    cases h
    exact le_trans (Nat.sub_le _ _) (Nat.sub_le _ _)
  exact ⟨htotal, by omega, hle, by omega⟩

end Majority

end Committee

end Sui
