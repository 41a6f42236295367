import Mathlib.Algebra.GroupWithZero.Nat
import Mathlib.Algebra.Order.BigOperators.Group.Finset
import Mathlib.Data.Finset.Sort
import Mathlib.Data.String.Basic
import Sui.SuiTypes.QuorumSignInfo

/-!
# Peer deny-config voting (`transaction_deny_rules.rs`, `transaction_deny_config_manager.rs`)

Validators share the deny rules they would like enforced, and each validator
evaluates the votes against its `PeerDenySyncConfig`: a pre-listed ruleset is
activated when the eligible validators whose rules contain it hold at least its
percentage of the eligible stake, and a default bucket activates, one at a
time, the proposed elements of the kinds it claims that reach its percentage.
The effective rules are the local rules merged with what is activated.

A `BTreeSet` of the rules is a `Finset`, iterated in increasing order where the
source iterates it; the maps of votes and stakes are sorted lists of entries.
The per-element tally of a bucket is a list of entries.

* **`mem_elements_merge`**, **`isSupersetOf_iff`**, **`mem_elements_applyElement`**
  — the rules are the set of their elements: `merge` is union,
  `apply_element` insertion and `is_superset_of` inclusion.
* **`votedStake_eq`**, **`TallySpec`** — both ways of counting votes compute
  the stake `backing` of the voters that support a ruleset or an element.
* **`mem_elements_effectiveRules`** — what the effective rules hold: the local
  rules, the active rulesets and the applied elements.

**Proof shape.** The loops of `evaluate_deny_configs` are folds; each gets a
lemma saying what it computes, by induction over the list it folds, and the
soundness and monotonicity of the evaluation are read off those.
-/

namespace Sui.TransactionDeny

open SuiTypes

/-! ### Deny rules -/

/-- `DenyElementKind`. -/
inductive DenyElementKind
  | object
  | package
  | address
  | zkLoginProvider
  | packagePublishDisabled
  | packageUpgradeDisabled
  | sharedObjectDisabled
  | userTransactionDisabled
  | gaslessDisabled
  | receivingObjectsDisabled
  | zkLoginSigDisabled
  deriving DecidableEq, Repr

/-- `DenyElement`: one deny-list entry or one kill switch. -/
inductive DenyElement
  | object (id : ℕ)
  | package (id : ℕ)
  | address (address : ℕ)
  | zkLoginProvider (provider : String)
  | packagePublishDisabled
  | packageUpgradeDisabled
  | sharedObjectDisabled
  | userTransactionDisabled
  | gaslessDisabled
  | receivingObjectsDisabled
  | zkLoginSigDisabled
  deriving DecidableEq, Repr

/-- `DenyElement::kind`. -/
def DenyElement.kind : DenyElement → DenyElementKind
  | .object _ => .object
  | .package _ => .package
  | .address _ => .address
  | .zkLoginProvider _ => .zkLoginProvider
  | .packagePublishDisabled => .packagePublishDisabled
  | .packageUpgradeDisabled => .packageUpgradeDisabled
  | .sharedObjectDisabled => .sharedObjectDisabled
  | .userTransactionDisabled => .userTransactionDisabled
  | .gaslessDisabled => .gaslessDisabled
  | .receivingObjectsDisabled => .receivingObjectsDisabled
  | .zkLoginSigDisabled => .zkLoginSigDisabled

/-- `TransactionDenyRules`. -/
structure TransactionDenyRules where
  /-- `object_deny_list` -/
  objectDenyList : Finset ℕ
  /-- `package_deny_list` -/
  packageDenyList : Finset ℕ
  /-- `address_deny_list` -/
  addressDenyList : Finset ℕ
  /-- `package_publish_disabled` -/
  packagePublishDisabled : Bool
  /-- `package_upgrade_disabled` -/
  packageUpgradeDisabled : Bool
  /-- `shared_object_disabled` -/
  sharedObjectDisabled : Bool
  /-- `user_transaction_disabled` -/
  userTransactionDisabled : Bool
  /-- `gasless_disabled` -/
  gaslessDisabled : Bool
  /-- `receiving_objects_disabled` -/
  receivingObjectsDisabled : Bool
  /-- `zklogin_sig_disabled` -/
  zkloginSigDisabled : Bool
  /-- `zklogin_disabled_providers` -/
  zkloginDisabledProviders : Finset String
  deriving DecidableEq

namespace TransactionDenyRules

/-- `TransactionDenyRules::merge`: sets are extended, flags or-ed. -/
def merge (r other : TransactionDenyRules) : TransactionDenyRules where
  objectDenyList := r.objectDenyList ∪ other.objectDenyList
  packageDenyList := r.packageDenyList ∪ other.packageDenyList
  addressDenyList := r.addressDenyList ∪ other.addressDenyList
  packagePublishDisabled := r.packagePublishDisabled || other.packagePublishDisabled
  packageUpgradeDisabled := r.packageUpgradeDisabled || other.packageUpgradeDisabled
  sharedObjectDisabled := r.sharedObjectDisabled || other.sharedObjectDisabled
  userTransactionDisabled := r.userTransactionDisabled || other.userTransactionDisabled
  gaslessDisabled := r.gaslessDisabled || other.gaslessDisabled
  receivingObjectsDisabled := r.receivingObjectsDisabled || other.receivingObjectsDisabled
  zkloginSigDisabled := r.zkloginSigDisabled || other.zkloginSigDisabled
  zkloginDisabledProviders := r.zkloginDisabledProviders ∪ other.zkloginDisabledProviders

/-- `TransactionDenyRules::is_superset_of`. -/
def isSupersetOf (r other : TransactionDenyRules) : Bool :=
  decide (other.objectDenyList ⊆ r.objectDenyList) &&
    decide (other.packageDenyList ⊆ r.packageDenyList) &&
    decide (other.addressDenyList ⊆ r.addressDenyList) &&
    decide (other.zkloginDisabledProviders ⊆ r.zkloginDisabledProviders) &&
    (r.packagePublishDisabled || !other.packagePublishDisabled) &&
    (r.packageUpgradeDisabled || !other.packageUpgradeDisabled) &&
    (r.sharedObjectDisabled || !other.sharedObjectDisabled) &&
    (r.userTransactionDisabled || !other.userTransactionDisabled) &&
    (r.gaslessDisabled || !other.gaslessDisabled) &&
    (r.receivingObjectsDisabled || !other.receivingObjectsDisabled) &&
    (r.zkloginSigDisabled || !other.zkloginSigDisabled)

/-- `TransactionDenyRules::elements`: one element per entry, in set order, then
one per flag that is set. -/
def elements (r : TransactionDenyRules) : List DenyElement :=
  (r.objectDenyList.sort (· ≤ ·)).map .object ++
    (r.packageDenyList.sort (· ≤ ·)).map .package ++
    (r.addressDenyList.sort (· ≤ ·)).map .address ++
    (r.zkloginDisabledProviders.sort (· ≤ ·)).map .zkLoginProvider ++
    (if r.packagePublishDisabled then [DenyElement.packagePublishDisabled] else []) ++
    (if r.packageUpgradeDisabled then [DenyElement.packageUpgradeDisabled] else []) ++
    (if r.sharedObjectDisabled then [DenyElement.sharedObjectDisabled] else []) ++
    (if r.userTransactionDisabled then [DenyElement.userTransactionDisabled] else []) ++
    (if r.gaslessDisabled then [DenyElement.gaslessDisabled] else []) ++
    (if r.receivingObjectsDisabled then [DenyElement.receivingObjectsDisabled] else []) ++
    (if r.zkloginSigDisabled then [DenyElement.zkLoginSigDisabled] else [])

/-- `TransactionDenyRules::apply_element`. -/
def applyElement (r : TransactionDenyRules) : DenyElement → TransactionDenyRules
  | .object o => { r with objectDenyList := insert o r.objectDenyList }
  | .package p => { r with packageDenyList := insert p r.packageDenyList }
  | .address a => { r with addressDenyList := insert a r.addressDenyList }
  | .zkLoginProvider p => { r with zkloginDisabledProviders := insert p r.zkloginDisabledProviders }
  | .packagePublishDisabled => { r with packagePublishDisabled := true }
  | .packageUpgradeDisabled => { r with packageUpgradeDisabled := true }
  | .sharedObjectDisabled => { r with sharedObjectDisabled := true }
  | .userTransactionDisabled => { r with userTransactionDisabled := true }
  | .gaslessDisabled => { r with gaslessDisabled := true }
  | .receivingObjectsDisabled => { r with receivingObjectsDisabled := true }
  | .zkLoginSigDisabled => { r with zkloginSigDisabled := true }

/-- What holding an element means, field by field. -/
theorem mem_elements {r : TransactionDenyRules} {e : DenyElement} :
    e ∈ r.elements ↔ match e with
      | .object o => o ∈ r.objectDenyList
      | .package p => p ∈ r.packageDenyList
      | .address a => a ∈ r.addressDenyList
      | .zkLoginProvider p => p ∈ r.zkloginDisabledProviders
      | .packagePublishDisabled => r.packagePublishDisabled = true
      | .packageUpgradeDisabled => r.packageUpgradeDisabled = true
      | .sharedObjectDisabled => r.sharedObjectDisabled = true
      | .userTransactionDisabled => r.userTransactionDisabled = true
      | .gaslessDisabled => r.gaslessDisabled = true
      | .receivingObjectsDisabled => r.receivingObjectsDisabled = true
      | .zkLoginSigDisabled => r.zkloginSigDisabled = true := by
  simp only [elements, List.mem_append, List.mem_map, Finset.mem_sort, List.mem_ite_nil_right,
    List.mem_singleton]
  cases e <;> simp

/-- `merge` is the union of the elements. -/
@[simp] theorem mem_elements_merge {r other : TransactionDenyRules} {e : DenyElement} :
    e ∈ (r.merge other).elements ↔ e ∈ r.elements ∨ e ∈ other.elements := by
  simp only [mem_elements]
  cases e <;> simp [merge]

/-- `apply_element` inserts the element. -/
@[simp] theorem mem_elements_applyElement {r : TransactionDenyRules} {x e : DenyElement} :
    e ∈ (r.applyElement x).elements ↔ e = x ∨ e ∈ r.elements := by
  simp only [mem_elements]
  cases x <;> cases e <;> simp [applyElement]

/-- `is_superset_of` is the inclusion of the elements. -/
theorem isSupersetOf_iff {r other : TransactionDenyRules} :
    r.isSupersetOf other = true ↔ ∀ e ∈ other.elements, e ∈ r.elements := by
  constructor
  · intro h e he
    simp only [isSupersetOf, Bool.and_eq_true, decide_eq_true_eq, Bool.or_eq_true,
      Bool.not_eq_true'] at h
    obtain ⟨⟨⟨⟨⟨⟨⟨⟨⟨⟨ho, hp⟩, ha⟩, hz⟩, h₁⟩, h₂⟩, h₃⟩, h₄⟩, h₅⟩, h₆⟩, h₇⟩ := h
    rw [mem_elements] at he ⊢
    cases e
    case object o => exact ho he
    case package p => exact hp he
    case address a => exact ha he
    case zkLoginProvider p => exact hz he
    -- a flag set in the other rules is set here
    all_goals simp_all
  · intro h
    have hmem : ∀ e, e ∈ other.elements → e ∈ r.elements := h
    simp only [mem_elements] at hmem
    simp only [isSupersetOf, Bool.and_eq_true, decide_eq_true_eq, Bool.or_eq_true,
      Bool.not_eq_true']
    refine ⟨⟨⟨⟨⟨⟨⟨⟨⟨⟨fun o => hmem (.object o), fun p => hmem (.package p)⟩,
      fun a => hmem (.address a)⟩, fun p => hmem (.zkLoginProvider p)⟩, ?_⟩, ?_⟩, ?_⟩, ?_⟩, ?_⟩,
      ?_⟩, ?_⟩
    · cases h : other.packagePublishDisabled <;> simp [hmem .packagePublishDisabled, h]
    · cases h : other.packageUpgradeDisabled <;> simp [hmem .packageUpgradeDisabled, h]
    · cases h : other.sharedObjectDisabled <;> simp [hmem .sharedObjectDisabled, h]
    · cases h : other.userTransactionDisabled <;> simp [hmem .userTransactionDisabled, h]
    · cases h : other.gaslessDisabled <;> simp [hmem .gaslessDisabled, h]
    · cases h : other.receivingObjectsDisabled <;> simp [hmem .receivingObjectsDisabled, h]
    · cases h : other.zkloginSigDisabled <;> simp [hmem .zkLoginSigDisabled, h]

/-- Each element is enumerated once. -/
theorem nodup_elements (r : TransactionDenyRules) : r.elements.Nodup := by
  simp only [elements]
  repeat rw [List.nodup_append]
  refine ⟨⟨⟨⟨⟨⟨⟨⟨⟨⟨?_, ?_, ?_⟩, ?_, ?_⟩, ?_, ?_⟩, ?_, ?_⟩, ?_, ?_⟩, ?_, ?_⟩, ?_, ?_⟩, ?_, ?_⟩,
    ?_, ?_⟩, ?_, ?_⟩
  -- the sorted lists, then the disjointness of a prefix and the next part, then the flags
  all_goals first
    | exact (Finset.sort_nodup _ _).map (fun _ _ h => by injection h)
    | (intro a ha b hb hab
       subst hab
       simp only [List.mem_append, List.mem_map, List.mem_ite_nil_right, List.mem_singleton] at ha hb
       grind)
    | (split <;> simp)

end TransactionDenyRules

/-! ### The sync configuration and the evaluation -/

/-- `ValidatorEligibility`. -/
inductive ValidatorEligibility
  | allowlist (set : Finset ℕ)
  | denylist (set : Finset ℕ)
  deriving DecidableEq

/-- `ValidatorEligibility::is_eligible`. -/
def ValidatorEligibility.isEligible : ValidatorEligibility → ℕ → Bool
  | .allowlist set, name => decide (name ∈ set)
  | .denylist set, name => decide (name ∉ set)

/-- `SharedDenyRuleThreshold`. -/
structure SharedDenyRuleThreshold where
  /-- whose votes count -/
  eligibility : ValidatorEligibility
  /-- the percent of the eligible stake needed -/
  stakeThresholdPercent : UInt16
  deriving DecidableEq

/-- `SharedDenyRuleset`: a pre-listed ruleset. -/
structure SharedDenyRuleset where
  /-- the name used in metrics -/
  name : String
  /-- the rules it activates -/
  rules : TransactionDenyRules
  /-- who activates it -/
  threshold : SharedDenyRuleThreshold
  deriving DecidableEq

/-- `DefaultDenyBucket`. -/
structure DefaultDenyBucket where
  /-- the name used in metrics -/
  name : String
  /-- the kinds of element it votes on -/
  elementKinds : Finset DenyElementKind
  /-- who activates its elements -/
  threshold : SharedDenyRuleThreshold
  deriving DecidableEq

/-- `PeerDenySyncConfig`: the rulesets and buckets the evaluation reads. -/
structure PeerDenySyncConfig where
  /-- `rulesets` -/
  rulesets : List SharedDenyRuleset
  /-- `default_buckets` -/
  defaultBuckets : List DefaultDenyBucket

/-- The votes, a `BTreeMap<AuthorityName, &TransactionDenyRules>`, by its
entries in increasing name order. -/
structure VoteMap where
  /-- each voter and its proposed rules -/
  entries : List (ℕ × TransactionDenyRules)
  /-- the names increase -/
  sorted : entries.Pairwise fun p q => p.1 < q.1

/-- `PrelistedRulesetStatus`. -/
structure PrelistedRulesetStatus where
  /-- the ruleset's name -/
  name : String
  /-- its percent -/
  stakeThresholdPercent : UInt16
  /-- its eligible stake -/
  eligibleStake : ℕ
  /-- the stake of its voters -/
  votedStake : ℕ
  /-- its voters, in name order -/
  voters : List ℕ
  /-- whether it is activated -/
  active : Bool

/-- `DefaultBucketStatus`. -/
structure DefaultBucketStatus where
  /-- the bucket's name -/
  name : String
  /-- its kinds -/
  elementKinds : Finset DenyElementKind
  /-- its percent -/
  stakeThresholdPercent : UInt16
  /-- its eligible stake -/
  eligibleStake : ℕ
  /-- the elements it activates -/
  appliedElements : List DenyElement

/-- `DenyConfigEvaluation`. -/
structure DenyConfigEvaluation where
  /-- the rules to enforce -/
  effectiveRules : TransactionDenyRules
  /-- the status of each pre-listed ruleset -/
  prelisted : List PrelistedRulesetStatus
  /-- the status of each default bucket -/
  defaults : List DefaultBucketStatus

/-- `meets_threshold`: `voted` is at least `percent`% of `eligible`. -/
def meetsThreshold (voted eligible : ℕ) (percent : UInt16) : Bool :=
  if eligible = 0 then false
  else
    -- `voted / eligible >= percent / 100`, cross-multiplied
    let votedShare := voted * 100
    let requiredShare := percent.toNat * eligible
    decide (votedShare ≥ requiredShare)

/-- The stake of a set of names, `set.iter().filter_map(|name| stakes.get(name)).sum()`. -/
def stakeSum (set : Finset ℕ) (stakes : StakeMap) : ℕ :=
  ((set.sort (· ≤ ·)).filterMap stakes.get).sum

/-- `eligible_stake`. -/
def eligibleStake (eligibility : ValidatorEligibility) (stakes : StakeMap) : ℕ :=
  match eligibility with
  | .allowlist set => stakeSum set stakes
  | .denylist set => totalVotingPower - stakeSum set stakes

/-- The voters of a pre-listed ruleset and their stake: the `filter_map` and
`fold` of `evaluate_deny_configs`. -/
def rulesetVotes (votes : VoteMap) (stakes : StakeMap) (ruleset : SharedDenyRuleset) : List ℕ × ℕ :=
  (votes.entries.filterMap fun v => (stakes.get v.1).bind fun stake =>
      if ruleset.threshold.eligibility.isEligible v.1 && v.2.isSupersetOf ruleset.rules then
        some (v.1, stake)
      else none).foldl
    (fun acc p => (acc.1 ++ [p.1], acc.2 + p.2)) ([], 0)

/-- The status of one pre-listed ruleset. -/
def prelistedStatus (votes : VoteMap) (stakes : StakeMap) (ruleset : SharedDenyRuleset) :
    PrelistedRulesetStatus :=
  let eligibleStake := eligibleStake ruleset.threshold.eligibility stakes
  let counted := rulesetVotes votes stakes ruleset
  { name := ruleset.name
    stakeThresholdPercent := ruleset.threshold.stakeThresholdPercent
    eligibleStake
    votedStake := counted.2
    active := meetsThreshold counted.2 eligibleStake ruleset.threshold.stakeThresholdPercent
    voters := counted.1 }

/-- `kind_to_bucket`: the map collected from each bucket's kinds, so that a
kind claimed twice goes to the later bucket. -/
def kindToBucket (buckets : List DefaultDenyBucket) (kind : DenyElementKind) : Option ℕ :=
  buckets.zipIdx.foldl
    (fun found p => if kind ∈ p.1.elementKinds then some p.2 else found) none

/-- Whether `name` is eligible for the bucket at `idx`. -/
def bucketEligible (buckets : List DefaultDenyBucket) (idx name : ℕ) : Bool :=
  match buckets[idx]? with
  | some bucket => bucket.threshold.eligibility.isEligible name
  | none => false

/-- `*element_stake.entry(element).or_default() += stake`. -/
def addStake (element : DenyElement) (stake : ℕ) :
    List (DenyElement × ℕ) → List (DenyElement × ℕ)
  | [] => [(element, stake)]
  | p :: rest => if p.1 = element then (p.1, p.2 + stake) :: rest else p :: addStake element stake rest

/-- The inner loop over one voter's elements: each element of a kind some
bucket claims, for which the voter is eligible, gets the voter's stake. -/
def tallyElements (buckets : List DefaultDenyBucket) (name stake : ℕ) :
    (ℕ → List (DenyElement × ℕ)) → List DenyElement → ℕ → List (DenyElement × ℕ)
  | tally, [] => tally
  | tally, element :: rest =>
    match kindToBucket buckets element.kind with
    | none => tallyElements buckets name stake tally rest
    | some bucketIdx =>
      if bucketEligible buckets bucketIdx name then
        tallyElements buckets name stake
          (Function.update tally bucketIdx (addStake element stake (tally bucketIdx))) rest
      else tallyElements buckets name stake tally rest

/-- One pass of the loop over the votes: a voter without stake is skipped. -/
def tallyVote (buckets : List DefaultDenyBucket) (stakes : StakeMap)
    (tally : ℕ → List (DenyElement × ℕ)) (v : ℕ × TransactionDenyRules) : ℕ → List (DenyElement × ℕ) :=
  match stakes.get v.1 with
  | none => tally
  | some stake => tallyElements buckets v.1 stake tally v.2.elements

/-- `per_bucket_element_stake`: the loop over the votes. -/
def tallyVotes (buckets : List DefaultDenyBucket) (votes : VoteMap) (stakes : StakeMap) :
    ℕ → List (DenyElement × ℕ) :=
  votes.entries.foldl (tallyVote buckets stakes) fun _ => []

/-- The status of one default bucket, from its tally. -/
def defaultStatus (stakes : StakeMap) (bucket : DefaultDenyBucket)
    (elementStake : List (DenyElement × ℕ)) : DefaultBucketStatus :=
  let eligibleStake := eligibleStake bucket.threshold.eligibility stakes
  { name := bucket.name
    elementKinds := bucket.elementKinds
    stakeThresholdPercent := bucket.threshold.stakeThresholdPercent
    eligibleStake
    appliedElements := (elementStake.filter fun p =>
      meetsThreshold p.2 eligibleStake bucket.threshold.stakeThresholdPercent).map Prod.fst }

/-- `evaluate_deny_configs`. -/
def evaluateDenyConfigs (localRules : TransactionDenyRules) (syncConfig : PeerDenySyncConfig)
    (votes : VoteMap) (stakes : StakeMap) : DenyConfigEvaluation :=
  let prelisted := syncConfig.rulesets.map (prelistedStatus votes stakes)
  let tally := tallyVotes syncConfig.defaultBuckets votes stakes
  let defaults := syncConfig.defaultBuckets.zipIdx.map fun p => defaultStatus stakes p.1 (tally p.2)
  let effectiveRules := (syncConfig.rulesets.zip prelisted).foldl
    (fun rules p => if p.2.active then rules.merge p.1.rules else rules) localRules
  let effectiveRules := defaults.foldl
    (fun rules default => default.appliedElements.foldl TransactionDenyRules.applyElement rules)
    effectiveRules
  { effectiveRules, prelisted, defaults }

/-! ### What the votes back -/

/-- The stake of the voters among `votes` whose name and rules satisfy `p`; a
name without stake holds none. -/
def backing (stakes : StakeMap) (votes : List (ℕ × TransactionDenyRules))
    (p : ℕ → TransactionDenyRules → Bool) : ℕ :=
  ((votes.filter fun v => p v.1 v.2).map fun v => (stakes.get v.1).getD 0).sum

section Backing

variable {stakes : StakeMap} {p : ℕ → TransactionDenyRules → Bool}

@[simp] theorem backing_nil : backing stakes [] p = 0 := rfl

theorem backing_cons (v : ℕ × TransactionDenyRules) (vs : List (ℕ × TransactionDenyRules)) :
    backing stakes (v :: vs) p = (if p v.1 v.2 then (stakes.get v.1).getD 0 else 0) + backing stakes vs p := by
  unfold backing
  cases hp : p v.1 v.2 <;> simp [hp]

theorem backing_append_singleton (vs : List (ℕ × TransactionDenyRules)) (v : ℕ × TransactionDenyRules) :
    backing stakes (vs ++ [v]) p = backing stakes vs p + if p v.1 v.2 then (stakes.get v.1).getD 0 else 0 := by
  unfold backing
  cases hp : p v.1 v.2 <;> simp [List.filter_append, hp]

/-- With no voter of stake satisfying `p`, nothing backs it. -/
theorem backing_eq_zero {vs : List (ℕ × TransactionDenyRules)}
    (h : ∀ v ∈ vs, (stakes.get v.1).isSome → p v.1 v.2 = false) : backing stakes vs p = 0 := by
  unfold backing
  refine List.sum_eq_zero fun x hx => ?_
  obtain ⟨v, hv, rfl⟩ := List.mem_map.mp hx
  obtain ⟨hv, hpv⟩ := List.mem_filter.mp hv
  cases hget : stakes.get v.1 with
  | none => rfl
  | some _ => simp [h v hv (by simp [hget])] at hpv

/-- Over distinct names, the backing is a sum over the names that satisfy `p`. -/
theorem backing_eq_sum {vs : List (ℕ × TransactionDenyRules)} (hnd : (vs.map Prod.fst).Nodup) :
    backing stakes vs p =
      ∑ n ∈ ((vs.filter fun v => p v.1 v.2).map Prod.fst).toFinset, (stakes.get n).getD 0 := by
  have hnd' : ((vs.filter fun v => p v.1 v.2).map Prod.fst).Nodup :=
    hnd.sublist (List.filter_sublist.map _)
  rw [List.sum_toFinset _ hnd', List.map_map]
  rfl

/-- No more than the whole stake backs anything. -/
theorem backing_le (votes : VoteMap) :
    backing stakes votes.entries p ≤ (stakes.entries.map Prod.snd).sum := by
  rw [backing_eq_sum (votes.sorted.map Prod.fst fun _ _ => ne_of_lt)]
  exact StakeMap.sum_get_le stakes _

/-- Backing grows with the votes: where each voter of `votes` satisfying `p`
votes again, with rules that still satisfy it. -/
theorem backing_mono {votes votes' : VoteMap}
    (h : ∀ v ∈ votes.entries, p v.1 v.2 = true → ∃ r', (v.1, r') ∈ votes'.entries ∧ p v.1 r' = true) :
    backing stakes votes.entries p ≤ backing stakes votes'.entries p := by
  rw [backing_eq_sum (votes.sorted.map Prod.fst fun _ _ => ne_of_lt),
    backing_eq_sum (votes'.sorted.map Prod.fst fun _ _ => ne_of_lt)]
  refine Finset.sum_le_sum_of_subset fun n hn => ?_
  simp only [List.mem_toFinset, List.mem_map, List.mem_filter] at hn ⊢
  obtain ⟨v, ⟨hv, hpv⟩, rfl⟩ := hn
  obtain ⟨r', hr', hpr'⟩ := h v hv hpv
  exact ⟨(v.1, r'), ⟨hr', hpr'⟩, rfl⟩

end Backing

/-- The stake of a set of names, as a sum over the set. -/
theorem stakeSum_eq (set : Finset ℕ) (stakes : StakeMap) :
    stakeSum set stakes = ∑ n ∈ set, (stakes.get n).getD 0 := by
  have hlist : ∀ l : List ℕ, l.Nodup → (l.filterMap stakes.get).sum = ∑ n ∈ l.toFinset, (stakes.get n).getD 0 := by
    intro l
    induction l with
    | nil => simp
    | cons a l ih =>
      intro hnd
      obtain ⟨ha, hnd⟩ := List.nodup_cons.mp hnd
      rw [List.toFinset_cons, Finset.sum_insert (by simpa using ha), ← ih hnd]
      cases hget : stakes.get a <;> simp [hget]
  rw [stakeSum, hlist _ (Finset.sort_nodup _ _), Finset.sort_toFinset]

/-- No set of names holds more than the whole stake: the subtraction of a
denylist's stake never underflows. -/
theorem stakeSum_le (set : Finset ℕ) (stakes : StakeMap) :
    stakeSum set stakes ≤ (stakes.entries.map Prod.snd).sum := by
  rw [stakeSum_eq]
  exact StakeMap.sum_get_le stakes set

theorem eligibleStake_le {stakes : StakeMap} (htotal : (stakes.entries.map Prod.snd).sum = totalVotingPower)
    (eligibility : ValidatorEligibility) : eligibleStake eligibility stakes ≤ totalVotingPower := by
  cases eligibility with
  | allowlist set => exact htotal ▸ stakeSum_le set stakes
  | denylist set => exact Nat.sub_le _ _

theorem meetsThreshold_iff {voted eligible : ℕ} {percent : UInt16} :
    meetsThreshold voted eligible percent = true ↔ 0 < eligible ∧ percent.toNat * eligible ≤ voted * 100 := by
  unfold meetsThreshold
  by_cases h : eligible = 0 <;> simp [h, Nat.pos_iff_ne_zero]

theorem meetsThreshold_mono {voted voted' eligible : ℕ} {percent : UInt16} (hle : voted ≤ voted')
    (h : meetsThreshold voted eligible percent = true) : meetsThreshold voted' eligible percent = true := by
  rw [meetsThreshold_iff] at h ⊢
  exact ⟨h.1, h.2.trans (Nat.mul_le_mul_right _ hle)⟩

/-- The voted stake of a pre-listed ruleset is the stake of the eligible voters
whose rules contain it. -/
theorem rulesetVotes_snd (votes : VoteMap) (stakes : StakeMap) (ruleset : SharedDenyRuleset) :
    (rulesetVotes votes stakes ruleset).2 = backing stakes votes.entries fun n r =>
      ruleset.threshold.eligibility.isEligible n && r.isSupersetOf ruleset.rules := by
  have hfold : ∀ (l : List (ℕ × ℕ)) (acc : List ℕ × ℕ),
      (l.foldl (fun acc p => (acc.1 ++ [p.1], acc.2 + p.2)) acc).2 = acc.2 + (l.map Prod.snd).sum := by
    intro l
    induction l with
    | nil => simp
    | cons p l ih =>
      intro acc
      simp only [List.foldl_cons, ih, List.map_cons, List.sum_cons]
      omega
  rw [rulesetVotes, hfold, Nat.zero_add]
  generalize votes.entries = vs
  induction vs with
  | nil => rfl
  | cons v vs ih =>
    rw [backing_cons, ← ih, List.filterMap_cons]
    cases hget : stakes.get v.1 with
    | none => simp
    | some stake =>
      cases (ruleset.threshold.eligibility.isEligible v.1 && v.2.isSupersetOf ruleset.rules) <;> simp

/-! ### The tally of the default buckets -/

/-- The stake a tally holds for an element. -/
def stakeOf (element : DenyElement) : List (DenyElement × ℕ) → Option ℕ
  | [] => none
  | p :: rest => if p.1 = element then some p.2 else stakeOf element rest

theorem stakeOf_addStake (x e : DenyElement) (s : ℕ) :
    ∀ m, stakeOf e (addStake x s m) = if e = x then some ((stakeOf x m).getD 0 + s) else stakeOf e m
  | [] => by by_cases h : e = x <;> simp [addStake, stakeOf, h, Ne.symm]
  | p :: rest => by
    by_cases hp : p.1 = x
    · -- the entry of `x` is updated in place
      by_cases he : e = x <;> simp [addStake, stakeOf, hp, he, Ne.symm]
    · simp only [addStake, hp, if_false, stakeOf]
      rw [stakeOf_addStake x e s rest]
      by_cases he : e = x
      · subst he
        simp [hp]
      · simp [he]

theorem map_fst_addStake (x : DenyElement) (s : ℕ) :
    ∀ m, (addStake x s m).map Prod.fst = if x ∈ m.map Prod.fst then m.map Prod.fst else m.map Prod.fst ++ [x]
  | [] => rfl
  | p :: rest => by
    by_cases hp : p.1 = x
    · simp [addStake, hp]
    · simp only [addStake, hp, if_false, List.map_cons, map_fst_addStake x s rest, List.mem_cons]
      by_cases hx : x ∈ rest.map Prod.fst <;> simp [hx, Ne.symm hp]

theorem nodup_addStake {x : DenyElement} {s : ℕ} {m : List (DenyElement × ℕ)}
    (h : (m.map Prod.fst).Nodup) : ((addStake x s m).map Prod.fst).Nodup := by
  rw [map_fst_addStake]
  split
  · exact h
  · rename_i hx
    exact h.append (List.nodup_singleton x) (by simpa using hx)

/-- In a tally of distinct elements, an entry is what `stakeOf` finds. -/
theorem mem_iff_stakeOf {e : DenyElement} {s : ℕ} :
    ∀ {m : List (DenyElement × ℕ)}, (m.map Prod.fst).Nodup → ((e, s) ∈ m ↔ stakeOf e m = some s)
  | [], _ => by simp [stakeOf]
  | p :: rest, hnd => by
    obtain ⟨hp, hnd⟩ := List.nodup_cons.mp hnd
    rw [List.mem_cons, mem_iff_stakeOf hnd, stakeOf]
    by_cases hpe : p.1 = e
    · -- the head is the entry of `e`, so the rest has none
      have hnone : stakeOf e rest = none := by
        subst hpe
        by_contra hsome
        obtain ⟨s', hs'⟩ := Option.ne_none_iff_exists'.mp hsome
        exact hp (List.mem_map.mpr ⟨(p.1, s'), (mem_iff_stakeOf hnd).mpr hs', rfl⟩)
      rw [if_pos hpe, hnone]
      obtain ⟨p₁, p₂⟩ := p
      dsimp only at hpe
      subst hpe
      simp [eq_comm]
    · rw [if_neg hpe]
      constructor
      · rintro (h | h)
        · exact absurd (congrArg Prod.fst h).symm hpe
        · exact h
      · exact .inr

/-- `kind_to_bucket` routes a kind to a bucket that claims it. -/
theorem kindToBucket_eq_some {buckets : List DefaultDenyBucket} {kind : DenyElementKind} {idx : ℕ}
    (h : kindToBucket buckets kind = some idx) :
    ∃ bucket, buckets[idx]? = some bucket ∧ kind ∈ bucket.elementKinds := by
  have hfold : ∀ (l : List (DefaultDenyBucket × ℕ)) (found : Option ℕ),
      l.foldl (fun found p => if kind ∈ p.1.elementKinds then some p.2 else found) found = some idx →
        found = some idx ∨ ∃ p ∈ l, p.2 = idx ∧ kind ∈ p.1.elementKinds := by
    intro l
    induction l with
    | nil => exact fun found h => .inl h
    | cons p l ih =>
      intro found h
      rcases ih _ h with hf | ⟨q, hq, hq'⟩
      · by_cases hk : kind ∈ p.1.elementKinds
        · simp only [hk, if_true, Option.some.injEq] at hf
          exact .inr ⟨p, List.mem_cons_self, hf, hk⟩
        · simp only [hk, if_false] at hf
          exact .inl hf
      · exact .inr ⟨q, List.mem_cons_of_mem _ hq, hq'⟩
  rcases hfold _ none h with h | ⟨p, hp, rfl, hk⟩
  · cases h
  · exact ⟨p.1, List.mem_zipIdx_iff_getElem?.mp hp, hk⟩

section Tally

variable (buckets : List DefaultDenyBucket) (stakes : StakeMap)

/-- The tally after the votes `vs`: each bucket's tally holds, for each element
of a kind routed to it that a voter of stake eligible for the bucket proposes,
the stake of the eligible voters proposing it. -/
structure TallySpec (vs : List (ℕ × TransactionDenyRules)) (tally : ℕ → List (DenyElement × ℕ)) :
    Prop where
  nodup : ∀ idx, ((tally idx).map Prod.fst).Nodup
  stakeOf_eq : ∀ idx e, stakeOf e (tally idx) =
    if kindToBucket buckets e.kind = some idx ∧
        ∃ v ∈ vs, (stakes.get v.1).isSome ∧ bucketEligible buckets idx v.1 = true ∧ e ∈ v.2.elements then
      some (backing stakes vs fun n r => bucketEligible buckets idx n && decide (e ∈ r.elements))
    else none

theorem tallySpec_nil : TallySpec buckets stakes [] fun _ => [] :=
  ⟨fun _ => List.nodup_nil, fun _ _ => by simp [stakeOf]⟩

variable {buckets} {stakes}

/-- The inner loop adds the voter's stake to each of its elements routed to a
bucket it is eligible for. -/
theorem stakeOf_tallyElements (name stake : ℕ) :
    ∀ (l : List DenyElement), l.Nodup → ∀ (tally : ℕ → List (DenyElement × ℕ)) (idx : ℕ) (e : DenyElement),
      stakeOf e (tallyElements buckets name stake tally l idx) =
        if e ∈ l ∧ kindToBucket buckets e.kind = some idx ∧ bucketEligible buckets idx name = true then
          some ((stakeOf e (tally idx)).getD 0 + stake)
        else stakeOf e (tally idx)
  | [], _, tally, idx, e => by simp [tallyElements]
  | x :: rest, hnd, tally, idx, e => by
    obtain ⟨hx, hnd⟩ := List.nodup_cons.mp hnd
    unfold tallyElements
    cases hk : kindToBucket buckets x.kind with
    | none =>
      rw [stakeOf_tallyElements name stake rest hnd]
      by_cases hex : e = x
      · subst hex
        simp [hx, hk]
      · simp [hex]
    | some j =>
      dsimp only
      by_cases hel : bucketEligible buckets j name = true
      · rw [if_pos hel, stakeOf_tallyElements name stake rest hnd]
        by_cases hex : e = x
        · -- the element itself: not met again in the rest
          subst hex
          by_cases hij : idx = j
          · subst hij
            simp [hx, hk, hel, stakeOf_addStake]
          · simp [hx, hk, hij, Ne.symm hij]
        · by_cases hij : idx = j
          · subst hij
            simp [hex, stakeOf_addStake]
          · simp [hex, hij]
      · rw [if_neg hel, stakeOf_tallyElements name stake rest hnd]
        by_cases hex : e = x
        · subst hex
          by_cases hij : idx = j
          · subst hij
            simp [hx, hk, hel]
          · simp [hx, hk, Ne.symm hij]
        · simp [hex]

theorem nodup_tallyElements (name stake : ℕ) :
    ∀ (l : List DenyElement) (tally : ℕ → List (DenyElement × ℕ)),
      (∀ idx, ((tally idx).map Prod.fst).Nodup) →
        ∀ idx, ((tallyElements buckets name stake tally l idx).map Prod.fst).Nodup
  | [], _, h => h
  | x :: rest, tally, h => by
    unfold tallyElements
    cases kindToBucket buckets x.kind with
    | none => exact nodup_tallyElements name stake rest tally h
    | some j =>
      dsimp only
      split
      · refine nodup_tallyElements name stake rest _ fun idx => ?_
        by_cases hij : idx = j
        · subst hij
          simpa using nodup_addStake (h idx)
        · simpa [hij] using h idx
      · exact nodup_tallyElements name stake rest tally h

theorem exists_mem_append_singleton {α : Type} {P : α → Prop} {vs : List α} {v : α} :
    (∃ w ∈ vs ++ [v], P w) ↔ (∃ w ∈ vs, P w) ∨ P v := by
  simp [or_and_right, exists_or]

/-- The step lemma of the tally: one more vote. -/
theorem TallySpec.step {vs : List (ℕ × TransactionDenyRules)} {tally : ℕ → List (DenyElement × ℕ)}
    (h : TallySpec buckets stakes vs tally) (v : ℕ × TransactionDenyRules) :
    TallySpec buckets stakes (vs ++ [v]) (tallyVote buckets stakes tally v) := by
  unfold tallyVote
  cases hget : stakes.get v.1 with
  | none =>
    -- a voter without stake counts for nothing
    refine ⟨h.nodup, fun idx e => ?_⟩
    rw [h.stakeOf_eq, backing_append_singleton]
    simp only [exists_mem_append_singleton, hget, Option.isSome_none, Bool.false_eq_true, false_and,
      or_false, Option.getD_none, ite_self, Nat.add_zero]
  | some stake =>
    refine ⟨nodup_tallyElements v.1 stake _ _ h.nodup, fun idx e => ?_⟩
    rw [stakeOf_tallyElements _ _ _ v.2.nodup_elements, h.stakeOf_eq, backing_append_singleton]
    simp only [exists_mem_append_singleton]
    by_cases hA : kindToBucket buckets e.kind = some idx
    · by_cases hD : bucketEligible buckets idx v.1 = true ∧ e ∈ v.2.elements
      · obtain ⟨hel, he⟩ := hD
        by_cases hB : ∃ w ∈ vs, (stakes.get w.1).isSome ∧ bucketEligible buckets idx w.1 = true ∧
            e ∈ w.2.elements
        · simp [he, hA, hel, hB, hget]
        · -- the first voter of stake for this element
          have hzero : backing stakes vs
              (fun n r => bucketEligible buckets idx n && decide (e ∈ r.elements)) = 0 :=
            backing_eq_zero (by
              intro w hw hsome
              by_contra hcon
              simp only [Bool.not_eq_false, Bool.and_eq_true, decide_eq_true_eq] at hcon
              exact hB ⟨w, hw, hsome, hcon⟩)
          simp [he, hA, hel, hB, hget, hzero]
      · -- the voter does not count for this element
        have hC : ¬(e ∈ v.2.elements ∧ kindToBucket buckets e.kind = some idx ∧
            bucketEligible buckets idx v.1 = true) := fun h => hD ⟨h.2.2, h.1⟩
        have hv : ¬((stakes.get v.1).isSome = true ∧ bucketEligible buckets idx v.1 = true ∧
            e ∈ v.2.elements) := fun h => hD h.2
        have hz : (bucketEligible buckets idx v.1 && decide (e ∈ v.2.elements)) = false := by
          simpa using hD
        simp only [hC, hv, hz, if_false, or_false, Bool.false_eq_true, Nat.add_zero]
    · simp [hA]

/-- The run lemma of the tally: over all the votes. -/
theorem tallySpec_tallyVotes (votes : VoteMap) :
    TallySpec buckets stakes votes.entries (tallyVotes buckets votes stakes) := by
  -- the fold from any prefix of the votes, by induction over the rest
  have hrun : ∀ (ws vs : List (ℕ × TransactionDenyRules)) (tally : ℕ → List (DenyElement × ℕ)),
      TallySpec buckets stakes vs tally →
        TallySpec buckets stakes (vs ++ ws) (ws.foldl (tallyVote buckets stakes) tally) := by
    intro ws
    induction ws with
    | nil => simp
    | cons w ws ih =>
      intro vs tally h
      rw [List.foldl_cons, show vs ++ w :: ws = vs ++ [w] ++ ws by simp]
      exact ih _ _ (h.step w)
  unfold tallyVotes
  simpa using hrun votes.entries [] _ (tallySpec_nil buckets stakes)

end Tally

/-- A bucket applies the elements whose tally meets its threshold. -/
theorem mem_appliedElements {stakes : StakeMap} {bucket : DefaultDenyBucket}
    {tally : List (DenyElement × ℕ)} (hnd : (tally.map Prod.fst).Nodup) {e : DenyElement} :
    e ∈ (defaultStatus stakes bucket tally).appliedElements ↔ ∃ s, stakeOf e tally = some s ∧
      meetsThreshold s (eligibleStake bucket.threshold.eligibility stakes)
        bucket.threshold.stakeThresholdPercent = true := by
  simp only [defaultStatus, List.mem_map, List.mem_filter]
  constructor
  · rintro ⟨⟨e', s⟩, ⟨hmem, hmeet⟩, rfl⟩
    exact ⟨s, (mem_iff_stakeOf hnd).mp hmem, hmeet⟩
  · rintro ⟨s, hs, hmeet⟩
    exact ⟨(e, s), ⟨(mem_iff_stakeOf hnd).mpr hs, hmeet⟩, rfl⟩

/-! ### The effective rules -/

section Effective

variable {e : DenyElement}

theorem mem_elements_foldl_merge :
    ∀ (l : List (SharedDenyRuleset × PrelistedRulesetStatus)) (rules : TransactionDenyRules),
      e ∈ (l.foldl (fun rules p => if p.2.active then rules.merge p.1.rules else rules) rules).elements ↔
        e ∈ rules.elements ∨ ∃ p ∈ l, p.2.active = true ∧ e ∈ p.1.rules.elements
  | [], rules => by simp
  | p :: l, rules => by
    rw [List.foldl_cons, mem_elements_foldl_merge l]
    by_cases hp : p.2.active = true
    · simp [hp, or_and_right, exists_or, or_assoc]
    · simp [hp]

theorem mem_elements_foldl_applyElement :
    ∀ (l : List DenyElement) (rules : TransactionDenyRules),
      e ∈ (l.foldl TransactionDenyRules.applyElement rules).elements ↔ e ∈ l ∨ e ∈ rules.elements
  | [], rules => by simp
  | x :: l, rules => by
    rw [List.foldl_cons, mem_elements_foldl_applyElement l, TransactionDenyRules.mem_elements_applyElement,
      List.mem_cons, or_assoc, or_left_comm]

theorem mem_elements_foldl_defaults :
    ∀ (ds : List DefaultBucketStatus) (rules : TransactionDenyRules),
      e ∈ (ds.foldl (fun rules d => d.appliedElements.foldl TransactionDenyRules.applyElement rules)
        rules).elements ↔ e ∈ rules.elements ∨ ∃ d ∈ ds, e ∈ d.appliedElements
  | [], rules => by simp
  | d :: ds, rules => by
    rw [List.foldl_cons, mem_elements_foldl_defaults ds, mem_elements_foldl_applyElement]
    simp [or_and_right, exists_or, or_assoc, or_left_comm]

/-- What the effective rules hold: the local rules, the rules of the active
pre-listed rulesets and the elements the buckets apply. -/
theorem mem_elements_effectiveRules {localRules : TransactionDenyRules} {syncConfig : PeerDenySyncConfig}
    {votes : VoteMap} {stakes : StakeMap} :
    e ∈ (evaluateDenyConfigs localRules syncConfig votes stakes).effectiveRules.elements ↔
      e ∈ localRules.elements ∨
        (∃ ruleset ∈ syncConfig.rulesets,
          (prelistedStatus votes stakes ruleset).active = true ∧ e ∈ ruleset.rules.elements) ∨
        ∃ p ∈ syncConfig.defaultBuckets.zipIdx,
          e ∈ (defaultStatus stakes p.1 (tallyVotes syncConfig.defaultBuckets votes stakes p.2)).appliedElements := by
  simp only [evaluateDenyConfigs]
  rw [mem_elements_foldl_defaults, mem_elements_foldl_merge, ← List.map_prod_left_eq_zip]
  simp [or_assoc]

end Effective

/-! ### Soundness and monotonicity -/

section Evaluation

variable {localRules : TransactionDenyRules} {syncConfig : PeerDenySyncConfig} {votes : VoteMap}
  {stakes : StakeMap}

theorem TransactionDenyRules.isSupersetOf_trans {a b c : TransactionDenyRules}
    (hab : a.isSupersetOf b = true) (hbc : b.isSupersetOf c = true) : a.isSupersetOf c = true :=
  TransactionDenyRules.isSupersetOf_iff.mpr fun e he =>
    TransactionDenyRules.isSupersetOf_iff.mp hab e (TransactionDenyRules.isSupersetOf_iff.mp hbc e he)

/-- A pre-listed ruleset is active exactly when its backers hold its share of
the eligible stake. -/
theorem active_prelistedStatus_iff {ruleset : SharedDenyRuleset} :
    (prelistedStatus votes stakes ruleset).active = true ↔
      0 < eligibleStake ruleset.threshold.eligibility stakes ∧
        ruleset.threshold.stakeThresholdPercent.toNat * eligibleStake ruleset.threshold.eligibility stakes ≤
          backing stakes votes.entries (fun n r =>
            ruleset.threshold.eligibility.isEligible n && r.isSupersetOf ruleset.rules) * 100 := by
  simp only [prelistedStatus]
  rw [meetsThreshold_iff, rulesetVotes_snd]

/-- The bucket at `idx` checks eligibility by its own threshold. -/
theorem bucketEligible_of_getElem? {buckets : List DefaultDenyBucket} {idx : ℕ} {bucket : DefaultDenyBucket}
    (h : buckets[idx]? = some bucket) (name : ℕ) :
    bucketEligible buckets idx name = bucket.threshold.eligibility.isEligible name := by
  simp [bucketEligible, h]

/-- An element a bucket applies is of a kind the bucket claims, and its eligible
backers hold the bucket's share of the eligible stake. -/
theorem applied_backed {p : DefaultDenyBucket × ℕ} (hp : p ∈ syncConfig.defaultBuckets.zipIdx)
    {e : DenyElement}
    (happ : e ∈ (defaultStatus stakes p.1 (tallyVotes syncConfig.defaultBuckets votes stakes p.2)).appliedElements) :
    e.kind ∈ p.1.elementKinds ∧ 0 < eligibleStake p.1.threshold.eligibility stakes ∧
      p.1.threshold.stakeThresholdPercent.toNat * eligibleStake p.1.threshold.eligibility stakes ≤
        backing stakes votes.entries (fun n r =>
          p.1.threshold.eligibility.isEligible n && decide (e ∈ r.elements)) * 100 := by
  have hspec : TallySpec syncConfig.defaultBuckets stakes votes.entries
      (tallyVotes syncConfig.defaultBuckets votes stakes) := tallySpec_tallyVotes votes
  have hget := List.mem_zipIdx_iff_getElem?.mp hp
  obtain ⟨s, hs, hmeet⟩ := (mem_appliedElements (hspec.nodup p.2)).mp happ
  have hstake := hspec.stakeOf_eq p.2 e
  rw [hs] at hstake
  -- an element with an entry is routed to this bucket
  split_ifs at hstake with hcond
  obtain ⟨bucket, hbucket, hkind⟩ := kindToBucket_eq_some hcond.1
  rw [hget, Option.some.injEq] at hbucket
  subst hbucket
  simp only [bucketEligible_of_getElem? hget, Option.some.injEq] at hstake
  subst hstake
  exact ⟨hkind, meetsThreshold_iff.mp hmeet⟩

/-- Soundness: what the effective rules add to the local rules is backed by the
required share of the eligible stake, through a pre-listed ruleset containing it
or a bucket claiming its kind. -/
theorem effectiveRules_backed {e : DenyElement}
    (he : e ∈ (evaluateDenyConfigs localRules syncConfig votes stakes).effectiveRules.elements)
    (hloc : e ∉ localRules.elements) :
    (∃ ruleset ∈ syncConfig.rulesets, e ∈ ruleset.rules.elements ∧
      0 < eligibleStake ruleset.threshold.eligibility stakes ∧
      ruleset.threshold.stakeThresholdPercent.toNat * eligibleStake ruleset.threshold.eligibility stakes ≤
        backing stakes votes.entries (fun n r =>
          ruleset.threshold.eligibility.isEligible n && r.isSupersetOf ruleset.rules) * 100) ∨
    (∃ bucket ∈ syncConfig.defaultBuckets, e.kind ∈ bucket.elementKinds ∧
      0 < eligibleStake bucket.threshold.eligibility stakes ∧
      bucket.threshold.stakeThresholdPercent.toNat * eligibleStake bucket.threshold.eligibility stakes ≤
        backing stakes votes.entries (fun n r =>
          bucket.threshold.eligibility.isEligible n && decide (e ∈ r.elements)) * 100) := by
  rcases mem_elements_effectiveRules.mp he with h | ⟨ruleset, hrs, hact, hmem⟩ | ⟨p, hp, happ⟩
  · exact absurd h hloc
  · exact .inl ⟨ruleset, hrs, hmem, active_prelistedStatus_iff.mp hact⟩
  · exact .inr ⟨p.1, List.mem_of_getElem? (List.mem_zipIdx_iff_getElem?.mp hp), applied_backed hp happ⟩

/-- Nothing activates on zero eligible stake. -/
theorem inactive_of_eligibleStake_zero :
    (∀ status ∈ (evaluateDenyConfigs localRules syncConfig votes stakes).prelisted,
      status.eligibleStake = 0 → status.active = false) ∧
    (∀ status ∈ (evaluateDenyConfigs localRules syncConfig votes stakes).defaults,
      status.eligibleStake = 0 → status.appliedElements = []) := by
  constructor
  · intro status hst hzero
    obtain ⟨ruleset, -, rfl⟩ := List.mem_map.mp hst
    simp only [prelistedStatus] at hzero ⊢
    simp [meetsThreshold, hzero]
  · intro status hst hzero
    obtain ⟨p, -, rfl⟩ := List.mem_map.mp hst
    simp only [defaultStatus] at hzero ⊢
    simp [meetsThreshold, hzero]

/-- Monotonicity: where every vote is cast again with a superset of its rules,
the effective rules only grow. -/
theorem effectiveRules_mono {votes' : VoteMap}
    (hdom : ∀ v ∈ votes.entries, ∃ r', (v.1, r') ∈ votes'.entries ∧ r'.isSupersetOf v.2 = true) :
    (evaluateDenyConfigs localRules syncConfig votes' stakes).effectiveRules.isSupersetOf
      (evaluateDenyConfigs localRules syncConfig votes stakes).effectiveRules = true := by
  refine TransactionDenyRules.isSupersetOf_iff.mpr fun e he => ?_
  rcases mem_elements_effectiveRules.mp he with h | ⟨ruleset, hrs, hact, hmem⟩ | ⟨p, hp, happ⟩
  · exact mem_elements_effectiveRules.mpr (.inl h)
  · -- a ruleset's backers vote again with rules that still contain it
    obtain ⟨hpos, hle⟩ := active_prelistedStatus_iff.mp hact
    have hmono : backing stakes votes.entries (fun n r =>
          ruleset.threshold.eligibility.isEligible n && r.isSupersetOf ruleset.rules) ≤
        backing stakes votes'.entries (fun n r =>
          ruleset.threshold.eligibility.isEligible n && r.isSupersetOf ruleset.rules) :=
      backing_mono (by
        intro v hv hpv
        obtain ⟨r', hr', hsup⟩ := hdom v hv
        simp only [Bool.and_eq_true] at hpv ⊢
        exact ⟨r', hr', hpv.1, TransactionDenyRules.isSupersetOf_trans hsup hpv.2⟩)
    refine mem_elements_effectiveRules.mpr (.inr (.inl ⟨ruleset, hrs, ?_, hmem⟩))
    exact active_prelistedStatus_iff.mpr ⟨hpos, hle.trans (Nat.mul_le_mul_right _ hmono)⟩
  · -- an applied element's backers propose it again
    have hspec : TallySpec syncConfig.defaultBuckets stakes votes.entries
        (tallyVotes syncConfig.defaultBuckets votes stakes) := tallySpec_tallyVotes votes
    have hspec' : TallySpec syncConfig.defaultBuckets stakes votes'.entries
        (tallyVotes syncConfig.defaultBuckets votes' stakes) := tallySpec_tallyVotes votes'
    obtain ⟨s, hs, hmeet⟩ := (mem_appliedElements (hspec.nodup p.2)).mp happ
    have hstake := hspec.stakeOf_eq p.2 e
    rw [hs] at hstake
    split_ifs at hstake with hcond
    -- an element with an entry is routed to this bucket
    obtain ⟨hk, v, hv, hsome, hel, hev⟩ := hcond
    obtain ⟨r', hr', hsup⟩ := hdom v hv
    have hcond' : kindToBucket syncConfig.defaultBuckets e.kind = some p.2 ∧
        ∃ w ∈ votes'.entries, (stakes.get w.1).isSome ∧
          bucketEligible syncConfig.defaultBuckets p.2 w.1 = true ∧ e ∈ w.2.elements :=
      ⟨hk, (v.1, r'), hr', hsome, hel, TransactionDenyRules.isSupersetOf_iff.mp hsup e hev⟩
    have hmono : backing stakes votes.entries (fun n r =>
          bucketEligible syncConfig.defaultBuckets p.2 n && decide (e ∈ r.elements)) ≤
        backing stakes votes'.entries (fun n r =>
          bucketEligible syncConfig.defaultBuckets p.2 n && decide (e ∈ r.elements)) :=
      backing_mono (by
        intro w hw hpw
        obtain ⟨r'', hr'', hsup'⟩ := hdom w hw
        simp only [Bool.and_eq_true, decide_eq_true_eq] at hpw ⊢
        exact ⟨r'', hr'', hpw.1, TransactionDenyRules.isSupersetOf_iff.mp hsup' e hpw.2⟩)
    simp only [Option.some.injEq] at hstake
    subst hstake
    refine mem_elements_effectiveRules.mpr (.inr (.inr ⟨p, hp, ?_⟩))
    refine (mem_appliedElements (hspec'.nodup p.2)).mpr ⟨_, ?_, meetsThreshold_mono hmono hmeet⟩
    rw [hspec'.stakeOf_eq p.2 e, if_pos hcond']

end Evaluation

/-- Peer deny-config voting over every stake map summing to
`TOTAL_VOTING_POWER`, every sync configuration, local rules and votes: the
effective rules contain the local rules; what else they hold is backed by the
required share of the eligible stake, through a pre-listed ruleset containing
it or a bucket claiming its kind; nothing activates on zero eligible stake; the
stake of any set of names is at most the total, so `eligible_stake` does not
underflow, and both sides of `meets_threshold` stay below `2 ^ 64`; and votes
cast again with larger rules never take a rule away. -/
theorem denyConfigVoting_sound_and_monotone (localRules : TransactionDenyRules)
    (syncConfig : PeerDenySyncConfig) (votes : VoteMap) (stakes : StakeMap)
    (htotal : (stakes.entries.map Prod.snd).sum = totalVotingPower) :
    let evaluation := evaluateDenyConfigs localRules syncConfig votes stakes
    evaluation.effectiveRules.isSupersetOf localRules = true ∧
    (∀ e ∈ evaluation.effectiveRules.elements, e ∉ localRules.elements →
      (∃ ruleset ∈ syncConfig.rulesets, e ∈ ruleset.rules.elements ∧
        0 < eligibleStake ruleset.threshold.eligibility stakes ∧
        ruleset.threshold.stakeThresholdPercent.toNat * eligibleStake ruleset.threshold.eligibility stakes ≤
          backing stakes votes.entries (fun n r =>
            ruleset.threshold.eligibility.isEligible n && r.isSupersetOf ruleset.rules) * 100) ∨
      (∃ bucket ∈ syncConfig.defaultBuckets, e.kind ∈ bucket.elementKinds ∧
        0 < eligibleStake bucket.threshold.eligibility stakes ∧
        bucket.threshold.stakeThresholdPercent.toNat * eligibleStake bucket.threshold.eligibility stakes ≤
          backing stakes votes.entries (fun n r =>
            bucket.threshold.eligibility.isEligible n && decide (e ∈ r.elements)) * 100)) ∧
    (∀ status ∈ evaluation.prelisted, status.eligibleStake = 0 → status.active = false) ∧
    (∀ status ∈ evaluation.defaults, status.eligibleStake = 0 → status.appliedElements = []) ∧
    (∀ set : Finset ℕ, stakeSum set stakes ≤ totalVotingPower) ∧
    (∀ p : ℕ → TransactionDenyRules → Bool, backing stakes votes.entries p * 100 < 2 ^ 64) ∧
    (∀ (percent : UInt16) (eligibility : ValidatorEligibility),
      percent.toNat * eligibleStake eligibility stakes < 2 ^ 64) ∧
    ∀ votes' : VoteMap,
      (∀ v ∈ votes.entries, ∃ r', (v.1, r') ∈ votes'.entries ∧ r'.isSupersetOf v.2 = true) →
        (evaluateDenyConfigs localRules syncConfig votes' stakes).effectiveRules.isSupersetOf
          evaluation.effectiveRules = true := by
  intro evaluation
  have hle : ∀ p, backing stakes votes.entries p ≤ totalVotingPower := fun p =>
    htotal ▸ backing_le votes
  refine ⟨TransactionDenyRules.isSupersetOf_iff.mpr fun e he => mem_elements_effectiveRules.mpr (.inl he),
    fun e he hloc => effectiveRules_backed he hloc, inactive_of_eligibleStake_zero.1,
    inactive_of_eligibleStake_zero.2, fun set => htotal ▸ stakeSum_le set stakes, fun p => ?_,
    fun percent eligibility => ?_, fun votes' hdom => effectiveRules_mono hdom⟩
  · have := hle p
    unfold totalVotingPower at this
    omega
  · -- a `u16` percent of at most the whole stake
    have hpercent : percent.toNat ≤ 2 ^ 16 - 1 := by
      have := percent.toNat_lt
      omega
    have heligible := eligibleStake_le htotal eligibility
    unfold totalVotingPower at heligible
    calc percent.toNat * eligibleStake eligibility stakes ≤ (2 ^ 16 - 1) * 10000 :=
          Nat.mul_le_mul hpercent heligible
      _ < 2 ^ 64 := by omega

/-- One authority with the whole stake and no rules: the denylisted stake of
that authority is within the total. -/
theorem denyConfigVoting_one_authority :
    let stakes : StakeMap := ⟨[(1, 10000)], List.pairwise_singleton _ _⟩
    (stakes.entries.map Prod.snd).sum = totalVotingPower ∧ stakeSum {1} stakes ≤ totalVotingPower := by
  intro stakes
  have htotal : (stakes.entries.map Prod.snd).sum = totalVotingPower := rfl
  let noRules : TransactionDenyRules := ⟨∅, ∅, ∅, false, false, false, false, false, false, false, ∅⟩
  exact ⟨htotal, (denyConfigVoting_sound_and_monotone noRules ⟨[], []⟩ ⟨[], .nil⟩ stakes
    htotal).2.2.2.2.1 {1}⟩

end Sui.TransactionDeny
