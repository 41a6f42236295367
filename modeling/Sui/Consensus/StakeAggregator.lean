import Sui.Consensus.Committee

/-!
# ℕ aggregation (`stake_aggregator.rs`)

A `StakeAggregator` collects votes from authorities, counting each authority
once, and compares the accumulated stake with one of the committee's
thresholds, chosen by a type parameter in the source (`QuorumThreshold`,
`CertificationThreshold`, `ValidityThreshold`) and by `CommitteeThreshold`
here.

`add` and `add_unique` share their effect — insert the authority and, if it
is new, add its stake — and differ only in what they report; both are built on
`insertVote`. The representation invariant `Counts` says the running stake is
the committee weight of the vote set; every operation keeps it, so an
aggregator's verdict is a statement about a *set* of authorities, which is
what the quorum arguments of the commit rules consume.
-/

namespace Sui

/-- The thresholds an aggregator can be instantiated with. -/
inductive CommitteeThreshold
  /-- `QuorumThreshold` -/
  | quorumThreshold
  /-- `CertificationThreshold` -/
  | certificationThreshold
  /-- `ValidityThreshold` -/
  | validityThreshold
  deriving DecidableEq, Repr

namespace CommitteeThreshold

/-- `CommitteeThreshold::threshold`. -/
def threshold : CommitteeThreshold → Committee → ℕ
  | quorumThreshold, c => c.quorumThreshold
  | certificationThreshold, c => c.certificationThreshold
  | validityThreshold, c => c.validityThreshold

/-- `CommitteeThreshold::is_threshold`. -/
def isThreshold : CommitteeThreshold → Committee → ℕ → Bool
  | quorumThreshold, c, amount => c.reachedQuorum amount
  | certificationThreshold, c, amount => decide (amount ≥ c.certificationThreshold)
  | validityThreshold, c, amount => c.reachedValidity amount

/-- Every threshold is a lower bound on the stake. -/
@[simp] theorem isThreshold_iff {T : CommitteeThreshold} {c : Committee} {amount : ℕ} :
    T.isThreshold c amount = true ↔ T.threshold c ≤ amount := by
  cases T <;> simp [isThreshold, threshold, Committee.reachedQuorum, Committee.reachedValidity]

end CommitteeThreshold

/-- `StakeAggregator<T>`: the authorities that voted and their total stake. -/
structure StakeAggregator (T : CommitteeThreshold) where
  /-- the authorities counted so far -/
  votes : Finset ℕ
  /-- their accumulated stake -/
  stake : ℕ
  deriving DecidableEq

namespace StakeAggregator

variable {T : CommitteeThreshold}

/-- `StakeAggregator::new`. -/
def new : StakeAggregator T := ⟨∅, 0⟩

/-- The effect shared by `add` and `add_unique`: insert the voter, adding its
stake if it was not counted yet. -/
def insertVote (a : StakeAggregator T) (vote : ℕ) (committee : Committee) :
    StakeAggregator T :=
  if vote ∈ a.votes then a else ⟨insert vote a.votes, a.stake + committee.stake vote⟩

/-- `StakeAggregator::add`: count the vote, report whether the threshold is
reached. -/
def add (a : StakeAggregator T) (vote : ℕ) (committee : Committee) :
    StakeAggregator T × Bool :=
  let a' := a.insertVote vote committee
  (a', T.isThreshold committee a'.stake)

/-- `StakeAggregator::add_unique`: count the vote, report whether it was new. -/
def addUnique (a : StakeAggregator T) (vote : ℕ) (committee : Committee) :
    StakeAggregator T × Bool :=
  (a.insertVote vote committee, decide (vote ∉ a.votes))

/-- `StakeAggregator::reached_threshold`. -/
def reachedThreshold (a : StakeAggregator T) (committee : Committee) : Bool :=
  T.isThreshold committee a.stake

/-- Add voters one by one and report `true` as soon as the threshold is
reached: the loop the commit rules run over blames and certificates. -/
def addUntilThreshold (a : StakeAggregator T) (committee : Committee) : List ℕ → Bool
  | [] => false
  | vote :: votes =>
    if (a.add vote committee).2 then true
    else (a.add vote committee).1.addUntilThreshold committee votes

/-- `StakeAggregator::clear`. -/
def clear (_ : StakeAggregator T) : StakeAggregator T := ⟨∅, 0⟩

/-! ## The representation invariant -/

/-- The running stake is the committee weight of the counted authorities. -/
def Counts (committee : Committee) (a : StakeAggregator T) : Prop :=
  a.stake = committee.weight a.votes

variable {a : StakeAggregator T} {c : Committee} {v : ℕ}

@[simp] theorem new_votes : (new : StakeAggregator T).votes = ∅ := rfl

@[simp] theorem new_stake : (new : StakeAggregator T).stake = 0 := rfl

@[simp] theorem clear_votes : (a.clear).votes = ∅ := rfl

@[simp] theorem clear_stake : (a.clear).stake = 0 := rfl

@[simp] theorem insertVote_votes : (a.insertVote v c).votes = insert v a.votes := by
  unfold insertVote
  split <;> simp_all

/-- Counting a voter twice counts it once. -/
@[simp] theorem insertVote_insertVote : (a.insertVote v c).insertVote v c = a.insertVote v c := by
  unfold insertVote
  split
  · rfl
  · simp

@[simp] theorem add_fst : (a.add v c).1 = a.insertVote v c := rfl

@[simp] theorem addUnique_fst : (a.addUnique v c).1 = a.insertVote v c := rfl

@[simp] theorem addUnique_snd : (a.addUnique v c).2 = decide (v ∉ a.votes) := rfl

theorem counts_new : Counts c (new : StakeAggregator T) := rfl

theorem counts_clear (a : StakeAggregator T) : Counts c a.clear := rfl

theorem Counts.insertVote (h : Counts c a) : Counts c (a.insertVote v c) := by
  unfold StakeAggregator.insertVote Counts
  split
  · exact h
  · rename_i hv
    show a.stake + c.stake v = c.weight (insert v a.votes)
    rw [Committee.weight, Quorum.weight_insert hv, h, Committee.weight, Nat.add_comm]

/-- Under the invariant, the stake after inserting `v` is the weight of the
enlarged set. -/
theorem Counts.insertVote_stake (h : Counts c a) :
    (a.insertVote v c).stake = c.weight (insert v a.votes) := by
  rw [h.insertVote, insertVote_votes]

/-- What `add` reports, as a statement about the set of voters. -/
theorem Counts.add_snd (h : Counts c a) :
    (a.add v c).2 = true ↔ T.threshold c ≤ c.weight (insert v a.votes) := by
  rw [add, CommitteeThreshold.isThreshold_iff, h.insertVote_stake]

/-- What `reached_threshold` reports, as a statement about the set of voters. -/
theorem Counts.reachedThreshold (h : Counts c a) :
    a.reachedThreshold c = true ↔ T.threshold c ≤ c.weight a.votes := by
  rw [StakeAggregator.reachedThreshold, CommitteeThreshold.isThreshold_iff, h]

/-- **Stopping early loses nothing**: from an aggregator below the
threshold, the loop reports `true` exactly when all the voters together, with
those already counted, reach it, because the counted weight only grows. -/
theorem Counts.addUntilThreshold_iff (h : Counts c a) (hbelow : c.weight a.votes < T.threshold c)
    (votes : List ℕ) :
    a.addUntilThreshold c votes = true ↔ T.threshold c ≤ c.weight (a.votes ∪ votes.toFinset) := by
  induction votes generalizing a with
  | nil => simpa [addUntilThreshold] using hbelow
  | cons v vs ih =>
    have hset : a.votes ∪ (v :: vs).toFinset = insert v a.votes ∪ vs.toFinset := by
      ext x
      simp
    rw [addUntilThreshold, hset]
    by_cases hreached : (a.add v c).2 = true
    · rw [if_pos hreached]
      refine iff_of_true rfl (le_trans (h.add_snd.mp hreached) ?_)
      exact Quorum.weight_mono Finset.subset_union_left
    · have hbelow' : c.weight (insert v a.votes) < T.threshold c := by
        rw [h.add_snd] at hreached
        omega
      rw [if_neg hreached, add_fst, ih h.insertVote (by rwa [insertVote_votes]),
        insertVote_votes]

/-- The loop from a fresh aggregator reports whether the voters reach the
threshold. -/
theorem addUntilThreshold_new_iff (hpos : 0 < T.threshold c) (votes : List ℕ) :
    (new : StakeAggregator T).addUntilThreshold c votes = true ↔
      T.threshold c ≤ c.weight votes.toFinset := by
  rw [counts_new.addUntilThreshold_iff (by simpa [Committee.weight] using hpos), new_votes,
    Finset.empty_union]

end StakeAggregator

end Sui
