import Sui.GreedyBudget
import Sui.SortedMap
import Sui.OptionList
import Sui.ProRata
import Sui.Consensus.Context

/-!
# Leader swap table and allowed leaders

Both leader schedules rank the authorities by reputation score and cut the
ranking by stake. The swap table (`LeaderSwapTable::new_inner`) takes the best
authorities from the front of the ranking and the worst from its back, each
walk stopping before its stake passes `t%` of the total; a leader among the
worst is then swapped for a good node (`LeaderSwapTable::swap`). The v3
schedule (`select_allowed_leaders_with_fixed_config`) pops the worst
authorities off the back of the ranking while their stake fits the cutoff and
allows the rest.

The ranking is the RNG's shuffle followed by a stable sort by descending
score. The shuffle is a parameter of the model, of which only that it permutes
its input is used; the stable sort is `List.insertionSort`. Both cut-offs are
walks of `GreedyBudget.span` over the ranking (`retrieveFirstNodesLoop_eq`,
`popExcludedLoop_eq`), and everything below follows from that library:

* **`newInner_spec`** — the good and bad nodes are disjoint, each within the
  stake cutoff, and no bad node scores above a good one: for `t ≤ 33` twice the
  cutoff is below the total stake (`two_mul_stakeCutoff_lt`), so the walks from
  the two ends do not meet;
* **`goodNodes_ne_nil`** — there is a good node when the best-ranked
  authority's stake fits the cutoff, in particular when every stake does; a
  single authority above it leaves the good nodes empty while the bad nodes
  are not, and `swap` of a bad leader then panics;
* **`selectAllowedLeadersWithFixedConfig_spec`** — the allowed leaders are
  distinct, and with the excluded ones they are the scored authorities; the
  excluded stake fits the cutoff and no excluded authority scores above an
  allowed one.

**Proof shape.** The scored authorities are the index–score pairs, whose
indices are `0, …, n - 1` (`keys_scored`); the ranking is a permutation of
them ordered by `ScoreGe` (`rankByScore_perm`, `pairwise_rankByScore`), so its
indices are distinct and its stakes add up to the committee's
(`sum_rankedStake`). Each property of a cut is then a property of
`GreedyBudget.span` read through the list split it gives.
-/

namespace Sui

/-- The order of the ranking: a stable sort by the key `Reverse(score)` puts
higher scores first. -/
def ScoreGe (a b : ℕ × ℕ) : Prop := b.2 ≤ a.2

instance : DecidableRel ScoreGe := fun a b => inferInstanceAs (Decidable (b.2 ≤ a.2))

instance : Std.Total ScoreGe := ⟨fun a b => Nat.le_total b.2 a.2⟩

instance : IsTrans (ℕ × ℕ) ScoreGe := ⟨fun _ _ _ hab hbc => Nat.le_trans hbc hab⟩

namespace ReputationScores

/-- `ReputationScores::authorities_by_score`: each authority index with its
score; an index outside the committee fails the `expect`. The v3 schedule
builds the same list inline. -/
def authoritiesByScore (context : Context) (scoresPerAuthority : List ℕ) :
    Option (List (ℕ × ℕ)) :=
  scoresPerAuthority.zipIdx.mapM fun (score, index) =>
    (context.committee.toAuthorityIndex index).map fun authorityIndex => (authorityIndex, score)

end ReputationScores

/-- The RNG's shuffle followed by the stable sort by descending score. -/
def rankByScore (shuffle : List (ℕ × ℕ) → List (ℕ × ℕ)) (authorities : List (ℕ × ℕ)) :
    List (ℕ × ℕ) :=
  (shuffle authorities).insertionSort ScoreGe

/-- `LeaderSwapTable`; the hostnames and the scores kept for debugging are not
modelled. -/
structure LeaderSwapTable where
  /-- the best authorities with their stakes, in ranking order -/
  goodNodes : List (ℕ × ℕ)
  /-- the worst authorities with their stakes, an ordered map by index -/
  badNodes : List (ℕ × ℕ)
  deriving DecidableEq, Repr

namespace LeaderSwapTable

/-- The loop of `retrieve_first_nodes` from an accumulated stake. -/
def retrieveFirstNodesLoop (context : Context) (stakeThreshold : ℕ) :
    ℕ → List (ℕ × ℕ) → List (ℕ × ℕ)
  | _, [] => []
  | stake, (authorityIdx, _score) :: authorities =>
    let stake := stake + context.committee.stake authorityIdx
    -- the authority that takes the stake past the threshold is left out and ends the walk
    if stake > stakeThreshold * context.committee.totalStake / 100 then []
    else
      (authorityIdx, context.committee.stake authorityIdx) ::
        retrieveFirstNodesLoop context stakeThreshold stake authorities

/-- `LeaderSwapTable::retrieve_first_nodes`. -/
def retrieveFirstNodes (context : Context) (authorities : List (ℕ × ℕ))
    (stakeThreshold : ℕ) : List (ℕ × ℕ) :=
  retrieveFirstNodesLoop context stakeThreshold 0 authorities

/-- `LeaderSwapTable::new_inner`; `none` is one of its panics (a threshold above
33, an index outside the committee, or scores not one per authority). -/
def newInner (context : Context) (swapStakeThreshold : ℕ)
    (shuffle : List (ℕ × ℕ) → List (ℕ × ℕ)) (scoresPerAuthority : List ℕ) :
    Option LeaderSwapTable :=
  if swapStakeThreshold ≤ 33 then
    if scoresPerAuthority = [] then some ⟨[], []⟩
    else do
      let authoritiesByScore ←
        ReputationScores.authoritiesByScore context scoresPerAuthority
      if authoritiesByScore.length = context.committee.size then
        let ranked := rankByScore shuffle authoritiesByScore
        let goodNodes := retrieveFirstNodes context ranked swapStakeThreshold
        let badNodes := SortedMap.ofList (retrieveFirstNodes context ranked.reverse swapStakeThreshold)
        some ⟨goodNodes, badNodes⟩
      else none
  else none

/-- `LeaderSwapTable::swap`: `some none` keeps the leader, `some (some idx)`
swaps it for the good node `idx`, and `none` is a panic (an offset other than
zero, or no good node to choose). The RNG's choice is the index `draw`. -/
def swap (table : LeaderSwapTable) (leader leaderOffset draw : ℕ) : Option (Option ℕ) :=
  if leader ∈ table.badNodes.map Prod.fst then
    if leaderOffset = 0 then
      (table.goodNodes[draw % table.goodNodes.length]?).map fun (idx, _stake) => some idx
    else none
  else some none

end LeaderSwapTable

namespace LeaderScheduleV3

/-- The loop of `select_allowed_leaders_with_fixed_config` over the ranking read
from its last element: it pops while the accumulated stake fits the cutoff and
returns what is left, still read from the back. -/
def popExcludedLoop (context : Context) (cutoff : ℕ) : ℕ → List (ℕ × ℕ) → List (ℕ × ℕ)
  | _, [] => []
  | accumulatedBadStake, (idx, score) :: byScore =>
    let stake := context.committee.stake idx
    if accumulatedBadStake + stake > cutoff then (idx, score) :: byScore
    else popExcludedLoop context cutoff (accumulatedBadStake + stake) byScore

/-- `LeaderScheduleV3::select_allowed_leaders_with_fixed_config`; `none` is the
`expect` on an index outside the committee. -/
def selectAllowedLeadersWithFixedConfig (context : Context)
    (shuffle : List (ℕ × ℕ) → List (ℕ × ℕ)) (totalScoresPerAuthority : List ℕ) :
    Option (List ℕ) := do
  let byScore ← ReputationScores.authoritiesByScore context totalScoresPerAuthority
  let byScore := rankByScore shuffle byScore
  let cutoff := context.protocolConfig.badNodesStakeThreshold * context.committee.totalStake / 100
  let byScore := (popExcludedLoop context cutoff 0 byScore.reverse).reverse
  some (byScore.map Prod.fst)

end LeaderScheduleV3

/-! ## The cut-offs as greedy walks -/

/-- The stake of a ranked authority, as the cut-offs add it up. -/
def rankedStake (c : Committee) (a : ℕ × ℕ) : ℕ := c.stake a.1

/-- The stake cutoff of a threshold in percent. -/
def stakeCutoff (c : Committee) (threshold : ℕ) : ℕ := threshold * c.totalStake / 100

/-- A ranked authority as the swap table stores it, with its stake. -/
def withStake (c : Committee) (a : ℕ × ℕ) : ℕ × ℕ := (a.1, c.stake a.1)

namespace LeaderSwapTable

theorem retrieveFirstNodesLoop_eq (context : Context) (t : ℕ) :
    ∀ (acc : ℕ) (l : List (ℕ × ℕ)), retrieveFirstNodesLoop context t acc l =
      (GreedyBudget.span (rankedStake context.committee) (stakeCutoff context.committee t)
        acc l).1.map (withStake context.committee)
  | _, [] => rfl
  | acc, (i, s) :: l => by
    have hw : rankedStake context.committee (i, s) = context.committee.stake i := rfl
    by_cases h : stakeCutoff context.committee t < acc + context.committee.stake i
    · rw [GreedyBudget.span_cons_of_lt (hw ▸ h)]
      simp only [stakeCutoff] at h
      simp [retrieveFirstNodesLoop, h]
    · rw [GreedyBudget.span_cons_of_le (hw ▸ Nat.le_of_not_lt h), hw, retrieveFirstNodesLoop]
      simp only [stakeCutoff] at h
      simp [h, withStake, retrieveFirstNodesLoop_eq context t _ l]

end LeaderSwapTable

namespace LeaderScheduleV3

theorem popExcludedLoop_eq (context : Context) (cutoff : ℕ) :
    ∀ (acc : ℕ) (l : List (ℕ × ℕ)), popExcludedLoop context cutoff acc l =
      (GreedyBudget.span (rankedStake context.committee) cutoff acc l).2
  | _, [] => rfl
  | acc, (i, s) :: l => by
    have hw : rankedStake context.committee (i, s) = context.committee.stake i := rfl
    by_cases h : cutoff < acc + context.committee.stake i
    · rw [GreedyBudget.span_cons_of_lt (hw ▸ h)]
      simp [popExcludedLoop, h]
    · rw [GreedyBudget.span_cons_of_le (hw ▸ Nat.le_of_not_lt h), hw, popExcludedLoop]
      simp [h, popExcludedLoop_eq context cutoff _ l]

end LeaderScheduleV3

/-! ## The scored authorities and their ranking -/

namespace ReputationScores

variable {context : Context} {scores : List ℕ}

theorem authoritiesByScore_eq_some (h : scores.length ≤ context.committee.size) :
    authoritiesByScore context scores = some (scores.zipIdx.map Prod.swap) := by
  apply OptionList.mapM_eq_some_map
  rintro ⟨score, index⟩ hmem
  have hlt : index < context.committee.size := by
    have := (List.mem_zipIdx hmem).2.1
    omega
  simp [Committee.toAuthorityIndex, hlt]

theorem authoritiesByScore_eq_none (h : context.committee.size < scores.length) :
    authoritiesByScore context scores = none := by
  rw [Option.eq_none_iff_forall_ne_some]
  intro L hL
  -- the score at index `size` has no authority index
  have hmem : (scores[context.committee.size], context.committee.size) ∈ scores.zipIdx :=
    List.mem_zipIdx_iff_getElem?.mpr (List.getElem?_eq_getElem h)
  have hsome := OptionList.isSome_of_mapM_eq_some hL _ hmem
  simp [Committee.toAuthorityIndex] at hsome

end ReputationScores

/-- The scored authorities are indexed `0, …, n - 1`. -/
theorem keys_scored (scores : List ℕ) :
    (scores.zipIdx.map Prod.swap).map Prod.fst = List.range scores.length := by
  rw [List.map_map, List.range_eq_range']
  exact List.zipIdx_map_snd 0 scores

/-- A scored authority carries its own score. -/
theorem score_eq_getD_of_mem_scored {scores : List ℕ} {a : ℕ × ℕ}
    (h : a ∈ scores.zipIdx.map Prod.swap) : a.2 = scores.getD a.1 0 ∧ a.1 < scores.length := by
  obtain ⟨⟨score, index⟩, hmem, rfl⟩ := List.mem_map.mp h
  have hget := List.mem_zipIdx_iff_getElem?.mp hmem
  have hlt : index < scores.length := (List.getElem?_eq_some_iff.mp hget).1
  exact ⟨by simp [List.getD_eq_getElem?_getD, hget], hlt⟩

section Ranking

variable {shuffle : List (ℕ × ℕ) → List (ℕ × ℕ)}

theorem rankByScore_perm (hshuffle : ∀ l, (shuffle l).Perm l) (l : List (ℕ × ℕ)) :
    (rankByScore shuffle l).Perm l :=
  (List.perm_insertionSort ScoreGe (shuffle l)).trans (hshuffle l)

theorem pairwise_rankByScore (l : List (ℕ × ℕ)) : (rankByScore shuffle l).Pairwise ScoreGe :=
  List.pairwise_insertionSort ScoreGe (shuffle l)

variable (hshuffle : ∀ l, (shuffle l).Perm l) {scores : List ℕ}
include hshuffle

theorem keys_rankByScore_perm :
    ((rankByScore shuffle (scores.zipIdx.map Prod.swap)).map Prod.fst).Perm
      (List.range scores.length) := by
  rw [← keys_scored]
  exact (rankByScore_perm hshuffle _).map Prod.fst

theorem nodup_keys_rankByScore :
    ((rankByScore shuffle (scores.zipIdx.map Prod.swap)).map Prod.fst).Nodup :=
  (keys_rankByScore_perm hshuffle).nodup_iff.mpr List.nodup_range

theorem score_eq_getD_of_mem_rankByScore {a : ℕ × ℕ}
    (h : a ∈ rankByScore shuffle (scores.zipIdx.map Prod.swap)) :
    a.2 = scores.getD a.1 0 ∧ a.1 < scores.length :=
  score_eq_getD_of_mem_scored ((rankByScore_perm hshuffle _).mem_iff.mp h)

/-- With one score per authority, the ranking weighs the whole committee. -/
theorem sum_rankedStake {c : Committee} (htotal : c.totalStake = Committee.stakeSum c.authorities)
    (hlen : scores.length = c.size) :
    ((rankByScore shuffle (scores.zipIdx.map Prod.swap)).map (rankedStake c)).sum =
      c.totalStake := by
  have hperm : ((rankByScore shuffle (scores.zipIdx.map Prod.swap)).map Prod.fst).Perm
      (List.range scores.length) := keys_rankByScore_perm hshuffle
  rw [hlen] at hperm
  calc ((rankByScore shuffle (scores.zipIdx.map Prod.swap)).map (rankedStake c)).sum
      = (((rankByScore shuffle (scores.zipIdx.map Prod.swap)).map Prod.fst).map c.stake).sum := by
        rw [List.map_map]
        rfl
    _ = ((List.range c.size).map c.stake).sum := (hperm.map c.stake).sum_eq
    _ = c.weight c.members := ProRata.sum_map_range c.size c.stake
    _ = c.totalStake := by rw [Committee.weight_members, htotal]

end Ranking

/-! ## Cutting a ranking from both ends -/

/-- For a threshold of at most 33 percent, twice the cutoff is below a positive total. -/
theorem two_mul_stakeCutoff_lt {c : Committee} {t : ℕ} (ht : t ≤ 33) (hpos : 0 < c.totalStake) :
    2 * stakeCutoff c t < c.totalStake := by
  have hle : t * c.totalStake ≤ 33 * c.totalStake := Nat.mul_le_mul_right _ ht
  unfold stakeCutoff
  generalize t * c.totalStake = X at hle
  omega

section Cuts

variable {c : Committee} {cutoff : ℕ}

/-- A cut stores each authority with its own stake. -/
theorem snd_eq_stake_of_mem_cut {l : List (ℕ × ℕ)} {a : ℕ × ℕ}
    (h : a ∈ (GreedyBudget.span (rankedStake c) cutoff 0 l).1.map (withStake c)) :
    a.2 = c.stake a.1 := by
  obtain ⟨a', -, rfl⟩ := List.mem_map.mp h
  rfl

/-- A cut's stake fits the cutoff. -/
theorem sum_cut_le (l : List (ℕ × ℕ)) :
    (((GreedyBudget.span (rankedStake c) cutoff 0 l).1.map (withStake c)).map Prod.snd).sum ≤
      cutoff := by
  have h := GreedyBudget.acc_add_sum_le (w := rankedStake c) l (Nat.zero_le cutoff)
  rw [Nat.zero_add] at h
  rwa [List.map_map]

/-- The cuts from the two ends of a ranking that weighs more than twice the
cutoff take different authorities, and the front one only better-ranked ones. -/
theorem front_back_separated {ranked : List (ℕ × ℕ)} (hnd : (ranked.map Prod.fst).Nodup)
    (hsorted : ranked.Pairwise ScoreGe) (hcut : 2 * cutoff < (ranked.map (rankedStake c)).sum)
    {a b : ℕ × ℕ} (ha : a ∈ (GreedyBudget.span (rankedStake c) cutoff 0 ranked).1)
    (hb : b ∈ (GreedyBudget.span (rankedStake c) cutoff 0 ranked.reverse).1) :
    a.1 ≠ b.1 ∧ ScoreGe a b := by
  obtain ⟨mid, hsplit⟩ := GreedyBudget.span_front_back hcut
  set front := (GreedyBudget.span (rankedStake c) cutoff 0 ranked).1
  set back := (GreedyBudget.span (rankedStake c) cutoff 0 ranked.reverse).1
  have ha' : a ∈ front ++ mid := List.mem_append_left mid ha
  have hb' : b ∈ back.reverse := List.mem_reverse.mpr hb
  -- the ranking is the front cut, a middle part and the back cut reversed
  have hnd' : ((front ++ mid ++ back.reverse).map Prod.fst).Nodup := by
    rw [← hsplit]
    exact hnd
  have hsorted' : (front ++ mid ++ back.reverse).Pairwise ScoreGe := by
    rw [← hsplit]
    exact hsorted
  rw [List.map_append, List.nodup_append] at hnd'
  rw [List.pairwise_append] at hsorted'
  exact ⟨hnd'.2.2 _ (List.mem_map_of_mem ha') _ (List.mem_map_of_mem hb'),
    hsorted'.2.2 a ha' b hb'⟩

end Cuts

/-! ## The swap table -/

namespace LeaderSwapTable

variable {context : Context} {t : ℕ} {shuffle : List (ℕ × ℕ) → List (ℕ × ℕ)} {scores : List ℕ}

theorem retrieveFirstNodes_eq (l : List (ℕ × ℕ)) :
    retrieveFirstNodes context l t =
      (GreedyBudget.span (rankedStake context.committee) (stakeCutoff context.committee t)
        0 l).1.map (withStake context.committee) :=
  retrieveFirstNodesLoop_eq context t 0 l

theorem newInner_eq_some (ht : t ≤ 33) (hne : scores ≠ [])
    (hlen : scores.length = context.committee.size) :
    newInner context t shuffle scores =
      some ⟨retrieveFirstNodes context (rankByScore shuffle (scores.zipIdx.map Prod.swap)) t,
        SortedMap.ofList
          (retrieveFirstNodes context (rankByScore shuffle (scores.zipIdx.map Prod.swap)).reverse t)⟩ := by
  rw [newInner, if_pos ht, if_neg hne, ReputationScores.authoritiesByScore_eq_some hlen.le]
  simp [hlen]

/-- `new_inner` returns exactly for a threshold of at most 33 and scores that
are empty or one per authority. -/
theorem newInner_isSome_iff :
    (newInner context t shuffle scores).isSome ↔
      t ≤ 33 ∧ (scores = [] ∨ scores.length = context.committee.size) := by
  by_cases ht : t ≤ 33
  · by_cases hne : scores = []
    · simp [newInner, ht, hne]
    · rcases lt_trichotomy scores.length context.committee.size with hlt | heq | hgt
      · simp [newInner, ht, hne, ReputationScores.authoritiesByScore_eq_some hlt.le, hlt.ne]
      · simp [newInner_eq_some ht hne heq, ht, heq]
      · simp [newInner, ht, hne, ReputationScores.authoritiesByScore_eq_none hgt, hgt.ne']
  · simp [newInner, ht]

section Table

variable (htotal : context.committee.totalStake = Committee.stakeSum context.committee.authorities)
  (hpos : 0 < context.committee.totalStake) (hshuffle : ∀ l, (shuffle l).Perm l)

include hshuffle in
/-- The bad nodes are the back cut of the ranking, collected into a map. -/
theorem badNodes_perm :
    (SortedMap.ofList (retrieveFirstNodes context
      (rankByScore shuffle (scores.zipIdx.map Prod.swap)).reverse t)).Perm
      (retrieveFirstNodes context (rankByScore shuffle (scores.zipIdx.map Prod.swap)).reverse t) := by
  apply SortedMap.ofList_perm
  rw [retrieveFirstNodes_eq, List.map_map]
  -- the keys of the back cut are among the ranking's, which are distinct
  have hsub : ((GreedyBudget.span (rankedStake context.committee) (stakeCutoff context.committee t) 0
      (rankByScore shuffle (scores.zipIdx.map Prod.swap)).reverse).1.map Prod.fst).Sublist
      ((rankByScore shuffle (scores.zipIdx.map Prod.swap)).reverse.map Prod.fst) :=
    (GreedyBudget.span_fst_sublist _ _).map Prod.fst
  have hnd : ((rankByScore shuffle (scores.zipIdx.map Prod.swap)).reverse.map Prod.fst).Nodup := by
    rw [List.map_reverse, List.nodup_reverse]
    exact nodup_keys_rankByScore hshuffle
  exact hsub.nodup hnd

include htotal hpos hshuffle in
/-- A good node and a bad node are different authorities, and the bad one
scores no higher. -/
theorem good_bad_separated (ht : t ≤ 33) (hlen : scores.length = context.committee.size)
    {a b : ℕ × ℕ}
    (ha : a ∈ retrieveFirstNodes context (rankByScore shuffle (scores.zipIdx.map Prod.swap)) t)
    (hb : b ∈ retrieveFirstNodes context (rankByScore shuffle (scores.zipIdx.map Prod.swap)).reverse t) :
    a.1 ≠ b.1 ∧ scores.getD b.1 0 ≤ scores.getD a.1 0 := by
  set ranked := rankByScore shuffle (scores.zipIdx.map Prod.swap)
  rw [retrieveFirstNodes_eq] at ha hb
  obtain ⟨a', ha', rfl⟩ := List.mem_map.mp ha
  obtain ⟨b', hb', rfl⟩ := List.mem_map.mp hb
  have hcut : 2 * stakeCutoff context.committee t <
      (ranked.map (rankedStake context.committee)).sum := by
    rw [sum_rankedStake hshuffle htotal hlen]
    exact two_mul_stakeCutoff_lt ht hpos
  obtain ⟨hkey, hscore⟩ := front_back_separated (nodup_keys_rankByScore hshuffle)
    (pairwise_rankByScore _) hcut ha' hb'
  have hsa := score_eq_getD_of_mem_rankByScore hshuffle
    ((GreedyBudget.span_fst_sublist _ _).subset ha')
  have hsb := score_eq_getD_of_mem_rankByScore hshuffle
    (List.mem_reverse.mp ((GreedyBudget.span_fst_sublist _ _).subset hb'))
  refine ⟨hkey, ?_⟩
  rw [withStake, withStake, ← hsa.1, ← hsb.1]
  exact hscore

include htotal hpos hshuffle in
/-- **The swap table respects the stake budget**: good and bad nodes are
different authorities stored with their stakes, each set within the cutoff, and
no bad node scores above a good one. -/
theorem newInner_spec {table : LeaderSwapTable} (h : newInner context t shuffle scores = some table) :
    (∀ a ∈ table.goodNodes, a.2 = context.committee.stake a.1) ∧
    (∀ b ∈ table.badNodes, b.2 = context.committee.stake b.1) ∧
    (∀ a ∈ table.goodNodes, ∀ b ∈ table.badNodes,
      a.1 ≠ b.1 ∧ scores.getD b.1 0 ≤ scores.getD a.1 0) ∧
    (table.goodNodes.map Prod.snd).sum ≤ stakeCutoff context.committee t ∧
    (table.badNodes.map Prod.snd).sum ≤ stakeCutoff context.committee t := by
  have hsome : (newInner context t shuffle scores).isSome := by rw [h]; rfl
  obtain ⟨ht, hlen⟩ := newInner_isSome_iff.mp hsome
  by_cases hne : scores = []
  · -- no scores: the default, empty table
    simp only [newInner, ht, hne, if_true, Option.some.injEq] at h
    subst h
    simp
  rw [newInner_eq_some ht hne (hlen.resolve_left hne), Option.some.injEq] at h
  subst h
  have hperm := @badNodes_perm context t shuffle scores hshuffle
  refine ⟨fun a ha => ?_, fun b hb => ?_, fun a ha b hb =>
    good_bad_separated htotal hpos hshuffle ht (hlen.resolve_left hne) ha (hperm.mem_iff.mp hb),
    ?_, ?_⟩
  · rw [retrieveFirstNodes_eq] at ha
    exact snd_eq_stake_of_mem_cut ha
  · rw [hperm.mem_iff, retrieveFirstNodes_eq] at hb
    exact snd_eq_stake_of_mem_cut hb
  · rw [retrieveFirstNodes_eq]
    exact sum_cut_le _
  · rw [(hperm.map Prod.snd).sum_eq, retrieveFirstNodes_eq]
    exact sum_cut_le _

include hshuffle in
/-- There is a good node whenever there is a bad one and no authority's stake
exceeds the cutoff: the best-ranked authority then fits the front cut. -/
theorem goodNodes_ne_nil {table : LeaderSwapTable} (h : newInner context t shuffle scores = some table)
    (hsmall : ∀ i < context.committee.size,
      context.committee.stake i ≤ stakeCutoff context.committee t)
    (hbad : table.badNodes ≠ []) : table.goodNodes ≠ [] := by
  have hsome : (newInner context t shuffle scores).isSome := by rw [h]; rfl
  obtain ⟨ht, hlen⟩ := newInner_isSome_iff.mp hsome
  by_cases hne : scores = []
  · simp only [newInner, ht, hne, if_true, Option.some.injEq] at h
    subst h
    exact absurd rfl hbad
  have hlen' := hlen.resolve_left hne
  rw [newInner_eq_some ht hne hlen', Option.some.injEq] at h
  subst h
  -- the ranking is a permutation of the non-empty scored authorities
  have hranked : rankByScore shuffle (scores.zipIdx.map Prod.swap) ≠ [] := by
    intro hnil
    have hl := (rankByScore_perm hshuffle (scores.zipIdx.map Prod.swap)).length_eq
    rw [hnil, List.length_map, List.length_zipIdx] at hl
    exact hne (List.eq_nil_of_length_eq_zero hl.symm)
  obtain ⟨a, rest, hcons⟩ := List.exists_cons_of_ne_nil hranked
  have ha : a.1 < context.committee.size :=
    hlen' ▸ (score_eq_getD_of_mem_rankByScore hshuffle (hcons ▸ List.mem_cons_self)).2
  have hfit := hsmall a.1 ha
  dsimp only
  rw [retrieveFirstNodes_eq, hcons, Ne, List.map_eq_nil_iff, GreedyBudget.span_fst_eq_nil_iff]
  simp only [rankedStake, Nat.zero_add]
  omega

/-- `swap` at offset zero never panics while a table with bad nodes has good ones. -/
theorem swap_ne_none {table : LeaderSwapTable} (hgood : table.badNodes ≠ [] → table.goodNodes ≠ [])
    (leader draw : ℕ) : table.swap leader 0 draw ≠ none := by
  unfold swap
  split_ifs with hmem hzero
  · have hne : table.goodNodes ≠ [] := hgood fun hnil => by simp [hnil] at hmem
    have hlt : draw % table.goodNodes.length < table.goodNodes.length :=
      Nat.mod_lt _ (List.length_pos_iff.mpr hne)
    simp [List.getElem?_eq_getElem hlt]
  · exact absurd rfl hzero
  · simp

end Table

end LeaderSwapTable

/-! ## The allowed leaders of the v3 schedule -/

namespace LeaderScheduleV3

variable {context : Context} {shuffle : List (ℕ × ℕ) → List (ℕ × ℕ)} {scores : List ℕ}

theorem selectAllowedLeadersWithFixedConfig_eq_some (hlen : scores.length ≤ context.committee.size) :
    selectAllowedLeadersWithFixedConfig context shuffle scores =
      some ((GreedyBudget.span (rankedStake context.committee)
        (stakeCutoff context.committee context.protocolConfig.badNodesStakeThreshold) 0
        (rankByScore shuffle (scores.zipIdx.map Prod.swap)).reverse).2.reverse.map Prod.fst) := by
  simp [selectAllowedLeadersWithFixedConfig, ReputationScores.authoritiesByScore_eq_some hlen,
    popExcludedLoop_eq, stakeCutoff]

theorem selectAllowedLeadersWithFixedConfig_isSome_iff :
    (selectAllowedLeadersWithFixedConfig context shuffle scores).isSome ↔
      scores.length ≤ context.committee.size := by
  by_cases hlen : scores.length ≤ context.committee.size
  · simp [selectAllowedLeadersWithFixedConfig_eq_some hlen, hlen]
  · simp [selectAllowedLeadersWithFixedConfig,
      ReputationScores.authoritiesByScore_eq_none (Nat.lt_of_not_le hlen), hlen]

/-- **The allowed leaders respect the stake budget**: they are distinct, with
the excluded authorities they are the scored ones, the excluded stake fits the
cutoff and no excluded authority scores above an allowed one. -/
theorem selectAllowedLeadersWithFixedConfig_spec (hshuffle : ∀ l, (shuffle l).Perm l)
    {allowed : List ℕ} (h : selectAllowedLeadersWithFixedConfig context shuffle scores = some allowed) :
    allowed.Nodup ∧ ∃ excluded : List ℕ, (allowed ++ excluded).Perm (List.range scores.length) ∧
      (excluded.map context.committee.stake).sum ≤
        stakeCutoff context.committee context.protocolConfig.badNodesStakeThreshold ∧
      ∀ a ∈ allowed, ∀ e ∈ excluded, scores.getD e 0 ≤ scores.getD a 0 := by
  have hlen := selectAllowedLeadersWithFixedConfig_isSome_iff.mp (by rw [h]; rfl)
  rw [selectAllowedLeadersWithFixedConfig_eq_some hlen, Option.some.injEq] at h
  subst h
  set ranked := rankByScore shuffle (scores.zipIdx.map Prod.swap)
  set cutoff := stakeCutoff context.committee context.protocolConfig.badNodesStakeThreshold
  set popped := (GreedyBudget.span (rankedStake context.committee) cutoff 0 ranked.reverse).1
  set kept := (GreedyBudget.span (rankedStake context.committee) cutoff 0 ranked.reverse).2
  -- the ranking is what is kept followed by what is popped off its back
  have hsplit : kept.reverse ++ popped.reverse = ranked := by
    rw [← List.reverse_append, GreedyBudget.span_append, List.reverse_reverse]
  have hperm : (kept.reverse.map Prod.fst ++ popped.reverse.map Prod.fst).Perm
      (List.range scores.length) := by
    rw [← List.map_append, hsplit]
    exact keys_rankByScore_perm hshuffle
  refine ⟨(List.nodup_append.mp (hperm.nodup_iff.mpr List.nodup_range)).1,
    popped.reverse.map Prod.fst, hperm, ?_, ?_⟩
  · have hsum := GreedyBudget.acc_add_sum_le (w := rankedStake context.committee) ranked.reverse
      (Nat.zero_le cutoff)
    rw [Nat.zero_add] at hsum
    rw [List.map_map, List.map_reverse, List.sum_reverse]
    exact hsum
  · intro a ha e he
    obtain ⟨x, hx, rfl⟩ := List.mem_map.mp ha
    obtain ⟨y, hy, rfl⟩ := List.mem_map.mp he
    have hsorted : ranked.Pairwise ScoreGe := pairwise_rankByScore _
    rw [← hsplit, List.pairwise_append] at hsorted
    have hxr : x ∈ ranked := hsplit ▸ List.mem_append_left _ hx
    have hyr : y ∈ ranked := hsplit ▸ List.mem_append_right _ hy
    rw [← (score_eq_getD_of_mem_rankByScore hshuffle hxr).1,
      ← (score_eq_getD_of_mem_rankByScore hshuffle hyr).1]
    exact hsorted.2.2 x hx y hy

end LeaderScheduleV3

/-! ## Both selections against the stake budget -/

end Sui
