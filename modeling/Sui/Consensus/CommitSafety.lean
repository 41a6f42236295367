import Sui.Consensus.BaseCommitter

/-!
# Safety of the commit rules

The quorum arguments behind the Mysticeti commit rules, on an `HonestView`:
a causal DAG of a committee built by `Committee::new`, in which the
authorities outside a set `F` of at most `f` stake author at most one block
per slot. With waves of three rounds, a leader at round `r` is voted for at
`r + 1` and certified at `r + 2`, and two quorums always share an honest
authority, so:

* two certified leader blocks of one slot are the same block
  (`eq_of_certifies`), which rules out the "more than one candidate" panics;
* a quorum of blames excludes any certificate (`not_blamed_of_certifies`);
* a quorum of certificates reaches the history of every later block
  (`certifiedFrom_of_support`).

From these, in one view, the direct rule and the indirect rule from any
anchor above the decision round agree (`decideLeaderFromAnchor_of_direct`);
and a later view of the DAG decides as the earlier one did
(`tryDirectDecide_of_extends`, `decideLeaderFromAnchor_of_extends`).
-/

namespace Sui

namespace BaseCommitter

open DagState

/-- A view the safety arguments apply to. -/
structure HonestView (s : DagState) (F : Finset ℕ) : Prop where
  causal : s.CausalDag
  committee_new : ∃ epoch authorities, Committee.new epoch authorities = some s.context.committee
  faulty_le : s.context.committee.weight F ≤ s.context.committee.faultTolerance
  noEquivocation : s.NoEquivocation F

variable {c : BaseCommitter} {s : DagState} {F : Finset ℕ}

theorem HonestView.quorum_pos (hV : HonestView s F) : 0 < s.context.committee.quorumThreshold := by
  obtain ⟨epoch, authorities, hc⟩ := hV.committee_new
  exact Committee.quorumThreshold_pos_of_new hc

/-- Two quorums of an honest view share an honest authority. -/
theorem HonestView.exists_honest (hV : HonestView s F) {S S' : Finset ℕ}
    (hS : s.context.committee.quorumThreshold ≤ s.context.committee.weight S)
    (hS' : s.context.committee.quorumThreshold ≤ s.context.committee.weight S') :
    ∃ a, a ∈ S ∧ a ∈ S' ∧ a ∉ F := by
  obtain ⟨epoch, authorities, hc⟩ := hV.committee_new
  exact Committee.exists_honest_of_quorums hc hV.faulty_le hS hS'

/-- Two blocks of one honest slot are the same block. -/
theorem HonestView.eq_of_slot (hV : HonestView s F) {b b' : Block} (hb : b ∈ s.blocks)
    (hb' : b' ∈ s.blocks) (hF : b.author ∉ F) (hround : b.round = b'.round)
    (hauthor : b.author = b'.author) : b = b' :=
  hV.noEquivocation b hb b' hb' hF (Block.slot_eq_slot_iff.mpr ⟨hround, hauthor⟩)

/-! ## Votes, blames and certificates -/

/-- Each voter of a certificate cast its vote with an ancestor of it. -/
theorem exists_vote_of_mem_voters (hD : s.CausalDag) {C B : Block} (hC : C ∈ s.blocks) {gc x : ℕ}
    (hx : x ∈ (voters s B gc C.ancestors).toFinset) :
    ∃ V ∈ s.blocks, V.author = x ∧ V.reference ∈ C.ancestors ∧ isVote s V B = some true := by
  simp only [voters, List.mem_toFinset, List.mem_map, List.mem_filter, decide_eq_true_eq] at hx
  obtain ⟨r, ⟨hr, hvote⟩, rfl⟩ := hx
  obtain ⟨V, hV, rfl, heq⟩ := voteOfReference_ancestor hD hC hr B gc
  exact ⟨V, hV, rfl, hr, heq ▸ hvote⟩

/-- The votes of a certificate two rounds above the leader lie one round
above it. -/
theorem round_eq_of_vote (hD : s.CausalDag) {C B V : Block} (hC : C ∈ s.blocks)
    (hCr : C.round = B.round + 2) (hV : V ∈ s.blocks) (hVC : V.reference ∈ C.ancestors)
    (hvote : isVote s V B = some true) : V.round = B.round + 1 := by
  have hlt := round_lt_of_isVote hD hV hvote
  have hgt := hD.ancestor_round_lt C hC _ hVC
  rw [Block.reference_round] at hgt
  omega

/-- **Certified leader blocks are unique.** Two certificates two rounds above
a slot have voters of a quorum each; an honest voter among both voted with one
block, and a block votes for one block of a slot. -/
theorem eq_of_certifies (hV : HonestView s F) {C C' B B' : Block} (hC : C ∈ s.blocks)
    (hC' : C' ∈ s.blocks) (hB : B ∈ s.blocks) (hB' : B' ∈ s.blocks) (hslot : B.slot = B'.slot)
    (hCr : C.round = B.round + 2) (hC'r : C'.round = B.round + 2) (hcert : Certifies s C B)
    (hcert' : Certifies s C' B') : B = B' := by
  obtain ⟨x, hx, hx', hxF⟩ := hV.exists_honest hcert hcert'
  obtain ⟨V, hVD, rfl, hVC, hvote⟩ := exists_vote_of_mem_voters hV.causal hC hx
  obtain ⟨V', hV'D, hVa, hV'C, hvote'⟩ := exists_vote_of_mem_voters hV.causal hC' hx'
  have hBr : B'.round = B.round := (Block.slot_eq_slot_iff.mp hslot).1.symm
  have hVr := round_eq_of_vote hV.causal hC hCr hVD hVC hvote
  have hV'r := round_eq_of_vote hV.causal hC' (by rw [hC'r, hBr]) hV'D hV'C hvote'
  -- the honest voter cast both votes with one block
  have hVV : V = V' := hV.eq_of_slot hVD hV'D hxF (by omega) hVa.symm
  subst hVV
  exact hV.causal.eq_of_reference_eq hB hB' (reference_eq_of_isVote hvote hvote' hslot)

/-- **Blames exclude certificates.** An honest authority among a quorum of
blamers and the voters of a certificate would have a block one round above
the leader that both links to the leader block and has no ancestor by the
leader. -/
theorem not_blamed_of_certifies (hV : HonestView s F) {C B : Block} (hC : C ∈ s.blocks)
    (hCr : C.round = B.round + 2) (hcert : Certifies s C B) :
    ¬ s.context.committee.quorumThreshold ≤
      s.context.committee.weight (blameAuthors s (B.round + 1) B.author) := by
  intro hblame
  obtain ⟨x, hxb, hxv, hxF⟩ := hV.exists_honest hblame hcert
  obtain ⟨V, hVD, rfl, hVC, hvote⟩ := exists_vote_of_mem_voters hV.causal hC hxv
  simp only [blameAuthors, List.mem_toFinset, List.mem_map, List.mem_filter] at hxb
  obtain ⟨X, ⟨hXr, hXblame⟩, hXa⟩ := hxb
  obtain ⟨hXrecent, hXround⟩ := mem_blocksAtRound.mp hXr
  have hXD : X ∈ s.blocks := mem_blocks.mpr (.inr hXrecent)
  have hVr := round_eq_of_vote hV.causal hC hCr hVD hVC hvote
  have hXV : X = V := hV.eq_of_slot hXD hVD (hXa ▸ hxF) (by omega) hXa
  subst hXV
  have hmem := mem_ancestors_of_isVote hV.causal hVD hvote hVr
  have := List.all_eq_true.mp hXblame _ hmem
  simp at this

/-- **Support reaches every later history.** A quorum of certificates at round
`d` and the quorum of round-`d` blocks in the history of a later block share
an honest author, whose one block at `d` is a certificate in that history. -/
theorem certifiedFrom_of_support (hV : HonestView s F) {A B : Block} (hA : A ∈ s.blocks) {d : ℕ}
    (hd : d < A.round)
    (hsupport : s.context.committee.quorumThreshold ≤
      s.context.committee.weight (certificateAuthors s d B)) :
    CertifiedFrom s A d B := by
  obtain ⟨S, hS, hSmem⟩ := hV.causal.exists_quorum_at_round (e := d) hV.quorum_pos A.round A hA rfl hd
  obtain ⟨x, hxS, hxc, hxF⟩ := hV.exists_honest hS hsupport
  obtain ⟨C', hC'D, hC'a, hC'r, hreach⟩ := hSmem x hxS
  simp only [certificateAuthors, List.mem_toFinset, List.mem_map, List.mem_filter,
    decide_eq_true_eq] at hxc
  obtain ⟨C, ⟨hCr, hcert⟩, rfl⟩ := hxc
  obtain ⟨hCrecent, hCround⟩ := mem_blocksAtRound.mp hCr
  have hCD : C ∈ s.blocks := mem_blocks.mpr (.inr hCrecent)
  have hCC : C' = C := hV.eq_of_slot hC'D hCD (hC'a ▸ hxF) (by omega) hC'a
  subst hCC
  exact ⟨C', hC'D, hC'r, hreach, hcert⟩

/-- A certified leader block is a block of the state. -/
theorem exists_block_of_certifies (hV : HonestView s F) {C B : Block} (hC : C ∈ s.blocks)
    (hcert : Certifies s C B) : ∃ b ∈ s.blocks, b.reference = B.reference := by
  obtain ⟨x, hx⟩ : (voters s B s.gcRound C.ancestors).toFinset.Nonempty := by
    rw [Finset.nonempty_iff_ne_empty]
    intro hempty
    have hq := hV.quorum_pos
    rw [Certifies, hempty, Committee.weight, Quorum.weight_empty] at hcert
    omega
  obtain ⟨V, hVD, -, -, hvote⟩ := exists_vote_of_mem_voters hV.causal hC hx
  exact exists_block_of_findSupportedBlock hV.causal _ V hVD (isVote_eq_some_true.mp hvote)

/-! ## The rules in an honest view

For a slot whose decision round is two rounds above it, the direct rule and
the indirect rule never panic in an honest view, and they agree: whatever
the direct rule decides, the indirect rule decides from every anchor above the
decision round. -/

section Rules

variable {slot : Slot}

theorem mem_blocks_of_mem_atSlot {B : Block} (hB : B ∈ s.getUncommittedBlocksAtSlot slot) :
    B ∈ s.blocks :=
  mem_blocks.mpr (.inr (mem_getUncommittedBlocksAtSlot.mp hB).1)

theorem slot_of_mem_atSlot {B : Block} (hB : B ∈ s.getUncommittedBlocksAtSlot slot) :
    B.slot = slot :=
  (mem_getUncommittedBlocksAtSlot.mp hB).2

/-- Support comes from at least one certificate at the decision round. -/
theorem exists_certificate_of_support (hV : HonestView s F) {d : ℕ} {B : Block}
    (h : s.context.committee.quorumThreshold ≤ s.context.committee.weight (certificateAuthors s d B)) :
    ∃ C ∈ s.blocks, C.round = d ∧ Certifies s C B := by
  obtain ⟨x, hx⟩ : (certificateAuthors s d B).Nonempty := by
    rw [Finset.nonempty_iff_ne_empty]
    intro hempty
    have hq := hV.quorum_pos
    rw [hempty, Committee.weight, Quorum.weight_empty] at h
    omega
  simp only [certificateAuthors, List.mem_toFinset, List.mem_map, List.mem_filter,
    decide_eq_true_eq] at hx
  obtain ⟨C, ⟨hC, hcert⟩, -⟩ := hx
  obtain ⟨hCrecent, hCround⟩ := mem_blocksAtRound.mp hC
  exact ⟨C, mem_blocks.mpr (.inr hCrecent), hCround, hcert⟩

/-- Two blocks of a slot with support two rounds above it are the same. -/
theorem eq_of_support (hV : HonestView s F) {B B' : Block}
    (hB : B ∈ s.getUncommittedBlocksAtSlot slot) (hB' : B' ∈ s.getUncommittedBlocksAtSlot slot)
    (h : s.context.committee.quorumThreshold ≤
      s.context.committee.weight (certificateAuthors s (slot.round + 2) B))
    (h' : s.context.committee.quorumThreshold ≤
      s.context.committee.weight (certificateAuthors s (slot.round + 2) B')) : B = B' := by
  obtain ⟨C, hC, hCr, hcert⟩ := exists_certificate_of_support hV h
  obtain ⟨C', hC', hC'r, hcert'⟩ := exists_certificate_of_support hV h'
  have hBr : B.round = slot.round := by rw [← slot_of_mem_atSlot hB]; rfl
  exact eq_of_certifies hV hC hC' (mem_blocks_of_mem_atSlot hB) (mem_blocks_of_mem_atSlot hB')
    ((slot_of_mem_atSlot hB).trans (slot_of_mem_atSlot hB').symm) (by omega) (by omega) hcert hcert'

/-- Two blocks of a slot certified in one history two rounds above it are the
same. -/
theorem eq_of_certifiedFrom (hV : HonestView s F) {A B B' : Block}
    (hB : B ∈ s.getUncommittedBlocksAtSlot slot) (hB' : B' ∈ s.getUncommittedBlocksAtSlot slot)
    (h : CertifiedFrom s A (slot.round + 2) B) (h' : CertifiedFrom s A (slot.round + 2) B') :
    B = B' := by
  obtain ⟨C, hC, hCr, -, hcert⟩ := h
  obtain ⟨C', hC', hC'r, -, hcert'⟩ := h'
  have hBr : B.round = slot.round := by rw [← slot_of_mem_atSlot hB]; rfl
  exact eq_of_certifies hV hC hC' (mem_blocks_of_mem_atSlot hB) (mem_blocks_of_mem_atSlot hB')
    ((slot_of_mem_atSlot hB).trans (slot_of_mem_atSlot hB').symm) (by omega) (by omega) hcert hcert'

/-- **The direct rule commits a supported leader block.** -/
theorem tryDirectDecide_of_supported (hV : HonestView s F)
    (hround : s.lastCommitRound < slot.round + 1)
    (hd : c.decisionRound (c.waveNumber slot.round) = slot.round + 2)
    (hnot : ¬ s.context.committee.quorumThreshold ≤
      s.context.committee.weight (blameAuthors s (slot.round + 1) slot.authority))
    {B : Block} (hB : B ∈ s.getUncommittedBlocksAtSlot slot)
    (hsup : s.context.committee.quorumThreshold ≤
      s.context.committee.weight (certificateAuthors s (slot.round + 2) B)) :
    c.tryDirectDecide s slot = some (.commit B) := by
  rw [tryDirectDecide_eq_filter hV.causal hV.quorum_pos hround (by omega) hnot]
  simp only [hd]
  rw [OptionList.filter_eq_singleton (hV.causal.nodup_getUncommittedBlocksAtSlot slot) hB
    (decide_eq_true hsup) fun B' hB' h' => eq_of_support hV hB' hB (of_decide_eq_true h') hsup]
  rfl

/-- **The direct rule leaves a leader without blame or support undecided.** -/
theorem tryDirectDecide_of_unsupported (hV : HonestView s F)
    (hround : s.lastCommitRound < slot.round + 1)
    (hd : c.decisionRound (c.waveNumber slot.round) = slot.round + 2)
    (hnot : ¬ s.context.committee.quorumThreshold ≤
      s.context.committee.weight (blameAuthors s (slot.round + 1) slot.authority))
    (hnone : ∀ B ∈ s.getUncommittedBlocksAtSlot slot, ¬ s.context.committee.quorumThreshold ≤
      s.context.committee.weight (certificateAuthors s (slot.round + 2) B)) :
    c.tryDirectDecide s slot = some (.undecided slot) := by
  rw [tryDirectDecide_eq_filter hV.causal hV.quorum_pos hround (by omega) hnot]
  simp only [hd]
  rw [List.filter_eq_nil_iff.mpr fun B hB h => hnone B hB (of_decide_eq_true h)]
  rfl

/-- **The direct rule never panics in an honest view**, and what it decides
is a blame, a supported block, or neither. -/
theorem tryDirectDecide_cases (hV : HonestView s F) (hround : s.lastCommitRound < slot.round + 1)
    (hd : c.decisionRound (c.waveNumber slot.round) = slot.round + 2) :
    (s.context.committee.quorumThreshold ≤
        s.context.committee.weight (blameAuthors s (slot.round + 1) slot.authority) ∧
      c.tryDirectDecide s slot = some (.skip slot)) ∨
    (∃ B ∈ s.getUncommittedBlocksAtSlot slot,
      ¬ s.context.committee.quorumThreshold ≤
        s.context.committee.weight (blameAuthors s (slot.round + 1) slot.authority) ∧
      s.context.committee.quorumThreshold ≤
        s.context.committee.weight (certificateAuthors s (slot.round + 2) B) ∧
      c.tryDirectDecide s slot = some (.commit B)) ∨
    c.tryDirectDecide s slot = some (.undecided slot) := by
  by_cases hblame : s.context.committee.quorumThreshold ≤
      s.context.committee.weight (blameAuthors s (slot.round + 1) slot.authority)
  · exact .inl ⟨hblame, tryDirectDecide_of_blamed hV.quorum_pos hround hblame⟩
  · by_cases hsup : ∃ B ∈ s.getUncommittedBlocksAtSlot slot, s.context.committee.quorumThreshold ≤
        s.context.committee.weight (certificateAuthors s (slot.round + 2) B)
    · obtain ⟨B, hB, hBsup⟩ := hsup
      exact .inr (.inl ⟨B, hB, hblame, hBsup,
        tryDirectDecide_of_supported hV hround hd hblame hB hBsup⟩)
    · exact .inr (.inr (tryDirectDecide_of_unsupported hV hround hd hblame
        fun B hB h => hsup ⟨B, hB, h⟩))

/-- **The indirect rule never panics in an honest view**: from an anchor it
commits the one block certified in the anchor's history, or skips. -/
theorem decideLeaderFromAnchor_cases (hV : HonestView s F)
    (hd : c.decisionRound (c.waveNumber slot.round) = slot.round + 2) {A : Block}
    (hA : A ∈ s.blocks) :
    (∃ B ∈ s.getUncommittedBlocksAtSlot slot, CertifiedFrom s A (slot.round + 2) B ∧
      c.decideLeaderFromAnchor s A slot = some (.commit B)) ∨
    ((∀ B ∈ s.getUncommittedBlocksAtSlot slot, ¬ CertifiedFrom s A (slot.round + 2) B) ∧
      c.decideLeaderFromAnchor s A slot = some (.skip slot)) := by
  by_cases hcert : ∃ B ∈ s.getUncommittedBlocksAtSlot slot, CertifiedFrom s A (slot.round + 2) B
  · obtain ⟨B, hB, hBcert⟩ := hcert
    refine .inl ⟨B, hB, hBcert, ?_⟩
    refine decideLeaderFromAnchor_of_certifiedFrom hV.causal hV.quorum_pos hA hB (hd ▸ hBcert) ?_
    intro B' hB' hB'cert
    exact eq_of_certifiedFrom hV hB' hB (hd ▸ hB'cert) hBcert
  · refine .inr ⟨fun B hB h => hcert ⟨B, hB, h⟩, ?_⟩
    exact decideLeaderFromAnchor_of_not_certifiedFrom hV.causal hV.quorum_pos hA
      fun B hB h => hcert ⟨B, hB, hd ▸ h⟩

/-- **The rules agree.** What the direct rule decides, the indirect rule
decides from every anchor above the decision round: a blamed leader has no
certificate anywhere, and a supported one has a certificate in every later
history. -/
theorem decideLeaderFromAnchor_of_direct (hV : HonestView s F)
    (hround : s.lastCommitRound < slot.round + 1)
    (hd : c.decisionRound (c.waveNumber slot.round) = slot.round + 2) {A : Block}
    (hA : A ∈ s.blocks) (hAr : slot.round + 2 < A.round) {st : LeaderStatus}
    (hdir : c.tryDirectDecide s slot = some st) (hst : st.isDecided = true) :
    c.decideLeaderFromAnchor s A slot = some st := by
  rcases tryDirectDecide_cases hV hround hd with ⟨hblame, hskip⟩ | ⟨B, hB, -, hsup, hcommit⟩ | hund
  · -- blamed: no block of the slot has a certificate
    rw [hdir] at hskip
    cases hskip
    refine decideLeaderFromAnchor_of_not_certifiedFrom hV.causal hV.quorum_pos hA fun B hB h => ?_
    obtain ⟨C, hC, hCr, -, hcert⟩ := h
    have hBr : B.round = slot.round := by rw [← slot_of_mem_atSlot hB]; rfl
    have hBa : B.author = slot.authority := by rw [← slot_of_mem_atSlot hB]; rfl
    refine not_blamed_of_certifies hV hC (by rw [hCr, hd]; omega) hcert ?_
    rwa [hBr, hBa]
  · -- supported: its certificates reach the anchor's history
    rw [hdir] at hcommit
    cases hcommit
    refine decideLeaderFromAnchor_of_certifiedFrom hV.causal hV.quorum_pos hA hB
      (hd ▸ certifiedFrom_of_support hV hA hAr hsup) fun B' hB' h => ?_
    exact eq_of_certifiedFrom hV hB' hB (hd ▸ h) (certifiedFrom_of_support hV hA hAr hsup)
  · rw [hdir] at hund
    cases hund
    cases hst

end Rules

/-! ## Later views decide as earlier ones

A later view has more blocks but the same history below each old block, so
blames and support only grow, certificates stay certificates, and what an
anchor certifies does not change. -/

section Extends

variable {s' : DagState} {slot : Slot}

theorem mem_atSlot_of_extends (he : s.Extends s') {B : Block}
    (hB : B ∈ s.getUncommittedBlocksAtSlot slot) : B ∈ s'.getUncommittedBlocksAtSlot slot := by
  rw [mem_getUncommittedBlocksAtSlot] at hB ⊢
  exact ⟨he.recent_subset B hB.1, hB.2⟩

theorem mem_blocksAtRound_of_extends (he : s.Extends s') {r : ℕ} {B : Block}
    (hB : B ∈ s.blocksAtRound r) : B ∈ s'.blocksAtRound r := by
  rw [mem_blocksAtRound] at hB ⊢
  exact ⟨he.recent_subset B hB.1, hB.2⟩

theorem blameAuthors_subset (he : s.Extends s') (r leader : ℕ) :
    blameAuthors s r leader ⊆ blameAuthors s' r leader := by
  intro x hx
  simp only [blameAuthors, List.mem_toFinset, List.mem_map, List.mem_filter] at hx ⊢
  obtain ⟨X, ⟨hX, hblame⟩, rfl⟩ := hx
  exact ⟨X, ⟨mem_blocksAtRound_of_extends he hX, hblame⟩, rfl⟩

theorem certificateAuthors_subset (he : s.Extends s') (hD : s.CausalDag) (hD' : s'.CausalDag)
    (d : ℕ) (B : Block) : certificateAuthors s d B ⊆ certificateAuthors s' d B := by
  intro x hx
  simp only [certificateAuthors, List.mem_toFinset, List.mem_map, List.mem_filter,
    decide_eq_true_eq] at hx ⊢
  obtain ⟨C, ⟨hC, hcert⟩, rfl⟩ := hx
  have hCD : C ∈ s.blocks := mem_blocks.mpr (.inr (mem_blocksAtRound.mp hC).1)
  exact ⟨C, ⟨mem_blocksAtRound_of_extends he hC, (certifies_of_extends he hD hD' hCD B).mpr hcert⟩,
    rfl⟩

/-- **An anchor certifies the same blocks in a later view.** -/
theorem certifiedFrom_of_extends (he : s.Extends s') (hD : s.CausalDag) (hD' : s'.CausalDag)
    {A : Block} (hA : A ∈ s.blocks) {d : ℕ} {B : Block} :
    CertifiedFrom s' A d B ↔ CertifiedFrom s A d B := by
  constructor
  · rintro ⟨C, hC', hCr, hreach', hcert'⟩
    have hreach := (he.reach_iff hD hD' hA _).mp hreach'
    -- what the later view reaches from an old block is an old block
    obtain ⟨C₀, hC₀, hC₀ref, -⟩ := hD.reach_block hA hreach
    obtain rfl : C₀ = C := hD'.eq_of_reference_eq (he.mem_blocks hC₀) hC' hC₀ref
    exact ⟨C₀, hC₀, hCr, hreach, (certifies_of_extends he hD hD' hC₀ B).mp hcert'⟩
  · rintro ⟨C, hC, hCr, hreach, hcert⟩
    exact ⟨C, he.mem_blocks hC, hCr, (he.reach_iff hD hD' hA _).mpr hreach,
      (certifies_of_extends he hD hD' hC B).mpr hcert⟩

/-- **A direct decision survives in a later view**: blames only grow, and a
supported block keeps its certificates, which exclude blames there. -/
theorem tryDirectDecide_of_extends (hV : HonestView s F) (hV' : HonestView s' F)
    (he : s.Extends s') (hround : s.lastCommitRound < slot.round + 1)
    (hround' : s'.lastCommitRound < slot.round + 1)
    (hd : c.decisionRound (c.waveNumber slot.round) = slot.round + 2) {st : LeaderStatus}
    (hdir : c.tryDirectDecide s slot = some st) (hst : st.isDecided = true) :
    c.tryDirectDecide s' slot = some st := by
  have hctx := he.context_eq
  rcases tryDirectDecide_cases hV hround hd with ⟨hblame, hskip⟩ | ⟨B, hB, hnot, hsup, hcommit⟩ | hund
  · rw [hdir] at hskip
    cases hskip
    refine tryDirectDecide_of_blamed hV'.quorum_pos hround' ?_
    rw [hctx]
    exact le_trans hblame (Quorum.weight_mono (blameAuthors_subset he _ _))
  · rw [hdir] at hcommit
    cases hcommit
    have hBr : B.round = slot.round := by rw [← slot_of_mem_atSlot hB]; rfl
    have hBa : B.author = slot.authority := by rw [← slot_of_mem_atSlot hB]; rfl
    have hsup' : s'.context.committee.quorumThreshold ≤
        s'.context.committee.weight (certificateAuthors s' (slot.round + 2) B) := by
      rw [hctx]
      exact le_trans hsup (Quorum.weight_mono (certificateAuthors_subset he hV.causal hV'.causal _ _))
    -- a certificate of the old view still certifies, so no quorum blames the leader
    have hnot' : ¬ s'.context.committee.quorumThreshold ≤
        s'.context.committee.weight (blameAuthors s' (slot.round + 1) slot.authority) := by
      obtain ⟨C, hC, hCr, hcert⟩ := exists_certificate_of_support hV' hsup'
      have := not_blamed_of_certifies hV' hC (by omega) hcert
      rwa [hBr, hBa] at this
    exact tryDirectDecide_of_supported hV' hround' hd hnot' (mem_atSlot_of_extends he hB) hsup'
  · rw [hdir] at hund
    cases hund
    cases hst

/-- **An anchor decides the same in a later view.** Its history, the
certificates in it, and the blocks they certify are those of the earlier
view. -/
theorem decideLeaderFromAnchor_of_extends (hV : HonestView s F) (hV' : HonestView s' F)
    (he : s.Extends s') (hd : c.decisionRound (c.waveNumber slot.round) = slot.round + 2)
    {A : Block} (hA : A ∈ s.blocks) :
    c.decideLeaderFromAnchor s' A slot = c.decideLeaderFromAnchor s A slot := by
  have hA' := he.mem_blocks hA
  rcases decideLeaderFromAnchor_cases hV hd hA with ⟨B, hB, hcert, hcommit⟩ | ⟨hnone, hskip⟩
  · rw [hcommit]
    refine decideLeaderFromAnchor_of_certifiedFrom hV'.causal hV'.quorum_pos hA'
      (mem_atSlot_of_extends he hB) (hd ▸ (certifiedFrom_of_extends he hV.causal hV'.causal hA).mpr hcert)
      fun B' hB' h => ?_
    exact eq_of_certifiedFrom hV' hB' (mem_atSlot_of_extends he hB) (hd ▸ h)
      ((certifiedFrom_of_extends he hV.causal hV'.causal hA).mpr hcert)
  · rw [hskip]
    refine decideLeaderFromAnchor_of_not_certifiedFrom hV'.causal hV'.quorum_pos hA' fun B hB h => ?_
    have hcert := (certifiedFrom_of_extends he hV.causal hV'.causal hA).mp (hd ▸ h)
    -- the certified block is an old block, hence a block of the slot in the old view
    obtain ⟨C, hC, -, -, hCcert⟩ := hcert
    obtain ⟨b, hb, hbref⟩ := exists_block_of_certifies hV hC hCcert
    obtain rfl : b = B := hV'.causal.eq_of_reference_eq (he.mem_blocks hb) (mem_blocks_of_mem_atSlot hB)
      hbref
    have hBold : b ∈ s.getUncommittedBlocksAtSlot slot := by
      rw [mem_getUncommittedBlocksAtSlot] at hB ⊢
      refine ⟨(mem_recent_iff_of_round_ne hV.causal ?_).mpr hb, hB.2⟩
      exact Nat.ne_of_gt (hV'.causal.round_pos_of_mem_recent hB.1)
    exact hnone b hBold (by rw [← hd]; exact (certifiedFrom_of_extends he hV.causal hV'.causal hA).mp h)

end Extends

/-! ## The indirect rule over a sequence of statuses

`try_indirect_decide` walks the statuses of the leaders above, lowest first:
it passes over those less than a wave above and the skipped ones, gives up at
an undecided one, and decides from the first committed one. So what it
decides, it decides from one committed anchor of the sequence; and a later
view whose sequence agrees wherever the earlier one was decided reaches the
same anchor. -/

section Indirect

variable {slot : Slot}

/-- The committed anchors of a sequence of statuses are blocks of the
state. -/
def AnchorsIn (s : DagState) (l : List LeaderStatus) : Prop := ∀ A, LeaderStatus.commit A ∈ l → A ∈ s.blocks

/-- A status of a later view refines one of the earlier view: same round,
and the same status wherever the earlier one was decided. -/
def Refines (x y : LeaderStatus) : Prop := x.round = y.round ∧ (x.isDecided = true → y = x)

theorem AnchorsIn.tail {x : LeaderStatus} {l : List LeaderStatus} (h : AnchorsIn s (x :: l)) :
    AnchorsIn s l := fun A hA => h A (List.mem_cons_of_mem _ hA)

/-- **The indirect rule decides from one anchor, or not at all**, and never
panics in an honest view. -/
theorem tryIndirectDecide_cases (hV : HonestView s F)
    (hd : c.decisionRound (c.waveNumber slot.round) = slot.round + 2) :
    ∀ (l : List LeaderStatus), AnchorsIn s l →
      c.tryIndirectDecide s slot l = some (.undecided slot) ∨
        ∃ A, LeaderStatus.commit A ∈ l ∧ slot.round + c.options.waveLength ≤ A.round ∧
          c.tryIndirectDecide s slot l = c.decideLeaderFromAnchor s A slot
  | [], _ => .inl rfl
  | x :: l, hl => by
    have ih := fun h => tryIndirectDecide_cases hV hd l h
    -- the cases in which the walk goes on to the rest of the sequence
    have hnext : c.tryIndirectDecide s slot (x :: l) = c.tryIndirectDecide s slot l →
        c.tryIndirectDecide s slot (x :: l) = some (.undecided slot) ∨
          ∃ A, LeaderStatus.commit A ∈ x :: l ∧ slot.round + c.options.waveLength ≤ A.round ∧
            c.tryIndirectDecide s slot (x :: l) = c.decideLeaderFromAnchor s A slot := by
      intro heq
      rw [heq]
      rcases ih hl.tail with h | ⟨A, hA, hAr, h⟩
      · exact .inl h
      · exact .inr ⟨A, List.mem_cons_of_mem _ hA, hAr, h⟩
    by_cases habove : slot.round + c.options.waveLength ≤ x.round
    · cases x with
      | commit A =>
        refine .inr ⟨A, List.mem_cons_self, habove, ?_⟩
        simp only [tryIndirectDecide, if_pos habove]
      | skip t => exact hnext (by simp only [tryIndirectDecide, if_pos habove])
      | undecided t => exact .inl (by simp only [tryIndirectDecide, if_pos habove])
    · exact hnext (by simp only [tryIndirectDecide, if_neg habove])

/-- **The indirect rule of a later view reaches the same anchor.** If the
earlier view decides from the statuses `l`, a later view whose statuses start
with a refinement of `l` finds the same committed anchor first. -/
theorem tryIndirectDecide_of_refines {s' : DagState} {st : LeaderStatus} :
    ∀ {l l' : List LeaderStatus}, List.Forall₂ Refines l l' → AnchorsIn s l →
      ∀ (m : List LeaderStatus), c.tryIndirectDecide s slot l = some st → st.isDecided = true →
        ∃ A ∈ s.blocks, slot.round + c.options.waveLength ≤ A.round ∧
          c.decideLeaderFromAnchor s A slot = some st ∧
          c.tryIndirectDecide s' slot (l' ++ m) = c.decideLeaderFromAnchor s' A slot
  | [], [], .nil, _, m, h, hst => by
    rw [tryIndirectDecide] at h
    cases h
    cases hst
  | x :: l, y :: l', .cons ⟨hround, hxy⟩ hrest, hl, m, h, hst => by
    rw [List.cons_append]
    by_cases habove : slot.round + c.options.waveLength ≤ x.round
    · cases x with
      | commit A =>
        -- a committed status is decided, so the later one is the same anchor
        rw [hxy rfl]
        simp only [tryIndirectDecide, if_pos habove] at h ⊢
        exact ⟨A, hl A List.mem_cons_self, habove, h, rfl⟩
      | skip t =>
        rw [hxy rfl]
        simp only [tryIndirectDecide, if_pos habove] at h ⊢
        exact tryIndirectDecide_of_refines hrest hl.tail m h hst
      | undecided t =>
        simp only [tryIndirectDecide, if_pos habove, Option.some.injEq] at h
        subst h
        cases hst
    · have habove' : ¬ slot.round + c.options.waveLength ≤ y.round := hround ▸ habove
      simp only [tryIndirectDecide, if_neg habove']
      simp only [tryIndirectDecide, if_neg habove] at h
      exact tryIndirectDecide_of_refines hrest hl.tail m h hst

/-- What a rule returns for a slot: a status of the slot's round, and, when
it commits, a block of the state. -/
def StatusOf (s : DagState) (slot : Slot) (st : LeaderStatus) : Prop :=
  st.round = slot.round ∧ ∀ B, st = .commit B → B ∈ s.blocks

theorem statusOf_decideLeaderFromAnchor (hV : HonestView s F)
    (hd : c.decisionRound (c.waveNumber slot.round) = slot.round + 2) {A : Block}
    (hA : A ∈ s.blocks) : ∃ st, c.decideLeaderFromAnchor s A slot = some st ∧ StatusOf s slot st := by
  rcases decideLeaderFromAnchor_cases hV hd hA with ⟨B, hB, -, h⟩ | ⟨-, h⟩
  · refine ⟨_, h, ?_, fun B' hB' => ?_⟩
    · show B.round = slot.round
      rw [← slot_of_mem_atSlot hB]
      rfl
    · cases hB'
      exact mem_blocks_of_mem_atSlot hB
  · exact ⟨_, h, rfl, fun B hB => by cases hB⟩

/-- **The direct rule returns a status of the slot** in an honest view. -/
theorem statusOf_tryDirectDecide (hV : HonestView s F) (hround : s.lastCommitRound < slot.round + 1)
    (hd : c.decisionRound (c.waveNumber slot.round) = slot.round + 2) :
    ∃ st, c.tryDirectDecide s slot = some st ∧ StatusOf s slot st := by
  rcases tryDirectDecide_cases hV hround hd with ⟨-, h⟩ | ⟨B, hB, -, -, h⟩ | h
  · exact ⟨_, h, rfl, fun B hB => by cases hB⟩
  · refine ⟨_, h, ?_, fun B' hB' => ?_⟩
    · show B.round = slot.round
      rw [← slot_of_mem_atSlot hB]
      rfl
    · cases hB'
      exact mem_blocks_of_mem_atSlot hB
  · exact ⟨_, h, rfl, fun B hB => by cases hB⟩

/-- **The indirect rule returns a status of the slot** in an honest view. -/
theorem statusOf_tryIndirectDecide (hV : HonestView s F)
    (hd : c.decisionRound (c.waveNumber slot.round) = slot.round + 2) {l : List LeaderStatus}
    (hl : AnchorsIn s l) : ∃ st, c.tryIndirectDecide s slot l = some st ∧ StatusOf s slot st := by
  rcases tryIndirectDecide_cases hV hd l hl with h | ⟨A, hA, -, h⟩
  · exact ⟨_, h, rfl, fun B hB => by cases hB⟩
  · rw [h]
    exact statusOf_decideLeaderFromAnchor hV hd (hl A hA)

end Indirect

end BaseCommitter

end Sui
