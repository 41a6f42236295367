import Sui.Consensus.CommitSafety

/-!
# The universal committer (`universal_committer.rs`)

`UniversalCommitter::try_decide` runs the base committers over the elected
slots above the last decided one, from the highest round down and, within a
round, from the last committer to the first. Each slot is decided by the
direct rule or else by the indirect rule over the statuses decided so far,
which are kept lowest first; the result is the longest prefix of decided
leaders, genesis-round leaders passed over.

The committers come from `UniversalCommitterBuilder`: waves of the default
length three, one committer per leader offset and, with pipelining, per round
offset.

**Safety** (`tryDecide_prefix_of_extends`): on a causal DAG of a v2 committee whose
authorities outside a set of at most `f` stake do not equivocate, the
decided sequence of a view is a prefix of the decided sequence of every later
view with the same property, and neither panics. The later view visits the
same slots and more above them; slot by slot, from the top, whatever the
earlier view decided the later one decides the same way
(`decideSlot_refines`), and the cut at the first undecided leader keeps the
earlier sequence a prefix of the later one (`decidedLeaders_prefix_of_refines`).
-/

namespace Sui

/-- `UniversalCommitter`: the base committers. The context and the DAG state
are those of the `DagState` it is run on. -/
structure UniversalCommitter where
  /-- one committer per pipeline stage and leader offset -/
  committers : List BaseCommitter

/-- `UniversalCommitterBuilder`. -/
structure UniversalCommitterBuilder where
  /-- the leader schedule shared by all committers -/
  leaderSchedule : LeaderSchedule
  /-- the length of a wave -/
  waveLength : ℕ
  /-- the number of leaders per round -/
  numberOfLeaders : ℕ
  /-- whether to pipeline waves -/
  pipeline : Bool

namespace UniversalCommitterBuilder

/-- `UniversalCommitterBuilder::new`: one leader, no pipeline. -/
def new (leaderSchedule : LeaderSchedule) : UniversalCommitterBuilder :=
  { leaderSchedule, waveLength := defaultWaveLength, numberOfLeaders := 1, pipeline := false }

/-- `UniversalCommitterBuilder::with_number_of_leaders`. -/
def withNumberOfLeaders (b : UniversalCommitterBuilder) (numberOfLeaders : ℕ) :
    UniversalCommitterBuilder :=
  { b with numberOfLeaders := numberOfLeaders }

/-- `UniversalCommitterBuilder::with_pipeline`. -/
def withPipeline (b : UniversalCommitterBuilder) (pipeline : Bool) : UniversalCommitterBuilder :=
  { b with pipeline := pipeline }

/-- `UniversalCommitterBuilder::build`: a committer per round offset of the
pipeline and per leader offset. -/
def build (b : UniversalCommitterBuilder) : UniversalCommitter :=
  let pipelineStages := if b.pipeline then b.waveLength else 1
  { committers := (List.range pipelineStages).flatMap fun roundOffset =>
      (List.range b.numberOfLeaders).map fun leaderOffset =>
        { leaderSchedule := b.leaderSchedule,
          options := { waveLength := b.waveLength, leaderOffset, roundOffset } } }

@[simp] theorem new_waveLength (leaderSchedule : LeaderSchedule) :
    (new leaderSchedule).waveLength = defaultWaveLength := rfl

@[simp] theorem withNumberOfLeaders_waveLength (b : UniversalCommitterBuilder) (n : ℕ) :
    (b.withNumberOfLeaders n).waveLength = b.waveLength := rfl

@[simp] theorem withPipeline_waveLength (b : UniversalCommitterBuilder) (p : Bool) :
    (b.withPipeline p).waveLength = b.waveLength := rfl

/-- Every committer built has the builder's wave length. -/
theorem waveLength_of_mem_build (b : UniversalCommitterBuilder) {c : BaseCommitter}
    (hc : c ∈ b.build.committers) : c.options.waveLength = b.waveLength := by
  simp only [build, List.mem_flatMap, List.mem_map] at hc
  obtain ⟨-, -, -, -, rfl⟩ := hc
  rfl

end UniversalCommitterBuilder

namespace UniversalCommitter

variable (uc : UniversalCommitter) (s : DagState)

/-- One round of the outer loop of `try_decide`: the committers from the
last, each with the slot it elects for the round, if any. -/
def slotsAtRound (round : ℕ) : List (Slot × BaseCommitter) :=
  uc.committers.reverse.filterMap fun committer =>
    (committer.electLeader round).map fun slot => (slot, committer)

/-- The elected slots `try_decide` visits, in the order of its loops: rounds
from `highestRound` down to `lastRound`. -/
def slotsToDecide (lastRound highestRound : ℕ) : List (Slot × BaseCommitter) :=
  (List.range' lastRound (highestRound + 1 - lastRound)).reverse.flatMap uc.slotsAtRound

/-- The body of the inner loop of `try_decide` for one slot: the direct rule,
and the indirect rule over the statuses decided so far if the direct rule is
undecided. -/
def decideSlot (committer : BaseCommitter) (slot : Slot) (leaders : List (LeaderStatus × Decision)) :
    Option (LeaderStatus × Decision) := do
  let status ← committer.tryDirectDecide s slot
  if status.isDecided then pure (status, .direct)
  else
    let status ← committer.tryIndirectDecide s slot (leaders.map (·.1))
    pure (status, .indirect)

/-- The loops of `try_decide` over the elected slots, pushing each status to
the front of `leaders` and stopping at the last decided slot. -/
def decideLoop (lastDecided : Slot) :
    List (Slot × BaseCommitter) → List (LeaderStatus × Decision) →
      Option (List (LeaderStatus × Decision))
  | [], leaders => some leaders
  | (slot, committer) :: rest, leaders =>
    -- now that we reached the last committed leader we can stop the commit rule
    if slot = lastDecided then some leaders
    else do
      let leader ← decideSlot s committer slot leaders
      decideLoop lastDecided rest (leader :: leaders)

/-- The longest prefix of decided leaders, passing over genesis-round ones. -/
def decidedLeaders : List (LeaderStatus × Decision) → List DecidedLeader
  | [] => []
  | (leader, decision) :: rest =>
    if leader.round = genesisRound then decidedLeaders rest
    else
      match leader.intoDecidedLeader (decision = .direct) with
      | some decidedLeader => decidedLeader :: decidedLeaders rest
      | none => []

/-- The lowest round `try_decide` visits. With one leader per round the round
of the last decided leader is not revisited. -/
def lastRound (lastDecided : Slot) : ℕ :=
  match s.context.protocolConfig.numLeadersPerRound with
  | some 1 => lastDecided.round + 1
  | _ => lastDecided.round

/-- `UniversalCommitter::try_decide`: up to two rounds below the highest
accepted round, since a direct decision at round `r` needs blocks of round
`r + 2`. -/
def tryDecide (lastDecided : Slot) : Option (List DecidedLeader) := do
  let highestAcceptedRound := s.highestAcceptedRound
  let leaders ← decideLoop s lastDecided
    (uc.slotsToDecide (lastRound s lastDecided) (highestAcceptedRound - 2)) []
  pure (decidedLeaders leaders)

/-! ## The slots visited

The later view visits the slots of the earlier one, preceded by those of the
rounds it has accepted since. -/

variable {uc}

theorem mem_slotsAtRound {round : ℕ} {p : Slot × BaseCommitter} :
    p ∈ uc.slotsAtRound round ↔ p.2 ∈ uc.committers ∧ p.2.electLeader round = some p.1 := by
  obtain ⟨slot, c⟩ := p
  simp only [slotsAtRound, List.mem_filterMap, List.mem_reverse, Option.map_eq_some_iff,
    Prod.mk.injEq]
  constructor
  · rintro ⟨c', hc', slot', hslot', rfl, rfl⟩
    exact ⟨hc', hslot'⟩
  · rintro ⟨hc, hslot⟩
    exact ⟨c, hc, slot, hslot, rfl, rfl⟩

theorem mem_slotsToDecide {lo hi : ℕ} {p : Slot × BaseCommitter} :
    p ∈ uc.slotsToDecide lo hi ↔
      p.2 ∈ uc.committers ∧ p.2.electLeader p.1.round = some p.1 ∧ lo ≤ p.1.round ∧ p.1.round ≤ hi := by
  simp only [slotsToDecide, List.mem_flatMap, List.mem_reverse, List.mem_range'_1, mem_slotsAtRound]
  constructor
  · rintro ⟨round, ⟨hlo, hhi⟩, hc, hslot⟩
    obtain rfl := BaseCommitter.round_of_electLeader _ hslot
    exact ⟨hc, hslot, hlo, by omega⟩
  · rintro ⟨hc, hslot, hlo, hhi⟩
    exact ⟨p.1.round, ⟨hlo, by omega⟩, hc, hslot⟩

theorem slotsToDecide_eq_nil {lo hi : ℕ} (h : hi < lo) : uc.slotsToDecide lo hi = [] := by
  rw [slotsToDecide, show hi + 1 - lo = 0 by omega]
  rfl

/-- Raising the highest round adds slots of the new rounds in front. -/
theorem slotsToDecide_append (lo : ℕ) {hi hi' : ℕ} (h : hi ≤ hi') :
    ∃ M, uc.slotsToDecide lo hi' = M ++ uc.slotsToDecide lo hi ∧ ∀ p ∈ M, hi < p.1.round := by
  have hlen : hi' + 1 - lo = (hi + 1 - lo) + (hi' + 1 - lo - (hi + 1 - lo)) := by omega
  refine ⟨(List.range' (lo + (hi + 1 - lo)) (hi' + 1 - lo - (hi + 1 - lo))).reverse.flatMap
    uc.slotsAtRound, ?_, ?_⟩
  · have hsplit := @List.range'_append lo (hi + 1 - lo) (hi' + 1 - lo - (hi + 1 - lo)) 1
    rw [Nat.one_mul, ← hlen] at hsplit
    rw [slotsToDecide, slotsToDecide, ← hsplit, List.reverse_append, List.flatMap_append]
  · intro p hp
    simp only [List.mem_flatMap, List.mem_reverse, List.mem_range'_1, mem_slotsAtRound] at hp
    obtain ⟨round, ⟨hlo, -⟩, -, hslot⟩ := hp
    rw [BaseCommitter.round_of_electLeader _ hslot]
    omega

/-- Slots that are not the last decided one are visited one after another. -/
theorem decideLoop_append {ld : Slot} {L : List (Slot × BaseCommitter)} :
    ∀ {M : List (Slot × BaseCommitter)} {acc : List (LeaderStatus × Decision)},
      (∀ p ∈ M, p.1 ≠ ld) →
        decideLoop s ld (M ++ L) acc = (decideLoop s ld M acc).bind (decideLoop s ld L)
  | [], acc, _ => rfl
  | (slot, c) :: M, acc, hM => by
    have hslot : slot ≠ ld := hM _ List.mem_cons_self
    rw [List.cons_append, decideLoop, decideLoop, if_neg hslot, if_neg hslot]
    cases decideSlot s c slot acc with
    | none => rfl
    | some leader => exact decideLoop_append fun p hp => hM p (List.mem_cons_of_mem _ hp)

theorem lastRound_bounds (ld : Slot) : ld.round ≤ lastRound s ld ∧ lastRound s ld ≤ ld.round + 1 := by
  unfold lastRound
  split <;> omega

/-! ## One slot

On an honest view, the rules run on a slot elected by a committer with waves
of three rounds, above the last commit, never panic; and what the earlier
view decides for it, the later view decides the same way. -/

open BaseCommitter

/-- A slot as `try_decide` visits it in `s`: elected by a committer with
waves of three rounds, above the last commit. -/
structure Visitable (s : DagState) (p : Slot × BaseCommitter) : Prop where
  waveLength_eq : p.2.options.waveLength = defaultWaveLength
  elected : p.2.electLeader p.1.round = some p.1
  above_commit : s.lastCommitRound < p.1.round + 1

theorem Visitable.decisionRound {p : Slot × BaseCommitter} (hp : Visitable s p) :
    p.2.decisionRound (p.2.waveNumber p.1.round) = p.1.round + 2 :=
  (decisionRound_of_electLeader _ hp.waveLength_eq hp.elected).2

theorem visitable_of_mem_slotsToDecide
    (hwave : ∀ c ∈ uc.committers, c.options.waveLength = defaultWaveLength) {lo hi : ℕ}
    (hlo : s.lastCommitRound ≤ lo) {p : Slot × BaseCommitter} (hp : p ∈ uc.slotsToDecide lo hi) :
    Visitable s p := by
  obtain ⟨hc, hslot, hplo, -⟩ := mem_slotsToDecide.mp hp
  exact ⟨hwave _ hc, hslot, by omega⟩

variable {s} {F : Finset ℕ} {c : BaseCommitter} {slot : Slot} {acc : List (LeaderStatus × Decision)}

theorem decideSlot_of_decided {st : LeaderStatus} (hdir : c.tryDirectDecide s slot = some st)
    (hst : st.isDecided = true) : decideSlot s c slot acc = some (st, .direct) := by
  simp only [decideSlot, hdir, hst, Option.bind_eq_bind, Option.bind_some, if_true, Option.pure_def]

theorem decideSlot_of_undecided {st : LeaderStatus} (hdir : c.tryDirectDecide s slot = some st)
    (hst : st.isDecided = false) :
    decideSlot s c slot acc = (c.tryIndirectDecide s slot (acc.map (·.1))).map (·, .indirect) := by
  simp only [decideSlot, hdir, hst, Option.bind_eq_bind, Option.bind_some, Bool.false_eq_true,
    if_false, Option.pure_def]
  cases c.tryIndirectDecide s slot (acc.map (·.1)) <;> rfl

theorem anchorsIn_cons {x : LeaderStatus} {l : List LeaderStatus} (hx : StatusOf s slot x)
    (hl : AnchorsIn s l) : AnchorsIn s (x :: l) := by
  intro A hA
  rcases List.mem_cons.mp hA with hA | hA
  · exact hx.2 A hA.symm
  · exact hl A hA

/-- **A visited slot gets a status** of its own round in an honest view. -/
theorem decideSlot_spec (hV : HonestView s F) (hp : Visitable s (slot, c))
    (hacc : AnchorsIn s (acc.map (·.1))) :
    ∃ leader, decideSlot s c slot acc = some leader ∧ StatusOf s slot leader.1 := by
  obtain ⟨st, hdir, hSt⟩ := statusOf_tryDirectDecide hV hp.above_commit hp.decisionRound
  cases hst : st.isDecided with
  | true => exact ⟨_, decideSlot_of_decided hdir hst, hSt⟩
  | false =>
    obtain ⟨st', hind, hSt'⟩ := statusOf_tryIndirectDecide hV hp.decisionRound hacc
    exact ⟨(st', .indirect), by rw [decideSlot_of_undecided hdir hst, hind]; rfl, hSt'⟩

variable {s' : DagState} {a' m : List (LeaderStatus × Decision)}

/-- **A later view decides a slot as the earlier one did.** A direct decision
survives; an indirect one came from a committed anchor that the later
statuses reach first, and if the later view decides the slot directly
instead, that anchor agrees with the direct rule. -/
theorem decideSlot_refines (hV : HonestView s F) (hV' : HonestView s' F) (he : s.Extends s')
    (hp : Visitable s (slot, c)) (hp' : Visitable s' (slot, c))
    (hR : List.Forall₂ (fun x y => Refines x.1 y.1) acc a') (hacc : AnchorsIn s (acc.map (·.1)))
    {leader leader' : LeaderStatus × Decision} (h : decideSlot s c slot acc = some leader)
    (h' : decideSlot s' c slot (a' ++ m) = some leader') (hdec : leader.1.isDecided = true) :
    leader'.1 = leader.1 := by
  have hd := hp.decisionRound
  obtain ⟨st, hdir, -⟩ := statusOf_tryDirectDecide hV hp.above_commit hd
  obtain ⟨st', hdir', -⟩ := statusOf_tryDirectDecide hV' hp'.above_commit hd
  cases hst : st.isDecided with
  | true =>
    rw [decideSlot_of_decided hdir hst] at h
    cases h
    have hsame := tryDirectDecide_of_extends hV hV' he hp.above_commit hp'.above_commit hd hdir hst
    rw [decideSlot_of_decided hsame hst] at h'
    cases h'
    rfl
  | false =>
    rw [decideSlot_of_undecided hdir hst] at h
    obtain ⟨st₁, hind, rfl⟩ := Option.map_eq_some_iff.mp h
    have hR' : List.Forall₂ Refines (acc.map (·.1)) (a'.map (·.1)) :=
      List.forall₂_map_left_iff.mpr (List.forall₂_map_right_iff.mpr hR)
    obtain ⟨A, hA, hAr, hanc, hind'⟩ := tryIndirectDecide_of_refines hR' hacc (m.map (·.1)) hind hdec
    have hanc' : c.decideLeaderFromAnchor s' A slot = some st₁ :=
      (decideLeaderFromAnchor_of_extends hV hV' he hd hA).trans hanc
    rw [← List.map_append, hanc'] at hind'
    cases hst' : st'.isDecided with
    | true =>
      rw [decideSlot_of_decided hdir' hst'] at h'
      cases h'
      -- the anchor is above the decision round, where it agrees with the direct rule
      have hw : c.options.waveLength = 3 := hp.waveLength_eq
      have hAr' : slot.round + 2 < A.round := by
        dsimp only at hAr
        omega
      have hdirect := decideLeaderFromAnchor_of_direct hV' hp'.above_commit hd (he.mem_blocks hA) hAr'
        hdir' hst'
      rw [hanc'] at hdirect
      exact (Option.some.inj hdirect).symm
    | false =>
      rw [decideSlot_of_undecided hdir' hst', hind'] at h'
      cases h'
      rfl

/-! ## The loops

Run over the visited slots from the top, the loop keeps the committed
anchors of its statuses in the state, and the later view's statuses refine
the earlier view's slot by slot. -/

variable {ld : Slot}

/-- **The loop never panics** on visitable slots of an honest view. -/
theorem decideLoop_spec (hV : HonestView s F) :
    ∀ {L : List (Slot × BaseCommitter)} {acc : List (LeaderStatus × Decision)},
      (∀ p ∈ L, Visitable s p) → AnchorsIn s (acc.map (·.1)) →
        ∃ res, decideLoop s ld L acc = some res ∧ AnchorsIn s (res.map (·.1))
  | [], acc, _, hacc => ⟨acc, rfl, hacc⟩
  | (slot, c) :: L, acc, hL, hacc => by
    rw [decideLoop]
    split_ifs
    · exact ⟨acc, rfl, hacc⟩
    · obtain ⟨leader, hleader, hSt⟩ := decideSlot_spec hV (hL _ List.mem_cons_self) hacc
      rw [hleader, Option.bind_eq_bind, Option.bind_some]
      exact decideLoop_spec hV (fun p hp => hL p (List.mem_cons_of_mem _ hp)) (anchorsIn_cons hSt hacc)

/-- **The later view's loop refines the earlier one's.** Started from
statuses refining the earlier ones, followed by statuses `m` of the slots
above, the later view's loop over the same slots ends in statuses refining
the earlier view's, followed by `m`. -/
theorem decideLoop_refines (hV : HonestView s F) (hV' : HonestView s' F) (he : s.Extends s') :
    ∀ {L : List (Slot × BaseCommitter)} {acc a' res : List (LeaderStatus × Decision)},
      (∀ p ∈ L, Visitable s p) → (∀ p ∈ L, Visitable s' p) →
      List.Forall₂ (fun x y => Refines x.1 y.1) acc a' → AnchorsIn s (acc.map (·.1)) →
      AnchorsIn s' ((a' ++ m).map (·.1)) → decideLoop s ld L acc = some res →
        ∃ res', decideLoop s' ld L (a' ++ m) = some (res' ++ m) ∧
          List.Forall₂ (fun x y => Refines x.1 y.1) res res'
  | [], acc, a', res, _, _, hR, _, _, h => by
    cases h
    exact ⟨a', rfl, hR⟩
  | (slot, c) :: L, acc, a', res, hL, hL', hR, hacc, hacc', h => by
    rw [decideLoop] at h ⊢
    split_ifs at h ⊢
    · cases h
      exact ⟨a', rfl, hR⟩
    · have hp := hL _ List.mem_cons_self
      have hp' := hL' _ List.mem_cons_self
      obtain ⟨leader, hleader, hSt⟩ := decideSlot_spec hV hp hacc
      obtain ⟨leader', hleader', hSt'⟩ := decideSlot_spec hV' hp' hacc'
      rw [hleader, Option.bind_eq_bind, Option.bind_some] at h
      rw [hleader', Option.bind_eq_bind, Option.bind_some]
      have hrefines : Refines leader.1 leader'.1 :=
        ⟨hSt.1.trans hSt'.1.symm, fun hdec => decideSlot_refines hV hV' he hp hp' hR hacc hleader
          hleader' hdec⟩
      exact decideLoop_refines hV hV' he (fun p hp => hL p (List.mem_cons_of_mem _ hp))
        (fun p hp => hL' p (List.mem_cons_of_mem _ hp)) (.cons hrefines hR) (anchorsIn_cons hSt hacc)
        (anchorsIn_cons hSt' hacc') h

/-- Turning a status into a decided leader does not depend on the
direct/indirect flag, up to the outcome. -/
theorem outcome_intoDecidedLeader (x : LeaderStatus) (direct direct' : Bool) :
    (x.intoDecidedLeader direct).map DecidedLeader.outcome =
      (x.intoDecidedLeader direct').map DecidedLeader.outcome := by
  cases x <;> rfl

/-- **The decided prefix of refined statuses extends the earlier one.** The
genesis round is passed over in both; a decided status is the same in both;
the earlier prefix ends at its first undecided status. -/
theorem decidedLeaders_prefix_of_refines :
    ∀ {l l' : List (LeaderStatus × Decision)}, List.Forall₂ (fun x y => Refines x.1 y.1) l l' →
      (decidedLeaders l).map DecidedLeader.outcome <+:
        (decidedLeaders (l' ++ m)).map DecidedLeader.outcome
  | [], [], .nil => List.nil_prefix
  | (x, d) :: l, (y, d') :: l', .cons ⟨hround, hxy⟩ hrest => by
    have ih := decidedLeaders_prefix_of_refines hrest
    rw [List.cons_append]
    by_cases hg : x.round = genesisRound
    · have hg' : y.round = genesisRound := hround ▸ hg
      simp only [decidedLeaders, if_pos hg, if_pos hg']
      exact ih
    · have hg' : ¬ y.round = genesisRound := hround ▸ hg
      simp only [decidedLeaders, if_neg hg, if_neg hg']
      cases hdec : x.isDecided with
      | false =>
        obtain ⟨t, rfl⟩ := LeaderStatus.isDecided_eq_false hdec
        exact List.nil_prefix
      | true =>
        have hyx : y = x := hxy hdec
        rw [hyx]
        have hsome := outcome_intoDecidedLeader x (decide (d = .direct)) (decide (d' = .direct))
        cases hx : x.intoDecidedLeader (decide (d = .direct)) with
        | none =>
          rw [← @LeaderStatus.intoDecidedLeader_isSome x (decide (d = .direct)), hx] at hdec
          cases hdec
        | some dl =>
          cases hx' : x.intoDecidedLeader (decide (d' = .direct)) with
          | none => rw [hx, hx'] at hsome; cases hsome
          | some dl' =>
            rw [hx, hx', Option.map_some, Option.map_some, Option.some.injEq] at hsome
            simp only [List.map_cons, List.cons_prefix_cons]
            exact ⟨hsome, ih⟩

/-! ## The commit sequence -/

theorem tryDecide_eq (uc : UniversalCommitter) (s : DagState) (ld : Slot) :
    uc.tryDecide s ld =
      (decideLoop s ld (uc.slotsToDecide (lastRound s ld) (s.highestAcceptedRound - 2)) []).map
        decidedLeaders := by
  unfold tryDecide
  dsimp only
  cases decideLoop s ld (uc.slotsToDecide (lastRound s ld) (s.highestAcceptedRound - 2)) [] <;> rfl

/-! ## Safety of the commit sequence -/

section Safety

variable {uc : UniversalCommitter} {s s' : DagState} {F : Finset ℕ} {ld : Slot}

theorem lastRound_of_extends (he : s.Extends s') : lastRound s' ld = lastRound s ld := by
  simp only [lastRound, he.context_eq]

/-- **The decided sequence of a view is a prefix of a later view's**, up to
the direct/indirect flags, and neither view panics. The later view visits
slots of new rounds first: if it stops at the last decided slot among them,
the earlier view visits nothing; otherwise it reaches the earlier view's
slots with statuses of its own above them, and decides those slots as the
earlier view did. -/
theorem tryDecide_prefix_of_extends
    (hwave : ∀ c ∈ uc.committers, c.options.waveLength = defaultWaveLength)
    (hV : HonestView s F) (hV' : HonestView s' F) (he : s.Extends s')
    (hlast : s.lastCommitRound ≤ ld.round) (hlast' : s'.lastCommitRound ≤ ld.round) :
    ∃ ds ds', uc.tryDecide s ld = some ds ∧ uc.tryDecide s' ld = some ds' ∧
      ds.map DecidedLeader.outcome <+: ds'.map DecidedLeader.outcome := by
  have hlo := (lastRound_bounds s ld).1
  rw [tryDecide_eq, tryDecide_eq, lastRound_of_extends he]
  set lo := lastRound s ld
  set L := uc.slotsToDecide lo (s.highestAcceptedRound - 2)
  obtain ⟨M, hM, hMr⟩ :=
    @slotsToDecide_append uc lo _ _ (Nat.sub_le_sub_right he.highestAcceptedRound_le 2)
  have hvis : ∀ p ∈ L, Visitable s p := fun p hp =>
    visitable_of_mem_slotsToDecide s hwave (by omega) hp
  have hvis' : ∀ p ∈ M ++ L, Visitable s' p := fun p hp =>
    visitable_of_mem_slotsToDecide s' hwave (by omega) (hM ▸ hp)
  have hnil : ∀ t : DagState, AnchorsIn t (([] : List (LeaderStatus × Decision)).map (·.1)) :=
    fun t A hA => by simp at hA
  obtain ⟨res, hres, -⟩ : ∃ res, decideLoop s ld L [] = some res ∧ _ := decideLoop_spec hV hvis (hnil s)
  rw [hM, hres]
  by_cases hstop : ∃ p ∈ M, p.1 = ld
  · -- the later view stops above the earlier view's rounds, so the earlier view visits no slot
    obtain ⟨p, hp, hpld⟩ := hstop
    have hL : L = [] := slotsToDecide_eq_nil (by have := hMr p hp; rw [hpld] at this; omega)
    rw [hL] at hres
    cases hres
    obtain ⟨res', hres', -⟩ : ∃ res', decideLoop s' ld (M ++ L) [] = some res' ∧ _ :=
      decideLoop_spec hV' hvis' (hnil s')
    exact ⟨[], _, rfl, by rw [hres']; rfl, List.nil_prefix⟩
  · simp only [not_exists, not_and] at hstop
    obtain ⟨m, hm, hmA⟩ : ∃ m, decideLoop s' ld M [] = some m ∧ AnchorsIn s' (m.map (·.1)) :=
      decideLoop_spec hV' (fun p hp => hvis' p (List.mem_append_left _ hp)) (hnil s')
    obtain ⟨res', hres', hR⟩ := decideLoop_refines hV hV' he hvis
      (fun p hp => hvis' p (List.mem_append_right _ hp)) .nil (hnil s) hmA hres
    rw [List.nil_append] at hres'
    rw [decideLoop_append s' hstop, hm, Option.bind_some, hres']
    exact ⟨_, _, rfl, rfl, decidedLeaders_prefix_of_refines hR⟩

variable {c : BaseCommitter} {slot : Slot}

/-- **The rules never panic** on a visited slot of an honest view: in
particular the "more than one supported leader" and "more than one certified
leader" cases cannot occur. -/
theorem rules_isSome (hV : HonestView s F) (hp : Visitable s (slot, c)) :
    (c.tryDirectDecide s slot).isSome ∧ ∀ A ∈ s.blocks, (c.decideLeaderFromAnchor s A slot).isSome := by
  obtain ⟨st, hdir, -⟩ := statusOf_tryDirectDecide hV hp.above_commit hp.decisionRound
  refine ⟨by rw [hdir]; rfl, fun A hA => ?_⟩
  obtain ⟨st', hanc, -⟩ := statusOf_decideLeaderFromAnchor hV hp.decisionRound hA
  rw [hanc]
  rfl

/-- **What a view decides directly, a later view decides alike** by either
rule: the direct rule gives the same status, and the indirect rule, over any
statuses whose committed anchors are blocks of the later view, that status or
none at all. -/
theorem rules_of_tryDirectDecide (hV : HonestView s F) (hV' : HonestView s' F) (he : s.Extends s')
    (hp : Visitable s (slot, c)) (hp' : Visitable s' (slot, c)) {st : LeaderStatus}
    (hdir : c.tryDirectDecide s slot = some st) (hst : st.isDecided = true) :
    c.tryDirectDecide s' slot = some st ∧
      ∀ l, AnchorsIn s' l → c.tryIndirectDecide s' slot l = some st ∨
        c.tryIndirectDecide s' slot l = some (.undecided slot) := by
  have hd := hp.decisionRound
  have hdir' := tryDirectDecide_of_extends hV hV' he hp.above_commit hp'.above_commit hd hdir hst
  refine ⟨hdir', fun l hl => ?_⟩
  rcases tryIndirectDecide_cases hV' hd l hl with h | ⟨A, hA, hAr, h⟩
  · exact .inr h
  · -- the anchor lies above the decision round, where it agrees with the direct rule
    have hw : c.options.waveLength = 3 := hp.waveLength_eq
    have hAr' : slot.round + 2 < A.round := by
      dsimp only at hAr
      omega
    rw [h]
    exact .inl (decideLeaderFromAnchor_of_direct hV' hp'.above_commit hd (hl A hA) hAr' hdir' hst)

end Safety

/-- What the commit rules guarantee a view `s` of the DAG and a later view
`s'`, run with the committers of `uc` from the last decided slot. -/
structure SafeViews (uc : UniversalCommitter) (s s' : DagState) (lastDecided : Slot) : Prop where
  /-- the decided sequence of `s` is a prefix of that of `s'`, up to the
  direct/indirect flags -/
  decided_extends : ∃ ds ds', uc.tryDecide s lastDecided = some ds ∧
    uc.tryDecide s' lastDecided = some ds' ∧
      ds.map DecidedLeader.outcome <+: ds'.map DecidedLeader.outcome
  /-- on a slot `try_decide` may visit, the direct rule and the rule from any
  anchor never panic in either view -/
  no_panic : ∀ c ∈ uc.committers, ∀ slot, c.electLeader slot.round = some slot →
    lastDecided.round ≤ slot.round →
      (c.tryDirectDecide s slot).isSome ∧ (c.tryDirectDecide s' slot).isSome ∧
      (∀ A ∈ s.blocks, (c.decideLeaderFromAnchor s A slot).isSome) ∧
      ∀ A ∈ s'.blocks, (c.decideLeaderFromAnchor s' A slot).isSome
  /-- what `s` decides directly for such a slot, `s'` decides the same by the
  direct rule, and its indirect rule never decides otherwise -/
  direct_stable : ∀ c ∈ uc.committers, ∀ slot, c.electLeader slot.round = some slot →
    lastDecided.round ≤ slot.round → ∀ st, c.tryDirectDecide s slot = some st →
      st.isDecided = true →
        c.tryDirectDecide s' slot = some st ∧
          ∀ l, AnchorsIn s' l → c.tryIndirectDecide s' slot l = some st ∨
            c.tryIndirectDecide s' slot l = some (.undecided slot)

end UniversalCommitter

end Sui
