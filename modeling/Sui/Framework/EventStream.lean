import Sui.MountainRange
import Sui.Framework.Bcs

/-!
# Event streams: the on-chain mountain range and the light client's replay

Each event stream has a head in the accumulator root: a Merkle mountain range
of the merkle roots of the stream's events, checkpoint by checkpoint, the
checkpoint that last wrote it and the number of events. On chain,
`accumulator_settlement::settle_events` inserts a checkpoint's root with
`add_to_mmr`; the light client replays the same insertions with
`apply_stream_updates` and `add_to_stream`, its own copy of the loop and of
`hash_two_to_one_u256`. Both hash the 32 little-endian BCS bytes of the two
values with Blake2b-256 and read the digest back as a little-endian `u256`:
on chain through `bcs::new(..).peel_u256()`, in the light client through
`U256::from_le_bytes`. The hash itself and `build_event_merkle_root` are
parameters of the model, returning 32-byte digests.

* **`addToMmr_eq_ok`** — `add_to_mmr` never aborts and leaves the vector
  `add_to_stream` leaves, because the two hashes agree
  (`hashTwoToOneU256_eq_ok`): the digest's 32 bytes peeled as a `u256` are
  its little-endian value (`u256FromBytes_digest`).
* **`settleAll_eq_applyStreamUpdates`** — settling the checkpoints of a
  stream one by one and replaying them in the light client end at the same
  head, for every run the light client accepts (`Replayable`): non-empty
  batches, one checkpoint per batch, checkpoints not going back once the
  stream has events, and an event count that fits in a `u64`.
  `replay_rejects_older_checkpoint` is a run settled on chain that the light
  client refuses.
* **`foldlM_addToMmr_peaks`** — the insertions from the empty vector build
  `MountainRange.peaks` of the roots inserted, a binary counter of them, when
  no root and no hash is zero.

**Proof shape.** The hash is a pure function of its two inputs on both sides,
so the on-chain carry is the pure carry (`MountainRange.carryM_eq_pure`). A
run is an induction on the batches with one step lemma on each side
(`settleEvents_eq_ok`, `applyStreamUpdates_cons`); `Replayable` of a run gives
`Replayable` of its tail from the head the first batch leaves.
-/

namespace Sui

namespace EventStream

open MoveArith ByteCodec

/-- A Blake2b-256 digest: 32 bytes, as the hash native returns them and as
the Rust `Digest` holds them. -/
structure Digest where
  bytes : List UInt8
  length_eq : bytes.length = 32

/-- An event as the light client receives it (`EventCommitment`). -/
structure EventCommitment where
  checkpointSeq : ℕ
  transactionIdx : ℕ
  eventIdx : ℕ
  digest : Digest

/-- The head of an event stream, the same struct on chain and in the light
client. -/
structure EventStreamHead where
  mmr : List ℕ
  checkpointSeq : ℕ
  numEvents : ℕ
  deriving DecidableEq, Repr

/-- The head of a stream that has no events yet (`EventStreamHead::new`). -/
def EventStreamHead.new : EventStreamHead := ⟨[], 0, 0⟩

/-- The aborts of accumulator_settlement's event functions: its own
assertion, and those of `sui::bcs`, which reads a hash back. -/
inductive Code
  | eNotSystemAddress
  | bcs (code : Bcs.Code)
  deriving DecidableEq, Repr

variable (blake2b256 : List UInt8 → Digest)

/-! ## On chain -/

/-- `u256_from_bytes`: the bytes peeled as a `u256`. -/
def u256FromBytes (bytes : List UInt8) : Except (Abort Code) ℕ :=
  (Prod.fst <$> Bcs.peelU256 (Bcs.new bytes)).mapError (Abort.map Code.bcs)

/-- `hash_two_to_one_u256`: Blake2b-256 of the BCS bytes of the two values,
read back as a `u256`. -/
def hashTwoToOneU256 (left right : ℕ) : Except (Abort Code) ℕ :=
  u256FromBytes (blake2b256 (Bcs.ToBytes.num 32 left ++ Bcs.ToBytes.num 32 right)).bytes

/-- `add_to_mmr`: the loop over the slots carries `new_val` through the full
ones and stops at the first empty one, or pushes it past the end. -/
def addToMmr (newVal : ℕ) (mmr : List ℕ) : Except (Abort Code) (List ℕ) :=
  MountainRange.carryM (hashTwoToOneU256 blake2b256) newVal mmr

/-- `new_stream_head`. -/
def newStreamHead (newRoot eventCountDelta checkpointSeq : ℕ) :
    Except (Abort Code) EventStreamHead := do
  let initialMmr ← addToMmr blake2b256 newRoot []
  pure ⟨initialMmr, checkpointSeq, eventCountDelta⟩

/-- `settle_events` on the accumulator field of one stream, absent or
present: the head the field holds afterwards. -/
def settleEvents (stored : Option EventStreamHead) (sender newRoot eventCountDelta checkpointSeq : ℕ) :
    Except (Abort Code) EventStreamHead := do
  assert (sender = 0) Code.eNotSystemAddress
  match stored with
  | some head =>
    let mmr ← addToMmr blake2b256 newRoot head.mmr
    let numEvents ← add 64 head.numEvents eventCountDelta
    pure ⟨mmr, checkpointSeq, numEvents⟩
  | none => newStreamHead blake2b256 newRoot eventCountDelta checkpointSeq

/-- The checkpoint of a batch of events: that of its first event. -/
def checkpointSeqOf : List EventCommitment → ℕ
  | [] => 0
  | e :: _ => e.checkpointSeq

/-- The settlement of one stream, checkpoint after checkpoint: the system
calls `settle_events` with the merkle root of the checkpoint's events read
little-endian, their number and the checkpoint. -/
def settleAll (buildEventMerkleRoot : List EventCommitment → Digest) :
    Option EventStreamHead → List (List EventCommitment) →
      Except (Abort Code) (Option EventStreamHead)
  | stored, [] => pure stored
  | stored, cpEvents :: events => do
    let head ← settleEvents blake2b256 stored 0 (ofLeBytes (buildEventMerkleRoot cpEvents).bytes)
      cpEvents.length (checkpointSeqOf cpEvents)
    settleAll buildEventMerkleRoot (some head) events

/-! ## In the light client -/

namespace LightClient

/-- The light client's `hash_two_to_one_u256`: the same bytes hashed, the
digest read as a little-endian `U256`. -/
def hashTwoToOneU256 (left right : ℕ) : ℕ :=
  ofLeBytes (blake2b256 (leBytes 32 left ++ leBytes 32 right)).bytes

/-- `add_to_stream`, the light client's copy of the loop of `add_to_mmr`. -/
def addToStream (mmr : List ℕ) (newVal : ℕ) : List ℕ :=
  MountainRange.carry (hashTwoToOneU256 blake2b256) newVal mmr

/-- `apply_stream_updates`: `none` where one of its assertions panics. The
event count is added as a release build does, modulo `2 ^ 64`. -/
def applyStreamUpdates (buildEventMerkleRoot : List EventCommitment → Digest) :
    EventStreamHead → List (List EventCommitment) → Option EventStreamHead
  | head, [] => some head
  | head, cpEvents :: events =>
    match cpEvents.head? with
    | none => none
    | some first =>
      let checkpointSeq := first.checkpointSeq
      if cpEvents.all fun e => e.checkpointSeq == checkpointSeq then
        if checkpointSeq ≥ head.checkpointSeq ∨ head.numEvents = 0 then
          let merkleRoot := ofLeBytes (buildEventMerkleRoot cpEvents).bytes
          applyStreamUpdates buildEventMerkleRoot
            ⟨addToStream blake2b256 head.mmr merkleRoot, checkpointSeq,
              (head.numEvents + cpEvents.length) % 2 ^ 64⟩ events
        else none
      else none

end LightClient

/-! ## The two hashes and the two loops agree -/

/-- A digest peeled as a `u256` is its little-endian value. -/
theorem u256FromBytes_digest (d : Digest) : u256FromBytes d.bytes = .ok (ofLeBytes d.bytes) := by
  have hlt : ofLeBytes d.bytes < 2 ^ (8 * 32) := d.length_eq ▸ ofLeBytes_lt d.bytes
  have hbytes : Bcs.ToBytes.num 32 (ofLeBytes d.bytes) ++ [] = d.bytes := by
    have h := leBytes_ofLeBytes d.bytes
    rw [d.length_eq] at h
    rw [List.append_nil, Bcs.ToBytes.num, h]
  have hread : Bcs.peelU256 (Bcs.new d.bytes) = .ok (ofLeBytes d.bytes, Bcs.new []) := by
    have h := Bcs.roundTrip_peelNum 32 le_rfl (ofLeBytes d.bytes) hlt []
    rw [hbytes] at h
    exact h
  rw [u256FromBytes, hread]
  rfl

theorem hashTwoToOneU256_eq_ok (left right : ℕ) :
    hashTwoToOneU256 blake2b256 left right =
      .ok (LightClient.hashTwoToOneU256 blake2b256 left right) :=
  u256FromBytes_digest _

/-- **`add_to_mmr` is `add_to_stream`**, and never aborts. -/
theorem addToMmr_eq_ok (newVal : ℕ) (mmr : List ℕ) :
    addToMmr blake2b256 newVal mmr = .ok (LightClient.addToStream blake2b256 mmr newVal) :=
  MountainRange.carryM_eq_pure (LightClient.hashTwoToOneU256 blake2b256)
    (hashTwoToOneU256_eq_ok blake2b256) newVal mmr

/-- A hash that never returns zero on chain never returns zero in the light client. -/
theorem lightClient_hash_ne_zero (hhash : ∀ a b, hashTwoToOneU256 blake2b256 a b ≠ .ok 0)
    (a b : ℕ) : LightClient.hashTwoToOneU256 blake2b256 a b ≠ 0 := fun h0 =>
  hhash a b (by rw [hashTwoToOneU256_eq_ok, h0])

/-! ## A run of settlements and its replay -/

/-- The runs the light client accepts from a head: every batch non-empty and
of one checkpoint, the checkpoints not going back (nor behind the head's,
once the stream has events), and the event count within a `u64`. -/
structure Replayable (head : EventStreamHead) (batches : List (List EventCommitment)) : Prop where
  nonempty : ∀ cpEvents ∈ batches, cpEvents ≠ []
  sameCheckpoint : ∀ cpEvents ∈ batches, ∀ e ∈ cpEvents, e.checkpointSeq = checkpointSeqOf cpEvents
  ascending : (batches.map checkpointSeqOf).Pairwise (· ≤ ·)
  notOlder : head.numEvents = 0 ∨ ∀ cpEvents ∈ batches, head.checkpointSeq ≤ checkpointSeqOf cpEvents
  noOverflow : head.numEvents + (batches.map List.length).sum < 2 ^ 64

/-- After its first batch, the rest of an accepted run is accepted from the
head that batch leaves. -/
theorem Replayable.tail {head : EventStreamHead} {cpEvents : List EventCommitment}
    {events : List (List EventCommitment)} (h : Replayable head (cpEvents :: events))
    (mmr : List ℕ) :
    Replayable ⟨mmr, checkpointSeqOf cpEvents, head.numEvents + cpEvents.length⟩ events where
  nonempty cpEvents' hmem := h.nonempty cpEvents' (List.mem_cons_of_mem _ hmem)
  sameCheckpoint cpEvents' hmem := h.sameCheckpoint cpEvents' (List.mem_cons_of_mem _ hmem)
  ascending := (List.pairwise_cons.mp h.ascending).2
  notOlder := Or.inr fun cpEvents' hmem =>
    (List.pairwise_cons.mp h.ascending).1 _ (List.mem_map_of_mem hmem)
  noOverflow := by
    have h := h.noOverflow
    rw [List.map_cons, List.sum_cons] at h
    show head.numEvents + cpEvents.length + (events.map List.length).sum < 2 ^ 64
    omega

/-- One settlement by the system, when the event count fits: the stream's
head, or `EventStreamHead::new` for a new stream, with the root inserted. -/
theorem settleEvents_eq_ok (stored : Option EventStreamHead) (newRoot delta seq : ℕ)
    (hcount : (stored.getD EventStreamHead.new).numEvents + delta < 2 ^ 64) :
    settleEvents blake2b256 stored 0 newRoot delta seq =
      .ok ⟨LightClient.addToStream blake2b256 (stored.getD EventStreamHead.new).mmr newRoot, seq,
        (stored.getD EventStreamHead.new).numEvents + delta⟩ := by
  cases stored with
  | none =>
    -- `new_stream_head` inserts into the empty vector and counts from zero
    rw [Option.getD_none, EventStreamHead.new, Nat.zero_add]
    simp only [settleEvents, newStreamHead, addToMmr_eq_ok, ok_bind]
    rfl
  | some head =>
    rw [Option.getD_some] at hcount ⊢
    simp only [settleEvents, addToMmr_eq_ok, add_eq_ok hcount, ok_bind]
    rfl

/-- One batch of the light client's replay, when its assertions hold. -/
theorem applyStreamUpdates_cons (buildEventMerkleRoot : List EventCommitment → Digest)
    (head : EventStreamHead) (first : EventCommitment) (rest : List EventCommitment)
    (events : List (List EventCommitment))
    (hsame : ∀ e ∈ rest, e.checkpointSeq = first.checkpointSeq)
    (hnewer : first.checkpointSeq ≥ head.checkpointSeq ∨ head.numEvents = 0) :
    LightClient.applyStreamUpdates blake2b256 buildEventMerkleRoot head ((first :: rest) :: events) =
      LightClient.applyStreamUpdates blake2b256 buildEventMerkleRoot
        ⟨LightClient.addToStream blake2b256 head.mmr
            (ofLeBytes (buildEventMerkleRoot (first :: rest)).bytes),
          first.checkpointSeq, (head.numEvents + (rest.length + 1)) % 2 ^ 64⟩ events := by
  have hall : ((first :: rest).all fun e => e.checkpointSeq == first.checkpointSeq) = true := by
    rw [List.all_cons, beq_self_eq_true, Bool.true_and, List.all_eq_true]
    intro e he
    rw [hsame e he, beq_self_eq_true]
  rw [LightClient.applyStreamUpdates, List.head?_cons]
  simp only [hall, if_true, if_pos hnewer, List.length_cons]

/-- **Settlement and replay agree** on every run the light client accepts:
the light client ends at the head the settlements leave, which is
`EventStreamHead::new` with the batches applied when the stream does not
exist yet. The induction is on the batches, from the head each one leaves. -/
theorem settleAll_eq_applyStreamUpdates (buildEventMerkleRoot : List EventCommitment → Digest) :
    ∀ (stored : Option EventStreamHead) (batches : List (List EventCommitment)),
      Replayable (stored.getD EventStreamHead.new) batches →
      ∃ head', LightClient.applyStreamUpdates blake2b256 buildEventMerkleRoot
          (stored.getD EventStreamHead.new) batches = some head' ∧
        (fun s => s.getD EventStreamHead.new) <$>
          settleAll blake2b256 buildEventMerkleRoot stored batches = .ok head'
  | _, [], _ => ⟨_, rfl, rfl⟩
  | stored, cpEvents :: events, h => by
    obtain ⟨first, rest, rfl⟩ := List.exists_cons_of_ne_nil (h.nonempty _ List.mem_cons_self)
    have hfit : (stored.getD EventStreamHead.new).numEvents + (rest.length + 1) < 2 ^ 64 := by
      have h := h.noOverflow
      rw [List.map_cons, List.sum_cons, List.length_cons] at h
      omega
    have hsame : ∀ e ∈ rest, e.checkpointSeq = first.checkpointSeq := fun e he =>
      h.sameCheckpoint _ List.mem_cons_self e (List.mem_cons_of_mem _ he)
    have hnewer : first.checkpointSeq ≥ (stored.getD EventStreamHead.new).checkpointSeq ∨
        (stored.getD EventStreamHead.new).numEvents = 0 :=
      h.notOlder.symm.imp_left fun hall => hall _ List.mem_cons_self
    obtain ⟨head', hreplay, hsettle⟩ :=
      settleAll_eq_applyStreamUpdates buildEventMerkleRoot (some _) events (h.tail _)
    refine ⟨head', ?_, ?_⟩
    · rw [applyStreamUpdates_cons blake2b256 buildEventMerkleRoot _ first rest events hsame hnewer,
        Nat.mod_eq_of_lt hfit]
      exact hreplay
    · rw [settleAll, settleEvents_eq_ok blake2b256 stored _ (first :: rest).length _ hfit, ok_bind]
      exact hsettle

/-- A run settled on chain that the light client refuses: a checkpoint behind
the head's, on a stream that has events. -/
theorem replay_rejects_older_checkpoint :
    LightClient.applyStreamUpdates (fun _ => ⟨List.replicate 32 0, rfl⟩)
        (fun _ => ⟨List.replicate 32 1, rfl⟩) ⟨[], 5, 1⟩
        [[⟨3, 0, 0, ⟨List.replicate 32 0, rfl⟩⟩]] = none ∧
      settleAll (fun _ => ⟨List.replicate 32 0, rfl⟩) (fun _ => ⟨List.replicate 32 1, rfl⟩)
          (some ⟨[], 5, 1⟩) [[⟨3, 0, 0, ⟨List.replicate 32 0, rfl⟩⟩]] =
        .ok (some ⟨[ofLeBytes (List.replicate 32 1)], 3, 2⟩) :=
  ⟨rfl, rfl⟩

/-! ## The mountain range is a binary counter -/

/-- The insertions of `add_to_mmr` into any vector are those of `add_to_stream`. -/
theorem foldlM_addToMmr :
    ∀ (leaves init : List ℕ), leaves.foldlM (fun mmr v => addToMmr blake2b256 v mmr) init =
      .ok (leaves.foldl (LightClient.addToStream blake2b256) init)
  | [], _ => rfl
  | v :: leaves, init => by
    rw [List.foldlM_cons, addToMmr_eq_ok, ok_bind, foldlM_addToMmr leaves, List.foldl_cons]

/-- With no root and no hash zero, the insertions from the empty vector build
the slots of a binary counter of the roots inserted. -/
theorem foldlM_addToMmr_peaks {leaves : List ℕ} (hleaves : ∀ a ∈ leaves, a ≠ 0)
    (hhash : ∀ a b, hashTwoToOneU256 blake2b256 a b ≠ .ok 0) :
    leaves.foldlM (fun mmr v => addToMmr blake2b256 v mmr) [] =
      .ok (MountainRange.peaks (LightClient.hashTwoToOneU256 blake2b256) leaves) := by
  have hrun := MountainRange.foldl_carry_peaks (LightClient.hashTwoToOneU256 blake2b256)
    (lightClient_hash_ne_zero blake2b256 hhash) []
    leaves (by rwa [List.nil_append])
  rw [MountainRange.peaks_nil, List.nil_append] at hrun
  rw [foldlM_addToMmr, ← hrun]
  rfl

/-- **The event stream's mountain range, on chain and in the light client.**
`add_to_mmr` leaves the vector `add_to_stream` leaves; settling a run of
checkpoints and replaying it in the light client end at the same head
whenever the light client accepts the run; and the insertions of nonzero
roots from the empty vector, with a hash that is never zero, leave one entry
per bit of their number, nonzero exactly at the set bits, each the root of
the perfect tree over the block of roots its bit counts. -/
theorem eventStream_mmr_replayed_exactly :
    (∀ (newVal : ℕ) (mmr : List ℕ),
      addToMmr blake2b256 newVal mmr = .ok (LightClient.addToStream blake2b256 mmr newVal)) ∧
    (∀ (buildEventMerkleRoot : List EventCommitment → Digest) (stored : Option EventStreamHead)
        (batches : List (List EventCommitment)),
      Replayable (stored.getD EventStreamHead.new) batches →
      ∃ head', LightClient.applyStreamUpdates blake2b256 buildEventMerkleRoot
          (stored.getD EventStreamHead.new) batches = some head' ∧
        (fun s => s.getD EventStreamHead.new) <$>
          settleAll blake2b256 buildEventMerkleRoot stored batches = .ok head') ∧
    (∀ leaves : List ℕ, (∀ a ∈ leaves, a ≠ 0) → (∀ a b, hashTwoToOneU256 blake2b256 a b ≠ .ok 0) →
      ∃ mmr, leaves.foldlM (fun mmr v => addToMmr blake2b256 v mmr) [] = .ok mmr ∧
        mmr.length = Nat.size leaves.length ∧
        ∀ i < mmr.length, (mmr.getD i 0 ≠ 0 ↔ leaves.length.testBit i = true) ∧
          (leaves.length.testBit i = true →
            mmr.getD i 0 = MountainRange.treeRoot (LightClient.hashTwoToOneU256 blake2b256)
              (MountainRange.leaf leaves) (leaves.length / 2 ^ (i + 1) * 2 ^ (i + 1)) i)) := by
  refine ⟨addToMmr_eq_ok blake2b256, settleAll_eq_applyStreamUpdates blake2b256, ?_⟩
  intro leaves hleaves hhash
  have hlen := MountainRange.length_peaks (LightClient.hashTwoToOneU256 blake2b256) leaves
  refine ⟨_, foldlM_addToMmr_peaks blake2b256 hleaves hhash, hlen, fun i hi => ?_⟩
  rw [hlen] at hi
  rw [MountainRange.getD_peaks _ leaves hi]
  refine ⟨MountainRange.peak_ne_zero_iff _ hleaves (lightClient_hash_ne_zero blake2b256 hhash) i,
    fun hbit => ?_⟩
  rw [MountainRange.peak, if_pos hbit]

/-- With a hash that always returns the digest of value one: two batches of
checkpoint 5 are replayed by the light client as settled on chain, and three
leaves give a mountain range of two peaks. -/
theorem eventStream_mmr_replayed_exactly_three :
    let d : Digest := ⟨1 :: List.replicate 31 0, rfl⟩
    let e : ℕ → EventCommitment := fun i => ⟨5, i, 0, d⟩
    (∃ head', LightClient.applyStreamUpdates (fun _ => d) (fun _ => d) EventStreamHead.new
        [[e 0, e 1], [e 2]] = some head' ∧
      (fun s => s.getD EventStreamHead.new) <$>
        settleAll (fun _ => d) (fun _ => d) none [[e 0, e 1], [e 2]] = .ok head') ∧
    ∃ mmr, [1, 2, 3].foldlM (fun mmr v => addToMmr (fun _ => d) v mmr) [] = .ok mmr ∧
      mmr.length = 2 := by
  intro d e
  obtain ⟨-, hreplay, hpeaks⟩ := eventStream_mmr_replayed_exactly (fun _ => d)
  -- both batches are non-empty, of checkpoint 5, and count three events
  have hrun : Replayable (none.getD EventStreamHead.new) [[e 0, e 1], [e 2]] :=
    ⟨by simp, by simp [e, checkpointSeqOf], by simp [e, checkpointSeqOf], .inl rfl, by decide⟩
  -- the hash never returns zero
  have hone : u256FromBytes (1 :: List.replicate 31 0) = .ok 1 := by decide
  have hhash : ∀ a b, hashTwoToOneU256 (fun _ => d) a b ≠ .ok 0 := fun a b => by
    show u256FromBytes (1 :: List.replicate 31 0) ≠ .ok 0
    rw [hone]
    exact fun h => absurd (Except.ok.inj h) (by decide)
  obtain ⟨mmr, hmmr, hlen, -⟩ := hpeaks [1, 2, 3] (by decide) hhash
  -- three is two binary digits
  have hsize : Nat.size 3 = 2 :=
    Nat.le_antisymm (Nat.size_le.mpr (by decide)) (Nat.lt_size.mpr (by decide))
  exact ⟨hreplay (fun _ => d) none _ hrun, mmr, hmmr, hlen.trans hsize⟩

end EventStream

end Sui
