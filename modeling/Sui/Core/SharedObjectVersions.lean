import Mathlib.Algebra.Group.Nat.Defs
import Mathlib.Logic.Function.Basic
import Mathlib.Order.Basic

/-!
# Shared-object version assignment (`SharedObjVerManager`)

Before the certificates of a consensus commit execute, every validator fixes
the version of each shared object each of them will read or write
(`assign_versions_from_consensus`). It keeps a map from each shared object
(its id and initial shared version) to the next version that object will
have, and walks the commit in order: a certificate gets the recorded version
of each of its shared inputs, its outputs get the lamport version one past
every version it reads (owned, receiving and shared), and the shared inputs
it accesses exclusively advance to that version. A certificate cancelled for
congestion or for a failed randomness round gets a marker instead of each
shared version and moves nothing.

The model keeps the map as a function to `Option ℕ` (a missing entry is a
panic of the source's `unwrap`); the epoch store's initial versions are a
function `stored`, and its start configuration a structure `EpochConfig`.
A panic is `none`.

* **`CertAssigns`** — the schedule's rule for one certificate, as a relation
  between the map before it, the versions it is assigned and the version it
  writes to its exclusive inputs (`advance`); **`LamportRun`** chains it over
  a commit. `assignVersionsForCertificate_eq_some_iff` and
  `assignLoop_iff_lamportRun` say the code computes exactly these.
* **`CertAssigns.lt_of_exclusive`** — an exclusive input's version moves
  strictly forward.
* **`assignLoop_swap`** — two adjacent certificates with no shared key in
  common, neither of which writes the accumulator root that every certificate
  reads, can be swapped without changing what anyone is assigned.

**Proof shape.** What a certificate does depends on the map only at the keys
it reads (`CertAssigns.frame`), and what it writes is `advance`, which leaves
every other key alone (`advance_of_not_exclusive`); two writes to disjoint keys
commute (`advance_comm`).
-/

namespace Sui

namespace SharedObjVerManager

/-! ### Versions -/

/-- `SequenceNumber::MAX`: every version a transaction can be assigned lies below it. -/
def sequenceNumberMax : ℕ := 2 ^ 63 - 1

/-- `SequenceNumber::CANCELLED_READ`. -/
def cancelledRead : ℕ := sequenceNumberMax + 1

/-- `SequenceNumber::CONGESTED`. -/
def congested : ℕ := sequenceNumberMax + 2

/-- `SequenceNumber::RANDOMNESS_UNAVAILABLE`. -/
def randomnessUnavailable : ℕ := sequenceNumberMax + 3

/-- `SequenceNumber::is_valid`. -/
def isValid (v : ℕ) : Bool := decide (v < sequenceNumberMax)

/-- The largest of some versions, from `SequenceNumber::new()` (zero) up. -/
def maxVersion (versions : List ℕ) : ℕ := versions.foldl max 0

/-- `SequenceNumber::lamport_increment`: one past the largest input, asserting that the largest
is not `u64::MAX`. -/
def lamportIncrement (inputs : List ℕ) : Option ℕ :=
  if maxVersion inputs = 2 ^ 64 - 1 then none else some (maxVersion inputs + 1)

theorem foldl_max_le_iff {b : ℕ} : ∀ (l : List ℕ) (a : ℕ), l.foldl max a ≤ b ↔ a ≤ b ∧ ∀ x ∈ l, x ≤ b
  | [], a => by simp
  | y :: l, a => by
    rw [List.foldl_cons, foldl_max_le_iff l, Nat.max_le, List.forall_mem_cons, and_assoc]

theorem maxVersion_le_iff {l : List ℕ} {b : ℕ} : maxVersion l ≤ b ↔ ∀ x ∈ l, x ≤ b := by
  rw [maxVersion, foldl_max_le_iff]
  exact ⟨fun h => h.2, fun h => ⟨Nat.zero_le b, h⟩⟩

theorem le_maxVersion {l : List ℕ} {x : ℕ} (hx : x ∈ l) : x ≤ maxVersion l :=
  maxVersion_le_iff.mp (Nat.le_refl _) x hx

/-- The assertions around a lamport version: it is one past its inputs, and valid. -/
theorem lamportIncrement_bind_valid {α : Type} (inputs : List ℕ) (f : ℕ → α) :
    ((lamportIncrement inputs).bind fun v => if isValid v = true then some (f v) else none) =
      if maxVersion inputs + 1 < sequenceNumberMax then some (f (maxVersion inputs + 1)) else none := by
  unfold lamportIncrement
  by_cases hmax : maxVersion inputs = 2 ^ 64 - 1
  · -- one past `u64::MAX` is far from valid, so both sides panic
    have hbig : ¬maxVersion inputs + 1 < sequenceNumberMax := by
      rw [hmax, sequenceNumberMax]
      decide
    rw [if_pos hmax, if_neg hbig, Option.bind_none]
  · rw [if_neg hmax, Option.bind_some]
    simp only [isValid, decide_eq_true_eq]

/-! ### Objects and schedulables -/

/-- `SUI_CLOCK_OBJECT_ID`. -/
def suiClockObjectId : ℕ := 0x6

/-- `SUI_RANDOMNESS_STATE_OBJECT_ID`. -/
def suiRandomnessStateObjectId : ℕ := 0x8

/-- `SUI_ACCUMULATOR_ROOT_OBJECT_ID`. -/
def suiAccumulatorRootObjectId : ℕ := 0xacc

/-- `SUI_CLOCK_OBJECT_SHARED_VERSION`, which is `OBJECT_START_VERSION`. -/
def suiClockObjectSharedVersion : ℕ := 1

/-- How a transaction accesses a shared object. -/
inductive SharedObjectMutability
  | immutable
  | mutable
  | nonExclusiveWrite
  deriving DecidableEq, Repr

/-- Only a mutable access is exclusive. -/
def SharedObjectMutability.isExclusive : SharedObjectMutability → Bool
  | .mutable => true
  | .immutable => false
  | .nonExclusiveWrite => false

/-- A shared input of a transaction. -/
structure SharedInputObject where
  id : ℕ
  initialSharedVersion : ℕ
  mutability : SharedObjectMutability
  deriving DecidableEq, Repr

/-- The object's key in the next-version map (`ConsensusObjectSequenceKey`). -/
def SharedInputObject.idAndVersion (o : SharedInputObject) : ℕ × ℕ := (o.id, o.initialSharedVersion)

/-- `TransactionKey`. -/
inductive TransactionKey
  | digest (d : ℕ)
  | randomnessRound (epoch round : ℕ)
  | accumulatorSettlement (epoch checkpointHeight : ℕ)
  | consensusCommitPrologue (epoch round subDagIndex : ℕ)
  deriving DecidableEq, Repr

/-- `TransactionKey::as_digest`. -/
def TransactionKey.asDigest : TransactionKey → Option ℕ
  | .digest d => some d
  | _ => none

/-- What version assignment reads of a `VerifiedExecutableTransaction`: its digest, the epoch and
round when it is a randomness state update, its shared inputs, and the object keys (id and
version) of its owned and of its receiving inputs. -/
structure Transaction where
  digest : ℕ
  randomnessRound : Option (ℕ × ℕ)
  sharedInputObjects : List SharedInputObject
  nonSharedInputObjectKeys : List (ℕ × ℕ)
  receivingObjectKeys : List (ℕ × ℕ)

/-- `VerifiedExecutableTransaction::key`: a randomness state update is keyed by its round. -/
def Transaction.key (tx : Transaction) : TransactionKey :=
  match tx.randomnessRound with
  | some (epoch, round) => .randomnessRound epoch round
  | none => .digest tx.digest

/-- What can be scheduled for execution by assigning shared-object versions. -/
inductive Schedulable
  | transaction (tx : Transaction)
  | randomnessStateUpdate (epoch round : ℕ)
  | accumulatorSettlement (epoch checkpointHeight : ℕ)
  | consensusCommitPrologue (epoch round subDagIndex : ℕ)

/-- What version assignment reads of the epoch store: whether accumulators are enabled, and the
initial shared versions of the randomness state and of the accumulator root from its start
configuration (taken as set). -/
structure EpochConfig where
  accumulatorsEnabled : Bool
  randomnessObjInitialSharedVersion : ℕ
  accumulatorRootObjInitialSharedVersion : ℕ

/-- The accumulator root's key in the next-version map. -/
def EpochConfig.accumulatorKey (cfg : EpochConfig) : ℕ × ℕ :=
  (suiAccumulatorRootObjectId, cfg.accumulatorRootObjInitialSharedVersion)

namespace Schedulable

/-- `Schedulable::shared_input_objects`: the system schedulables take their one object mutably. -/
def sharedInputObjects (cfg : EpochConfig) : Schedulable → List SharedInputObject
  | .transaction tx => tx.sharedInputObjects
  | .randomnessStateUpdate _ _ =>
    [⟨suiRandomnessStateObjectId, cfg.randomnessObjInitialSharedVersion, .mutable⟩]
  | .accumulatorSettlement _ _ =>
    [⟨suiAccumulatorRootObjectId, cfg.accumulatorRootObjInitialSharedVersion, .mutable⟩]
  | .consensusCommitPrologue _ _ _ => [⟨suiClockObjectId, suiClockObjectSharedVersion, .mutable⟩]

/-- `Schedulable::non_shared_input_object_keys`. -/
def nonSharedInputObjectKeys : Schedulable → List (ℕ × ℕ)
  | .transaction tx => tx.nonSharedInputObjectKeys
  | _ => []

/-- `Schedulable::receiving_object_keys`. -/
def receivingObjectKeys : Schedulable → List (ℕ × ℕ)
  | .transaction tx => tx.receivingObjectKeys
  | _ => []

/-- `Schedulable::key`. -/
def key : Schedulable → TransactionKey
  | .transaction tx => tx.key
  | .randomnessStateUpdate epoch round => .randomnessRound epoch round
  | .accumulatorSettlement epoch checkpointHeight => .accumulatorSettlement epoch checkpointHeight
  | .consensusCommitPrologue epoch round subDagIndex =>
    .consensusCommitPrologue epoch round subDagIndex

/-- The assertion of the commit loop: is it the accumulator settlement schedulable. -/
def isAccumulatorSettlement : Schedulable → Bool
  | .accumulatorSettlement _ _ => true
  | _ => false

/-- `is_accumulator_barrier_settle_tx`, read on every schedulable: it takes the accumulator root
mutably. The settlement schedulable does; a user transaction cannot, since its input checks admit
the root only immutably. -/
def settlesAccumulator (cfg : EpochConfig) (a : Schedulable) : Bool :=
  (a.sharedInputObjects cfg).any fun o =>
    decide (o.id = suiAccumulatorRootObjectId) && o.mutability.isExclusive

end Schedulable

/-- Why consensus cancelled a certificate. -/
inductive CancelConsensusCertificateReason
  | congestionOnObjects (objects : List ℕ)
  | dkgFailed

/-- The marker a cancelled certificate gets for its shared input `id`. -/
def cancelledVersion : CancelConsensusCertificateReason → ℕ → ℕ
  | .congestionOnObjects objects, id => if id ∈ objects then congested else cancelledRead
  | .dkgFailed, id => if id = suiRandomnessStateObjectId then randomnessUnavailable else cancelledRead

/-- `AssignedVersions`: the version of each shared input, by key, and of the system objects read
implicitly (today only the accumulator root). -/
structure AssignedVersions where
  sharedObjectVersions : List ((ℕ × ℕ) × ℕ)
  systemObjectVersions : List (ℕ × ℕ)
  deriving DecidableEq, Repr

/-- The next version of each shared object of the commit (`shared_input_next_versions`). -/
abbrev NextVersions := ℕ × ℕ → Option ℕ

/-! ### The code -/

/-- `cancellation_info`: why consensus cancelled `assignable`; only a certificate keyed by its
digest can be. -/
def cancellationInfo (cancelledTxns : ℕ → Option CancelConsensusCertificateReason)
    (assignable : Schedulable) : Option CancelConsensusCertificateReason :=
  assignable.key.asDigest.bind cancelledTxns

/-- The accumulator root version every certificate reads when accumulators are enabled; the
outer `none` is the panic of its `expect` when the root has no entry. -/
def accumulatorVersion (cfg : EpochConfig) (nextVersions : NextVersions) : Option (Option ℕ) :=
  if cfg.accumulatorsEnabled then (nextVersions cfg.accumulatorKey).map some else some none

/-- The system object versions built from the accumulator version. -/
def systemObjectVersions (accumulatorVersion : Option ℕ) : List (ℕ × ℕ) :=
  (accumulatorVersion.map fun v => (suiAccumulatorRootObjectId, v)).toList

/-- The map after a live certificate: each exclusively accessed shared input, in input order, is
inserted at the lamport version. The source's `expect` on the insertion cannot fire, since every
such key was read just before. -/
def updateNextVersions (nextVersion : ℕ) : List SharedInputObject → NextVersions → NextVersions
  | [], m => m
  | o :: os, m =>
    updateNextVersions nextVersion os
      (if o.mutability.isExclusive then Function.update m o.idAndVersion (some nextVersion) else m)

/-- The recorded version of each shared input, panicking (`unwrap`) on a missing entry. -/
def readVersions (nextVersions : NextVersions) (sharedInputObjects : List SharedInputObject) :
    Option (List ((ℕ × ℕ) × ℕ)) :=
  sharedInputObjects.mapM fun o => (nextVersions o.idAndVersion).map fun v => (o.idAndVersion, v)

/-- `SharedObjVerManager::assign_versions_for_certificate`. -/
def assignVersionsForCertificate (cfg : EpochConfig) (assignable : Schedulable)
    (sharedInputNextVersions : NextVersions)
    (cancelledTxns : ℕ → Option CancelConsensusCertificateReason) :
    Option (AssignedVersions × NextVersions) := do
  let sharedInputObjects := assignable.sharedInputObjects cfg
  let accumulatorVersion ← accumulatorVersion cfg sharedInputNextVersions
  let systemObjectVersions := systemObjectVersions accumulatorVersion
  if sharedInputObjects.isEmpty then
    return (⟨[], systemObjectVersions⟩, sharedInputNextVersions)
  let inputObjectKeys := assignable.nonSharedInputObjectKeys ++ assignable.receivingObjectKeys
  match cancellationInfo cancelledTxns assignable with
  | some reason =>
    -- the markers replace every shared version, and the lamport version ignores them
    let assignedVersions :=
      sharedInputObjects.map fun o => (o.idAndVersion, cancelledVersion reason o.id)
    let nextVersion ← lamportIncrement (inputObjectKeys.map Prod.snd)
    if isValid nextVersion then
      return (⟨assignedVersions, systemObjectVersions⟩, sharedInputNextVersions)
    else none
  | none =>
    let assignedVersions ← readVersions sharedInputNextVersions sharedInputObjects
    let nextVersion ←
      lamportIncrement (inputObjectKeys.map Prod.snd ++ assignedVersions.map Prod.snd)
    if isValid nextVersion then
      return (⟨assignedVersions, systemObjectVersions⟩,
        updateNextVersions nextVersion sharedInputObjects sharedInputNextVersions)
    else none

/-- The loop of `assign_versions_from_consensus` over the commit's schedulables. -/
def assignLoop (cfg : EpochConfig) (cancelledTxns : ℕ → Option CancelConsensusCertificateReason) :
    List Schedulable → NextVersions → Option (List (TransactionKey × AssignedVersions) × NextVersions)
  | [], m => some ([], m)
  | assignable :: rest, m =>
    -- an accumulator settlement is never scheduled while accumulators are disabled
    if assignable.isAccumulatorSettlement && !cfg.accumulatorsEnabled then none
    else do
      let (certAssignedVersions, m₁) ← assignVersionsForCertificate cfg assignable m cancelledTxns
      let (out, m₂) ← assignLoop cfg cancelledTxns rest m₁
      return ((assignable.key, certAssignedVersions) :: out, m₂)

/-- `get_or_init_versions`: the map over the shared inputs of the whole commit, and the
accumulator root when accumulators are enabled, each entry from the epoch store's
`get_or_init_next_object_versions` (here `stored`). -/
def getOrInitVersions (cfg : EpochConfig) (stored : ℕ × ℕ → ℕ)
    (sharedInputObjects : List SharedInputObject) : NextVersions :=
  let keys := sharedInputObjects.map SharedInputObject.idAndVersion ++
    (if cfg.accumulatorsEnabled then [cfg.accumulatorKey] else [])
  fun k => if k ∈ keys then some (stored k) else none

/-- `ConsensusSharedObjVerAssignment`. -/
structure ConsensusSharedObjVerAssignment where
  sharedInputNextVersions : NextVersions
  assignedVersions : List (TransactionKey × AssignedVersions)

/-- `SharedObjVerManager::assign_versions_from_consensus`. -/
def assignVersionsFromConsensus (cfg : EpochConfig) (stored : ℕ × ℕ → ℕ)
    (assignables : List Schedulable)
    (cancelledTxns : ℕ → Option CancelConsensusCertificateReason) :
    Option ConsensusSharedObjVerAssignment :=
  let sharedInputNextVersions :=
    getOrInitVersions cfg stored (assignables.flatMap fun a => a.sharedInputObjects cfg)
  (assignLoop cfg cancelledTxns assignables sharedInputNextVersions).map fun r => ⟨r.2, r.1⟩

/-! ### The schedule, one certificate at a time -/

/-- Whether `k` is the key of an input that `sharedInputObjects` accesses exclusively. -/
def exclusiveKey (sharedInputObjects : List SharedInputObject) (k : ℕ × ℕ) : Bool :=
  sharedInputObjects.any fun o => o.mutability.isExclusive && decide (o.idAndVersion = k)

/-- What a certificate writes: with `some l`, each of its exclusive inputs gets next version `l`. -/
def advance (sharedInputObjects : List SharedInputObject) : Option ℕ → NextVersions → NextVersions
  | none, m => m
  | some l, m => fun k => if exclusiveKey sharedInputObjects k then some l else m k

/-- The accumulator version a certificate reads from `m`: none when accumulators are disabled,
and the root's entry when they are enabled. -/
def AccumulatorRead (cfg : EpochConfig) (m : NextVersions) : Option ℕ → Prop
  | none => cfg.accumulatorsEnabled = false
  | some v => cfg.accumulatorsEnabled = true ∧ m cfg.accumulatorKey = some v

/-- The versions of a schedulable's owned and receiving inputs. -/
def Schedulable.ownedVersions (a : Schedulable) : List ℕ :=
  (a.nonSharedInputObjectKeys ++ a.receivingObjectKeys).map Prod.snd

/-- The Lamport schedule's rule for one certificate, relating the map before it to the versions
it is assigned and to the version it writes to its exclusive inputs (see `advance`). -/
inductive CertAssigns (cfg : EpochConfig)
    (cancelledTxns : ℕ → Option CancelConsensusCertificateReason) (a : Schedulable)
    (m : NextVersions) : AssignedVersions → Option ℕ → Prop
  /-- Without shared inputs nothing is assigned and nothing written. -/
  | noShared {acc : Option ℕ} (hshared : a.sharedInputObjects cfg = [])
      (hacc : AccumulatorRead cfg m acc) :
      CertAssigns cfg cancelledTxns a m ⟨[], systemObjectVersions acc⟩ none
  /-- A cancelled certificate gets a marker for each shared input and writes nothing; its
  lamport version, one past its owned and receiving inputs only, must still be valid. -/
  | cancelled {acc : Option ℕ} {reason : CancelConsensusCertificateReason}
      (hshared : a.sharedInputObjects cfg ≠ []) (hacc : AccumulatorRead cfg m acc)
      (hreason : cancellationInfo cancelledTxns a = some reason)
      (hvalid : maxVersion a.ownedVersions + 1 < sequenceNumberMax) :
      CertAssigns cfg cancelledTxns a m
        ⟨(a.sharedInputObjects cfg).map fun o => (o.idAndVersion, cancelledVersion reason o.id),
          systemObjectVersions acc⟩ none
  /-- A live certificate gets the recorded version of each shared input, and writes its lamport
  version, one past every version it reads, to its exclusive inputs. -/
  | live {acc : Option ℕ} {assigned : List ((ℕ × ℕ) × ℕ)}
      (hshared : a.sharedInputObjects cfg ≠ []) (hacc : AccumulatorRead cfg m acc)
      (hlive : cancellationInfo cancelledTxns a = none)
      (hkeys : assigned.map Prod.fst =
        (a.sharedInputObjects cfg).map SharedInputObject.idAndVersion)
      (hread : ∀ p ∈ assigned, m p.1 = some p.2)
      (hvalid : maxVersion (a.ownedVersions ++ assigned.map Prod.snd) + 1 < sequenceNumberMax) :
      CertAssigns cfg cancelledTxns a m ⟨assigned, systemObjectVersions acc⟩
        (some (maxVersion (a.ownedVersions ++ assigned.map Prod.snd) + 1))

theorem readVersions_eq_some_iff {m : NextVersions} :
    ∀ {S : List SharedInputObject} {assigned : List ((ℕ × ℕ) × ℕ)},
      readVersions m S = some assigned ↔
        assigned.map Prod.fst = S.map SharedInputObject.idAndVersion ∧
          ∀ p ∈ assigned, m p.1 = some p.2
  | [], assigned => by cases assigned <;> simp [readVersions]
  | o :: S, assigned => by
    have ih := @readVersions_eq_some_iff m S
    unfold readVersions at ih ⊢
    cases assigned with
    | nil => simp [List.mapM_cons, Option.bind_eq_some_iff]
    | cons p assigned =>
      simp only [List.mapM_cons, Option.bind_eq_bind, Option.pure_def, Option.bind_eq_some_iff,
        Option.map_eq_some_iff, Option.some.injEq, List.map_cons, List.cons.injEq,
        List.forall_mem_cons, ih]
      constructor
      · rintro ⟨q, ⟨v, hv, rfl⟩, rest, ⟨hkeys, hread⟩, rfl, rfl⟩
        exact ⟨⟨rfl, hkeys⟩, hv, hread⟩
      · rintro ⟨⟨hkey, hkeys⟩, hv, hread⟩
        exact ⟨p, ⟨p.2, hkey ▸ hv, by rw [← hkey]⟩, assigned, ⟨hkeys, hread⟩, rfl, rfl⟩

theorem exclusiveKey_cons (o : SharedInputObject) (S : List SharedInputObject) (k : ℕ × ℕ) :
    exclusiveKey (o :: S) k =
      (o.mutability.isExclusive && decide (o.idAndVersion = k) || exclusiveKey S k) :=
  List.any_cons

theorem updateNextVersions_eq_advance (l : ℕ) :
    ∀ (S : List SharedInputObject) (m : NextVersions),
      updateNextVersions l S m = advance S (some l) m
  | [], m => rfl
  | o :: S, m => by
    rw [updateNextVersions, updateNextVersions_eq_advance l S]
    funext k
    simp only [advance, exclusiveKey_cons]
    -- a later insertion of the same key overwrites an earlier one with the same version
    by_cases hS : exclusiveKey S k = true
    · simp [hS]
    · cases ho : o.mutability.isExclusive
      · simp [hS]
      · by_cases hk : o.idAndVersion = k
        · subst hk
          simp [hS]
        · simp [hS, hk, Function.update_of_ne (Ne.symm hk)]

theorem accumulatorVersion_eq_some_iff {cfg : EpochConfig} {m : NextVersions} {acc : Option ℕ} :
    accumulatorVersion cfg m = some acc ↔ AccumulatorRead cfg m acc := by
  unfold accumulatorVersion
  cases hen : cfg.accumulatorsEnabled <;> cases acc <;> simp [AccumulatorRead, hen]


section Certificate

variable {cfg : EpochConfig} {cancelledTxns : ℕ → Option CancelConsensusCertificateReason}
  {a : Schedulable} {m : NextVersions}

theorem assignVersionsForCertificate_of_noShared (hshared : a.sharedInputObjects cfg = []) :
    assignVersionsForCertificate cfg a m cancelledTxns =
      (accumulatorVersion cfg m).map fun acc => (⟨[], systemObjectVersions acc⟩, m) := by
  simp only [assignVersionsForCertificate, Option.bind_eq_bind, Option.pure_def, hshared,
    List.isEmpty_nil, if_true]
  cases accumulatorVersion cfg m <;> rfl

theorem assignVersionsForCertificate_of_cancelled {reason : CancelConsensusCertificateReason}
    (hshared : a.sharedInputObjects cfg ≠ [])
    (hreason : cancellationInfo cancelledTxns a = some reason) :
    assignVersionsForCertificate cfg a m cancelledTxns =
      (accumulatorVersion cfg m).bind fun acc =>
        if maxVersion a.ownedVersions + 1 < sequenceNumberMax then
          some (⟨(a.sharedInputObjects cfg).map fun o => (o.idAndVersion, cancelledVersion reason o.id),
            systemObjectVersions acc⟩, m)
        else none := by
  simp only [assignVersionsForCertificate, Option.bind_eq_bind, Option.pure_def, hreason,
    List.isEmpty_iff, hshared, if_false, lamportIncrement_bind_valid]
  rfl

theorem assignVersionsForCertificate_of_live (hshared : a.sharedInputObjects cfg ≠ [])
    (hlive : cancellationInfo cancelledTxns a = none) :
    assignVersionsForCertificate cfg a m cancelledTxns =
      (accumulatorVersion cfg m).bind fun acc =>
        (readVersions m (a.sharedInputObjects cfg)).bind fun assigned =>
          if maxVersion (a.ownedVersions ++ assigned.map Prod.snd) + 1 < sequenceNumberMax then
            some (⟨assigned, systemObjectVersions acc⟩,
              advance (a.sharedInputObjects cfg)
                (some (maxVersion (a.ownedVersions ++ assigned.map Prod.snd) + 1)) m)
          else none := by
  simp only [assignVersionsForCertificate, Option.bind_eq_bind, Option.pure_def, hlive,
    List.isEmpty_iff, hshared, if_false, lamportIncrement_bind_valid, updateNextVersions_eq_advance]
  rfl

/-- The code assigns exactly what the schedule's rule for one certificate says. -/
theorem assignVersionsForCertificate_eq_some_iff {v : AssignedVersions} {m' : NextVersions} :
    assignVersionsForCertificate cfg a m cancelledTxns = some (v, m') ↔
      ∃ e, CertAssigns cfg cancelledTxns a m v e ∧ m' = advance (a.sharedInputObjects cfg) e m := by
  constructor
  · intro h
    by_cases hshared : a.sharedInputObjects cfg = []
    · rw [assignVersionsForCertificate_of_noShared hshared, Option.map_eq_some_iff] at h
      obtain ⟨acc, hacc, hv⟩ := h
      cases hv
      exact ⟨none, .noShared hshared (accumulatorVersion_eq_some_iff.mp hacc), rfl⟩
    cases hreason : cancellationInfo cancelledTxns a with
    | some reason =>
      rw [assignVersionsForCertificate_of_cancelled hshared hreason, Option.bind_eq_some_iff] at h
      obtain ⟨acc, hacc, hv⟩ := h
      by_cases hvalid : maxVersion a.ownedVersions + 1 < sequenceNumberMax
      · rw [if_pos hvalid, Option.some.injEq] at hv
        cases hv
        exact ⟨none, .cancelled hshared (accumulatorVersion_eq_some_iff.mp hacc) hreason hvalid, rfl⟩
      · rw [if_neg hvalid] at hv
        cases hv
    | none =>
      rw [assignVersionsForCertificate_of_live hshared hreason, Option.bind_eq_some_iff] at h
      obtain ⟨acc, hacc, hv⟩ := h
      rw [Option.bind_eq_some_iff] at hv
      obtain ⟨assigned, hassigned, hv⟩ := hv
      obtain ⟨hkeys, hread⟩ := readVersions_eq_some_iff.mp hassigned
      by_cases hvalid : maxVersion (a.ownedVersions ++ assigned.map Prod.snd) + 1 < sequenceNumberMax
      · rw [if_pos hvalid, Option.some.injEq] at hv
        cases hv
        exact ⟨_, .live hshared (accumulatorVersion_eq_some_iff.mp hacc) hreason hkeys hread hvalid,
          rfl⟩
      · rw [if_neg hvalid] at hv
        cases hv
  · rintro ⟨e, hcert, rfl⟩
    cases hcert with
    | noShared hshared hacc =>
      rw [assignVersionsForCertificate_of_noShared hshared, accumulatorVersion_eq_some_iff.mpr hacc]
      rfl
    | cancelled hshared hacc hreason hvalid =>
      rw [assignVersionsForCertificate_of_cancelled hshared hreason,
        accumulatorVersion_eq_some_iff.mpr hacc, Option.bind_some, if_pos hvalid]
      rfl
    | live hshared hacc hlive hkeys hread hvalid =>
      rw [assignVersionsForCertificate_of_live hshared hlive,
        accumulatorVersion_eq_some_iff.mpr hacc, Option.bind_some,
        readVersions_eq_some_iff.mpr ⟨hkeys, hread⟩, Option.bind_some, if_pos hvalid]

end Certificate

/-! ### Runs over a commit -/

/-- A run of the Lamport schedule over a commit: each schedulable in turn is assigned by the rule
for one certificate against the map as the ones before it left it. -/
inductive LamportRun (cfg : EpochConfig)
    (cancelledTxns : ℕ → Option CancelConsensusCertificateReason) :
    List Schedulable → NextVersions → List (TransactionKey × AssignedVersions) → NextVersions →
      Prop
  | nil (m : NextVersions) : LamportRun cfg cancelledTxns [] m [] m
  | cons {a : Schedulable} {rest : List Schedulable} {m : NextVersions} {v : AssignedVersions}
      {e : Option ℕ} {out : List (TransactionKey × AssignedVersions)} {m' : NextVersions}
      (hsettle : a.isAccumulatorSettlement = true → cfg.accumulatorsEnabled = true)
      (hcert : CertAssigns cfg cancelledTxns a m v e)
      (hrest : LamportRun cfg cancelledTxns rest (advance (a.sharedInputObjects cfg) e m) out m') :
      LamportRun cfg cancelledTxns (a :: rest) m ((a.key, v) :: out) m'

section Run

variable {cfg : EpochConfig} {cancelledTxns : ℕ → Option CancelConsensusCertificateReason}

theorem assignLoop_cons_eq_some_iff {a : Schedulable} {rest : List Schedulable} {m m' : NextVersions}
    {out : List (TransactionKey × AssignedVersions)} :
    assignLoop cfg cancelledTxns (a :: rest) m = some (out, m') ↔
      (a.isAccumulatorSettlement = true → cfg.accumulatorsEnabled = true) ∧
        ∃ v m₁ out', assignVersionsForCertificate cfg a m cancelledTxns = some (v, m₁) ∧
          assignLoop cfg cancelledTxns rest m₁ = some (out', m') ∧ out = (a.key, v) :: out' := by
  simp only [assignLoop, Option.bind_eq_bind, Option.pure_def]
  by_cases hsettle : a.isAccumulatorSettlement = true → cfg.accumulatorsEnabled = true
  · have hguard : (a.isAccumulatorSettlement && !cfg.accumulatorsEnabled) = false := by
      cases ha : a.isAccumulatorSettlement <;> simp_all
    rw [hguard, if_neg Bool.false_ne_true]
    simp only [Option.bind_eq_some_iff, Option.some.injEq, Prod.mk.injEq, Prod.exists]
    constructor
    · rintro ⟨v, m₁, hcert, out', m'', hrest, rfl, rfl⟩
      exact ⟨hsettle, v, m₁, out', hcert, hrest, rfl⟩
    · rintro ⟨-, v, m₁, out', hcert, hrest, rfl⟩
      exact ⟨v, m₁, hcert, out', m', hrest, rfl, rfl⟩
  · have hguard : (a.isAccumulatorSettlement && !cfg.accumulatorsEnabled) = true := by
      cases ha : a.isAccumulatorSettlement <;> simp_all
    rw [hguard, if_pos rfl]
    simp only [reduceCtorEq, false_iff, not_and]
    exact fun h => absurd h hsettle

/-- The loop of the code runs the Lamport schedule, and only it. -/
theorem assignLoop_iff_lamportRun :
    ∀ {assignables : List Schedulable} {m m' : NextVersions}
      {out : List (TransactionKey × AssignedVersions)},
      assignLoop cfg cancelledTxns assignables m = some (out, m') ↔
        LamportRun cfg cancelledTxns assignables m out m'
  | [], m, m', out => by
    simp only [assignLoop, Option.some.injEq, Prod.mk.injEq]
    constructor
    · rintro ⟨rfl, rfl⟩
      exact .nil m
    · rintro ⟨⟩
      exact ⟨rfl, rfl⟩
  | a :: rest, m, m', out => by
    rw [assignLoop_cons_eq_some_iff]
    constructor
    · rintro ⟨hsettle, v, m₁, out', hcert, hrest, rfl⟩
      obtain ⟨e, hassigns, rfl⟩ := assignVersionsForCertificate_eq_some_iff.mp hcert
      exact .cons hsettle hassigns (assignLoop_iff_lamportRun.mp hrest)
    · intro h
      cases h with
      | cons hsettle hcert hrest =>
        exact ⟨hsettle, _, _, _, assignVersionsForCertificate_eq_some_iff.mpr ⟨_, hcert, rfl⟩,
          assignLoop_iff_lamportRun.mpr hrest, rfl⟩

theorem LamportRun.length_eq {assignables : List Schedulable} {m m' : NextVersions}
    {out : List (TransactionKey × AssignedVersions)}
    (h : LamportRun cfg cancelledTxns assignables m out m') : out.length = assignables.length := by
  induction h with
  | nil => rfl
  | cons _ _ _ ih => rw [List.length_cons, List.length_cons, ih]

/-- A run over a commit is a run over a prefix followed by a run over the rest. -/
theorem lamportRun_append_iff {pre post : List Schedulable} :
    ∀ {m m' : NextVersions} {out : List (TransactionKey × AssignedVersions)},
      LamportRun cfg cancelledTxns (pre ++ post) m out m' ↔
        ∃ outPre outPost m₁, out = outPre ++ outPost ∧
          LamportRun cfg cancelledTxns pre m outPre m₁ ∧ LamportRun cfg cancelledTxns post m₁ outPost m' := by
  induction pre with
  | nil =>
    intro m m' out
    constructor
    · intro h
      exact ⟨[], out, m, rfl, .nil m, h⟩
    · rintro ⟨outPre, outPost, m₁, rfl, ⟨⟩, h⟩
      exact h
  | cons a pre ih =>
    intro m m' out
    constructor
    · intro h
      cases h with
      | cons hsettle hcert hrest =>
        obtain ⟨outPre, outPost, m₁, rfl, hpre, hpost⟩ := ih.mp hrest
        exact ⟨_ :: outPre, outPost, m₁, rfl, .cons hsettle hcert hpre, hpost⟩
    · rintro ⟨outPre, outPost, m₁, rfl, hpre, hpost⟩
      cases hpre with
      | cons hsettle hcert hpre =>
        exact .cons hsettle hcert (ih.mpr ⟨_, outPost, m₁, rfl, hpre, hpost⟩)

end Run

/-! ### What a certificate reads and writes -/

section Frame

variable {cfg : EpochConfig} {cancelledTxns : ℕ → Option CancelConsensusCertificateReason}
  {a b : Schedulable} {m : NextVersions} {v : AssignedVersions} {e : Option ℕ}

theorem exclusiveKey_eq_true_iff {S : List SharedInputObject} {k : ℕ × ℕ} :
    exclusiveKey S k = true ↔ ∃ o ∈ S, o.mutability.isExclusive = true ∧ o.idAndVersion = k := by
  simp [exclusiveKey, List.any_eq_true]

theorem advance_of_not_exclusive {S : List SharedInputObject} {k : ℕ × ℕ}
    (hk : exclusiveKey S k = false) : ∀ (e : Option ℕ) (m : NextVersions), advance S e m k = m k
  | none, _ => rfl
  | some _, _ => by simp only [advance, hk, Bool.false_eq_true, if_false]

/-- Writes to disjoint keys commute. -/
theorem advance_comm {S₁ S₂ : List SharedInputObject}
    (hdisj : ∀ k, exclusiveKey S₁ k = true → exclusiveKey S₂ k = false) :
    ∀ (e₁ e₂ : Option ℕ) (m : NextVersions),
      advance S₁ e₁ (advance S₂ e₂ m) = advance S₂ e₂ (advance S₁ e₁ m)
  | none, _, _ => rfl
  | some _, none, _ => rfl
  | some l₁, some l₂, m => by
    funext k
    cases h₁ : exclusiveKey S₁ k
    · simp only [advance, h₁, Bool.false_eq_true, if_false]
    · simp only [advance, h₁, hdisj k h₁, Bool.false_eq_true, if_true, if_false]

theorem AccumulatorRead.congr {m₁ : NextVersions} {acc : Option ℕ}
    (h : AccumulatorRead cfg m acc) (hkey : m₁ cfg.accumulatorKey = m cfg.accumulatorKey) :
    AccumulatorRead cfg m₁ acc := by
  cases acc with
  | none => exact h
  | some _ => exact ⟨h.1, hkey.trans h.2⟩

/-- A certificate's assignment reads the map only at its shared inputs and at the accumulator
root. -/
theorem CertAssigns.frame {m₁ : NextVersions} (h : CertAssigns cfg cancelledTxns a m v e)
    (hshared : ∀ o ∈ a.sharedInputObjects cfg, m₁ o.idAndVersion = m o.idAndVersion)
    (hacc : m₁ cfg.accumulatorKey = m cfg.accumulatorKey) :
    CertAssigns cfg cancelledTxns a m₁ v e := by
  cases h with
  | noShared hS hread => exact .noShared hS (hread.congr hacc)
  | cancelled hS hread hreason hvalid => exact .cancelled hS (hread.congr hacc) hreason hvalid
  | live hS hread hlive hkeys hversions hvalid =>
    refine .live hS (hread.congr hacc) hlive hkeys (fun p hp => ?_) hvalid
    -- each assigned key is the key of one of the shared inputs
    have hkey : p.1 ∈ (a.sharedInputObjects cfg).map SharedInputObject.idAndVersion :=
      hkeys ▸ List.mem_map_of_mem hp
    obtain ⟨o, ho, hok⟩ := List.mem_map.mp hkey
    rw [← hok, hshared o ho, hok]
    exact hversions p hp

/-- The version an exclusive input moves to is strictly past the one it had. -/
theorem CertAssigns.lt_of_exclusive {l : ℕ} {k : ℕ × ℕ} {x : ℕ}
    (h : CertAssigns cfg cancelledTxns a m v (some l))
    (hk : exclusiveKey (a.sharedInputObjects cfg) k = true) (hx : m k = some x) : x < l := by
  cases h with
  | live _ _ _ hkeys hversions _ =>
    obtain ⟨o, ho, -, hok⟩ := exclusiveKey_eq_true_iff.mp hk
    have hkey : o.idAndVersion ∈ (a.sharedInputObjects cfg).map SharedInputObject.idAndVersion :=
      List.mem_map_of_mem ho
    rw [← hkeys, hok] at hkey
    obtain ⟨p, hp, rfl⟩ := List.mem_map.mp hkey
    -- the map's version for the key is the one the certificate was assigned, an input of the max
    have hxp : x = p.2 := Option.some.inj (hx.symm.trans (hversions p hp))
    have hle : p.2 ≤ maxVersion (a.ownedVersions ++ _) :=
      le_maxVersion (List.mem_append_right _ (List.mem_map_of_mem hp))
    omega

/-- Two schedulables with no shared key in common, neither of which settles the accumulator. -/
structure Independent (cfg : EpochConfig) (a b : Schedulable) : Prop where
  disjoint : ∀ o ∈ a.sharedInputObjects cfg, ∀ o' ∈ b.sharedInputObjects cfg,
    o.idAndVersion ≠ o'.idAndVersion
  left : a.settlesAccumulator cfg = false
  right : b.settlesAccumulator cfg = false

theorem Independent.symm (h : Independent cfg a b) : Independent cfg b a :=
  ⟨fun o ho o' ho' => (h.disjoint o' ho' o ho).symm, h.right, h.left⟩

/-- What `a` writes is none of `b`'s shared inputs. -/
theorem Independent.not_written {o' : SharedInputObject} (h : Independent cfg a b)
    (ho' : o' ∈ b.sharedInputObjects cfg) :
    exclusiveKey (a.sharedInputObjects cfg) o'.idAndVersion = false := by
  rw [← Bool.not_eq_true, exclusiveKey_eq_true_iff]
  rintro ⟨o, ho, -, hok⟩
  exact h.disjoint o ho o' ho' hok

/-- A schedulable that does not settle the accumulator does not write the accumulator root. -/
theorem accumulatorKey_not_written (hsettle : a.settlesAccumulator cfg = false) :
    exclusiveKey (a.sharedInputObjects cfg) cfg.accumulatorKey = false := by
  rw [← Bool.not_eq_true, exclusiveKey_eq_true_iff]
  rintro ⟨o, ho, hex, hok⟩
  have hid : o.id = suiAccumulatorRootObjectId := congrArg Prod.fst hok
  have hsettles : a.settlesAccumulator cfg = true :=
    List.any_eq_true.mpr ⟨o, ho, by simp [hid, hex]⟩
  rw [hsettle] at hsettles
  exact Bool.false_ne_true hsettles

theorem Independent.advance_comm (h : Independent cfg a b) (ea eb : Option ℕ) (m : NextVersions) :
    advance (a.sharedInputObjects cfg) ea (advance (b.sharedInputObjects cfg) eb m) =
      advance (b.sharedInputObjects cfg) eb (advance (a.sharedInputObjects cfg) ea m) := by
  refine SharedObjVerManager.advance_comm (fun k hk => ?_) ea eb m
  obtain ⟨o, ho, -, rfl⟩ := exclusiveKey_eq_true_iff.mp hk
  exact h.symm.not_written ho

/-- `b` reads the same after `a` as before it. -/
theorem Independent.certAssigns_advance (h : Independent cfg a b) (ea : Option ℕ)
    (hb : CertAssigns cfg cancelledTxns b m v e) :
    CertAssigns cfg cancelledTxns b (advance (a.sharedInputObjects cfg) ea m) v e :=
  hb.frame (fun _ ho => advance_of_not_exclusive (h.not_written ho) ea m)
    (advance_of_not_exclusive (accumulatorKey_not_written h.left) ea m)

theorem Independent.certAssigns_of_advance (h : Independent cfg a b) (ea : Option ℕ)
    (hb : CertAssigns cfg cancelledTxns b (advance (a.sharedInputObjects cfg) ea m) v e) :
    CertAssigns cfg cancelledTxns b m v e :=
  hb.frame (fun _ ho => (advance_of_not_exclusive (h.not_written ho) ea m).symm)
    (advance_of_not_exclusive (accumulatorKey_not_written h.left) ea m).symm

end Frame

section Swap

variable {cfg : EpochConfig} {cancelledTxns : ℕ → Option CancelConsensusCertificateReason}
  {a b : Schedulable}

/-- Two independent certificates in a row can be swapped. -/
theorem Independent.lamportRun_swap (hind : Independent cfg a b) {m m' : NextVersions}
    {x y : TransactionKey × AssignedVersions}
    (h : LamportRun cfg cancelledTxns [a, b] m [x, y] m') :
    LamportRun cfg cancelledTxns [b, a] m [y, x] m' := by
  cases h with
  | cons hsa hca hrest =>
    cases hrest with
    | cons hsb hcb hnil =>
      cases hnil
      refine .cons hsb (hind.certAssigns_of_advance _ hcb) (.cons hsa
        (hind.symm.certAssigns_advance _ hca) ?_)
      rw [hind.advance_comm]
      exact .nil _

/-- Swapping two independent certificates anywhere in a commit changes no assignment. -/
theorem Independent.lamportRun_swap_middle (hind : Independent cfg a b)
    {pre post : List Schedulable} {m m' : NextVersions}
    {outPre outPost : List (TransactionKey × AssignedVersions)}
    {x y : TransactionKey × AssignedVersions} (hlen : outPre.length = pre.length)
    (h : LamportRun cfg cancelledTxns (pre ++ a :: b :: post) m (outPre ++ x :: y :: outPost) m') :
    LamportRun cfg cancelledTxns (pre ++ b :: a :: post) m (outPre ++ y :: x :: outPost) m' := by
  obtain ⟨o₁, o₂, m₁, hout, hpre, hrest⟩ := lamportRun_append_iff.mp h
  obtain ⟨rfl, rfl⟩ := List.append_inj hout (hlen.trans hpre.length_eq.symm)
  -- split the two certificates off the rest of the commit
  have hrest' : LamportRun cfg cancelledTxns ([a, b] ++ post) m₁ ([x, y] ++ outPost) m' := hrest
  obtain ⟨o₃, o₄, m₂, hout', hab, hpost⟩ := lamportRun_append_iff.mp hrest'
  have hlen' : [x, y].length = o₃.length := by rw [hab.length_eq]; rfl
  obtain ⟨rfl, rfl⟩ := List.append_inj hout' hlen'
  have hswapped : LamportRun cfg cancelledTxns ([b, a] ++ post) m₁ ([y, x] ++ outPost) m' :=
    lamportRun_append_iff.mpr ⟨_, _, m₂, rfl, hind.lamportRun_swap hab, hpost⟩
  exact lamportRun_append_iff.mpr ⟨_, _, m₁, rfl, hpre, hswapped⟩

end Swap

/-! ### The commit -/

section Commit

variable {cfg : EpochConfig} {stored : ℕ × ℕ → ℕ}
  {cancelledTxns : ℕ → Option CancelConsensusCertificateReason}

theorem assignVersionsFromConsensus_eq_some_iff {assignables : List Schedulable}
    {r : ConsensusSharedObjVerAssignment} :
    assignVersionsFromConsensus cfg stored assignables cancelledTxns = some r ↔
      assignLoop cfg cancelledTxns assignables
          (getOrInitVersions cfg stored (assignables.flatMap fun a => a.sharedInputObjects cfg)) =
        some (r.assignedVersions, r.sharedInputNextVersions) := by
  rw [assignVersionsFromConsensus, Option.map_eq_some_iff]
  constructor
  · rintro ⟨⟨out, m'⟩, hloop, rfl⟩
    exact hloop
  · intro hloop
    exact ⟨_, hloop, rfl⟩

/-- The initial map depends only on which shared inputs the commit has. -/
theorem getOrInitVersions_perm {l₁ l₂ : List SharedInputObject} (h : l₁.Perm l₂) :
    getOrInitVersions cfg stored l₁ = getOrInitVersions cfg stored l₂ := by
  funext k
  have hmem := ((h.map SharedInputObject.idAndVersion).append_right
    (if cfg.accumulatorsEnabled then [cfg.accumulatorKey] else [])).mem_iff (a := k)
  simp only [getOrInitVersions, hmem]

/-- Shared-object versions are assigned by a sequential Lamport schedule: the code's run over a
commit is exactly a `LamportRun` from the initial map (each live certificate gets the recorded
version of each shared input, its lamport version is one past all its input versions, and only
its exclusive inputs advance, to that version; a cancelled one gets markers and moves nothing),
an exclusive input's version moves strictly forward, and two adjacent certificates with no
shared key in common, neither settling the accumulator, can be swapped without changing any
assigned version or the final map. -/
theorem sharedVersions_lamport_schedule (cfg : EpochConfig) (stored : ℕ × ℕ → ℕ)
    (cancelledTxns : ℕ → Option CancelConsensusCertificateReason) :
    (∀ (assignables : List Schedulable) (out : List (TransactionKey × AssignedVersions))
        (m' : NextVersions),
      assignVersionsFromConsensus cfg stored assignables cancelledTxns = some ⟨m', out⟩ ↔
        LamportRun cfg cancelledTxns assignables
          (getOrInitVersions cfg stored (assignables.flatMap fun a => a.sharedInputObjects cfg))
          out m') ∧
    (∀ (a : Schedulable) (m : NextVersions) (v : AssignedVersions) (l : ℕ) (k : ℕ × ℕ) (x : ℕ),
      CertAssigns cfg cancelledTxns a m v (some l) →
        exclusiveKey (a.sharedInputObjects cfg) k = true → m k = some x → x < l) ∧
    (∀ (pre post : List Schedulable) (a b : Schedulable) (r : ConsensusSharedObjVerAssignment)
        (outPre outPost : List (TransactionKey × AssignedVersions))
        (x y : TransactionKey × AssignedVersions),
      Independent cfg a b → outPre.length = pre.length →
      assignVersionsFromConsensus cfg stored (pre ++ a :: b :: post) cancelledTxns = some r →
      r.assignedVersions = outPre ++ x :: y :: outPost →
      assignVersionsFromConsensus cfg stored (pre ++ b :: a :: post) cancelledTxns =
        some ⟨r.sharedInputNextVersions, outPre ++ y :: x :: outPost⟩) := by
  refine ⟨fun assignables out m' => ?_, fun a m v l k x h hk hx => h.lt_of_exclusive hk hx, ?_⟩
  · rw [assignVersionsFromConsensus_eq_some_iff]
    exact assignLoop_iff_lamportRun
  · intro pre post a b r outPre outPost x y hind hlen hr hout
    rw [assignVersionsFromConsensus_eq_some_iff, hout] at hr
    -- the swapped commit starts from the same map, since it has the same shared inputs
    have hinit : getOrInitVersions cfg stored ((pre ++ b :: a :: post).flatMap
          fun a => a.sharedInputObjects cfg) =
        getOrInitVersions cfg stored ((pre ++ a :: b :: post).flatMap
          fun a => a.sharedInputObjects cfg) :=
      getOrInitVersions_perm (((List.Perm.swap a b post).append_left pre).flatMap_right _)
    rw [assignVersionsFromConsensus_eq_some_iff, hinit]
    exact assignLoop_iff_lamportRun.mpr
      (hind.lamportRun_swap_middle hlen (assignLoop_iff_lamportRun.mp hr))

/-- Two transactions writing different objects are assigned the same versions
in either order. -/
theorem sharedVersions_lamport_schedule_swap :
    ∃ (r : ConsensusSharedObjVerAssignment) (x y : TransactionKey × AssignedVersions),
      assignVersionsFromConsensus ⟨false, 1, 1⟩ (fun _ => 1)
          [.transaction ⟨1, none, [⟨100, 1, .mutable⟩], [], []⟩,
            .transaction ⟨2, none, [⟨200, 1, .mutable⟩], [], []⟩] (fun _ => none) = some r ∧
        r.assignedVersions = [x, y] ∧
        assignVersionsFromConsensus ⟨false, 1, 1⟩ (fun _ => 1)
            [.transaction ⟨2, none, [⟨200, 1, .mutable⟩], [], []⟩,
              .transaction ⟨1, none, [⟨100, 1, .mutable⟩], [], []⟩] (fun _ => none) =
          some ⟨r.sharedInputNextVersions, [y, x]⟩ := by
  obtain ⟨r, hr, x, y, hxy⟩ : ∃ r, assignVersionsFromConsensus ⟨false, 1, 1⟩ (fun _ => 1)
      [.transaction ⟨1, none, [⟨100, 1, .mutable⟩], [], []⟩,
        .transaction ⟨2, none, [⟨200, 1, .mutable⟩], [], []⟩] (fun _ => none) = some r ∧
      ∃ x y, r.assignedVersions = [x, y] := ⟨_, rfl, _, _, rfl⟩
  -- the two write different objects, neither the accumulator root
  have hind : Independent ⟨false, 1, 1⟩ (.transaction ⟨1, none, [⟨100, 1, .mutable⟩], [], []⟩)
      (.transaction ⟨2, none, [⟨200, 1, .mutable⟩], [], []⟩) := ⟨by decide, rfl, rfl⟩
  exact ⟨r, x, y, hr, hxy, (sharedVersions_lamport_schedule ⟨false, 1, 1⟩ (fun _ => 1)
    (fun _ => none)).2.2 [] [] _ _ r [] [] x y hind rfl hr hxy⟩

end Commit

end SharedObjVerManager

end Sui
