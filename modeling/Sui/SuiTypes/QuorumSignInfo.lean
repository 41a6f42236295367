import Mathlib.Algebra.GroupWithZero.Nat
import Mathlib.Algebra.BigOperators.Group.Finset.Basic
import Mathlib.Algebra.BigOperators.Group.Finset.Piecewise
import Sui.AggregateSignature
import Sui.SortedMap
import Sui.SuiTypes.Error

/-!
# Authority quorum certificates (`sui_types::committee`, `sui_types::crypto`)

An `AuthorityQuorumSignInfo` certifies a message by an aggregate signature of
the authorities its bitmap lists. `verify_secure` adds the message to a
verification obligation, `add_to_verification_obligation` checks the epoch,
walks the bitmap summing the voting rights of the listed authorities and
collecting their keys, and checks the sum against the threshold (the quorum
for a strong certificate, the validity threshold otherwise); `verify_all` then
verifies the aggregate against the collected keys. `new_from_auth_sign_infos`
builds a certificate from single signatures.

The signature scheme is a parameter (`AggregateSignature.Scheme`). An
authority's name is its public key bytes, so a key is modelled by the name;
the committee's expanded keys and index map are read from its voting rights.
A `BTreeMap` is a sorted list (`Sui.SortedMap`), a `RoaringBitmap` a strictly
increasing list of indices.

The verifier is sound: it accepts exactly when the epoch matches, every
listed index names an authority with voting rights, their rights reach the
threshold and the aggregate verifies against their keys
(`verifySecure_eq_ok`). The builder sums the rights over its input list, a
repeated authority once per repetition, before the map that collects the
signatures keeps it once; without repetitions, the certificate of valid
signatures it returns passes the verifier (`newFromAuthSignInfos_verifySecure`).
-/

namespace Sui.SuiTypes

open AggregateSignature

/-- `TOTAL_VOTING_POWER`. -/
def totalVotingPower : ℕ := 10000

/-- `QUORUM_THRESHOLD`. -/
def quorumThreshold : ℕ := 6667

/-- `VALIDITY_THRESHOLD`. -/
def validityThreshold : ℕ := 3334

/-- The entries of a `BTreeMap<AuthorityName, StakeUnit>`, in key order. -/
structure StakeMap where
  /-- the names and their voting rights -/
  entries : List (ℕ × ℕ)
  /-- the keys increase -/
  sorted : entries.Pairwise fun p q => p.1 < q.1

namespace StakeMap

/-- `BTreeMap::get`. -/
def get (m : StakeMap) (name : ℕ) : Option ℕ := (m.entries.find? fun p => p.1 = name).map Prod.snd

/-- The names of a map are distinct. -/
theorem nodup_names (m : StakeMap) : (m.entries.map Prod.fst).Nodup :=
  m.sorted.map Prod.fst fun _ _ => ne_of_lt

/-- Over entries of distinct names, the stakes found for any set of names add up
to at most the sum of all the entries. -/
theorem sum_find_le : ∀ (l : List (ℕ × ℕ)), (l.map Prod.fst).Nodup → ∀ S : Finset ℕ,
    ∑ n ∈ S, ((l.find? fun p => p.1 = n).map Prod.snd).getD 0 ≤ (l.map Prod.snd).sum
  | [], _, S => by simp
  | (a, s) :: l, hnd, S => by
    obtain ⟨ha, hnd⟩ := List.nodup_cons.mp hnd
    -- the head's name is not found again in the tail
    have hsplit : ∀ n, ((((a, s) :: l).find? fun p => p.1 = n).map Prod.snd).getD 0 =
        (if a = n then s else 0) + ((l.find? fun p => p.1 = n).map Prod.snd).getD 0 := by
      intro n
      by_cases han : a = n
      · subst han
        have hnone : (l.find? fun p => p.1 = a) = none := by
          rw [List.find?_eq_none]
          intro p hp hpa
          exact ha (List.mem_map.mpr ⟨p, hp, by simpa using hpa⟩)
        simp [hnone]
      · simp [han]
    have hhead : (∑ n ∈ S, if a = n then s else 0) ≤ s := by
      rw [Finset.sum_ite_eq]
      split_ifs <;> omega
    calc ∑ n ∈ S, ((((a, s) :: l).find? fun p => p.1 = n).map Prod.snd).getD 0
        = ∑ n ∈ S, ((if a = n then s else 0) + ((l.find? fun p => p.1 = n).map Prod.snd).getD 0) :=
          Finset.sum_congr rfl fun n _ => hsplit n
      _ = (∑ n ∈ S, if a = n then s else 0) +
          ∑ n ∈ S, ((l.find? fun p => p.1 = n).map Prod.snd).getD 0 := Finset.sum_add_distrib
      _ ≤ s + (l.map Prod.snd).sum := Nat.add_le_add hhead (sum_find_le l hnd S)
      _ = (((a, s) :: l).map Prod.snd).sum := by simp

/-- The stakes of any set of names add up to at most the whole map's. -/
theorem sum_get_le (m : StakeMap) (S : Finset ℕ) :
    ∑ n ∈ S, (m.get n).getD 0 ≤ (m.entries.map Prod.snd).sum :=
  sum_find_le m.entries m.nodup_names S

end StakeMap

/-- `Committee`: the epoch and the voting rights, sorted by name. -/
structure Committee where
  /-- the epoch of the committee -/
  epoch : ℕ
  /-- the authorities' names and voting rights -/
  votingRights : List (ℕ × ℕ)
  deriving DecidableEq, Repr

namespace Committee

/-- `Committee::threshold::<STRENGTH>`, the same for every committee. -/
def threshold (strong : Bool) : ℕ := if strong then quorumThreshold else validityThreshold

/-- `Committee::new`: the voting rights of a map, none of them empty, some
non-zero, summing to `TOTAL_VOTING_POWER`; `none` is a failed assertion. -/
def new (epoch : ℕ) (votingRights : StakeMap) : Option Committee :=
  let votingRights := votingRights.entries
  if votingRights.isEmpty then none
  else if !votingRights.any (fun p => p.2 != 0) then none
  else
    let votingRights := votingRights.insertionSort fun p q => p.1 ≤ q.1
    if (votingRights.map Prod.snd).sum ≠ totalVotingPower then none
    else some ⟨epoch, votingRights⟩

variable (c : Committee)

/-- `Committee::authority_index`, through the index map. -/
def authorityIndex (author : ℕ) : Option ℕ := c.votingRights.findIdx? fun p => p.1 = author

/-- `Committee::authority_by_index`. -/
def authorityByIndex (index : ℕ) : Option ℕ := c.votingRights[index]?.map Prod.fst

/-- `Committee::weight`: the voting rights of a name, found by binary search
in the sorted voting rights, zero for a name outside the committee. -/
def weight (author : ℕ) : ℕ := ((c.votingRights.find? fun p => p.1 = author).map Prod.snd).getD 0

/-- `Committee::public_key`: the expanded key of a member. -/
def publicKey (authority : ℕ) : Except SuiErrorKind ℕ :=
  if authority ∈ c.votingRights.map Prod.fst then .ok authority
  else .error (.invalidCommittee authority c.votingRights.length)

variable {c}

/-- The index of a name names it back. -/
theorem authorityByIndex_of_authorityIndex {author index : ℕ}
    (h : c.authorityIndex author = some index) : c.authorityByIndex index = some author := by
  rw [authorityIndex, List.findIdx?_eq_some_iff_getElem] at h
  obtain ⟨hlt, hfound, -⟩ := h
  rw [authorityByIndex, List.getElem?_eq_getElem hlt, Option.map_some]
  simpa using hfound

/-- A name found at an index is a member. -/
theorem mem_of_authorityByIndex {index author : ℕ} (h : c.authorityByIndex index = some author) :
    author ∈ c.votingRights.map Prod.fst := by
  obtain ⟨p, hp, rfl⟩ := Option.map_eq_some_iff.mp h
  exact List.mem_map_of_mem (List.mem_of_getElem? hp)

/-- The names of a committee built by `Committee::new` are distinct: they are
the keys of a map. -/
theorem new_nodup {epoch : ℕ} {votingRights : StakeMap} (h : new epoch votingRights = some c) :
    (c.votingRights.map Prod.fst).Nodup := by
  unfold new at h
  dsimp only at h
  split_ifs at h
  cases h
  have hkeys : (votingRights.entries.map Prod.fst).Nodup :=
    votingRights.sorted.map Prod.fst fun _ _ => ne_of_lt
  exact ((List.perm_insertionSort _ _).map Prod.fst).nodup_iff.mpr hkeys

/-- With distinct names, distinct indices name distinct authorities. -/
theorem authorityByIndex_inj (hnd : (c.votingRights.map Prod.fst).Nodup) {i j author : ℕ}
    (hi : c.authorityByIndex i = some author) (hj : c.authorityByIndex j = some author) : i = j := by
  rw [authorityByIndex, ← List.getElem?_map] at hi hj
  obtain ⟨hi', hi⟩ := List.getElem?_eq_some_iff.mp hi
  obtain ⟨hj', hj⟩ := List.getElem?_eq_some_iff.mp hj
  exact hnd.getElem_inj_iff.mp (hi.trans hj.symm)

end Committee

/-- A `RoaringBitmap` of authority indices, iterated in increasing order. -/
structure Bitmap where
  /-- the indices, increasing -/
  toList : List ℕ
  /-- no index twice -/
  sorted : toList.Pairwise (· < ·)

/-- The empty bitmap. -/
def Bitmap.empty : Bitmap := ⟨[], .nil⟩

/-- `RoaringBitmap::insert`. -/
def Bitmap.insert (index : ℕ) (map : Bitmap) : Bitmap :=
  ⟨SortedSet.insert index map.toList, SortedSet.pairwise_insert map.sorted⟩

theorem Bitmap.mem_insert {index i : ℕ} {map : Bitmap} :
    i ∈ (map.insert index).toList ↔ i = index ∨ i ∈ map.toList :=
  SortedSet.mem_insert

/-- `AuthoritySignInfo`: one authority's signature. -/
structure AuthoritySignInfo (Sig : Type) where
  /-- the epoch signed in -/
  epoch : ℕ
  /-- the signer's name -/
  authority : ℕ
  /-- the signature -/
  signature : Sig

/-- `AuthorityQuorumSignInfo`: an aggregate signature and the bitmap of its
signers. Whether the certificate is strong is a parameter of the functions. -/
structure AuthorityQuorumSignInfo (Agg : Type) where
  /-- the epoch signed in -/
  epoch : ℕ
  /-- the aggregate signature -/
  signature : Agg
  /-- the indices of the signers -/
  signersMap : Bitmap

/-- `VerificationObligation`: messages with their aggregate signatures and
the keys each is to verify against. -/
structure VerificationObligation (Agg Msg : Type) where
  /-- the messages -/
  messages : List Msg
  /-- an aggregate signature per message -/
  signatures : List Agg
  /-- the keys per message -/
  publicKeys : List (List ℕ)

variable {Sig Agg V : Type} (A : Scheme ℕ Sig Agg (V × ℕ))

/-- `VerificationObligation::add_message`: the intent message of a value
under an epoch, with the empty aggregate and no key; the index of the
message. -/
def VerificationObligation.addMessage (obligation : VerificationObligation Agg (V × ℕ))
    (value : V) (epoch : ℕ) : VerificationObligation Agg (V × ℕ) × ℕ :=
  ({ messages := obligation.messages ++ [(value, epoch)],
     signatures := obligation.signatures ++ [A.empty],
     publicKeys := obligation.publicKeys ++ [[]] }, obligation.messages.length)

/-- `batch_verify`: each aggregate against its keys on its message. -/
def batchVerify : List Agg → List (List ℕ) → List (V × ℕ) → Except String Unit
  | [], [], [] => .ok ()
  | sig :: sigs, pks :: pkss, msg :: msgs => do
    A.verify sig pks msg
    batchVerify sigs pkss msgs
  | _, _, _ => .error "Invalid input"

/-- `VerificationObligation::verify_all`. -/
def VerificationObligation.verifyAll (obligation : VerificationObligation Agg (V × ℕ)) :
    Except SuiErrorKind Unit :=
  match batchVerify A obligation.signatures obligation.publicKeys obligation.messages with
  | .ok () => .ok ()
  | .error e => .error (.invalidSignature ("Failed to batch verify aggregated auth sig: " ++ e))

/-- The loop of `add_to_verification_obligation` over the bitmap: each index
seen for the first time must name an authority with voting rights, which are
added to the weight, and its key is selected. -/
def selectSigners (committee : Committee) :
    List ℕ → List ℕ → ℕ → List ℕ → Except SuiErrorKind (ℕ × List ℕ)
  | [], _, weight, selected => .ok (weight, selected)
  | authorityIndex :: rest, seen, weight, selected =>
    if authorityIndex ∈ seen then selectSigners committee rest seen weight selected
    else
      match committee.authorityByIndex authorityIndex with
      | none => .error (.unknownSigner none (some authorityIndex))
      | some authority =>
        let votingRights := committee.weight authority
        if votingRights = 0 then .error (.unknownSigner (some authority) (some authorityIndex))
        else
          match committee.publicKey authority with
          | .error e => .error e
          | .ok pk => selectSigners committee rest (authorityIndex :: seen)
              (weight + votingRights) (selected ++ [pk])

namespace AuthorityQuorumSignInfo

variable (strong : Bool) (info : AuthorityQuorumSignInfo Agg) (committee : Committee)

/-- `add_to_verification_obligation`. -/
def addToVerificationObligation (obligation : VerificationObligation Agg (V × ℕ))
    (messageIndex : ℕ) : Except SuiErrorKind (VerificationObligation Agg (V × ℕ)) := do
  -- Check epoch
  if info.epoch ≠ committee.epoch then
    throw (.wrongEpoch committee.epoch info.epoch)
  let some aggregate := obligation.signatures[messageIndex]? | throw .invalidAuthenticator
  let aggregate ← match A.addAggregate aggregate info.signature with
    | .ok aggregate => pure aggregate
    | .error _ => throw (.invalidSignature "Signature Aggregation failed")
  let obligation := { obligation with signatures := obligation.signatures.set messageIndex aggregate }
  let some selectedPublicKeys := obligation.publicKeys[messageIndex]? | throw .invalidAuthenticator
  let (weight, selectedPublicKeys) ←
    selectSigners committee info.signersMap.toList [] 0 selectedPublicKeys
  if weight < Committee.threshold strong then throw .certificateRequiresQuorum
  pure { obligation with publicKeys := obligation.publicKeys.set messageIndex selectedPublicKeys }

/-- `verify_secure`: a fresh obligation for the value under the certificate's
epoch, the certificate added, everything verified. -/
def verifySecure (value : V) : Except SuiErrorKind Unit := do
  let (obligation, index) := (⟨[], [], []⟩ : VerificationObligation Agg (V × ℕ)).addMessage A
    value info.epoch
  let obligation ← addToVerificationObligation A strong info committee obligation index
  VerificationObligation.verifyAll A obligation

/-- The names of the authorities the bitmap lists. -/
def signers : List ℕ := info.signersMap.toList.filterMap committee.authorityByIndex

end AuthorityQuorumSignInfo

/-- The loop body of `new_from_auth_sign_infos`: the index of a signer into
the bitmap. -/
def insertSigner (committee : Committee) (map : Bitmap) (p : ℕ × Sig) : Except SuiErrorKind Bitmap :=
  match committee.authorityIndex p.1 with
  | some index => .ok (map.insert index)
  | none => .error (.unknownSigner (some p.1) none)

/-- `new_from_auth_sign_infos`. -/
def newFromAuthSignInfos (strong : Bool) (authSignInfos : List (AuthoritySignInfo Sig))
    (committee : Committee) : Except SuiErrorKind (AuthorityQuorumSignInfo Agg) := do
  if !authSignInfos.all (fun a => a.epoch == committee.epoch) then
    throw (.invalidSignature "All signatures must be from the same epoch as the committee")
  let totalStake := (authSignInfos.map fun a => committee.weight a.authority).sum
  if totalStake < Committee.threshold strong then
    throw (.invalidSignature "Signatures don't have enough stake to form a quorum")
  let signatures := SortedMap.ofList (authSignInfos.map fun a => (a.authority, a.signature))
  let map ← signatures.foldlM (insertSigner committee) Bitmap.empty
  let sigs := signatures.map Prod.snd
  match A.aggregate sigs with
  | .ok signature => pure ⟨committee.epoch, signature, map⟩
  | .error e => throw (.invalidSignature e)

/-! ## The verifier -/

section Verify

variable {committee : Committee}

/-- The loop over a bitmap without repeated indices, none seen before: it
succeeds exactly when every index names an authority with voting rights, and
then adds their rights and their keys. -/
theorem selectSigners_eq_ok :
    ∀ (l seen : List ℕ) (weight : ℕ) (selected : List ℕ) (r : ℕ × List ℕ), l.Nodup →
      (∀ i ∈ l, i ∉ seen) →
      (selectSigners committee l seen weight selected = .ok r ↔
        (∀ i ∈ l, ∃ name, committee.authorityByIndex i = some name ∧ 0 < committee.weight name) ∧
        r = (weight + ((l.filterMap committee.authorityByIndex).map committee.weight).sum,
          selected ++ l.filterMap committee.authorityByIndex))
  | [], _, weight, selected, r, _, _ => by
    simp only [selectSigners, List.not_mem_nil, IsEmpty.forall_iff, implies_true, true_and,
      List.filterMap_nil, List.map_nil, List.sum_nil, Nat.add_zero, List.append_nil]
    exact ⟨fun h => (Except.ok.inj h).symm, fun h => h ▸ rfl⟩
  | i :: rest, seen, weight, selected, r, hnd, hseen => by
    rw [List.nodup_cons] at hnd
    have hi : i ∉ seen := hseen i List.mem_cons_self
    have hrest : ∀ j ∈ rest, j ∉ i :: seen := fun j hj hj' =>
      (List.mem_cons.mp hj').elim (fun e => hnd.1 (e ▸ hj)) (hseen j (List.mem_cons_of_mem _ hj))
    simp only [selectSigners, if_neg hi]
    cases hname : committee.authorityByIndex i with
    | none =>
      -- an index outside the committee fails the loop and the condition
      refine ⟨fun h => (by cases h), fun ⟨hall, _⟩ => ?_⟩
      obtain ⟨name, hname', -⟩ := hall i List.mem_cons_self
      rw [hname] at hname'
      cases hname'
    | some name =>
      by_cases hw : committee.weight name = 0
      · refine ⟨fun h => (by simp [hw] at h), fun ⟨hall, _⟩ => ?_⟩
        obtain ⟨name', hname', hpos⟩ := hall i List.mem_cons_self
        rw [hname, Option.some.injEq] at hname'
        rw [← hname'] at hpos
        omega
      · have hkey : committee.publicKey name = .ok name :=
          if_pos (Committee.mem_of_authorityByIndex hname)
        simp only [hw, if_false, hkey]
        rw [selectSigners_eq_ok rest (i :: seen) _ _ r hnd.2 hrest, List.filterMap_cons, hname,
          List.map_cons, List.sum_cons, List.forall_mem_cons, List.append_assoc,
          List.singleton_append, hname, Nat.add_assoc]
        exact ⟨fun ⟨hall, hr⟩ => ⟨⟨⟨name, rfl, Nat.pos_of_ne_zero hw⟩, hall⟩, hr⟩,
          fun ⟨⟨_, hall⟩, hr⟩ => ⟨hall, hr⟩⟩

variable {A}

/-- `batch_verify` of one aggregate is its verification. -/
theorem batchVerify_singleton (agg : Agg) (keys : List ℕ) (msg : V × ℕ) :
    batchVerify A [agg] [keys] [msg] = A.verify agg keys msg := by
  simp only [batchVerify, bind, Except.bind]
  cases A.verify agg keys msg <;> rfl

/-- **The verifier is sound.** `verify_secure` accepts a certificate exactly
when its epoch is the committee's, every index of its bitmap names an
authority with voting rights, the rights of these authorities reach the
threshold, and the certificate's aggregate verifies against their keys. -/
theorem verifySecure_eq_ok (strong : Bool) (info : AuthorityQuorumSignInfo Agg) (value : V) :
    info.verifySecure A strong committee value = .ok () ↔
      info.epoch = committee.epoch ∧
      (∀ i ∈ info.signersMap.toList,
        ∃ name, committee.authorityByIndex i = some name ∧ 0 < committee.weight name) ∧
      Committee.threshold strong ≤ ((info.signers committee).map committee.weight).sum ∧
      ∃ agg, A.addAggregate A.empty info.signature = .ok agg ∧
        A.verify agg (info.signers committee) (value, info.epoch) = .ok () := by
  have hnd : info.signersMap.toList.Nodup := info.signersMap.sorted.imp ne_of_lt
  have hsel := @selectSigners_eq_ok committee info.signersMap.toList [] 0 []
  simp only [Nat.zero_add, List.nil_append] at hsel
  simp only [AuthorityQuorumSignInfo.verifySecure, VerificationObligation.addMessage,
    AuthorityQuorumSignInfo.addToVerificationObligation, bind, Except.bind, pure, Except.pure]
  by_cases hep : info.epoch = committee.epoch
  swap
  · simp [hep]
  simp only [hep, ne_eq, not_true_eq_false, if_false, List.nil_append, List.length_nil,
    List.getElem?_cons_zero, true_and]
  cases hagg : A.addAggregate A.empty info.signature with
  | error e => simp
  | ok agg =>
    simp only [List.set_cons_zero]
    cases hrun : selectSigners committee info.signersMap.toList [] 0 [] with
    | error e =>
      -- the loop fails only when some index does not name an authority with rights
      refine ⟨fun h => (by cases h), fun ⟨hall, _⟩ => ?_⟩
      have := (hsel _ hnd (by simp)).mpr ⟨hall, rfl⟩
      rw [hrun] at this
      cases this
    | ok r =>
      obtain ⟨hall, rfl⟩ := (hsel r hnd (by simp)).mp hrun
      simp only [AuthorityQuorumSignInfo.signers]
      by_cases hq : ((List.filterMap committee.authorityByIndex info.signersMap.toList).map
          committee.weight).sum < Committee.threshold strong
      · simp [hq]
      · simp only [hq, if_false, VerificationObligation.verifyAll,
          batchVerify_singleton, Except.ok.injEq, exists_eq_left', Nat.le_of_not_lt hq, true_and]
        cases A.verify agg (info.signersMap.toList.filterMap committee.authorityByIndex)
            (value, committee.epoch) with
        | error e => exact ⟨fun h => (by cases h), fun h => (by cases h.2)⟩
        | ok u => exact ⟨fun _ => ⟨hall, rfl⟩, fun _ => rfl⟩

end Verify

/-! ## The builder -/

section Build

variable {committee : Committee}

/-- The builder's loop fails on a signer outside the committee, and otherwise
adds the index of every signer to the bitmap. -/
theorem foldlM_insertSigner :
    ∀ (l : List (ℕ × Sig)) (b map : Bitmap), l.foldlM (insertSigner committee) b = .ok map →
      (∀ p ∈ l, ∃ index, committee.authorityIndex p.1 = some index) ∧
      ∀ i, i ∈ map.toList ↔ i ∈ b.toList ∨ ∃ p ∈ l, committee.authorityIndex p.1 = some i
  | [], b, map, h => by
    cases Except.ok.inj h
    simp
  | p :: l, b, map, h => by
    cases hidx : committee.authorityIndex p.1 with
    | none => simp [List.foldlM_cons, insertSigner, hidx, bind, Except.bind] at h
    | some index =>
      simp only [List.foldlM_cons, insertSigner, hidx, bind, Except.bind] at h
      obtain ⟨hall, hmem⟩ := foldlM_insertSigner l _ map h
      refine ⟨List.forall_mem_cons.mpr ⟨⟨index, hidx⟩, hall⟩, fun i => ?_⟩
      rw [hmem, Bitmap.mem_insert]
      simp only [List.mem_cons, or_and_right, exists_or, exists_eq_left, hidx, Option.some.injEq,
        eq_comm (a := index)]
      tauto

/-- With distinct names in the committee, a bitmap names distinct authorities. -/
theorem nodup_filterMap_authorityByIndex (hnames : (committee.votingRights.map Prod.fst).Nodup)
    (map : Bitmap) : (map.toList.filterMap committee.authorityByIndex).Nodup :=
  List.Nodup.filterMap (fun _ _ _ hi hj => Committee.authorityByIndex_inj hnames hi hj)
    (map.sorted.imp ne_of_lt)

/-- With distinct names in the committee and among the signers, the bitmap the
loop fills names exactly the signers. -/
theorem filterMap_authorityByIndex_perm (hnames : (committee.votingRights.map Prod.fst).Nodup)
    {l : List (ℕ × Sig)} {map : Bitmap} (hl : (l.map Prod.fst).Nodup)
    (h : l.foldlM (insertSigner committee) Bitmap.empty = .ok map) :
    (map.toList.filterMap committee.authorityByIndex).Perm (l.map Prod.fst) := by
  obtain ⟨hidx, hmem⟩ := foldlM_insertSigner l _ _ h
  refine (List.perm_ext_iff_of_nodup (nodup_filterMap_authorityByIndex hnames map) hl).mpr
    fun n => ?_
  rw [List.mem_filterMap, List.mem_map]
  constructor
  · rintro ⟨i, hi, hn⟩
    obtain ⟨p, hp, hpi⟩ := ((hmem i).mp hi).resolve_left (by simp [Bitmap.empty])
    exact ⟨p, hp, Option.some.inj ((Committee.authorityByIndex_of_authorityIndex hpi).symm.trans hn)⟩
  · rintro ⟨p, hp, rfl⟩
    obtain ⟨i, hi⟩ := hidx p hp
    exact ⟨i, (hmem i).mpr (.inr ⟨p, hp, hi⟩), Committee.authorityByIndex_of_authorityIndex hi⟩

variable {A}

/-- What a certificate returned by the builder is made of. -/
theorem newFromAuthSignInfos_eq_ok {strong : Bool} {infos : List (AuthoritySignInfo Sig)}
    {cert : AuthorityQuorumSignInfo Agg} (h : newFromAuthSignInfos A strong infos committee = .ok cert) :
    (∀ a ∈ infos, a.epoch = committee.epoch) ∧
      Committee.threshold strong ≤ (infos.map fun a => committee.weight a.authority).sum ∧
      (SortedMap.ofList (infos.map fun a => (a.authority, a.signature))).foldlM
        (insertSigner committee) Bitmap.empty = .ok cert.signersMap ∧
      A.aggregate ((SortedMap.ofList (infos.map fun a => (a.authority, a.signature))).map
        Prod.snd) = .ok cert.signature ∧
      cert.epoch = committee.epoch := by
  simp only [newFromAuthSignInfos, bind, Except.bind, pure, Except.pure] at h
  by_cases hep : infos.all (fun a => a.epoch == committee.epoch) = true
  swap
  · simp [hep] at h
  by_cases hq : (infos.map fun a => committee.weight a.authority).sum < Committee.threshold strong
  · simp [hep, hq] at h
  simp only [hep, hq, Bool.not_true, Bool.false_eq_true, if_false] at h
  cases hfold : (SortedMap.ofList (infos.map fun a => (a.authority, a.signature))).foldlM
      (insertSigner committee) Bitmap.empty with
  | error e => simp [hfold] at h
  | ok map =>
    cases hagg : A.aggregate ((SortedMap.ofList (infos.map fun a => (a.authority, a.signature))).map
        Prod.snd) with
    | error e => simp [hfold, hagg] at h
    | ok signature =>
      simp only [hfold, hagg, Except.ok.injEq] at h
      subst h
      exact ⟨by simpa using hep, Nat.le_of_not_lt hq, rfl, rfl, rfl⟩

/-- **Certificates built from distinct valid signatures verify.** For a correct
scheme and a committee of distinct names, a certificate the builder returns
from signatures of distinct authorities with voting rights, each valid on the
value at the committee's epoch, passes `verify_secure`. -/
theorem newFromAuthSignInfos_verifySecure (hA : A.Correct)
    (hnames : (committee.votingRights.map Prod.fst).Nodup) {strong : Bool}
    {infos : List (AuthoritySignInfo Sig)} {value : V} {cert : AuthorityQuorumSignInfo Agg}
    (hnd : (infos.map AuthoritySignInfo.authority).Nodup)
    (hvalid : ∀ a ∈ infos, A.valid a.authority a.signature (value, committee.epoch) = true ∧
      0 < committee.weight a.authority)
    (h : newFromAuthSignInfos A strong infos committee = .ok cert) :
    cert.verifySecure A strong committee value = .ok () := by
  obtain ⟨-, hq, hfold, hagg, hcep⟩ := newFromAuthSignInfos_eq_ok h
  -- the map of signatures keeps one entry per signer
  have hkeys : (infos.map fun a => (a.authority, a.signature)).map Prod.fst =
      infos.map AuthoritySignInfo.authority := by
    rw [List.map_map]
    rfl
  have hperm := SortedMap.ofList_perm (hkeys ▸ hnd)
  have hpairs : ∀ p ∈ SortedMap.ofList (infos.map fun a => (a.authority, a.signature)),
      A.valid p.1 p.2 (value, committee.epoch) = true ∧ 0 < committee.weight p.1 := by
    intro p hp
    obtain ⟨a, ha, rfl⟩ := List.mem_map.mp (hperm.mem_iff.mp hp)
    exact hvalid a ha
  have hsigners : (cert.signers committee).Perm
      ((SortedMap.ofList (infos.map fun a => (a.authority, a.signature))).map Prod.fst) :=
    filterMap_authorityByIndex_perm hnames ((hperm.map Prod.fst).nodup_iff.mpr (hkeys ▸ hnd)) hfold
  have hweight : ((cert.signers committee).map committee.weight).sum =
      (infos.map fun a => committee.weight a.authority).sum := by
    have hauth : (cert.signers committee).Perm (infos.map AuthoritySignInfo.authority) := by
      rw [← hkeys]
      exact hsigners.trans (hperm.map Prod.fst)
    rw [(hauth.map committee.weight).sum_eq, List.map_map]
    rfl
  refine (verifySecure_eq_ok strong cert value).mpr ⟨hcep, fun i hi => ?_, hweight ▸ hq,
    cert.signature, hA.addAggregate_empty _, ?_⟩
  · obtain ⟨p, hp, hpi⟩ := ((foldlM_insertSigner _ _ _ hfold).2 i |>.mp hi).resolve_left
      (by simp [Bitmap.empty])
    exact ⟨p.1, Committee.authorityByIndex_of_authorityIndex hpi, (hpairs p hp).2⟩
  · rw [hcep]
    exact hA.verify_map (fun p hp => (hpairs p hp).1) hagg hsigners

end Build

/-! ## Certificates of a committee -/

section Certificates

variable {A}

end Certificates

end Sui.SuiTypes
