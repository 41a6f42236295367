import Mathlib.Data.Nat.Bitwise
import Mathlib.Data.List.Sort
import Sui.OptionList
import Sui.SuiTypes.Error

/-!
# MultiSig verification (`sui_types::multisig`)

A `MultiSig` carries compressed signatures, a bitmap of the indices of their
signers and the multisig public key: a list of keys with their `u8` weights
and a `u16` threshold. `verify_claims` validates the key, checks the address
and the zkLogin/passkey flags, decodes the bitmap into its set indices, pairs
the signatures in order with those indices through `zip_debug_eq`, checks each
pair and adds the signer's weight in `u16`, and compares the sum with the
threshold. `combine` builds a `MultiSig` from single signatures.

The cryptography is abstract (`Crypto`): whether a compressed signature is
valid for a key on a message (the scheme's verification, or the zkLogin and
passkey authenticators' own `verify_claims`), the validation of a zkLogin
identifier, and the address of a multisig key (a hash of its bytes). Key and
signature bytes are natural numbers. A bitmap is a natural number, since every
value above `MAX_BITMAP_VALUE` is rejected alike.

`zip_debug_eq` ends the pairing at the end of the shorter side; a length
mismatch goes through `debug_fatal!`, which panics only when
`crash_on_debug()` holds (a test configuration, or `SUI_ENABLE_DEBUG_ASSERTIONS`
set) and otherwise logs. The flag is a parameter and `none` is the panic.

What the verifier establishes is stated in `verifyClaims_eq_ok` and its
corollaries: the pairs it checks are valid signatures of distinct members
whose weights, summed without overflow, reach the threshold. With a
production configuration the pairs need not cover the bitmap: extra
signatures or extra set bits are dropped with a log line. `combine` on valid
signatures listed in the order of the key, reaching the threshold, gives a
`MultiSig` that verifies (`combine_verifyClaims`).
-/

namespace Sui.SuiTypes

/-- `SignatureScheme`. -/
inductive SignatureScheme
  | ed25519
  | secp256k1
  | secp256r1
  | bls12381
  | multiSig
  | zkLoginAuthenticator
  | passkeyAuthenticator
  deriving DecidableEq, Repr

/-- `PublicKey`, with its bytes. -/
inductive PublicKey
  | ed25519 (bytes : ℕ)
  | secp256k1 (bytes : ℕ)
  | secp256r1 (bytes : ℕ)
  | zkLogin (identifier : ℕ)
  | passkey (bytes : ℕ)
  deriving DecidableEq, Repr

/-- `PublicKey::scheme`. -/
def PublicKey.scheme : PublicKey → SignatureScheme
  | .ed25519 _ => .ed25519
  | .secp256k1 _ => .secp256k1
  | .secp256r1 _ => .secp256r1
  | .zkLogin _ => .zkLoginAuthenticator
  | .passkey _ => .passkeyAuthenticator

/-- `CompressedSignature`, with its bytes. -/
inductive CompressedSignature
  | ed25519 (bytes : ℕ)
  | secp256k1 (bytes : ℕ)
  | secp256r1 (bytes : ℕ)
  | zkLogin (bytes : ℕ)
  | passkey (bytes : ℕ)
  deriving DecidableEq, Repr

/-- The scheme of a compressed signature: the one its branch of
`verify_claims` compares the key's scheme with, and for a passkey
authenticator the scheme of its own key. -/
def CompressedSignature.scheme : CompressedSignature → SignatureScheme
  | .ed25519 _ => .ed25519
  | .secp256k1 _ => .secp256k1
  | .secp256r1 _ => .secp256r1
  | .zkLogin _ => .zkLoginAuthenticator
  | .passkey _ => .passkeyAuthenticator

/-- `MAX_SIGNER_IN_MULTISIG`. -/
def maxSignerInMultisig : ℕ := 10

/-- `MAX_BITMAP_VALUE`. -/
def maxBitmapValue : ℕ := 0b1111111111

/-- `MultiSigPublicKey`: keys with their weights, and the threshold. -/
structure MultiSigPublicKey where
  /-- the keys and their weights -/
  pkMap : List (PublicKey × UInt8)
  /-- the weight a multisig must reach -/
  threshold : UInt16
  deriving DecidableEq, Repr

/-- `MultiSig`, as deserialized: every field chosen by the sender. -/
structure MultiSig where
  /-- the signatures, in the order of their signers' indices -/
  sigs : List CompressedSignature
  /-- the bitmap of the signers' indices -/
  bitmap : ℕ
  /-- the multisig key -/
  multisigPk : MultiSigPublicKey
  deriving DecidableEq, Repr

/-- The fields of `VerifyParams` that `verify_claims` reads. -/
structure VerifyParams where
  /-- `validate_zklogin_public_identifier` -/
  validateZkloginPublicIdentifier : Bool
  /-- `accept_zklogin_in_multisig` -/
  acceptZkloginInMultisig : Bool
  /-- `accept_passkey_in_multisig` -/
  acceptPasskeyInMultisig : Bool
  /-- `additional_multisig_checks` -/
  additionalMultisigChecks : Bool
  deriving DecidableEq, Repr

/-- The cryptography a multisig rests on. -/
structure Crypto (Msg : Type) where
  /-- whether a compressed signature is valid for a key on a message -/
  valid : PublicKey → CompressedSignature → Msg → Bool
  /-- `ZkLoginPublicIdentifier::validate` -/
  validateZkLogin : ℕ → Bool
  /-- `SuiAddress::from(&MultiSigPublicKey)` -/
  address : MultiSigPublicKey → ℕ

/-- Whether some entry equals a later one, as `validate` tests it: for each
position, any of the entries after it. -/
def hasLaterDuplicate {α : Type} [DecidableEq α] : List α → Bool
  | [] => false
  | a :: l => l.any (fun b => a = b) || hasLaterDuplicate l

/-- `MultiSigPublicKey::validate`; `none` is `InvalidInput`. The `u16` sum of
the weights is taken modulo `2 ^ 16`. -/
def MultiSigPublicKey.validate (multisigPk : MultiSigPublicKey) : Option MultiSigPublicKey :=
  let pkMap := multisigPk.pkMap
  if multisigPk.threshold == 0 || pkMap.isEmpty || decide (pkMap.length > maxSignerInMultisig) ||
      pkMap.any (fun p => p.2 == 0) ||
      decide ((pkMap.map fun p => p.2.toNat).sum % 2 ^ 16 < multisigPk.threshold.toNat) ||
      hasLaterDuplicate (pkMap.map Prod.fst) then none
  else some multisigPk

/-- `MultiSigPublicKey::get_index`: the position of a key. -/
def MultiSigPublicKey.getIndex (multisigPk : MultiSigPublicKey) (pk : PublicKey) : Option ℕ :=
  multisigPk.pkMap.findIdx? fun x => x.1 = pk

/-- `as_indices`: the set bits of a bitmap of at most ten bits, increasing. -/
def asIndices (bitmap : ℕ) : Except SuiErrorKind (List ℕ) :=
  if bitmap > maxBitmapValue then .error (.invalidSignature "Invalid bitmap")
  else .ok ((List.range 10).filter fun i => bitmap &&& (1 <<< i) != 0)

/-- `MultiSig::has_zklogin_sigs`. -/
def MultiSig.hasZkloginSigs (ms : MultiSig) : Bool :=
  ms.sigs.any fun s => match s with
    | .zkLogin _ => true
    | _ => false

/-- `MultiSig::has_passkey_sigs`. -/
def MultiSig.hasPasskeySigs (ms : MultiSig) : Bool :=
  ms.sigs.any fun s => match s with
    | .passkey _ => true
    | _ => false

variable {Msg : Type} (C : Crypto Msg) (params : VerifyParams)

/-- The zkLogin identifier check of `verify_claims`, over the keys in order. -/
def validateZkLoginPks (pkMap : List (PublicKey × UInt8)) : Except SuiErrorKind Unit :=
  pkMap.forM fun p => match p.1 with
    | .zkLogin identifier =>
      if C.validateZkLogin identifier then pure ()
      else throw (.invalidSignature "Invalid zkLogin pk in multisig")
    | _ => pure ()

/-- The verification of a signature by its key. -/
def verifySubsig (pk : PublicKey) (sig : CompressedSignature) (msg : Msg) :
    Except SuiErrorKind Unit :=
  if C.valid pk sig msg then .ok () else .error (.invalidSignature "Invalid sig for pk")

/-- The check of one pair in `verify_claims`: under `additional_multisig_checks`
every branch but the passkey one first compares the key's scheme with its own. -/
def checkSubsig (pk : PublicKey) (sig : CompressedSignature) (msg : Msg) :
    Except SuiErrorKind Unit :=
  match sig with
  | .passkey _ => verifySubsig C pk sig msg
  | _ =>
    if params.additionalMultisigChecks && sig.scheme != pk.scheme then
      .error (.invalidSignature "signature/pubkey type mismatch")
    else verifySubsig C pk sig msg

/-- The loop of `verify_claims` over `sigs.iter().zip_debug_eq(indices)`, with
the `u16` weight sum. At a length mismatch `debug_fatal!` panics (`none`)
when `crashOnDebug`, and otherwise the loop ends. -/
def verifySigs (crashOnDebug : Bool) (pkMap : List (PublicKey × UInt8)) (msg : Msg) :
    List CompressedSignature → List ℕ → ℕ → Option (Except SuiErrorKind ℕ)
  | [], [], weightSum => some (.ok weightSum)
  | sig :: sigs, i :: indices, weightSum =>
    match pkMap[i]? with
    | none => some (.error (.invalidSignature "Invalid public keys index"))
    | some (pk, weight) =>
      match checkSubsig C params pk sig msg with
      | .error e => some (.error e)
      | .ok () => verifySigs crashOnDebug pkMap msg sigs indices ((weightSum + weight.toNat) % 2 ^ 16)
  | _, _, weightSum => if crashOnDebug then none else some (.ok weightSum)

/-- `MultiSig::verify_claims` of a multisig on a message for a claimed
address; `none` is the panic of `debug_fatal!`. -/
def MultiSig.verifyClaims (crashOnDebug : Bool) (ms : MultiSig) (msg : Msg)
    (multisigAddress : ℕ) : Option (Except SuiErrorKind Unit) :=
  if ms.multisigPk.validate.isNone then some (.error (.invalidSignature "Invalid multisig pubkey"))
  else match (if params.validateZkloginPublicIdentifier then validateZkLoginPks C ms.multisigPk.pkMap
      else .ok ()) with
  | .error e => some (.error e)
  | .ok () =>
    if C.address ms.multisigPk ≠ multisigAddress then
      some (.error (.invalidSignature "Invalid address derived from pks"))
    else if ms.hasZkloginSigs && !params.acceptZkloginInMultisig then
      some (.error (.invalidSignature "zkLogin sig not supported inside multisig"))
    else if ms.hasPasskeySigs && !params.acceptPasskeyInMultisig then
      some (.error (.invalidSignature "Passkey sig not supported inside multisig"))
    else match asIndices ms.bitmap with
    | .error e => some (.error e)
    | .ok indices =>
      match verifySigs C params crashOnDebug ms.multisigPk.pkMap msg ms.sigs indices 0 with
      | none => none
      | some (.error e) => some (.error e)
      | some (.ok weightSum) =>
        if weightSum ≥ ms.multisigPk.threshold.toNat then some (.ok ())
        else some (.error (.invalidSignature
          ("Insufficient weight=" ++ toString weightSum ++ " threshold=" ++
            toString ms.multisigPk.threshold)))

/-- One signature of `combine`: its key's index into the bitmap, refused when
already set, and its compressed form after the others. -/
def combineStep {G : Type} (toPublicKey : G → Except SuiErrorKind PublicKey)
    (toCompressed : G → Except SuiErrorKind CompressedSignature) (multisigPk : MultiSigPublicKey)
    (acc : ℕ × List CompressedSignature) (s : G) :
    Except SuiErrorKind (ℕ × List CompressedSignature) := do
  let (bitmap, sigs) := acc
  let pk ← toPublicKey s
  let some index := multisigPk.getIndex pk | throw (.incorrectSigner "pk does not exist")
  if bitmap &&& (1 <<< index) != 0 then throw (.invalidSignature "Duplicate public key")
  let sig ← toCompressed s
  pure (bitmap ||| (1 <<< index), sigs ++ [sig])

/-- `MultiSig::combine` of full signatures, through their conversions to a key
and to a compressed signature. -/
def MultiSig.combine {G : Type} (toPublicKey : G → Except SuiErrorKind PublicKey)
    (toCompressed : G → Except SuiErrorKind CompressedSignature) (fullSigs : List G)
    (multisigPk : MultiSigPublicKey) : Except SuiErrorKind MultiSig := do
  if multisigPk.validate.isNone then throw (.invalidSignature "Invalid multisig public key")
  if fullSigs.length > multisigPk.pkMap.length || fullSigs.isEmpty then
    throw (.invalidSignature "Invalid number of signatures")
  let (bitmap, sigs) ← fullSigs.foldlM (combineStep toPublicKey toCompressed multisigPk) (0, [])
  pure ⟨sigs, bitmap, multisigPk⟩

/-! ## Bitmaps -/

/-- The set bits of a `u16` bitmap, increasing. -/
def setBits (bitmap : ℕ) : List ℕ := (List.range 16).filter bitmap.testBit

/-- The mask test of `as_indices` reads a bit. -/
theorem and_one_shiftLeft_ne_zero (bitmap i : ℕ) :
    (bitmap &&& (1 <<< i) != 0) = bitmap.testBit i := by
  rw [Nat.one_shiftLeft, Nat.and_two_pow]
  cases bitmap.testBit i <;> simp

theorem setBits_sorted (bitmap : ℕ) : (setBits bitmap).Pairwise (· < ·) :=
  (List.pairwise_lt_range).filter _

/-- A bitmap within `MAX_BITMAP_VALUE` has no bit from the tenth on. -/
theorem testBit_eq_false_of_le {bitmap i : ℕ} (h : bitmap ≤ maxBitmapValue) (hi : 10 ≤ i) :
    bitmap.testBit i = false :=
  Nat.testBit_lt_two_pow (lt_of_lt_of_le (Nat.lt_succ_of_le h) (Nat.pow_le_pow_right Nat.zero_lt_two hi))

/-- Within `MAX_BITMAP_VALUE`, the set bits are among the first ten. -/
theorem setBits_eq_of_le {bitmap : ℕ} (h : bitmap ≤ maxBitmapValue) :
    setBits bitmap = (List.range 10).filter bitmap.testBit := by
  have hhigh : (((List.range 6).map (10 + ·)).filter bitmap.testBit) = [] :=
    List.filter_eq_nil_iff.mpr fun i hi => by
      obtain ⟨j, -, rfl⟩ := List.mem_map.mp hi
      simp [testBit_eq_false_of_le h (Nat.le_add_right 10 j)]
  rw [setBits, show 16 = 10 + 6 from rfl, List.range_add, List.filter_append, hhigh,
    List.append_nil]

theorem length_setBits_le {bitmap : ℕ} (h : bitmap ≤ maxBitmapValue) :
    (setBits bitmap).length ≤ maxSignerInMultisig := by
  rw [setBits_eq_of_le h]
  exact (List.length_filter_le _ _).trans (by simp [maxSignerInMultisig])

/-- `as_indices` decodes exactly the bitmaps within `MAX_BITMAP_VALUE`, into
their set bits. -/
theorem asIndices_eq_ok {bitmap : ℕ} {indices : List ℕ} :
    asIndices bitmap = .ok indices ↔ bitmap ≤ maxBitmapValue ∧ indices = setBits bitmap := by
  unfold asIndices
  by_cases h : bitmap > maxBitmapValue
  · simp only [h, if_true, reduceCtorEq, false_iff, not_and]
    omega
  · simp only [h, if_false, and_one_shiftLeft_ne_zero, Except.ok.injEq,
      setBits_eq_of_le (Nat.le_of_not_gt h)]
    exact ⟨fun h' => ⟨Nat.le_of_not_gt h, h'.symm⟩, fun h' => h'.2.symm⟩

/-- The increasing list of indices below `n` is what filtering `range n` by
membership keeps. -/
theorem filter_range_mem {l : List ℕ} {n : ℕ} (hl : l.Pairwise (· < ·)) (hn : ∀ i ∈ l, i < n) :
    (List.range n).filter (· ∈ l) = l := by
  refine ((List.pairwise_lt_range).filter _).eq_of_mem_iff hl fun i => ?_
  simp only [List.mem_filter, List.mem_range, decide_eq_true_eq]
  exact ⟨fun h => h.2, fun h => ⟨hn i h, h⟩⟩

/-! ## Well-formed multisig keys -/

/-- What `validate` accepts: one to ten distinct keys, none of weight zero,
and a threshold from one to the sum of the weights. -/
structure MultiSigPublicKey.WellFormed (multisigPk : MultiSigPublicKey) : Prop where
  threshold_pos : 0 < multisigPk.threshold.toNat
  pkMap_ne_nil : multisigPk.pkMap ≠ []
  length_le : multisigPk.pkMap.length ≤ maxSignerInMultisig
  weight_ne_zero : ∀ p ∈ multisigPk.pkMap, p.2 ≠ 0
  threshold_le : multisigPk.threshold.toNat ≤ (multisigPk.pkMap.map fun p => p.2.toNat).sum
  nodup : (multisigPk.pkMap.map Prod.fst).Nodup

theorem hasLaterDuplicate_eq_false {α : Type} [DecidableEq α] :
    ∀ {l : List α}, hasLaterDuplicate l = false ↔ l.Nodup
  | [] => by simp [hasLaterDuplicate]
  | a :: l => by
    simp only [hasLaterDuplicate, Bool.or_eq_false_iff, List.any_eq_false, decide_eq_true_eq,
      hasLaterDuplicate_eq_false, List.nodup_cons]
    exact ⟨fun ⟨h, hl⟩ => ⟨fun ha => h a ha rfl, hl⟩, fun ⟨h, hl⟩ => ⟨fun b hb hab => h (hab ▸ hb), hl⟩⟩

/-- A sum of `u8` weights over at most `n` entries is at most `255 * n`. -/
theorem sum_weights_le {α : Type} :
    ∀ (l : List (α × UInt8)), (l.map fun p => p.2.toNat).sum ≤ 255 * l.length
  | [] => by simp
  | p :: l => by
    have hp : p.2.toNat < 256 := p.2.toNat_lt
    have := sum_weights_le l
    simp only [List.map_cons, List.sum_cons, List.length_cons]
    omega

/-- The `u16` sum of at most ten `u8` weights does not wrap. -/
theorem sum_weights_lt {α : Type} {l : List (α × UInt8)} (h : l.length ≤ maxSignerInMultisig) :
    (l.map fun p => p.2.toNat).sum < 2 ^ 16 := by
  have := sum_weights_le l
  unfold maxSignerInMultisig at h
  omega

theorem validate_isSome {multisigPk : MultiSigPublicKey} :
    multisigPk.validate.isSome ↔ multisigPk.WellFormed := by
  have hthr : multisigPk.threshold = 0 ↔ ¬ 0 < multisigPk.threshold.toNat := by
    rw [Nat.pos_iff_ne_zero, not_not, ← UInt16.toNat_zero, UInt16.toNat_inj]
  unfold MultiSigPublicKey.validate
  dsimp only
  split_ifs with hbad
  · -- some check fails
    simp only [Option.isSome_none, Bool.false_eq_true, false_iff]
    intro h
    have hmod := Nat.mod_eq_of_lt (sum_weights_lt h.length_le)
    simp only [Bool.or_eq_true, beq_iff_eq, List.isEmpty_iff, decide_eq_true_eq, List.any_eq_true,
      hmod, hthr] at hbad
    rcases hbad with ((((hz | hn) | hl) | ⟨p, hp, hw⟩) | hs) | hd
    · exact hz h.threshold_pos
    · exact h.pkMap_ne_nil hn
    · exact absurd h.length_le (Nat.not_le_of_gt hl)
    · exact h.weight_ne_zero p hp hw
    · exact absurd h.threshold_le (Nat.not_le_of_gt hs)
    · exact absurd h.nodup (hasLaterDuplicate_eq_false.not.mp (by simpa using hd))
  · -- every check passes
    simp only [Option.isSome_some, true_iff]
    simp only [Bool.or_eq_true, beq_iff_eq, List.isEmpty_iff, decide_eq_true_eq, List.any_eq_true,
      not_or, not_exists, not_and, not_lt, Bool.not_eq_true, hthr] at hbad
    obtain ⟨⟨⟨⟨⟨hz, hn⟩, hl⟩, hw⟩, hs⟩, hd⟩ := hbad
    exact ⟨Nat.lt_of_not_le hz, hn, hl, hw, Nat.mod_eq_of_lt (sum_weights_lt hl) ▸ hs,
      hasLaterDuplicate_eq_false.mp hd⟩

/-- In a list without repetitions, an entry sits at one position. -/
theorem getElem?_inj_of_nodup {α : Type} {l : List α} (hnd : l.Nodup) {i j : ℕ} {a : α}
    (hi : l[i]? = some a) (hj : l[j]? = some a) : i = j :=
  (List.getElem?_inj (List.getElem?_eq_some_iff.mp hi).1 hnd).mp (hi.trans hj.symm)

theorem hasZkloginSigs_eq_true {ms : MultiSig} :
    ms.hasZkloginSigs = true ↔ ∃ s ∈ ms.sigs, s.scheme = .zkLoginAuthenticator := by
  unfold MultiSig.hasZkloginSigs
  rw [List.any_eq_true]
  refine exists_congr fun s => and_congr_right fun _ => ?_
  cases s <;> simp [CompressedSignature.scheme]

theorem hasPasskeySigs_eq_true {ms : MultiSig} :
    ms.hasPasskeySigs = true ↔ ∃ s ∈ ms.sigs, s.scheme = .passkeyAuthenticator := by
  unfold MultiSig.hasPasskeySigs
  rw [List.any_eq_true]
  refine exists_congr fun s => and_congr_right fun _ => ?_
  cases s <;> simp [CompressedSignature.scheme]

/-- The entries of the key that the signatures are checked against: those at
the set bits that `zip_debug_eq` pairs with a signature. -/
def MultiSig.signers (ms : MultiSig) : List (PublicKey × UInt8) :=
  (ms.sigs.zip (setBits ms.bitmap)).filterMap fun p => ms.multisigPk.pkMap[p.2]?

/-- The right sides of a zip are a prefix of the right list. -/
theorem map_snd_zip_sublist {α β : Type} :
    ∀ (l₁ : List α) (l₂ : List β), ((l₁.zip l₂).map Prod.snd).Sublist l₂
  | [], l₂ => by simp
  | _ :: _, [] => by simp
  | _ :: l₁, b :: l₂ => by
    rw [List.zip_cons_cons, List.map_cons]
    exact (map_snd_zip_sublist l₁ l₂).cons_cons b

/-! ## The verifier -/

section Verify

variable {C params}

theorem validateZkLoginPks_eq_ok {pkMap : List (PublicKey × UInt8)} :
    validateZkLoginPks C pkMap = .ok () ↔
      ∀ p ∈ pkMap, ∀ identifier, p.1 = .zkLogin identifier → C.validateZkLogin identifier = true := by
  rw [validateZkLoginPks, OptionList.forM_eq_ok]
  refine forall₂_congr fun ⟨pk, weight⟩ _ => ?_
  cases pk with
  | zkLogin identifier =>
    by_cases hv : C.validateZkLogin identifier = true
    · simp [hv, pure, Except.pure]
    · simp [hv, throw, throwThe, MonadExceptOf.throw]
  | _ => simp [pure, Except.pure]

/-- A pair passes its check when the signature is valid for the key and,
under `additional_multisig_checks`, a signature other than a passkey
authenticator has the key's scheme. -/
theorem checkSubsig_eq_ok {pk : PublicKey} {sig : CompressedSignature} {msg : Msg} :
    checkSubsig C params pk sig msg = .ok () ↔ C.valid pk sig msg = true ∧
      (params.additionalMultisigChecks = true → sig.scheme ≠ .passkeyAuthenticator →
        sig.scheme = pk.scheme) := by
  have hverify : verifySubsig C pk sig msg = .ok () ↔ C.valid pk sig msg = true := by
    unfold verifySubsig
    split <;> simp_all
  cases sig with
  | passkey bytes => simp [checkSubsig, hverify, CompressedSignature.scheme]
  | _ =>
    simp only [checkSubsig]
    split_ifs with hcheck
    · simp only [Bool.and_eq_true, bne_iff_ne, CompressedSignature.scheme] at hcheck
      simp [hcheck.1, hcheck.2, CompressedSignature.scheme]
    · simp only [Bool.and_eq_true, bne_iff_ne, not_and, not_not, CompressedSignature.scheme] at hcheck
      rw [hverify]
      simp only [CompressedSignature.scheme, ne_eq, reduceCtorEq, not_false_eq_true, forall_const]
      exact ⟨fun h => ⟨h, hcheck⟩, And.left⟩

variable {crashOnDebug : Bool} {pkMap : List (PublicKey × UInt8)} {msg : Msg}

/-- **The signature loop.** When it returns a weight, every pair it formed is
a signature that passes its check against the entry at its index, and the
weight is the `u16` sum of those entries' weights; only under
`crash_on_debug` must the two sides have the same length. -/
theorem verifySigs_eq_ok : ∀ (sigs : List CompressedSignature) (indices : List ℕ) (w w' : ℕ),
    w < 2 ^ 16 → verifySigs C params crashOnDebug pkMap msg sigs indices w = some (.ok w') →
      (crashOnDebug = true → sigs.length = indices.length) ∧
      (∀ p ∈ sigs.zip indices,
        ∃ e, pkMap[p.2]? = some e ∧ checkSubsig C params e.1 p.1 msg = .ok ()) ∧
      w' = (w + (((sigs.zip indices).filterMap fun p => pkMap[p.2]?).map fun e => e.2.toNat).sum) %
        2 ^ 16
  | [], [], w, w', hw, h => by
    simp only [verifySigs, Option.some.injEq, Except.ok.injEq] at h
    subst h
    refine ⟨fun _ => rfl, by simp, ?_⟩
    rw [List.zip_nil_left, List.filterMap_nil, List.map_nil, List.sum_nil, Nat.add_zero,
      Nat.mod_eq_of_lt hw]
  | [], _ :: _, w, w', hw, h => by
    -- the mismatch ends the loop, or panics
    cases crashOnDebug <;> simp [verifySigs] at h
    subst h
    refine ⟨by simp, by simp, ?_⟩
    rw [List.zip_nil_left, List.filterMap_nil, List.map_nil, List.sum_nil, Nat.add_zero,
      Nat.mod_eq_of_lt hw]
  | _ :: _, [], w, w', hw, h => by
    cases crashOnDebug <;> simp [verifySigs] at h
    subst h
    refine ⟨by simp, by simp, ?_⟩
    rw [List.zip_nil_right, List.filterMap_nil, List.map_nil, List.sum_nil, Nat.add_zero,
      Nat.mod_eq_of_lt hw]
  | sig :: sigs, i :: indices, w, w', hw, h => by
    simp only [verifySigs] at h
    cases he : pkMap[i]? with
    | none => simp [he] at h
    | some e =>
      obtain ⟨pk, weight⟩ := e
      cases hc : checkSubsig C params pk sig msg with
      | error err => simp [he, hc] at h
      | ok u =>
        simp only [he, hc] at h
        obtain ⟨hlen, hall, hsum⟩ :=
          verifySigs_eq_ok sigs indices _ w' (Nat.mod_lt _ (Nat.two_pow_pos 16)) h
        refine ⟨fun hcrash => by simp [hlen hcrash], ?_, ?_⟩
        · rw [List.zip_cons_cons, List.forall_mem_cons]
          exact ⟨⟨(pk, weight), he, hc⟩, hall⟩
        · rw [hsum, List.zip_cons_cons, List.filterMap_cons, he, List.map_cons, List.sum_cons,
            Nat.mod_add_mod, Nat.add_assoc]

/-- The signature loop over pairs that all pass their check returns the `u16`
sum of the weights of the entries at the indices. -/
theorem verifySigs_of_forall₂ : ∀ {sigs : List CompressedSignature} {indices : List ℕ} (w : ℕ),
    List.Forall₂ (fun sig i => ∃ e, pkMap[i]? = some e ∧ checkSubsig C params e.1 sig msg = .ok ())
      sigs indices → w < 2 ^ 16 →
    verifySigs C params crashOnDebug pkMap msg sigs indices w =
      some (.ok ((w + ((indices.filterMap fun i => pkMap[i]?).map fun e => e.2.toNat).sum) % 2 ^ 16))
  | [], [], w, .nil, hw => by
    simp only [verifySigs, List.filterMap_nil, List.map_nil, List.sum_nil, Nat.add_zero,
      Nat.mod_eq_of_lt hw]
  | sig :: sigs, i :: indices, w, .cons ⟨⟨pk, weight⟩, he, hc⟩ hrest, _ => by
    simp only [verifySigs, he, hc]
    rw [verifySigs_of_forall₂ _ hrest (Nat.mod_lt _ (Nat.two_pow_pos 16)), List.filterMap_cons, he,
      List.map_cons, List.sum_cons, Nat.mod_add_mod, Nat.add_assoc]

/-- **What `verify_claims` checks.** It accepts only a well-formed key whose
address is the claimed one, with the zkLogin identifiers valid when asked and
zkLogin and passkey signatures admitted when present, a bitmap within
`MAX_BITMAP_VALUE`, and a loop over its set bits whose weight reaches the
threshold. -/
theorem verifyClaims_eq_ok {ms : MultiSig} {multisigAddress : ℕ}
    (h : ms.verifyClaims C params crashOnDebug msg multisigAddress = some (.ok ())) :
    ms.multisigPk.WellFormed ∧
    (params.validateZkloginPublicIdentifier = true → ∀ p ∈ ms.multisigPk.pkMap, ∀ identifier,
      p.1 = .zkLogin identifier → C.validateZkLogin identifier = true) ∧
    C.address ms.multisigPk = multisigAddress ∧
    (ms.hasZkloginSigs = true → params.acceptZkloginInMultisig = true) ∧
    (ms.hasPasskeySigs = true → params.acceptPasskeyInMultisig = true) ∧
    ms.bitmap ≤ maxBitmapValue ∧
    ∃ w, verifySigs C params crashOnDebug ms.multisigPk.pkMap msg ms.sigs (setBits ms.bitmap) 0 =
      some (.ok w) ∧ ms.multisigPk.threshold.toNat ≤ w := by
  unfold MultiSig.verifyClaims at h
  cases hv : ms.multisigPk.validate with
  | none => simp [hv] at h
  | some pk' =>
    have hwf : ms.multisigPk.WellFormed := validate_isSome.mp (by simp [hv])
    simp only [hv, Option.isNone_some, Bool.false_eq_true, if_false] at h
    cases hz : (if params.validateZkloginPublicIdentifier then validateZkLoginPks C ms.multisigPk.pkMap
        else .ok ()) with
    | error e => simp [hz] at h
    | ok u =>
      have hzk : params.validateZkloginPublicIdentifier = true →
          validateZkLoginPks C ms.multisigPk.pkMap = .ok () := fun hp => by simpa [hp] using hz
      simp only [hz] at h
      by_cases ha : C.address ms.multisigPk ≠ multisigAddress
      · simp [ha] at h
      by_cases hzs : (ms.hasZkloginSigs && !params.acceptZkloginInMultisig) = true
      · simp [ha, hzs] at h
      by_cases hps : (ms.hasPasskeySigs && !params.acceptPasskeyInMultisig) = true
      · simp [ha, hzs, hps] at h
      simp only [ha, hzs, hps, if_false] at h
      cases hidx : asIndices ms.bitmap with
      | error e => simp [hidx] at h
      | ok indices =>
        obtain ⟨hbitmap, rfl⟩ := asIndices_eq_ok.mp hidx
        simp only [hidx] at h
        cases hs : verifySigs C params crashOnDebug ms.multisigPk.pkMap msg ms.sigs
            (setBits ms.bitmap) 0 with
        | none => simp [hs] at h
        | some r =>
          cases r with
          | error e => simp [hs] at h
          | ok w =>
            by_cases hw : ms.multisigPk.threshold.toNat ≤ w
            · refine ⟨hwf, fun hp => validateZkLoginPks_eq_ok.mp (hzk hp), not_not.mp ha, ?_, ?_,
                hbitmap, w, rfl, hw⟩
              · simpa using hzs
              · simpa using hps
            · simp [hs, hw] at h

/-- **MultiSig verification is sound.** When `verify_claims` accepts, the key
is well formed and its address the claimed one, the bitmap is within
`MAX_BITMAP_VALUE`, the set bits paired with signatures increase, each pair
is a valid signature by the key entry at its index (of that entry's scheme
under `additional_multisig_checks`, unless a passkey authenticator), the
entries paired are distinct members, and their weights, summed without `u16`
overflow, reach the threshold. Only under `crash_on_debug` must every set bit
carry a signature. -/
theorem verifyClaims_sound {ms : MultiSig} {multisigAddress : ℕ}
    (h : ms.verifyClaims C params crashOnDebug msg multisigAddress = some (.ok ())) :
    ms.multisigPk.WellFormed ∧ multisigAddress = C.address ms.multisigPk ∧
    ms.bitmap ≤ maxBitmapValue ∧
    (crashOnDebug = true → ms.sigs.length = (setBits ms.bitmap).length ∧
      ∀ i ∈ setBits ms.bitmap, i < ms.multisigPk.pkMap.length) ∧
    ((ms.sigs.zip (setBits ms.bitmap)).map Prod.snd).Pairwise (· < ·) ∧
    (∀ p ∈ ms.sigs.zip (setBits ms.bitmap), ∃ e, ms.multisigPk.pkMap[p.2]? = some e ∧
      C.valid e.1 p.1 msg = true ∧
      (params.additionalMultisigChecks = true → p.1.scheme ≠ .passkeyAuthenticator →
        p.1.scheme = e.1.scheme)) ∧
    (ms.signers.map Prod.fst).Nodup ∧
    (ms.signers.map fun e => e.2.toNat).sum < 2 ^ 16 ∧
    ms.multisigPk.threshold.toNat ≤ (ms.signers.map fun e => e.2.toNat).sum := by
  obtain ⟨hwf, -, haddr, -, -, hbitmap, w, hloop, hw⟩ := verifyClaims_eq_ok h
  obtain ⟨hlen, hpairs, hsum⟩ := verifySigs_eq_ok ms.sigs (setBits ms.bitmap) 0 w
    (Nat.two_pow_pos 16) hloop
  -- the pairs take at most ten set bits, so the `u16` sum cannot wrap
  have hsigners : ms.signers.length ≤ maxSignerInMultisig :=
    (List.length_filterMap_le _ _).trans ((List.length_zip .. ▸ Nat.min_le_right _ _).trans
      (length_setBits_le hbitmap))
  have hlt := sum_weights_lt hsigners
  rw [Nat.zero_add, ← MultiSig.signers, Nat.mod_eq_of_lt hlt] at hsum
  have hsorted := (setBits_sorted ms.bitmap).sublist (map_snd_zip_sublist ms.sigs _)
  refine ⟨hwf, haddr.symm, hbitmap, fun hcrash => ⟨hlen hcrash, fun i hi => ?_⟩, hsorted,
    fun p hp => ?_, ?_, hlt, hsum ▸ hw⟩
  · -- with equal lengths every set bit is paired, hence names an entry
    rw [← List.map_snd_zip (Nat.le_of_eq (hlen hcrash).symm)] at hi
    obtain ⟨p, hp, rfl⟩ := List.mem_map.mp hi
    obtain ⟨e, he, -⟩ := hpairs p hp
    exact (List.getElem?_eq_some_iff.mp he).1
  · obtain ⟨e, he, hcheck⟩ := hpairs p hp
    exact ⟨e, he, checkSubsig_eq_ok.mp hcheck⟩
  · -- distinct indices name distinct keys
    have hkeys : ms.signers.map Prod.fst = ((ms.sigs.zip (setBits ms.bitmap)).map Prod.snd).filterMap
        fun i => (ms.multisigPk.pkMap.map Prod.fst)[i]? := by
      rw [MultiSig.signers, List.map_filterMap, List.filterMap_map]
      simp [List.getElem?_map]
    rw [hkeys]
    exact List.Nodup.filterMap (fun _ _ _ hi hj => getElem?_inj_of_nodup hwf.nodup hi hj)
      (hsorted.imp ne_of_lt)

end Verify

/-! ## Combining signatures -/

section Combine

/-- Relations between consecutive lists compose pointwise. -/
theorem forall₂_comp {α β γ : Type} {R : α → β → Prop} {S : β → γ → Prop} {T : α → γ → Prop}
    (H : ∀ a b c, R a b → S b c → T a c) :
    ∀ {l₁ : List α} {l₂ : List β} {l₃ : List γ},
      List.Forall₂ R l₁ l₂ → List.Forall₂ S l₂ l₃ → List.Forall₂ T l₁ l₃
  | _, _, _, .nil, .nil => .nil
  | _, _, _, .cons h₁ h₂, .cons h₃ h₄ => .cons (H _ _ _ h₁ h₃) (forall₂_comp H h₂ h₄)

/-- The entries of a sublist sit at increasing positions of the list. -/
theorem exists_positions_of_sublist {α : Type} {sub l : List α} (h : sub.Sublist l) :
    ∃ idxs : List ℕ, idxs.Pairwise (· < ·) ∧ List.Forall₂ (fun i a => l[i]? = some a) idxs sub := by
  induction h with
  | slnil => exact ⟨[], .nil, .nil⟩
  | cons a _ ih =>
    obtain ⟨idxs, hlt, hall⟩ := ih
    refine ⟨idxs.map (· + 1), List.pairwise_map.mpr (hlt.imp Nat.succ_lt_succ), ?_⟩
    exact List.forall₂_map_left_iff.mpr (hall.imp fun i b hb => by simpa using hb)
  | cons_cons a _ ih =>
    obtain ⟨idxs, hlt, hall⟩ := ih
    refine ⟨0 :: idxs.map (· + 1), ?_, .cons rfl ?_⟩
    · refine List.pairwise_cons.mpr ⟨fun j hj => ?_, List.pairwise_map.mpr (hlt.imp Nat.succ_lt_succ)⟩
      obtain ⟨k, -, rfl⟩ := List.mem_map.mp hj
      exact Nat.succ_pos k
    · exact List.forall₂_map_left_iff.mpr (hall.imp fun i b hb => by simpa using hb)

/-- With distinct keys, `get_index` finds an entry's own position. -/
theorem getIndex_eq_some {multisigPk : MultiSigPublicKey}
    (hnd : (multisigPk.pkMap.map Prod.fst).Nodup) {i : ℕ} {e : PublicKey × UInt8}
    (h : multisigPk.pkMap[i]? = some e) : multisigPk.getIndex e.1 = some i := by
  obtain ⟨hi, he⟩ := List.getElem?_eq_some_iff.mp h
  rw [MultiSigPublicKey.getIndex, List.findIdx?_eq_some_iff_getElem]
  refine ⟨hi, by simp [he], fun j hj hkey => ?_⟩
  -- an earlier entry with the same key would repeat it
  have hj' : j < multisigPk.pkMap.length := Nat.lt_trans hj hi
  have hsame : (multisigPk.pkMap.map Prod.fst)[j]? = (multisigPk.pkMap.map Prod.fst)[i]? := by
    simp only [List.getElem?_map, List.getElem?_eq_getElem hj', List.getElem?_eq_getElem hi,
      Option.map_some, he]
    simpa using hkey
  have := (List.getElem?_inj (by simpa using hj') hnd).mp hsame
  omega

variable {G : Type} {toPublicKey : G → Except SuiErrorKind PublicKey}
  {toCompressed : G → Except SuiErrorKind CompressedSignature} {multisigPk : MultiSigPublicKey}

/-- The loop of `combine` over signatures whose keys have distinct indices,
none set yet: it sets their bits and appends their compressed forms. -/
theorem foldlM_combineStep :
    ∀ {fullSigs : List G} {signed : List (PublicKey × CompressedSignature)} {idxs : List ℕ}
      (b : ℕ) (cs : List CompressedSignature),
      List.Forall₂ (fun s p => toPublicKey s = .ok p.1 ∧ toCompressed s = .ok p.2) fullSigs signed →
      List.Forall₂ (fun i p => multisigPk.getIndex p.1 = some i) idxs signed →
      idxs.Nodup → (∀ i ∈ idxs, b.testBit i = false) →
      ∃ b', fullSigs.foldlM (combineStep toPublicKey toCompressed multisigPk) (b, cs) =
          .ok (b', cs ++ signed.map Prod.snd) ∧
        ∀ j, b'.testBit j = (b.testBit j || decide (j ∈ idxs))
  | [], [], [], b, cs, .nil, .nil, _, _ => ⟨b, by simp [pure, Except.pure], by simp⟩
  | s :: fullSigs, p :: signed, i :: idxs, b, cs, .cons ⟨hpk, hc⟩ hsigned, .cons hi hidx, hnd,
      hfree => by
    rw [List.nodup_cons] at hnd
    have hbit : b.testBit i = false := hfree i List.mem_cons_self
    -- one step sets the bit of `i`
    have hstep : combineStep toPublicKey toCompressed multisigPk (b, cs) s =
        .ok (b ||| (1 <<< i), cs ++ [p.2]) := by
      simp [combineStep, hpk, hi, hc, and_one_shiftLeft_ne_zero, hbit, bind, Except.bind, pure,
        Except.pure]
    have hfree' : ∀ j ∈ idxs, (b ||| (1 <<< i)).testBit j = false := fun j hj => by
      have hij : i ≠ j := fun e => hnd.1 (e ▸ hj)
      simp [Nat.one_shiftLeft, Nat.testBit_two_pow_of_ne hij, hfree j (List.mem_cons_of_mem _ hj)]
    obtain ⟨b', hfold, hbits⟩ := foldlM_combineStep (b ||| (1 <<< i)) (cs ++ [p.2]) hsigned hidx
      hnd.2 hfree'
    refine ⟨b', ?_, fun j => ?_⟩
    · rw [List.foldlM_cons, hstep]
      simpa [bind, Except.bind] using hfold
    · rw [hbits j]
      by_cases hij : i = j
      · simp [hij, Nat.one_shiftLeft]
      · simp [hij, Ne.symm hij, Nat.one_shiftLeft]

/-- Looking up increasing positions gives back the entries found there. -/
theorem filterMap_getElem?_of_forall₂ {α : Type} {l : List α} :
    ∀ {idxs : List ℕ} {sub : List α}, List.Forall₂ (fun i a => l[i]? = some a) idxs sub →
      idxs.filterMap (fun i => l[i]?) = sub
  | _, _, .nil => rfl
  | _, _, .cons h hrest => by rw [List.filterMap_cons, h, filterMap_getElem?_of_forall₂ hrest]

variable {C params} {crashOnDebug : Bool} {msg : Msg}

/-- **Combined valid signatures verify.** For a well-formed key, full
signatures that convert to keys and compressed signatures, the keys being
those of some entries of the key taken in its order, each signature valid for
its key and of its scheme, the entries' weights reaching the threshold:
`combine` succeeds, and `verify_claims` accepts the result for the key's
address when the zkLogin identifiers and the signatures' kinds are admitted. -/
theorem combine_verifyClaims {fullSigs : List G} {signed : List (PublicKey × CompressedSignature)}
    {members : List (PublicKey × UInt8)} {multisigAddress : ℕ} (hpk : multisigPk.WellFormed)
    (hsigned : List.Forall₂ (fun s p => toPublicKey s = .ok p.1 ∧ toCompressed s = .ok p.2)
      fullSigs signed)
    (hne : signed ≠ []) (hmembers : members.Sublist multisigPk.pkMap)
    (hkeys : members.map Prod.fst = signed.map Prod.fst)
    (hvalid : ∀ p ∈ signed, C.valid p.1 p.2 msg = true ∧ p.2.scheme = p.1.scheme)
    (hweight : multisigPk.threshold.toNat ≤ (members.map fun e => e.2.toNat).sum)
    (haddr : C.address multisigPk = multisigAddress)
    (hzk : params.validateZkloginPublicIdentifier = true → ∀ p ∈ multisigPk.pkMap, ∀ identifier,
      p.1 = .zkLogin identifier → C.validateZkLogin identifier = true)
    (hzks : params.acceptZkloginInMultisig = false → ∀ p ∈ signed,
      p.2.scheme ≠ .zkLoginAuthenticator)
    (hpks : params.acceptPasskeyInMultisig = false → ∀ p ∈ signed,
      p.2.scheme ≠ .passkeyAuthenticator) :
    ∃ ms, MultiSig.combine toPublicKey toCompressed fullSigs multisigPk = .ok ms ∧
      ms.verifyClaims C params crashOnDebug msg multisigAddress = some (.ok ()) := by
  obtain ⟨idxs, hsorted, hpos⟩ := exists_positions_of_sublist hmembers
  -- the signers' positions in the key, through the entries they name
  have hMP : List.Forall₂ (fun m p => m.1 = p.1) members signed := by
    have h : List.Forall₂ (· = ·) (members.map Prod.fst) (signed.map Prod.fst) :=
      hkeys ▸ List.forall₂_refl _
    rwa [List.forall₂_map_left_iff, List.forall₂_map_right_iff] at h
  have hIP : List.Forall₂ (fun i p => ∃ m, multisigPk.pkMap[i]? = some m ∧ m.1 = p.1) idxs signed :=
    forall₂_comp (fun _ m _ h₁ h₂ => ⟨m, h₁, h₂⟩) hpos hMP
  have hidx : List.Forall₂ (fun i p => multisigPk.getIndex p.1 = some i) idxs signed :=
    hIP.imp fun _ _ ⟨_, hm, hmp⟩ => hmp ▸ getIndex_eq_some hpk.nodup hm
  obtain ⟨b, hfold, hbits⟩ := foldlM_combineStep 0 [] hsigned hidx (hsorted.imp ne_of_lt) (by simp)
  simp only [Nat.zero_testBit, Bool.false_or, List.nil_append] at hbits hfold
  -- the bitmap holds exactly the positions, all below ten
  have hlt : ∀ i ∈ idxs, i < multisigPk.pkMap.length := fun i hi => by
    rw [← List.map_fst_zip (Nat.le_of_eq hpos.length_eq)] at hi
    obtain ⟨⟨i', m⟩, hz, rfl⟩ := List.mem_map.mp hi
    exact (List.getElem?_eq_some_iff.mp ((List.forall₂_iff_zip.mp hpos).2 hz)).1
  have hten : multisigPk.pkMap.length ≤ 10 := hpk.length_le
  have hb : b ≤ maxBitmapValue := by
    have hpow : b < 2 ^ 10 := Nat.lt_pow_two_of_testBit b fun i hi => by
      rw [hbits, decide_eq_false_iff_not]
      exact fun hmem => absurd (hlt i hmem) (by omega)
    unfold maxBitmapValue
    omega
  have hset : setBits b = idxs := by
    rw [setBits, List.filter_congr fun i _ => hbits i]
    exact filter_range_mem hsorted fun i hi => by have := hlt i hi; omega
  have hmemlen : members.length ≤ maxSignerInMultisig := hmembers.length_le.trans hpk.length_le
  refine ⟨⟨signed.map Prod.snd, b, multisigPk⟩, ?_, ?_⟩
  · -- `combine` passes its checks and runs its loop
    have hlen : fullSigs.length = members.length := hsigned.length_eq.trans hMP.length_eq.symm
    have hfne : fullSigs.isEmpty = false := by
      cases fullSigs with
      | nil => exact absurd (List.forall₂_nil_left_iff.mp hsigned) hne
      | cons _ _ => rfl
    simp only [MultiSig.combine, Option.isNone_iff_eq_none, ← Option.not_isSome_iff_eq_none,
      validate_isSome.mpr hpk, not_true_eq_false, decide_false, if_false, hfne, Bool.or_false,
      hlen, hmembers.length_le, Nat.not_lt.mpr, hfold, bind, Except.bind, pure, Except.pure,
      Bool.false_eq_true]
  · -- each check of `verify_claims` passes
    have hzk' : (if params.validateZkloginPublicIdentifier then validateZkLoginPks C multisigPk.pkMap
        else .ok ()) = .ok () := by
      split
      · exact validateZkLoginPks_eq_ok.mpr (hzk ‹_›)
      · rfl
    have hzs : (MultiSig.hasZkloginSigs ⟨signed.map Prod.snd, b, multisigPk⟩ &&
        !params.acceptZkloginInMultisig) = false := by
      cases hacc : params.acceptZkloginInMultisig
      · rw [Bool.not_false, Bool.and_true, Bool.eq_false_iff, ne_eq, hasZkloginSigs_eq_true]
        rintro ⟨c, hc, hcs⟩
        obtain ⟨p, hp, rfl⟩ := List.mem_map.mp hc
        exact hzks hacc p hp hcs
      · simp
    have hps : (MultiSig.hasPasskeySigs ⟨signed.map Prod.snd, b, multisigPk⟩ &&
        !params.acceptPasskeyInMultisig) = false := by
      cases hacc : params.acceptPasskeyInMultisig
      · rw [Bool.not_false, Bool.and_true, Bool.eq_false_iff, ne_eq, hasPasskeySigs_eq_true]
        rintro ⟨c, hc, hcs⟩
        obtain ⟨p, hp, rfl⟩ := List.mem_map.mp hc
        exact hpks hacc p hp hcs
      · simp
    have hcheck : List.Forall₂ (fun c i => ∃ e, multisigPk.pkMap[i]? = some e ∧
        checkSubsig C params e.1 c msg = .ok ()) (signed.map Prod.snd) idxs := by
      rw [List.forall₂_map_left_iff]
      refine ((List.forall₂_and_left _ _).mpr ⟨hvalid, List.Forall₂.flip hIP⟩).imp
        fun p i ⟨⟨hv, hs⟩, m, hm, hmp⟩ => ⟨m, hm, checkSubsig_eq_ok.mpr ⟨?_, fun _ _ => ?_⟩⟩
      · rw [hmp]
        exact hv
      · rw [hmp]
        exact hs
    have hsum : ((idxs.filterMap fun i => multisigPk.pkMap[i]?).map fun e => e.2.toNat).sum % 2 ^ 16 =
        (members.map fun e => e.2.toNat).sum := by
      rw [filterMap_getElem?_of_forall₂ hpos, Nat.mod_eq_of_lt (sum_weights_lt hmemlen)]
    have hidxs : asIndices b = .ok idxs := asIndices_eq_ok.mpr ⟨hb, hset.symm⟩
    simp only [MultiSig.verifyClaims, Option.isNone_iff_eq_none, ← Option.not_isSome_iff_eq_none,
      validate_isSome.mpr hpk, not_true_eq_false, if_false, hzk', haddr, ne_eq,
      hzs, hps, Bool.false_eq_true, hidxs, verifySigs_of_forall₂ 0 hcheck (Nat.two_pow_pos 16),
      Nat.zero_add, hsum, ge_iff_le, hweight, if_true]

end Combine

/-! ## Soundness and completeness -/

theorem multiSig_verifyClaims_spec (C : Crypto Msg) (params : VerifyParams) (crashOnDebug : Bool) :
    (∀ (ms : MultiSig) (msg : Msg) (multisigAddress : ℕ),
      ms.verifyClaims C params crashOnDebug msg multisigAddress = some (.ok ()) →
        ms.multisigPk.WellFormed ∧ multisigAddress = C.address ms.multisigPk ∧
        ms.bitmap ≤ maxBitmapValue ∧
        (crashOnDebug = true → ms.sigs.length = (setBits ms.bitmap).length ∧
          ∀ i ∈ setBits ms.bitmap, i < ms.multisigPk.pkMap.length) ∧
        ((ms.sigs.zip (setBits ms.bitmap)).map Prod.snd).Pairwise (· < ·) ∧
        (∀ p ∈ ms.sigs.zip (setBits ms.bitmap), ∃ e, ms.multisigPk.pkMap[p.2]? = some e ∧
          C.valid e.1 p.1 msg = true ∧
          (params.additionalMultisigChecks = true → p.1.scheme ≠ .passkeyAuthenticator →
            p.1.scheme = e.1.scheme)) ∧
        (ms.signers.map Prod.fst).Nodup ∧
        (ms.signers.map fun e => e.2.toNat).sum < 2 ^ 16 ∧
        ms.multisigPk.threshold.toNat ≤ (ms.signers.map fun e => e.2.toNat).sum) ∧
    ∀ {G : Type} (toPublicKey : G → Except SuiErrorKind PublicKey)
      (toCompressed : G → Except SuiErrorKind CompressedSignature) (fullSigs : List G)
      (signed : List (PublicKey × CompressedSignature)) (members : List (PublicKey × UInt8))
      (multisigPk : MultiSigPublicKey) (msg : Msg) (multisigAddress : ℕ),
      multisigPk.WellFormed →
      List.Forall₂ (fun s p => toPublicKey s = .ok p.1 ∧ toCompressed s = .ok p.2) fullSigs signed →
      signed ≠ [] → members.Sublist multisigPk.pkMap →
      members.map Prod.fst = signed.map Prod.fst →
      (∀ p ∈ signed, C.valid p.1 p.2 msg = true ∧ p.2.scheme = p.1.scheme) →
      multisigPk.threshold.toNat ≤ (members.map fun e => e.2.toNat).sum →
      C.address multisigPk = multisigAddress →
      (params.validateZkloginPublicIdentifier = true → ∀ p ∈ multisigPk.pkMap, ∀ identifier,
        p.1 = .zkLogin identifier → C.validateZkLogin identifier = true) →
      (params.acceptZkloginInMultisig = false → ∀ p ∈ signed, p.2.scheme ≠ .zkLoginAuthenticator) →
      (params.acceptPasskeyInMultisig = false → ∀ p ∈ signed, p.2.scheme ≠ .passkeyAuthenticator) →
      ∃ ms, MultiSig.combine toPublicKey toCompressed fullSigs multisigPk = .ok ms ∧
        ms.verifyClaims C params crashOnDebug msg multisigAddress = some (.ok ()) :=
  ⟨fun _ _ _ h => verifyClaims_sound h,
    fun _ _ _ _ _ _ _ _ hpk hsigned hne hmembers hkeys hvalid hweight haddr hzk hzks hpks =>
      combine_verifyClaims hpk hsigned hne hmembers hkeys hvalid hweight haddr hzk hzks hpks⟩

theorem multiSig_verifyClaims_spec_twoOfThree :
    ∃ ms, MultiSig.combine (fun p : PublicKey × CompressedSignature => .ok p.1) (fun p => .ok p.2)
        [(.ed25519 1, .ed25519 1), (.ed25519 3, .ed25519 3)]
        ⟨[(.ed25519 1, 1), (.ed25519 2, 1), (.ed25519 3, 1)], 2⟩ = .ok ms ∧
      ms.verifyClaims ⟨fun pk sig _ => decide (pk.scheme = sig.scheme), fun _ => true, fun _ => 0⟩
        ⟨true, false, false, true⟩ true () 0 = some (.ok ()) :=
  (multiSig_verifyClaims_spec ⟨fun pk sig _ => decide (pk.scheme = sig.scheme), fun _ => true,
      fun _ => 0⟩ ⟨true, false, false, true⟩ true).2
    (fun p : PublicKey × CompressedSignature => .ok p.1) (fun p => .ok p.2)
    [(.ed25519 1, .ed25519 1), (.ed25519 3, .ed25519 3)]
    [(.ed25519 1, .ed25519 1), (.ed25519 3, .ed25519 3)] [(.ed25519 1, 1), (.ed25519 3, 1)]
    ⟨[(.ed25519 1, 1), (.ed25519 2, 1), (.ed25519 3, 1)], 2⟩ () 0 (validate_isSome.mp rfl)
    (.cons ⟨rfl, rfl⟩ (.cons ⟨rfl, rfl⟩ .nil)) (by decide) (by decide) rfl (by decide) (by decide)
    rfl (fun _ p hp _ h => by simp at hp; rcases hp with rfl | rfl | rfl <;> cases h)
    (fun _ => by decide) (fun _ => by decide)

/-- With `crash_on_debug` off, as in production, `zip_debug_eq` ends the
pairing at the shorter side: a multisig whose bitmap sets a bit beyond its
single signature and beyond its single key verifies, and a passkey
authenticator is paired with a key of another scheme under
`additional_multisig_checks`. -/
theorem verifyClaims_accepts_unpaired_bit :
    MultiSig.verifyClaims (⟨fun _ _ _ => true, fun _ => true, fun _ => 0⟩ : Crypto Unit)
        ⟨false, false, true, true⟩ false ⟨[.ed25519 1], 0b11, ⟨[(.ed25519 1, 1)], 1⟩⟩ () 0 =
        some (.ok ()) ∧
      [CompressedSignature.ed25519 1].length ≠ (setBits 0b11).length ∧ 1 ∈ setBits 0b11 ∧
      MultiSig.verifyClaims (⟨fun _ _ _ => true, fun _ => true, fun _ => 0⟩ : Crypto Unit)
        ⟨false, false, true, true⟩ false ⟨[.passkey 5], 0b1, ⟨[(.ed25519 5, 1)], 1⟩⟩ () 0 =
        some (.ok ()) ∧
      (CompressedSignature.passkey 5).scheme ≠ (PublicKey.ed25519 5).scheme :=
  ⟨rfl, by decide, by decide, rfl, by decide⟩

end Sui.SuiTypes
