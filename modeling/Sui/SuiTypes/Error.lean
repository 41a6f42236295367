import Mathlib.Data.Nat.Notation

/-!
# Errors of the signature paths (`sui_types::error`)

The `SuiErrorKind`s that the certificate and multisig paths return, each with
the data the model keeps of it: the texts of `InvalidSignature` and
`IncorrectSigner`, the epochs of `WrongEpoch`, the signer and index of
`UnknownSigner`. The committee that some kinds carry in a box is left out.
-/

namespace Sui.SuiTypes

/-- The `SuiErrorKind`s of the signature paths. -/
inductive SuiErrorKind
  /-- `WrongEpoch` -/
  | wrongEpoch (expectedEpoch actualEpoch : ℕ)
  /-- `InvalidAuthenticator` -/
  | invalidAuthenticator
  /-- `InvalidSignature` with its text -/
  | invalidSignature (error : String)
  /-- `IncorrectSigner` with its text -/
  | incorrectSigner (error : String)
  /-- `UnknownSigner` -/
  | unknownSigner (signer index : Option ℕ)
  /-- `CertificateRequiresQuorum` -/
  | certificateRequiresQuorum
  /-- `InvalidCommittee`: "Authority … not found, committee size …" -/
  | invalidCommittee (authority committeeSize : ℕ)
  deriving DecidableEq, Repr

end Sui.SuiTypes
