import Mathlib.Data.List.Perm.Basic

/-!
# Aggregate signatures, abstractly

A scheme of aggregate signatures is seen through five operations: whether one
signature by a key on a message is valid, aggregating a list of signatures,
the empty aggregate and adding one aggregate into another, and verifying an
aggregate against a list of keys on a message. The library operations may
fail with an error text.

Nothing is assumed of the operations themselves. Two properties are stated
apart, to be assumed where they are used:

* **correctness** (`Scheme.Correct`) — an aggregate of valid signatures
  verifies against their keys, listed in any order (a BLS aggregate is a sum of
  curve points), and adding an aggregate into the empty one gives it back;
* **unforgeability** (`Scheme.Unforgeable`) — an aggregate verifies against a
  list of keys on a message only if the holder of every listed key signed the
  message, for a predicate `Signed` naming who signed what.

`ideal` is a symbolic scheme, a signature being the pair of its signer and
message, and it is correct (`ideal_correct`); it lets a model built on a
scheme be run on concrete inputs.
-/

namespace AggregateSignature

/-- A scheme over keys `PK`, signatures `Sig`, aggregates `Agg` and messages
`Msg`. -/
structure Scheme (PK Sig Agg Msg : Type) where
  /-- whether a signature by a key on a message is valid -/
  valid : PK → Sig → Msg → Bool
  /-- aggregate a list of signatures -/
  aggregate : List Sig → Except String Agg
  /-- the aggregate of no signature -/
  empty : Agg
  /-- add an aggregate into another -/
  addAggregate : Agg → Agg → Except String Agg
  /-- verify an aggregate against the keys of its signers on a message -/
  verify : Agg → List PK → Msg → Except String Unit

variable {PK Sig Agg Msg : Type} (A : Scheme PK Sig Agg Msg)

/-- Correctness of a scheme. -/
structure Scheme.Correct : Prop where
  /-- an aggregate of valid signatures verifies against their keys, in any order -/
  verify_aggregate : ∀ (signed : List (PK × Sig)) (keys : List PK) (msg : Msg) (agg : Agg),
    (∀ p ∈ signed, A.valid p.1 p.2 msg = true) → A.aggregate (signed.map Prod.snd) = .ok agg →
      keys.Perm (signed.map Prod.fst) → A.verify agg keys msg = .ok ()
  /-- adding into the empty aggregate gives the aggregate back -/
  addAggregate_empty : ∀ agg, A.addAggregate A.empty agg = .ok agg

/-- Unforgeability of a scheme, for a predicate `Signed pk msg` saying that
the holder of `pk` signed `msg`. -/
structure Scheme.Unforgeable (Signed : PK → Msg → Prop) : Prop where
  /-- a verifying aggregate was signed by the holder of every listed key -/
  signed_of_verify : ∀ agg keys msg, A.verify agg keys msg = .ok () → ∀ pk ∈ keys, Signed pk msg

variable {A}

/-- An aggregate of valid signatures, indexed by any type, verifies against
their keys in any order. -/
theorem Scheme.Correct.verify_map {ι : Type} (hA : A.Correct) {l : List ι} {key : ι → PK}
    {sig : ι → Sig} {keys : List PK} {msg : Msg} {agg : Agg}
    (hvalid : ∀ i ∈ l, A.valid (key i) (sig i) msg = true) (hagg : A.aggregate (l.map sig) = .ok agg)
    (hkeys : keys.Perm (l.map key)) : A.verify agg keys msg = .ok () := by
  apply hA.verify_aggregate (l.map fun i => (key i, sig i)) keys msg agg
  · intro p hp
    obtain ⟨i, hi, rfl⟩ := List.mem_map.mp hp
    exact hvalid i hi
  · simpa [List.map_map, Function.comp_def] using hagg
  · simpa [List.map_map, Function.comp_def] using hkeys

section Ideal

variable [DecidableEq Msg]

/-- The symbolic scheme: a signature is its signer and message, an aggregate
the list of its signatures, and an aggregate verifies when its signers are the
listed keys, in some order, all on the message. -/
def ideal : Scheme ℕ (ℕ × Msg) (List (ℕ × Msg)) Msg where
  valid pk sig msg := decide (sig = (pk, msg))
  aggregate sigs := .ok sigs
  empty := []
  addAggregate a b := .ok (a ++ b)
  verify agg keys msg :=
    if (agg.map Prod.fst).isPerm keys && agg.all (fun s => decide (s.2 = msg)) then .ok ()
    else .error "invalid signature"

/-- The symbolic scheme is correct. -/
theorem ideal_correct : (@ideal Msg _).Correct where
  verify_aggregate signed keys msg agg hvalid hagg hkeys := by
    have hsigned : ∀ p ∈ signed, p.2 = (p.1, msg) := fun p hp => by
      simpa [ideal] using hvalid p hp
    have hagg' : agg = signed.map Prod.snd := (Except.ok.inj hagg).symm
    subst hagg'
    have hfst : (signed.map Prod.snd).map Prod.fst = signed.map Prod.fst := by
      rw [List.map_map]
      exact List.map_congr_left fun p hp => by simp [hsigned p hp]
    have hall : (signed.map Prod.snd).all (fun s => decide (s.2 = msg)) = true := by
      simp only [List.all_map, List.all_eq_true, Function.comp_apply, decide_eq_true_eq]
      intro p hp
      rw [hsigned p hp]
    simp only [ideal, hfst, List.isPerm_iff.mpr hkeys.symm, hall, Bool.and_self, if_true]
  addAggregate_empty _ := rfl

end Ideal

end AggregateSignature
