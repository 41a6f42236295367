import Mathlib.Order.Basic
import Mathlib.Data.Prod.Lex
import Sui.Consensus.Types

/-!
# Blocks, block references and slots (`block.rs`, `consensus_types::block`)

A block is identified by its `BlockRef` — round, author and digest — and
names its causal predecessors by their references. A `Slot` is a position in
the DAG, a round and an authority; an honest authority fills each of its slots
with at most one block, a Byzantine one may equivocate.

`BlockRef`s are ordered lexicographically by round, author and digest, as
the derived `Ord` of the source orders them; the in-memory maps of the DAG
state iterate in this order.

`Block` models a `VerifiedBlock`: the fields of the signed block the
modelled code reads, together with the digest the verified block caches.
-/

namespace Sui

/-- `BlockRef`: the unique reference of a block. -/
structure BlockRef where
  /-- round of the block -/
  round : ℕ
  /-- authority that authored it -/
  author : ℕ
  /-- digest of the signed block -/
  digest : ℕ
  deriving DecidableEq, Repr

namespace BlockRef

/-- The lexicographic key the derived `Ord` compares. -/
def lexKey (r : BlockRef) : ℕ ×ₗ ℕ ×ₗ ℕ := toLex (r.round, toLex (r.author, r.digest))

theorem lexKey_injective : Function.Injective lexKey := by
  intro a b h
  cases a
  cases b
  simp only [lexKey, EmbeddingLike.apply_eq_iff_eq, Prod.mk.injEq] at h
  obtain ⟨rfl, rfl, rfl⟩ := h
  rfl

instance : LinearOrder BlockRef := LinearOrder.lift' lexKey lexKey_injective

/-- The laws `Finset.sort` asks of the order, as instances of their own, so that every
sort of references elaborates to the same closed terms. -/
instance : IsTrans BlockRef (· ≤ ·) := ⟨fun _ _ _ => le_trans⟩

instance : Std.Antisymm (fun a b : BlockRef => a ≤ b) := ⟨fun _ _ => le_antisymm⟩

theorem lt_iff_lexKey_lt {a b : BlockRef} : a < b ↔ a.lexKey < b.lexKey := Iff.rfl

/-- A reference of a lower round is smaller. -/
theorem lt_of_round_lt {a b : BlockRef} (h : a.round < b.round) : a < b := by
  rw [lt_iff_lexKey_lt, lexKey, lexKey, Prod.Lex.toLex_lt_toLex]
  exact .inl h

/-- The order compares rounds first. -/
theorem round_le_of_le {a b : BlockRef} (h : a ≤ b) : a.round ≤ b.round := by
  by_contra hlt
  exact absurd h (not_le.mpr (lt_of_round_lt (Nat.lt_of_not_le hlt)))

end BlockRef

/-- `Slot`: a round and an authority. -/
structure Slot where
  /-- round of the slot -/
  round : ℕ
  /-- authority of the slot -/
  authority : ℕ
  deriving DecidableEq, Repr

/-- `impl From<BlockRef> for Slot`. -/
def Slot.ofRef (r : BlockRef) : Slot := ⟨r.round, r.author⟩

@[simp] theorem Slot.ofRef_round (r : BlockRef) : (Slot.ofRef r).round = r.round := rfl

@[simp] theorem Slot.ofRef_authority (r : BlockRef) : (Slot.ofRef r).authority = r.author := rfl

/-- `GENESIS_ROUND`. -/
def genesisRound : ℕ := 0

/-- A `VerifiedBlock`: the block fields the modelled code reads and the
cached digest. -/
structure Block where
  /-- epoch the block belongs to -/
  epoch : ℕ
  /-- round of the block -/
  round : ℕ
  /-- authority that proposed it -/
  author : ℕ
  /-- proposal timestamp -/
  timestampMs : ℕ
  /-- references to the causal predecessors, own previous block first -/
  ancestors : List BlockRef
  /-- the transactions, each given by its size in bytes -/
  transactions : List ℕ
  /-- digest of the serialized signed block -/
  digest : ℕ
  deriving DecidableEq, Repr

namespace Block

/-- `VerifiedBlock::reference`. -/
def reference (b : Block) : BlockRef := ⟨b.round, b.author, b.digest⟩

@[simp] theorem reference_round (b : Block) : b.reference.round = b.round := rfl

@[simp] theorem reference_author (b : Block) : b.reference.author = b.author := rfl

@[simp] theorem reference_digest (b : Block) : b.reference.digest = b.digest := rfl

/-- The slot the block occupies. -/
def slot (b : Block) : Slot := Slot.ofRef b.reference

@[simp] theorem slot_round (b : Block) : b.slot.round = b.round := rfl

@[simp] theorem slot_authority (b : Block) : b.slot.authority = b.author := rfl

theorem slot_eq_slot_iff {b b' : Block} : b.slot = b'.slot ↔ b.round = b'.round ∧ b.author = b'.author := by
  constructor
  · intro h
    exact ⟨congrArg Slot.round h, congrArg Slot.authority h⟩
  · rintro ⟨hr, ha⟩
    simp only [slot, Slot.ofRef, reference_round, reference_author, hr, ha]

end Block

end Sui
