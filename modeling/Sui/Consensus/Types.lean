import Mathlib.Algebra.Group.Nat.Defs
import Mathlib.Data.Nat.Basic

/-!
# Consensus scalar types and checked machine arithmetic

The consensus crates name their scalars with type aliases (`Round = u32`,
`Stake = u64`, `AuthorityIndex(u32)`, `CommitIndex = u32`, …). The model
takes all of them to be natural numbers, and the field names and docstrings
say which alias a number stands for: nothing in the modelled code depends on
wrap-around but the lock round of the ancestor state manager, a `u32` sum
that release builds wrap (taken `% u32Bound` there), and where the code
*checks* for overflow (`checked_add`,
`checked_mul`, `checked_sub` followed by `unwrap`) the check is modelled
explicitly against the width of the Rust type, a failed check being `none`.

Digests (`BlockDigest`, `CommitDigest`) are 32-byte hashes compared
byte-wise; read big-endian they are natural numbers below `2^256` with the
same order, which is how the model stores them.
-/

namespace Sui

/-- One more than the largest `u32`. -/
def u32Bound : ℕ := 2 ^ 32

/-- One more than the largest `u64`. -/
def u64Bound : ℕ := 2 ^ 64

/-- `u64::checked_add`. -/
def checkedAdd (a b : ℕ) : Option ℕ := if a + b < u64Bound then some (a + b) else none

/-- `u64::checked_sub`. -/
def checkedSub (a b : ℕ) : Option ℕ := if b ≤ a then some (a - b) else none

/-- `u64::checked_mul`. -/
def checkedMul (a b : ℕ) : Option ℕ := if a * b < u64Bound then some (a * b) else none

theorem checkedAdd_eq_some {a b : ℕ} (h : a + b < u64Bound) : checkedAdd a b = some (a + b) :=
  if_pos h

theorem checkedSub_eq_some {a b : ℕ} (h : b ≤ a) : checkedSub a b = some (a - b) :=
  if_pos h

theorem checkedMul_eq_some {a b : ℕ} (h : a * b < u64Bound) : checkedMul a b = some (a * b) :=
  if_pos h

theorem checkedMul_eq_none {a b : ℕ} (h : u64Bound ≤ a * b) : checkedMul a b = none :=
  if_neg (by omega)

theorem checkedAdd_eq_some_iff {a b c : ℕ} : checkedAdd a b = some c ↔ a + b < u64Bound ∧ a + b = c := by
  unfold checkedAdd
  split_ifs with h <;> simp [h]

theorem checkedMul_eq_some_iff {a b c : ℕ} : checkedMul a b = some c ↔ a * b < u64Bound ∧ a * b = c := by
  unfold checkedMul
  split_ifs with h <;> simp [h]

end Sui
