import Mathlib.Algebra.Order.Floor.Div
import Mathlib.Order.Bounds.Basic

/-!
# Rounding up to a multiple

`roundUp b n = n ⌈/⌉ b * b`, the expression by which integer code rounds `n`
up to a multiple of `b`. For a positive `b` it is the least multiple of `b`
that is at least `n`:

* **`isLeast_roundUp`** — it is a multiple of `b`, at least `n`, and below
  every other such multiple (`roundUp_le_of_dvd`);
* **`roundUp_mono`**, **`roundUp_of_dvd`** — rounding is monotone and fixes the
  multiples, so it is idempotent;
* **`roundUp_lt_add`** — it overshoots by less than `b`.

Every fact is read off the Galois connection between `⌈/⌉ b` and `b * ·`.
-/

namespace RoundUp

/-- `n` rounded up to a multiple of `b`. -/
def roundUp (b n : ℕ) : ℕ := n ⌈/⌉ b * b

variable {b n m : ℕ}

theorem dvd_roundUp (b n : ℕ) : b ∣ roundUp b n := Dvd.intro_left _ rfl

theorem le_roundUp (hb : 0 < b) (n : ℕ) : n ≤ roundUp b n := by
  rw [roundUp, Nat.mul_comm]
  exact (ceilDiv_le_iff_le_mul hb).mp le_rfl

theorem roundUp_le_of_dvd (hb : 0 < b) (hdvd : b ∣ m) (hle : n ≤ m) : roundUp b n ≤ m := by
  obtain ⟨k, rfl⟩ := hdvd
  rw [roundUp, Nat.mul_comm]
  exact Nat.mul_le_mul_left b ((ceilDiv_le_iff_le_mul hb).mpr hle)

theorem isLeast_roundUp (hb : 0 < b) (n : ℕ) : IsLeast {m | b ∣ m ∧ n ≤ m} (roundUp b n) :=
  ⟨⟨dvd_roundUp b n, le_roundUp hb n⟩, fun _ hm => roundUp_le_of_dvd hb hm.1 hm.2⟩

theorem roundUp_mono (hb : 0 < b) : Monotone (roundUp b) := fun _ m h =>
  roundUp_le_of_dvd hb (dvd_roundUp b m) (h.trans (le_roundUp hb m))

theorem roundUp_of_dvd (hb : 0 < b) (h : b ∣ n) : roundUp b n = n :=
  le_antisymm (roundUp_le_of_dvd hb h le_rfl) (le_roundUp hb n)

theorem roundUp_lt_add (hb : 0 < b) (n : ℕ) : roundUp b n < n + b := by
  rw [roundUp, Nat.ceilDiv_eq_add_pred_div]
  have h := Nat.div_mul_le_self (n + b - 1) b
  omega

end RoundUp
