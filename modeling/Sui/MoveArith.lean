import Mathlib.Algebra.Order.Floor.Div

/-!
# Unsigned arithmetic that aborts

The integer operations of a language whose unsigned types of `w` bits abort
the transaction on overflow, on underflow and on division by zero instead of
wrapping, whose vector accesses abort out of range, and whose assertions abort
with a code of the program's own. A value
of such a type is a natural number below `2 ^ w`; every operation is checked,
so a result that is returned is again in range.

A computation that may abort is an `Except (Abort C)` value, where `C` is the
type of the abort codes the program uses. The lemmas say when each operation
returns (`add_eq_ok`, `sub_eq_ok`, `mul_eq_ok`, `div_eq_ok`, `cast_eq_ok`,
`shl_eq_ok`, `shr_eq_ok`), what it returned when it did (`eq_of_add_eq_ok` and the like),
and `bind_eq_ok` peels a sequence of them apart. A product of
two values of `w` bits always fits in `2 * w` bits (`mul_lt_two_pow_double`),
which is why code that widens before it multiplies cannot abort there.
-/

namespace MoveArith

/-- Why a computation aborted: an arithmetic error or a vector index out of
range, raised by the machine, or an assertion of the program with one of its
codes. -/
inductive Abort (C : Type) where
  | arithmeticError
  | indexOutOfBounds
  | abort (code : C)
  deriving DecidableEq, Repr

variable {C : Type}

/-- An abort raised in a module the program calls, as the program sees it:
the callee's code wrapped into the caller's codes by `f`. -/
def Abort.map {D : Type} (f : C → D) : Abort C → Abort D
  | .arithmeticError => .arithmeticError
  | .indexOutOfBounds => .indexOutOfBounds
  | .abort code => .abort (f code)

/-- Addition of values of `w` bits. -/
def add (w a b : ℕ) : Except (Abort C) ℕ :=
  if a + b < 2 ^ w then .ok (a + b) else .error .arithmeticError

/-- Subtraction, which aborts below zero. -/
def sub (a b : ℕ) : Except (Abort C) ℕ :=
  if b ≤ a then .ok (a - b) else .error .arithmeticError

/-- Multiplication of values of `w` bits. -/
def mul (w a b : ℕ) : Except (Abort C) ℕ :=
  if a * b < 2 ^ w then .ok (a * b) else .error .arithmeticError

/-- Division, rounding down, which aborts on a zero divisor. -/
def div (a b : ℕ) : Except (Abort C) ℕ :=
  if b = 0 then .error .arithmeticError else .ok (a / b)

/-- Remainder, which aborts on a zero divisor. -/
def mod (a b : ℕ) : Except (Abort C) ℕ :=
  if b = 0 then .error .arithmeticError else .ok (a % b)

/-- Division rounding up, computed as the standard library's div_ceil does:
the quotient, plus one when the remainder is not zero. -/
def divCeil (w a b : ℕ) : Except (Abort C) ℕ := do
  let r ← mod a b
  let q ← div a b
  if r = 0 then pure q else add w q 1

/-- The cast of a value to the type of `w` bits. -/
def cast (w a : ℕ) : Except (Abort C) ℕ :=
  if a < 2 ^ w then .ok a else .error .arithmeticError

/-- A left shift of a value of `w` bits by `s`: the bits shifted out are lost,
and a shift by the width or more aborts. -/
def shl (w a s : ℕ) : Except (Abort C) ℕ :=
  if s < w then .ok (a * 2 ^ s % 2 ^ w) else .error .arithmeticError

/-- A right shift of a value of `w` bits by `s`; a shift by the width or more aborts. -/
def shr (w a s : ℕ) : Except (Abort C) ℕ :=
  if s < w then .ok (a / 2 ^ s) else .error .arithmeticError

/-- The cast of a value to the type of `w` bits, returned as a value of that type. -/
def castFin (w a : ℕ) : Except (Abort C) (Fin (2 ^ w)) :=
  if h : a < 2 ^ w then .ok ⟨a, h⟩ else .error .arithmeticError

/-- `shl`, returned as a value of the type. -/
def shlFin (w a s : ℕ) : Except (Abort C) (Fin (2 ^ w)) :=
  if s < w then .ok ⟨a * 2 ^ s % 2 ^ w, Nat.mod_lt _ (Nat.two_pow_pos w)⟩ else .error .arithmeticError

/-- Subtraction of two values of the type of `w` bits, which aborts below zero. -/
def subFin {w : ℕ} (a b : Fin (2 ^ w)) : Except (Abort C) (Fin (2 ^ w)) :=
  if b ≤ a then .ok ⟨a - b, lt_of_le_of_lt (Nat.sub_le _ _) a.isLt⟩ else .error .arithmeticError

/-- `vector::swap`, which aborts when either position is out of range. -/
def swapAt {α : Type} (l : List α) (i j : ℕ) : Except (Abort C) (List α) :=
  if i < l.length ∧ j < l.length then .ok (l.swap i j) else .error .indexOutOfBounds

/-- `vector::swap_remove`: the entry at `i`, and the vector with its last entry moved to `i`. -/
def swapRemove {α : Type} (l : List α) (i : ℕ) : Except (Abort C) (α × List α) :=
  if h : i < l.length then .ok (l[i], (l.swap i (l.length - 1)).dropLast) else .error .indexOutOfBounds

/-- A write through a mutable reference to entry `i` of a vector. -/
def modifyAt {α : Type} (l : List α) (i : ℕ) (f : α → α) : Except (Abort C) (List α) :=
  if i < l.length then .ok (l.modify i f) else .error .indexOutOfBounds

/-- `vector::remove`: the entry at `i`, and the vector without it, the later
entries shifted down. -/
def removeAt {α : Type} (l : List α) (i : ℕ) : Except (Abort C) (α × List α) :=
  if h : i < l.length then .ok (l[i], l.eraseIdx i) else .error .indexOutOfBounds

/-- A read of entry `i` of a vector. -/
def getAt {α : Type} (l : List α) (i : ℕ) : Except (Abort C) α :=
  if h : i < l.length then .ok l[i] else .error .indexOutOfBounds

/-- `a * b / c` computed the way the system modules' mul_div! macro does: both
factors widened to `2 * w` bits, multiplied and divided there, and the quotient
cast back to `w` bits. -/
def mulDivWide (w a b c : ℕ) : Except (Abort C) ℕ := do
  let product ← mul (2 * w) a b
  let quotient ← div product c
  cast w quotient

/-- An assertion: aborts with its code when the condition fails. -/
def assert (p : Prop) [Decidable p] (code : C) : Except (Abort C) Unit :=
  if p then .ok () else .error (.abort code)

section Ok

variable {w a b : ℕ}

theorem add_eq_ok (h : a + b < 2 ^ w) : (add w a b : Except (Abort C) ℕ) = .ok (a + b) :=
  if_pos h

theorem add_eq_error (h : 2 ^ w ≤ a + b) :
    (add w a b : Except (Abort C) ℕ) = .error .arithmeticError :=
  if_neg (Nat.not_lt.mpr h)

theorem sub_eq_ok (h : b ≤ a) : (sub a b : Except (Abort C) ℕ) = .ok (a - b) :=
  if_pos h

theorem mul_eq_ok (h : a * b < 2 ^ w) : (mul w a b : Except (Abort C) ℕ) = .ok (a * b) :=
  if_pos h

theorem div_eq_ok (h : 0 < b) : (div a b : Except (Abort C) ℕ) = .ok (a / b) :=
  if_neg (Nat.pos_iff_ne_zero.mp h)

theorem mod_eq_ok (h : 0 < b) : (mod a b : Except (Abort C) ℕ) = .ok (a % b) :=
  if_neg (Nat.pos_iff_ne_zero.mp h)

/-- Rounding up is the quotient, plus one when the division is not exact. -/
theorem ceilDiv_eq_ite (h : 0 < b) : a ⌈/⌉ b = if a % b = 0 then a / b else a / b + 1 := by
  have hdm := Nat.div_add_mod a b
  have hlt := Nat.mod_lt a h
  rw [Nat.ceilDiv_eq_add_pred_div]
  -- the quotient of a + b - 1 is pinned between consecutive multiples of b
  split_ifs with hr
  · apply Nat.div_eq_of_lt_le
    · rw [Nat.mul_comm]; omega
    · rw [Nat.succ_mul, Nat.mul_comm]; omega
  · apply Nat.div_eq_of_lt_le
    · rw [Nat.succ_mul, Nat.mul_comm]; omega
    · rw [Nat.succ_mul, Nat.succ_mul, Nat.mul_comm]; omega

theorem divCeil_eq_ok (h : 0 < b) (hfit : a ⌈/⌉ b < 2 ^ w) :
    (divCeil w a b : Except (Abort C) ℕ) = .ok (a ⌈/⌉ b) := by
  rw [ceilDiv_eq_ite h] at hfit ⊢
  simp only [divCeil, mod_eq_ok h, div_eq_ok h, bind, Except.bind]
  split_ifs at hfit ⊢
  · rfl
  · exact add_eq_ok hfit

theorem cast_eq_ok (h : a < 2 ^ w) : (cast w a : Except (Abort C) ℕ) = .ok a :=
  if_pos h

theorem cast_eq_error (h : 2 ^ w ≤ a) :
    (cast w a : Except (Abort C) ℕ) = .error .arithmeticError :=
  if_neg (Nat.not_lt.mpr h)

/-- A shift that loses no bits returns the product. -/
theorem shl_eq_ok {s : ℕ} (hs : s < w) (h : a * 2 ^ s < 2 ^ w) :
    (shl w a s : Except (Abort C) ℕ) = .ok (a * 2 ^ s) := by
  rw [shl, if_pos hs, Nat.mod_eq_of_lt h]

theorem shr_eq_ok {s : ℕ} (hs : s < w) : (shr w a s : Except (Abort C) ℕ) = .ok (a / 2 ^ s) :=
  if_pos hs

theorem castFin_eq_ok (h : a < 2 ^ w) : (castFin w a : Except (Abort C) (Fin (2 ^ w))) = .ok ⟨a, h⟩ :=
  dif_pos h

/-- The typed shift returns what the shift does. -/
theorem shlFin_map_val (s : ℕ) :
    (shlFin w a s : Except (Abort C) (Fin (2 ^ w))).map Fin.val = shl w a s := by
  unfold shlFin shl
  split_ifs <;> rfl

theorem subFin_eq_ok {x y : Fin (2 ^ w)} (h : y ≤ x) :
    (subFin x y : Except (Abort C) (Fin (2 ^ w))) = .ok ⟨x - y, lt_of_le_of_lt (Nat.sub_le _ _) x.isLt⟩ :=
  if_pos h

theorem swapAt_eq_ok {α : Type} {l : List α} {i j : ℕ} (hi : i < l.length) (hj : j < l.length) :
    (swapAt l i j : Except (Abort C) (List α)) = .ok (l.swap i j) :=
  if_pos ⟨hi, hj⟩

theorem swapRemove_eq_ok {α : Type} {l : List α} {i : ℕ} (h : i < l.length) :
    (swapRemove l i : Except (Abort C) (α × List α)) = .ok (l[i], (l.swap i (l.length - 1)).dropLast) :=
  dif_pos h

/-- `swap_remove` keeps every entry: the one it returns and the ones it leaves. -/
theorem perm_of_swapRemove {α : Type} {l : List α} (i : ℕ) (h : i < l.length) :
    (l[i] :: (l.swap i (l.length - 1)).dropLast).Perm l := by
  have hlen : (l.swap i (l.length - 1)).length = l.length := List.length_swap
  have hne : l.swap i (l.length - 1) ≠ [] := List.ne_nil_of_length_pos (by omega)
  -- the swap leaves the removed entry last
  have hlast : (l.swap i (l.length - 1)).getLast hne = l[i] := by
    rw [List.getLast_eq_getElem, List.getElem_swap]
    simp only [hlen]
    split_ifs with h1 h2 <;> simp_all
  have hsplit : (l.swap i (l.length - 1)).dropLast ++ [l[i]] = l.swap i (l.length - 1) := by
    rw [← hlast]
    exact List.dropLast_append_getLast hne
  have hmove : (l[i] :: (l.swap i (l.length - 1)).dropLast).Perm
      ((l.swap i (l.length - 1)).dropLast ++ [l[i]]) := (List.perm_append_singleton _ _).symm
  rw [hsplit] at hmove
  exact hmove.trans (List.swap_perm l i (l.length - 1))

theorem modifyAt_eq_ok {α : Type} {l : List α} {i : ℕ} (f : α → α) (h : i < l.length) :
    (modifyAt l i f : Except (Abort C) (List α)) = .ok (l.modify i f) :=
  if_pos h

/-- A write through a reference keeps the vector's length. -/
theorem length_of_modifyAt_eq_ok {α : Type} {l l' : List α} {i : ℕ} {f : α → α}
    (h : (modifyAt l i f : Except (Abort C) (List α)) = .ok l') : l'.length = l.length := by
  unfold modifyAt at h
  split at h
  · cases h
    exact List.length_modify f l i
  · cases h

/-- A computation that returns, read off as a Boolean, has a result. -/
theorem exists_eq_ok_of_toBool {ε α : Type} {e : Except ε α} (h : e.toBool = true) :
    ∃ a, e = .ok a := by
  cases e with
  | error => cases h
  | ok a => exact ⟨a, rfl⟩

theorem assert_eq_ok {p : Prop} [Decidable p] {code : C} (h : p) : assert p code = .ok () :=
  if_pos h

/-- An assertion that returns held. -/
theorem of_assert_eq_ok {p : Prop} [Decidable p] {code : C} {u : Unit}
    (h : assert p code = .ok u) : p := by
  by_contra hp
  simp [assert, hp] at h

end Ok

section Inversion

variable {w a b c : ℕ}

theorem eq_of_add_eq_ok (h : (add w a b : Except (Abort C) ℕ) = .ok c) :
    c = a + b ∧ a + b < 2 ^ w := by
  unfold add at h
  split_ifs at h with hlt
  cases h
  exact ⟨rfl, hlt⟩

theorem eq_of_sub_eq_ok (h : (sub a b : Except (Abort C) ℕ) = .ok c) : c = a - b ∧ b ≤ a := by
  unfold sub at h
  split_ifs at h with hle
  cases h
  exact ⟨rfl, hle⟩

theorem eq_of_mul_eq_ok (h : (mul w a b : Except (Abort C) ℕ) = .ok c) : c = a * b := by
  unfold mul at h
  split_ifs at h
  cases h
  rfl

theorem eq_of_div_eq_ok (h : (div a b : Except (Abort C) ℕ) = .ok c) : c = a / b := by
  unfold div at h
  split_ifs at h
  cases h
  rfl

theorem eq_of_cast_eq_ok (h : (cast w a : Except (Abort C) ℕ) = .ok c) : c = a ∧ a < 2 ^ w := by
  unfold cast at h
  split_ifs at h with hlt
  cases h
  exact ⟨rfl, hlt⟩

end Inversion

/-- A sequence of two computations returned iff the first did and the rest
returned from its result. -/
theorem bind_eq_ok {α β : Type} {x : Except (Abort C) α} {f : α → Except (Abort C) β} {b : β} :
    x >>= f = .ok b ↔ ∃ a, x = .ok a ∧ f a = .ok b := by
  cases x with
  | error e => simp [bind, Except.bind]
  | ok a => simp [bind, Except.bind]

theorem ok_bind {α β : Type} (a : α) (f : α → Except (Abort C) β) :
    (Except.ok a : Except (Abort C) α) >>= f = f a := rfl

theorem error_bind {α β : Type} (e : Abort C) (f : α → Except (Abort C) β) :
    (Except.error e : Except (Abort C) α) >>= f = .error e := rfl

theorem throw_bind {α β : Type} (e : Abort C) (f : α → Except (Abort C) β) :
    (throw e : Except (Abort C) α) >>= f = .error e := rfl

/-- A callee's result, its abort codes wrapped into the caller's, returned iff
the callee returned it. -/
theorem mapError_eq_ok {D α : Type} {f : Abort C → Abort D} {x : Except (Abort C) α} {a : α} :
    x.mapError f = .ok a ↔ x = .ok a := by
  cases x with
  | error e =>
    constructor
    · intro h
      cases h
    · intro h
      cases h
  | ok b =>
    constructor
    · intro h
      cases h
      rfl
    · intro h
      cases h
      rfl

theorem mapError_ok {D α : Type} (f : Abort C → Abort D) (a : α) :
    (Except.ok a : Except (Abort C) α).mapError f = .ok a := rfl

/-- A product of two values of `w` bits fits in `2 * w` bits. -/
theorem mul_lt_two_pow_double {w a b : ℕ} (ha : a < 2 ^ w) (hb : b < 2 ^ w) :
    a * b < 2 ^ (2 * w) := by
  have h : 2 ^ (2 * w) = 2 ^ w * 2 ^ w := by rw [Nat.two_mul, Nat.pow_add]
  rw [h]
  exact Nat.mul_lt_mul'' ha hb

theorem getAt_eq_ok {α : Type} {l : List α} {i : ℕ} (h : i < l.length) :
    (getAt l i : Except (Abort C) α) = .ok l[i] :=
  dif_pos h

theorem eq_of_getAt_eq_ok {α : Type} {l : List α} {i : ℕ} {a : α}
    (h : (getAt l i : Except (Abort C) α) = .ok a) : ∃ hi : i < l.length, a = l[i] := by
  unfold getAt at h
  split at h
  · rename_i hi
    cases h
    exact ⟨hi, rfl⟩
  · cases h

theorem removeAt_append_length {α : Type} (A B : List α) (a : α) :
    (removeAt (A ++ a :: B) A.length : Except (Abort C) (α × List α)) = .ok (a, A ++ B) := by
  rw [removeAt, dif_pos (by simp)]
  simp [List.eraseIdx_append_of_length_le]

section MulDivWide

variable {w a b c : ℕ}

/-- A mul_div! of two values of `w` bits returns the quotient when it fits. -/
theorem mulDivWide_eq_ok (ha : a < 2 ^ w) (hb : b < 2 ^ w) (hc : 0 < c)
    (hq : a * b / c < 2 ^ w) : (mulDivWide w a b c : Except (Abort C) ℕ) = .ok (a * b / c) := by
  simp only [mulDivWide, mul_eq_ok (mul_lt_two_pow_double ha hb), ok_bind, div_eq_ok hc,
    cast_eq_ok hq]

/-- A share `a * b / c` with `b ≤ c` is at most `a`, so it fits. -/
theorem mulDivWide_eq_ok_of_le_left (ha : a < 2 ^ w) (hbc : b ≤ c) (hc : 0 < c)
    (hcw : c < 2 ^ w) : (mulDivWide w a b c : Except (Abort C) ℕ) = .ok (a * b / c) := by
  have hq : a * b / c ≤ a := Nat.div_le_of_le_mul (by
    rw [Nat.mul_comm c a]
    exact Nat.mul_le_mul_left a hbc)
  exact mulDivWide_eq_ok ha (Nat.lt_of_le_of_lt hbc hcw) hc (Nat.lt_of_le_of_lt hq ha)

/-- A share `a * b / c` with `a ≤ c` is at most `b`, so it fits. -/
theorem mulDivWide_eq_ok_of_le_right (hb : b < 2 ^ w) (hac : a ≤ c) (hc : 0 < c)
    (hcw : c < 2 ^ w) : (mulDivWide w a b c : Except (Abort C) ℕ) = .ok (a * b / c) := by
  have hq : a * b / c ≤ b := Nat.div_le_of_le_mul (Nat.mul_le_mul_right b hac)
  exact mulDivWide_eq_ok (Nat.lt_of_le_of_lt hac hcw) hb hc (Nat.lt_of_le_of_lt hq hb)

/-- A mul_div! whose quotient does not fit in `w` bits aborts on the cast. -/
theorem mulDivWide_eq_error (ha : a < 2 ^ w) (hb : b < 2 ^ w) (hc : 0 < c)
    (hq : 2 ^ w ≤ a * b / c) :
    (mulDivWide w a b c : Except (Abort C) ℕ) = .error .arithmeticError := by
  simp only [mulDivWide, mul_eq_ok (mul_lt_two_pow_double ha hb), ok_bind, div_eq_ok hc,
    cast_eq_error hq]

theorem eq_of_mulDivWide_eq_ok {q : ℕ} (h : (mulDivWide w a b c : Except (Abort C) ℕ) = .ok q) :
    q = a * b / c := by
  simp only [mulDivWide, bind_eq_ok] at h
  obtain ⟨product, hmul, quotient, hdiv, hcast⟩ := h
  rw [(eq_of_cast_eq_ok hcast).1, eq_of_div_eq_ok hdiv, eq_of_mul_eq_ok hmul]

end MulDivWide

end MoveArith
