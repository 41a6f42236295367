import Sui.Framework.Balance
import Sui.Holdings
import Mathlib.Algebra.Order.BigOperators.Group.List

/-!
# Coins (`coin.move`, `pay.move`)

A `Coin<T>` is an object around a `Balance<T>`, and a `TreasuryCap<T>` holds
the `Supply<T>` of its type. Minting issues a balance from the supply and
burning destroys one; every other operation moves value between balances:
`join` adds one coin into another, `split` takes an amount out into a new
coin, `divide_into_n` splits a coin into `n` parts and `pay::split_vec` splits
off a list of amounts.

The loops are given in closed form. `splitVec` splits off all its amounts
exactly when they add up to at most the coin's value, and the coin keeps the
rest (`splitVec_splits_all`); `divide_into_n` gives `n - 1` coins of
`value / n` and leaves `value / n + value % n` in the coin
(`divideIntoN_splits_evenly`).

A program holding coins of one type is modelled by a `Ledger`: the supply of
the treasury cap and the values of the balances it holds, coins' balances
included, each named by its position. `specCall` says what each call does in
plain arithmetic, with only four refusals: issuing past `u64::MAX`, splitting
off more than a coin holds, destroying a coin that is not empty, and dividing
into no parts or into more parts than the value. The invariant `Ledger.Valid`
says that the supply is what the balances hold, and fits in a `u64`.

**Main results.**

* `runCall_eq_specCall`: on a valid ledger every call of the code is its
  specification: the checked additions of `join` and `mint` and the
  assertion of `decrease_supply` never fire beyond it;
* `Ledger.Valid.specCall`: every call the specification makes keeps the
  invariant: value is created only by minting and destroyed only by burning;
* `valid_runCalls`, `runCalls_agree`: from a valid ledger, along any sequence
  of calls with the aborted ones reverted, the ledger stays valid and the code
  runs as its specification.
-/

namespace Sui.Coin

open MoveArith

/-- The abort codes of coin, and those of balance that its calls pass on. -/
inductive Code where
  /-- EInvalidArg -/
  | eInvalidArg
  /-- ENotEnough -/
  | eNotEnough
  /-- raised by balance -/
  | balance (code : Balance.Code)
  deriving DecidableEq, Repr

/-- An abort of balance, as a call of coin raises it. -/
def liftBalance {α : Type} (x : Except (Abort Balance.Code) α) : Except (Abort Code) α :=
  x.mapError (Abort.map .balance)

/-- coin::split, and coin::take out of a balance: the value left in `self`; the
new coin holds `splitAmount`. -/
def split (self splitAmount : ℕ) : Except (Abort Code) ℕ :=
  Balance.split (.balance .eNotEnough) self splitAmount

/-- coin::join, and coin::put into a balance: the value of `self` once `c` is
joined into it. -/
def join (self c : ℕ) : Except (Abort Code) ℕ :=
  Balance.join self c

/-- The loop of vector::tabulate! in divide_into_n: `k` coins of `splitAmount`
split off `self` one after another, in the order they are pushed. -/
def tabulateSplits (splitAmount : ℕ) : ℕ → ℕ → Except (Abort Code) (ℕ × List ℕ)
  | self, 0 => pure (self, [])
  | self, k + 1 => do
    let self ← split self splitAmount
    let (self, coins) ← tabulateSplits splitAmount self k
    pure (self, splitAmount :: coins)

/-- coin::divide_into_n: the value left in `self`, and the `n - 1` coins split
off it. -/
def divideIntoN (self n : ℕ) : Except (Abort Code) (ℕ × List ℕ) := do
  assert (n > 0) .eInvalidArg
  assert (n ≤ self) .eNotEnough
  let splitAmount ← div self n
  let count ← sub n 1
  tabulateSplits splitAmount self count

/-- pay::split_vec: each amount split off `self` in turn with pay::split, in
the order of the vector (vector::do!); the coins split off are kept. -/
def splitVec : ℕ → List ℕ → Except (Abort Code) (ℕ × List ℕ)
  | self, [] => pure (self, [])
  | self, amount :: splitAmounts => do
    let self ← split self amount
    let (self, coins) ← splitVec self splitAmounts
    pure (self, amount :: coins)

section Loops

@[simp] theorem liftBalance_ok {α : Type} (a : α) : liftBalance (.ok a) = .ok a := rfl

@[simp] theorem liftBalance_abort {α : Type} (c : Balance.Code) :
    (liftBalance (.error (.abort c)) : Except (Abort Code) α) = .error (.abort (.balance c)) :=
  rfl

/-- The loop of `divide_into_n` splits off its `k` coins when together they
fit in the coin. -/
theorem tabulateSplits_eq_ok (splitAmount : ℕ) :
    ∀ (self k : ℕ), k * splitAmount ≤ self →
      tabulateSplits splitAmount self k =
        .ok (self - k * splitAmount, List.replicate k splitAmount)
  | self, 0, _ => by
    rw [Nat.zero_mul, Nat.sub_zero]
    rfl
  | self, k + 1, h => by
    rw [Nat.succ_mul] at h ⊢
    rw [tabulateSplits, split, Balance.split_eq_ok (by omega), ok_bind,
      tabulateSplits_eq_ok splitAmount (self - splitAmount) k (by omega), ok_bind,
      Nat.sub_sub, Nat.add_comm splitAmount]
    rfl

/-- `split_vec` splits off every amount when together they fit in the coin. -/
theorem splitVec_eq_ok :
    ∀ {self : ℕ} {splitAmounts : List ℕ}, splitAmounts.sum ≤ self →
      splitVec self splitAmounts = .ok (self - splitAmounts.sum, splitAmounts)
  | self, [], _ => by
    rw [List.sum_nil, Nat.sub_zero]
    rfl
  | self, amount :: splitAmounts, h => by
    rw [List.sum_cons] at h ⊢
    rw [splitVec, split, Balance.split_eq_ok (by omega), ok_bind, splitVec_eq_ok (by omega),
      ok_bind, Nat.sub_sub]
    rfl

/-- When the amounts add up to more than the coin, some split finds too little
and aborts. -/
theorem splitVec_eq_error :
    ∀ {self : ℕ} {splitAmounts : List ℕ}, self < splitAmounts.sum →
      splitVec self splitAmounts = .error (.abort (.balance .eNotEnough))
  | _, [], h => absurd h (Nat.not_lt_zero _)
  | self, amount :: splitAmounts, h => by
    rw [List.sum_cons] at h
    rw [splitVec]
    -- either this split finds too little, or the rest is more than what is left
    by_cases hamount : amount ≤ self
    · rw [split, Balance.split_eq_ok hamount, ok_bind, splitVec_eq_error (by omega)]
      rfl
    · rw [split, Balance.split_eq_error (by omega)]
      rfl

/-- `split_vec` in closed form: it splits off all its amounts, in order, exactly
when they add up to at most the coin's value, the coin keeping the rest, and
otherwise aborts with balance's ENotEnough. -/
theorem splitVec_splits_all (self : ℕ) (splitAmounts : List ℕ) :
    splitVec self splitAmounts =
      if splitAmounts.sum ≤ self then .ok (self - splitAmounts.sum, splitAmounts)
      else .error (.abort (.balance .eNotEnough)) := by
  by_cases hsum : splitAmounts.sum ≤ self
  · rw [if_pos hsum, splitVec_eq_ok hsum]
  · rw [if_neg hsum, splitVec_eq_error (Nat.lt_of_not_le hsum)]

/-- The `n - 1` parts of `divide_into_n` and what the coin keeps make up its
value, since `v = n * (v / n) + v % n`. -/
theorem sub_one_mul_div_add (v n : ℕ) : (n - 1) * (v / n) + (v / n + v % n) = v := by
  cases n with
  | zero => simp
  | succ m => rw [Nat.add_sub_cancel, ← Nat.add_assoc, ← Nat.add_one_mul, Nat.div_add_mod]

/-- `divide_into_n` on at least as much value as parts gives `n - 1` coins of
`self / n`, and the coin keeps as much with the remainder of the division. -/
theorem divideIntoN_eq_ok {self n : ℕ} (hn : 0 < n) (hle : n ≤ self) :
    divideIntoN self n = .ok (self / n + self % n, List.replicate (n - 1) (self / n)) := by
  have hparts := sub_one_mul_div_add self n
  rw [divideIntoN, assert_eq_ok hn, ok_bind, assert_eq_ok hle, ok_bind, div_eq_ok (by omega),
    ok_bind, sub_eq_ok (by omega), ok_bind]
  -- the parts, `q` each, and the `q + r` kept make up the coin
  generalize self / n = q at hparts ⊢
  generalize self % n = r at hparts ⊢
  rw [tabulateSplits_eq_ok _ _ _ (by omega)]
  congr 3
  omega

/-- `divide_into_n` on less value than parts aborts with ENotEnough. -/
theorem divideIntoN_eq_error {self n : ℕ} (hn : 0 < n) (hlt : self < n) :
    divideIntoN self n = .error (.abort .eNotEnough) := by
  rw [divideIntoN, assert_eq_ok hn, ok_bind]
  simp only [assert, if_neg (Nat.not_le.mpr hlt)]
  rfl

/-- `divide_into_n` in closed form: it refuses no parts and more parts than the
coin's value, and otherwise splits off `n - 1` coins of `self / n`, the coin
keeping `self / n` and the remainder of the division. -/
theorem divideIntoN_splits_evenly (self n : ℕ) :
    divideIntoN self n =
      if n = 0 then .error (.abort .eInvalidArg)
      else if self < n then .error (.abort .eNotEnough)
      else .ok (self / n + self % n, List.replicate (n - 1) (self / n)) := by
  by_cases hn : n = 0
  · subst hn
    rfl
  by_cases hlt : self < n
  · rw [if_neg hn, if_pos hlt, divideIntoN_eq_error (Nat.pos_of_ne_zero hn) hlt]
  · rw [if_neg hn, if_neg hlt, divideIntoN_eq_ok (Nat.pos_of_ne_zero hn) (Nat.le_of_not_lt hlt)]

example : divideIntoN 11 3 = .ok (5, [3, 3]) := rfl

end Loops

/-- What a program holds of one coin type: the supply its treasury cap counts,
and the values of the balances it holds, coins' balances included, each named
by its position. -/
structure Ledger where
  supply : ℕ
  balances : List ℕ
  deriving DecidableEq, Repr

/-- A new coin type: the treasury cap of coin::create_currency, whose supply
balance::create_supply starts at zero, and nothing issued. -/
def Ledger.fresh : Ledger := ⟨0, []⟩

/-- The balance at `self` changed in place to `value`, and `coins` added. -/
def Ledger.update (L : Ledger) (self value : ℕ) (coins : List ℕ) : Ledger :=
  ⟨L.supply, L.balances.set self value ++ coins⟩

/-- A call on the coins of one type. A coin or balance consumed by the call is
moved out of the program's holdings first; the others are named by position. -/
inductive Call where
  /-- coin::mint, coin::mint_balance and balance::increase_supply -/
  | mint (value : ℕ)
  /-- coin::burn and balance::decrease_supply -/
  | burn (c : ℕ)
  /-- coin::zero and balance::zero -/
  | zero
  /-- coin::join, coin::put and balance::join: `c` is moved out, and joined into
  the balance at `self` of those left -/
  | join (self c : ℕ)
  /-- coin::split, coin::take and balance::split -/
  | split (self splitAmount : ℕ)
  /-- balance::withdraw_all -/
  | withdrawAll (self : ℕ)
  /-- coin::destroy_zero and balance::destroy_zero -/
  | destroyZero (c : ℕ)
  /-- coin::divide_into_n, and pay::divide_and_keep -/
  | divideIntoN (self n : ℕ)
  /-- pay::split_vec -/
  | splitVec (self : ℕ) (splitAmounts : List ℕ)
  deriving DecidableEq, Repr

/-- One call of the code; `none` when the call names a balance the program does
not hold. -/
def runCall (L : Ledger) : Call → Option (Except (Abort Code) Ledger)
  | .mint value => some do
    let supply ← liftBalance (Balance.increaseSupply L.supply value)
    pure ⟨supply, L.balances ++ [value]⟩
  | .burn c => (Holdings.take L.balances c).map fun (value, rest) => do
    let supply ← liftBalance (Balance.decreaseSupply L.supply value)
    pure ⟨supply, rest⟩
  | .zero => some (pure ⟨L.supply, L.balances ++ [0]⟩)
  | .join self c => (Holdings.take L.balances c).bind fun (value, rest) =>
    rest[self]?.map fun v => do
      let v ← join v value
      pure ⟨L.supply, rest.set self v⟩
  | .split self splitAmount => L.balances[self]?.map fun v => do
    let v ← split v splitAmount
    pure (L.update self v [splitAmount])
  | .withdrawAll self => L.balances[self]?.map fun v => do
    let rest ← Balance.withdrawAll (Code.balance .eNotEnough) v
    pure (L.update self rest [v])
  | .destroyZero c => (Holdings.take L.balances c).map fun (value, rest) => do
    liftBalance (Balance.destroyZero value)
    pure ⟨L.supply, rest⟩
  | .divideIntoN self n => L.balances[self]?.map fun v => do
    let (v, coins) ← divideIntoN v n
    pure (L.update self v coins)
  | .splitVec self splitAmounts => L.balances[self]?.map fun v => do
    let (v, coins) ← splitVec v splitAmounts
    pure (L.update self v coins)

/-- What each call is for, in plain arithmetic: issuing past `u64::MAX`,
splitting off more than a coin holds, destroying a coin that is not empty and
dividing into no parts or more parts than the value are refused, and nothing
else is. -/
def specCall (L : Ledger) : Call → Option (Except (Abort Code) Ledger)
  | .mint value => some <|
    if L.supply + value < 2 ^ 64 then .ok ⟨L.supply + value, L.balances ++ [value]⟩
    else .error (.abort (.balance .eOverflow))
  | .burn c => (Holdings.take L.balances c).map fun (value, rest) =>
    .ok ⟨L.supply - value, rest⟩
  | .zero => some (.ok ⟨L.supply, L.balances ++ [0]⟩)
  | .join self c => (Holdings.take L.balances c).bind fun (value, rest) =>
    rest[self]?.map fun v => .ok ⟨L.supply, rest.set self (v + value)⟩
  | .split self splitAmount => L.balances[self]?.map fun v =>
    if splitAmount ≤ v then .ok (L.update self (v - splitAmount) [splitAmount])
    else .error (.abort (.balance .eNotEnough))
  | .withdrawAll self => L.balances[self]?.map fun v => .ok (L.update self 0 [v])
  | .destroyZero c => (Holdings.take L.balances c).map fun (value, rest) =>
    if value = 0 then .ok ⟨L.supply, rest⟩ else .error (.abort (.balance .eNonZero))
  | .divideIntoN self n => L.balances[self]?.map fun v =>
    if n = 0 then .error (.abort .eInvalidArg)
    else if v < n then .error (.abort .eNotEnough)
    else .ok (L.update self (v / n + v % n) (List.replicate (n - 1) (v / n)))
  | .splitVec self splitAmounts => L.balances[self]?.map fun v =>
    if splitAmounts.sum ≤ v then .ok (L.update self (v - splitAmounts.sum) splitAmounts)
    else .error (.abort (.balance .eNotEnough))

/-- Calls one after another on the ledger, each by `step`; a call that aborts is
reverted, and one that names no balance the program holds is not made. -/
def runCalls (step : Ledger → Call → Option (Except (Abort Code) Ledger)) :
    Ledger → List Call → Ledger
  | L, [] => L
  | L, call :: calls =>
    match step L call with
    | some (.ok L') => runCalls step L' calls
    | _ => runCalls step L calls

/-- The supply counts exactly what the balances hold, and fits in a `u64`. -/
structure Ledger.Valid (L : Ledger) : Prop where
  sum_eq : L.balances.sum = L.supply
  supply_lt : L.supply < 2 ^ 64

namespace Ledger

variable {L L' : Ledger}

theorem valid_fresh : fresh.Valid :=
  ⟨rfl, by decide⟩

/-- A balance moved out and those left hold the supply. -/
theorem Valid.add_sum_of_take (hL : L.Valid) {c value : ℕ} {rest : List ℕ}
    (htake : Holdings.take L.balances c = some (value, rest)) : value + rest.sum = L.supply :=
  (Holdings.add_sum_of_take htake).trans hL.sum_eq

/-- A balance moved out and one of those left hold together at most the supply. -/
theorem Valid.add_le_supply (hL : L.Valid) {c i value v : ℕ} {rest : List ℕ}
    (htake : Holdings.take L.balances c = some (value, rest)) (hv : rest[i]? = some v) :
    v + value ≤ L.supply := by
  have hsum := hL.add_sum_of_take htake
  have hle := List.le_sum_of_mem (List.mem_of_getElem? hv)
  omega

/-- Changing the balance at `self` from `v` into `value` and coins that hold
as much in all keeps the invariant. -/
theorem Valid.update (hL : L.Valid) {self v value : ℕ} {coins : List ℕ}
    (hv : L.balances[self]? = some v) (h : value + coins.sum = v) :
    (L.update self value coins).Valid := by
  have hset := Holdings.sum_set_add hv value
  refine ⟨?_, hL.supply_lt⟩
  rw [Ledger.update, List.sum_append, ← hL.sum_eq]
  omega

end Ledger

open Ledger

variable {L L' : Ledger}

/-- On a valid ledger the code makes every call as its specification says: the
checked additions of `join` and `mint`, the assertion of `decrease_supply` and
the splits of the loops refuse nothing more. -/
theorem runCall_eq_specCall (hL : L.Valid) (call : Call) : runCall L call = specCall L call := by
  cases call with
  | mint value =>
    simp only [runCall, specCall]
    by_cases hfit : L.supply + value < 2 ^ 64
    · rw [Balance.increaseSupply_eq_ok hfit, if_pos hfit]
      rfl
    · rw [Balance.increaseSupply_eq_error hL.supply_lt (by omega), if_neg hfit]
      rfl
  | burn c =>
    simp only [runCall, specCall]
    rcases htake : Holdings.take L.balances c with _ | ⟨value, rest⟩
    · rfl
    · have hle : value ≤ L.supply := by
        have := hL.add_sum_of_take htake
        omega
      simp only [Option.map_some, Balance.decreaseSupply_eq_ok hle]
      rfl
  | zero => rfl
  | join self c =>
    simp only [runCall, specCall]
    rcases htake : Holdings.take L.balances c with _ | ⟨value, rest⟩
    · rfl
    · rcases hv : rest[self]? with _ | v
      · simp only [Option.bind_some, hv, Option.map_none]
      · have hfit := hL.add_le_supply htake hv
        have hjoin : join v value = .ok (v + value) :=
          Balance.join_eq_ok (by have := hL.supply_lt; omega)
        simp only [Option.bind_some, hv, Option.map_some, hjoin]
        rfl
  | split self splitAmount =>
    simp only [runCall, specCall]
    rcases L.balances[self]? with _ | v
    · rfl
    · simp only [Option.map_some]
      by_cases henough : splitAmount ≤ v
      · rw [split, Balance.split_eq_ok henough, if_pos henough]
        rfl
      · rw [split, Balance.split_eq_error (by omega), if_neg henough]
        rfl
  | withdrawAll self =>
    simp only [runCall, specCall]
    rcases L.balances[self]? with _ | v
    · rfl
    · simp only [Option.map_some, Balance.withdrawAll_eq_ok]
      rfl
  | destroyZero c =>
    simp only [runCall, specCall]
    rcases Holdings.take L.balances c with _ | ⟨value, rest⟩
    · rfl
    · simp only [Option.map_some]
      by_cases hzero : value = 0
      · subst hzero
        rfl
      · rw [Balance.destroyZero_eq_error hzero, if_neg hzero]
        rfl
  | divideIntoN self n =>
    simp only [runCall, specCall]
    rcases L.balances[self]? with _ | v
    · rfl
    · simp only [Option.map_some]
      split_ifs with hn hlt
      · subst hn
        rfl
      · rw [divideIntoN_eq_error (Nat.pos_of_ne_zero hn) hlt]
        rfl
      · rw [divideIntoN_eq_ok (Nat.pos_of_ne_zero hn) (Nat.le_of_not_lt hlt)]
        rfl
  | splitVec self splitAmounts =>
    simp only [runCall, specCall]
    rcases L.balances[self]? with _ | v
    · rfl
    · simp only [Option.map_some]
      split_ifs with hsum
      · rw [splitVec_eq_ok hsum]
        rfl
      · rw [splitVec_eq_error (Nat.lt_of_not_le hsum)]
        rfl

/-- Every call the specification makes keeps the invariant: minting and burning
move the supply with what is held, and every other call moves value between
balances. -/
theorem Ledger.Valid.specCall (hL : L.Valid) {call : Call}
    (h : specCall L call = some (.ok L')) : L'.Valid := by
  cases call with
  | mint value =>
    simp only [Coin.specCall] at h
    split_ifs at h with hfit
    · cases h
      exact ⟨by rw [List.sum_append, hL.sum_eq, List.sum_singleton], hfit⟩
    · cases h
  | burn c =>
    simp only [Coin.specCall] at h
    obtain ⟨⟨value, rest⟩, htake, heq⟩ := Option.map_eq_some_iff.mp h
    cases heq
    have hsum := hL.add_sum_of_take htake
    exact ⟨by simp only; omega, by have := hL.supply_lt; simp only; omega⟩
  | zero =>
    cases h
    exact ⟨by rw [List.sum_append, hL.sum_eq, List.sum_singleton, Nat.add_zero], hL.supply_lt⟩
  | join self c =>
    simp only [Coin.specCall] at h
    obtain ⟨⟨value, rest⟩, htake, h⟩ := Option.bind_eq_some_iff.mp h
    dsimp only at h
    obtain ⟨v, hv, heq⟩ := Option.map_eq_some_iff.mp h
    cases heq
    have hsum := hL.add_sum_of_take htake
    have hset := Holdings.sum_set_add hv (v + value)
    exact ⟨by simp only; omega, hL.supply_lt⟩
  | split self splitAmount =>
    simp only [Coin.specCall] at h
    obtain ⟨v, hv, heq⟩ := Option.map_eq_some_iff.mp h
    split_ifs at heq with henough
    cases heq
    exact hL.update hv (by rw [List.sum_singleton]; omega)
  | withdrawAll self =>
    simp only [Coin.specCall] at h
    obtain ⟨v, hv, heq⟩ := Option.map_eq_some_iff.mp h
    cases heq
    exact hL.update hv (by rw [List.sum_singleton, Nat.zero_add])
  | destroyZero c =>
    simp only [Coin.specCall] at h
    obtain ⟨⟨value, rest⟩, htake, heq⟩ := Option.map_eq_some_iff.mp h
    dsimp only at heq
    split_ifs at heq with hzero
    cases heq
    have hsum := hL.add_sum_of_take htake
    rw [hzero, Nat.zero_add] at hsum
    exact ⟨hsum, hL.supply_lt⟩
  | divideIntoN self n =>
    simp only [Coin.specCall] at h
    obtain ⟨v, hv, heq⟩ := Option.map_eq_some_iff.mp h
    split_ifs at heq with hn hlt
    cases heq
    refine hL.update hv ?_
    -- the parts and what the coin keeps are the whole division `v = n * q + r`
    rw [List.sum_replicate, smul_eq_mul, Nat.add_comm]
    exact sub_one_mul_div_add v n
  | splitVec self splitAmounts =>
    simp only [Coin.specCall] at h
    obtain ⟨v, hv, heq⟩ := Option.map_eq_some_iff.mp h
    split_ifs at heq with hfit
    cases heq
    exact hL.update hv (by omega)

/-- A valid ledger stays valid along any run of the code. -/
theorem valid_runCalls : ∀ (calls : List Call) {L : Ledger}, L.Valid → (runCalls runCall L calls).Valid
  | [], _, hL => hL
  | call :: calls, L, hL => by
    rw [runCalls]
    split
    · rename_i L' hstep
      rw [runCall_eq_specCall hL] at hstep
      exact valid_runCalls calls (hL.specCall hstep)
    · exact valid_runCalls calls hL

/-- From a valid ledger the code runs every sequence of calls as its
specification does. -/
theorem runCalls_agree : ∀ (calls : List Call) {L : Ledger}, L.Valid →
    runCalls runCall L calls = runCalls specCall L calls
  | [], _, _ => rfl
  | call :: calls, L, hL => by
    rw [runCalls, runCalls, runCall_eq_specCall hL]
    split
    · rename_i L' hstep
      exact runCalls_agree calls (hL.specCall hstep)
    · exact runCalls_agree calls hL

example : (runCalls runCall .fresh [.mint 10, .divideIntoN 0 3, .join 0 1, .burn 1]).balances =
    [7] := rfl

/-- Along every run of coin and balance calls on a new coin type, aborted calls
reverted: the code runs as its specification, the balances held always add up
to the supply, which stays within `u64`, and the next call too is made as the
specification says. Value is created only by minting and destroyed only by
burning, and the checked additions of `join` and `mint` never abort beyond the
specification. -/
theorem coin_runs_conserve (calls : List Call) :
    runCalls runCall .fresh calls = runCalls specCall .fresh calls ∧
      (runCalls runCall .fresh calls).Valid ∧
      ∀ call, runCall (runCalls runCall .fresh calls) call =
        specCall (runCalls runCall .fresh calls) call := by
  have hvalid := valid_runCalls calls valid_fresh
  exact ⟨runCalls_agree calls valid_fresh, hvalid, runCall_eq_specCall hvalid⟩

end Sui.Coin
