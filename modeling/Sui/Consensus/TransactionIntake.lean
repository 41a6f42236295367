import Mathlib.Data.List.Forall2
import Mathlib.Data.List.Infix
import Sui.Consensus.Context

/-!
# The transaction intake of consensus (`transaction.rs`)

Submitters hand bundles of transactions to a `TransactionClient`, which checks
them against the block limits of the protocol configuration and sends them down
one of two channels, a reserved lane for high-priority bundles and a lane for
the rest. The proposer calls `TransactionConsumer::next` for the transactions
of each new block: it handles the bundle held over from the last call, then
pulls the priority lane and then the normal lane, one bundle at a time, until a
bundle would break a limit; that bundle is held over in the consumer's single
pending slot. A bundle without transactions is a ping and is acknowledged with
`PING_TRANSACTION_INDEX`.

A channel is modelled by the list of bundles sent and not yet received; its
capacity only delays a sender, so a send that completes appends to the list. An
acknowledgement channel is identified by the number the intake gives it when
the submission makes it.

* **`handleTxs_cases`** — the closure of `next`: a bundle is either added whole,
  with its exact acknowledgement, or held back, and then only because it would
  break a limit.
* **`drainLane_spec`**, **`pullLanes_spec`** — the loops over the lanes take a
  prefix of the priority lane, and of the normal lane only once the priority
  lane is empty.
* **`next_spec`** — from a consumer whose queued bundles fit an empty block,
  `next` never drops a bundle, returns a batch within the limits and keeps the
  invariant; `next_progress`: it takes at least one bundle when one is queued.
* **`Intake.run_spec`** — over any interleaving of submissions and calls of
  `next`, the bundles accepted are exactly those returned in the batches and
  those still queued; **`Intake.run_flush`** — that many calls of `next` return
  all that is queued.

**Proof shape.** The accumulators of `next` are tied to the bundles taken so
far by `Collects`; `handleTxs_cases` is the step lemma, the lane loop is an
induction over the lane, and the runs are inductions over the events, each
event handled by `next_spec` or by the client's `submitNoWait_eq_ok`.
-/

namespace Sui

/-- `TransactionIndex::MAX`: transaction indices are `u16`. -/
def transactionIndexMax : ℕ := 2 ^ 16 - 1

/-- `NUM_RESERVED_TRANSACTION_INDICES`: indices below `TransactionIndex::MAX`
kept for future use. -/
def numReservedTransactionIndices : ℕ := 8

/-- `PING_TRANSACTION_INDEX`. -/
def pingTransactionIndex : ℕ := transactionIndexMax

/-- `Transaction` of `block.rs`: the serialized transaction. -/
structure Transaction where
  /-- the bytes of the transaction -/
  data : List UInt8
  deriving DecidableEq, Repr

/-- `Priority`: the lane a submission goes to. -/
inductive Priority
  | normal
  | high
  deriving DecidableEq, Repr

/-- `TransactionsGuard`: a bundle and the acknowledgement channel of its
inclusion, identified by its number. -/
structure TransactionsGuard where
  /-- the transactions of the bundle -/
  transactions : List Transaction
  /-- the sending end of the inclusion acknowledgement -/
  includedInBlockAck : ℕ
  deriving DecidableEq, Repr

namespace TransactionsGuard

/-- The bytes of a bundle, `transactions_bytes` of `handle_txs`. -/
def transactionsBytes (t : TransactionsGuard) : ℕ :=
  (t.transactions.map fun tx => tx.data.length).sum

theorem transactionsBytes_of_nil {t : TransactionsGuard} (h : t.transactions = []) :
    t.transactionsBytes = 0 := by
  simp [transactionsBytes, h]

end TransactionsGuard

/-- `LimitReached`. -/
inductive LimitReached
  | maxNumOfTransactions
  | maxBytes
  | allTransactionsIncluded
  deriving DecidableEq, Repr

/-- `TransactionConsumer`: the receiving ends of the two lanes, the block
limits and the pending slot. -/
structure TransactionConsumer where
  /-- the normal lane -/
  txReceiver : List TransactionsGuard
  /-- the reserved lane of high-priority bundles -/
  priorityTxReceiver : List TransactionsGuard
  /-- `max_transactions_in_block_bytes` -/
  maxTransactionsInBlockBytes : ℕ
  /-- `max_num_transactions_in_block` -/
  maxNumTransactionsInBlock : ℕ
  /-- the bundle held over from the last call of `next` -/
  pendingTransactions : Option TransactionsGuard
  deriving DecidableEq, Repr

/-- The local accumulators of `next` that `handle_txs` updates. -/
structure NextAcc where
  /-- the transactions of the block -/
  transactions : List Transaction
  /-- each included bundle's acknowledgement and transaction indices -/
  acks : List (ℕ × List ℕ)
  /-- the bytes of the transactions of the block -/
  totalBytes : ℕ
  /-- the limit reached -/
  limitReached : LimitReached
  deriving DecidableEq, Repr

/-- The accumulators at the start of `next`. -/
def NextAcc.empty : NextAcc := ⟨[], [], 0, .allTransactionsIncluded⟩

/-- What `next` returns: the transactions of the block, the acknowledgements
its callback sends, the limit reached, and the held-over bundle that
`debug_fatal!` reports dropping. -/
structure NextResult where
  /-- the transactions of the block -/
  transactions : List Transaction
  /-- each included bundle's acknowledgement and transaction indices -/
  acks : List (ℕ × List ℕ)
  /-- the limit reached -/
  limitReached : LimitReached
  /-- the held-over bundle that did not fit an empty block -/
  dropped : Option TransactionsGuard
  deriving DecidableEq, Repr

namespace TransactionConsumer

/-- `TransactionConsumer::new`: `none` is the failed assertion that the
largest transaction index stays below the reserved ones. -/
def new (txReceiver priorityTxReceiver : List TransactionsGuard) (context : Context) :
    Option TransactionConsumer :=
  if context.protocolConfig.maxNumTransactionsInBlock - 1 <
      transactionIndexMax - numReservedTransactionIndices then
    some { txReceiver, priorityTxReceiver
           maxTransactionsInBlockBytes := context.protocolConfig.maxTransactionsInBlockBytes
           maxNumTransactionsInBlock := context.protocolConfig.maxNumTransactionsInBlock
           pendingTransactions := none }
  else none

/-- The closure `handle_txs` of `next`: add a bundle to the accumulators, or
hold it back when it would break a limit. -/
def handleTxs (c : TransactionConsumer) (acc : NextAcc) (t : TransactionsGuard) :
    NextAcc × Option TransactionsGuard :=
  let transactionsNum := t.transactions.length
  if transactionsNum = 0 then
    ({ acc with acks := acc.acks ++ [(t.includedInBlockAck, [pingTransactionIndex])] }, none)
  else
    let transactionsBytes := t.transactionsBytes
    if acc.totalBytes + transactionsBytes > c.maxTransactionsInBlockBytes then
      ({ acc with limitReached := .maxBytes }, some t)
    else if acc.transactions.length + transactionsNum > c.maxNumTransactionsInBlock then
      ({ acc with limitReached := .maxNumOfTransactions }, some t)
    else
      -- `as TransactionIndex` truncates to `u16`, and the end of the range is a `u16` sum
      let startIdx := acc.transactions.length % 2 ^ 16
      let endIdx := (startIdx + transactionsNum % 2 ^ 16) % 2 ^ 16
      ({ transactions := acc.transactions ++ t.transactions
         acks := acc.acks ++ [(t.includedInBlockAck, List.range' startIdx (endIdx - startIdx))]
         totalBytes := acc.totalBytes + transactionsBytes
         limitReached := acc.limitReached }, none)

/-- The `while` loop of `next` over one lane: receive and handle bundles until
one is held back or the lane is empty. It returns the accumulators, the bundle
held back and what stays in the lane. -/
def drainLane (c : TransactionConsumer) :
    NextAcc → List TransactionsGuard → NextAcc × Option TransactionsGuard × List TransactionsGuard
  | acc, [] => (acc, none, [])
  | acc, t :: rest =>
    match c.handleTxs acc t with
    | (acc', none) => c.drainLane acc' rest
    | (acc', some held) => (acc', some held, rest)

/-- The held-over bundle, taken out of its slot and handled first; a bundle
handled back is the one `debug_fatal!` reports. -/
def takePending (c : TransactionConsumer) : NextAcc × Option TransactionsGuard :=
  match c.pendingTransactions with
  | none => (NextAcc.empty, none)
  | some t => c.handleTxs NextAcc.empty t

/-- The `for` loop of `next` over the priority lane and then the normal lane;
the normal lane is read only while nothing is held. It returns the
accumulators, the bundle held and the two lanes left. -/
def pullLanes (c : TransactionConsumer) (acc : NextAcc) :
    NextAcc × Option TransactionsGuard × List TransactionsGuard × List TransactionsGuard :=
  match c.drainLane acc c.priorityTxReceiver with
  | (acc', some held, priorityRest) => (acc', some held, priorityRest, c.txReceiver)
  | (acc', none, priorityRest) =>
    match c.drainLane acc' c.txReceiver with
    | (acc'', pending, normalRest) => (acc'', pending, priorityRest, normalRest)

/-- `TransactionConsumer::next`. -/
def next (c : TransactionConsumer) : NextResult × TransactionConsumer :=
  match c.takePending with
  | (acc, dropped) =>
    match c.pullLanes acc with
    | (acc', pending, priorityRest, normalRest) =>
      (⟨acc'.transactions, acc'.acks, acc'.limitReached, dropped⟩,
        { c with priorityTxReceiver := priorityRest, txReceiver := normalRest
                 pendingTransactions := pending })

/-- The bundles queued for `next`, in the order it reads them. -/
def queued (c : TransactionConsumer) : List TransactionsGuard :=
  c.pendingTransactions.toList ++ c.priorityTxReceiver ++ c.txReceiver

end TransactionConsumer

/-! ### What a batch is -/

/-- The acknowledgement of a bundle whose transactions start at `start` in the
block: their index range, or the ping index for a bundle without transactions. -/
def ackOf (start : ℕ) (t : TransactionsGuard) : ℕ × List ℕ :=
  if t.transactions = [] then (t.includedInBlockAck, [pingTransactionIndex])
  else (t.includedInBlockAck, List.range' start t.transactions.length)

/-- The acknowledgements of bundles laid one after another from `start`. -/
def ackRanges : ℕ → List TransactionsGuard → List (ℕ × List ℕ)
  | _, [] => []
  | start, t :: ts => ackOf start t :: ackRanges (start + t.transactions.length) ts

theorem ackRanges_append (start : ℕ) (ts : List TransactionsGuard) (t : TransactionsGuard) :
    ackRanges start (ts ++ [t]) =
      ackRanges start ts ++ [ackOf (start + (ts.flatMap TransactionsGuard.transactions).length) t] := by
  induction ts generalizing start with
  | nil => simp [ackRanges]
  | cons t' ts ih => simp [ackRanges, ih, Nat.add_assoc]

/-- The bundle fits an empty block. -/
def Fits (maxBytes maxNum : ℕ) (t : TransactionsGuard) : Prop :=
  t.transactionsBytes ≤ maxBytes ∧ t.transactions.length ≤ maxNum

/-- Adding the bundle to a block of `bytes` bytes and `count` transactions
would break a limit. -/
def Exceeds (maxBytes maxNum bytes count : ℕ) (t : TransactionsGuard) : Prop :=
  maxBytes < bytes + t.transactionsBytes ∨ maxNum < count + t.transactions.length

theorem not_exceeds_of_fits {maxBytes maxNum : ℕ} {t : TransactionsGuard}
    (h : Fits maxBytes maxNum t) : ¬Exceeds maxBytes maxNum 0 0 t := by
  unfold Fits at h
  unfold Exceeds
  omega

/-- The `LimitReached` of a block of `bytes` bytes when `held` is held back. -/
def limitReachedFor (maxBytes bytes : ℕ) : Option TransactionsGuard → LimitReached
  | none => .allTransactionsIncluded
  | some t => if maxBytes < bytes + t.transactionsBytes then .maxBytes else .maxNumOfTransactions

/-- `r` is the batch of the bundles `ts`, with `held` held over: nothing is
dropped, the transactions are the bundles' one after another, each bundle is
acknowledged with exactly its index range, the limits are kept, and a bundle is
held over only when it would break one. -/
structure BatchOf (maxBytes maxNum : ℕ) (ts : List TransactionsGuard)
    (held : Option TransactionsGuard) (r : NextResult) : Prop where
  dropped_eq : r.dropped = none
  transactions_eq : r.transactions = ts.flatMap TransactionsGuard.transactions
  acks_eq : r.acks = ackRanges 0 ts
  bytes_le : (ts.map TransactionsGuard.transactionsBytes).sum ≤ maxBytes
  length_le : r.transactions.length ≤ maxNum
  held_exceeds : ∀ h, held = some h → h.transactions ≠ [] ∧
    Exceeds maxBytes maxNum (ts.map TransactionsGuard.transactionsBytes).sum r.transactions.length h
  limitReached_eq : r.limitReached =
    limitReachedFor maxBytes (ts.map TransactionsGuard.transactionsBytes).sum held

namespace TransactionConsumer

variable {c : TransactionConsumer} {ts : List TransactionsGuard} {acc acc' : NextAcc}
  {t : TransactionsGuard} {held : Option TransactionsGuard}

/-- The accumulators hold the bundles `ts`: their transactions, their
acknowledgements and their bytes, within the limits. -/
structure Collects (c : TransactionConsumer) (ts : List TransactionsGuard) (acc : NextAcc) :
    Prop where
  transactions_eq : acc.transactions = ts.flatMap TransactionsGuard.transactions
  acks_eq : acc.acks = ackRanges 0 ts
  totalBytes_eq : acc.totalBytes = (ts.map TransactionsGuard.transactionsBytes).sum
  totalBytes_le : acc.totalBytes ≤ c.maxTransactionsInBlockBytes
  length_le : acc.transactions.length ≤ c.maxNumTransactionsInBlock

/-- A bundle held back from the accumulators: it has transactions, would break
a limit, and the limit is recorded. -/
structure HeldBack (c : TransactionConsumer) (acc : NextAcc) (t : TransactionsGuard) : Prop where
  ne_nil : t.transactions ≠ []
  exceeds : Exceeds c.maxTransactionsInBlockBytes c.maxNumTransactionsInBlock acc.totalBytes
    acc.transactions.length t
  limitReached_eq : acc.limitReached = limitReachedFor c.maxTransactionsInBlockBytes acc.totalBytes (some t)

theorem collects_empty (c : TransactionConsumer) : c.Collects [] NextAcc.empty where
  transactions_eq := rfl
  acks_eq := rfl
  totalBytes_eq := rfl
  totalBytes_le := Nat.zero_le _
  length_le := Nat.zero_le _

theorem Collects.withLimit (h : c.Collects ts acc) (l : LimitReached) :
    c.Collects ts { acc with limitReached := l } :=
  ⟨h.transactions_eq, h.acks_eq, h.totalBytes_eq, h.totalBytes_le, h.length_le⟩

/-- A ping is acknowledged with the ping index, whatever the limits. -/
theorem Collects.ping (h : c.Collects ts acc) (hnil : t.transactions = []) :
    c.Collects (ts ++ [t])
      { acc with acks := acc.acks ++ [(t.includedInBlockAck, [pingTransactionIndex])] } where
  transactions_eq := by simp [h.transactions_eq, hnil]
  acks_eq := by simp [h.acks_eq, ackRanges_append, ackOf, hnil]
  totalBytes_eq := by simp [h.totalBytes_eq, TransactionsGuard.transactionsBytes_of_nil hnil]
  totalBytes_le := h.totalBytes_le
  length_le := h.length_le

/-- Below `2 ^ 16` the `u16` index range of `handle_txs` is the plain one. -/
theorem range'_u16 {len n : ℕ} (h : len + n < 2 ^ 16) :
    List.range' (len % 2 ^ 16) ((len % 2 ^ 16 + n % 2 ^ 16) % 2 ^ 16 - len % 2 ^ 16) =
      List.range' len n := by
  rw [Nat.mod_eq_of_lt (show len < 2 ^ 16 by omega), Nat.mod_eq_of_lt (show n < 2 ^ 16 by omega),
    Nat.mod_eq_of_lt h, Nat.add_sub_cancel_left]

/-- The step lemma of `next`: `handle_txs` adds the bundle whole, with its
exact acknowledgement, or holds it back because it would break a limit. -/
theorem handleTxs_cases (hN : c.maxNumTransactionsInBlock < 2 ^ 16) (hacc : c.Collects ts acc)
    (hr : c.handleTxs acc t = (acc', held)) :
    (held = none ∧ c.Collects (ts ++ [t]) acc' ∧ acc'.limitReached = acc.limitReached) ∨
      (held = some t ∧ c.Collects ts acc' ∧ c.HeldBack acc' t) := by
  by_cases hnil : t.transactions = []
  · -- a ping
    simp only [handleTxs, hnil, List.length_nil, if_true, Prod.mk.injEq] at hr
    obtain ⟨rfl, rfl⟩ := hr
    exact .inl ⟨rfl, hacc.ping hnil, rfl⟩
  have hlen : ¬t.transactions.length = 0 := by simpa using hnil
  by_cases hb : c.maxTransactionsInBlockBytes < acc.totalBytes + t.transactionsBytes
  · simp only [handleTxs, hlen, if_false, gt_iff_lt, hb, if_true, Prod.mk.injEq] at hr
    obtain ⟨rfl, rfl⟩ := hr
    exact .inr ⟨rfl, hacc.withLimit _, hnil, .inl hb, by simp [limitReachedFor, hb]⟩
  by_cases hn : c.maxNumTransactionsInBlock < acc.transactions.length + t.transactions.length
  · simp only [handleTxs, hlen, if_false, gt_iff_lt, hb, hn, if_true, Prod.mk.injEq] at hr
    obtain ⟨rfl, rfl⟩ := hr
    exact .inr ⟨rfl, hacc.withLimit _, hnil, .inr hn, by simp [limitReachedFor, hb]⟩
  · -- the bundle fits: its indices continue those of the block
    simp only [handleTxs, hlen, if_false, gt_iff_lt, hb, hn, Prod.mk.injEq] at hr
    obtain ⟨rfl, rfl⟩ := hr
    have hfit : acc.transactions.length + t.transactions.length < 2 ^ 16 := by omega
    refine .inl ⟨rfl, ⟨?_, ?_, ?_, ?_, ?_⟩, rfl⟩
    · simp [hacc.transactions_eq]
    · rw [range'_u16 hfit, hacc.acks_eq, ackRanges_append, ← hacc.transactions_eq]
      simp [ackOf, hnil]
    · simp [hacc.totalBytes_eq]
    · dsimp only
      omega
    · simp only [List.length_append]
      omega

/-- The run lemma of one lane: the loop takes a prefix of the lane, and stops
either at the end of the lane or at a bundle it holds back. -/
theorem drainLane_spec (hN : c.maxNumTransactionsInBlock < 2 ^ 16) :
    ∀ {lane : List TransactionsGuard} {ts acc acc' held rest}, c.Collects ts acc →
      c.drainLane acc lane = (acc', held, rest) →
      ∃ taken, lane = taken ++ held.toList ++ rest ∧ c.Collects (ts ++ taken) acc' ∧
        (held = none → rest = [] ∧ acc'.limitReached = acc.limitReached) ∧
        ∀ h, held = some h → c.HeldBack acc' h
  | [], ts, acc, acc', held, rest, hacc, hr => by
    simp only [drainLane, Prod.mk.injEq] at hr
    obtain ⟨rfl, rfl, rfl⟩ := hr
    exact ⟨[], rfl, by simpa using hacc, fun _ => ⟨rfl, rfl⟩, by simp⟩
  | t :: lane, ts, acc, acc', held, rest, hacc, hr => by
    rcases hstep : c.handleTxs acc t with ⟨acc₁, held₁⟩
    rcases handleTxs_cases hN hacc hstep with ⟨rfl, hacc₁, hlim⟩ | ⟨rfl, hacc₁, hheld⟩
    · -- the bundle is added and the loop goes on
      simp only [drainLane, hstep] at hr
      obtain ⟨taken, hlane, hacc', hnone, hsome⟩ := drainLane_spec hN hacc₁ hr
      refine ⟨t :: taken, by simp [hlane], by simpa using hacc', fun h => ?_, hsome⟩
      obtain ⟨hrest, hl⟩ := hnone h
      exact ⟨hrest, hl.trans hlim⟩
    · -- the bundle is held back and the loop stops
      simp only [drainLane, hstep, Prod.mk.injEq] at hr
      obtain ⟨rfl, rfl, rfl⟩ := hr
      refine ⟨[], by simp, by simpa using hacc₁, by simp, ?_⟩
      rintro h ⟨⟩
      exact hheld

/-- The two lanes: a prefix `p₁` of the priority lane, then — only once that
lane is emptied — a prefix `p₂` of the normal lane; what is left of the lanes,
the held bundle first, is what followed the prefixes. -/
theorem pullLanes_spec (hN : c.maxNumTransactionsInBlock < 2 ^ 16) (hacc : c.Collects ts acc)
    {q₁ q₂ : List TransactionsGuard} (hr : c.pullLanes acc = (acc', held, q₁, q₂)) :
    ∃ p₁ r₁ p₂ r₂, c.priorityTxReceiver = p₁ ++ r₁ ∧ c.txReceiver = p₂ ++ r₂ ∧
      (p₂ ≠ [] → r₁ = []) ∧ held.toList ++ q₁ ++ q₂ = r₁ ++ r₂ ∧
      q₁ <:+ c.priorityTxReceiver ∧ q₂ <:+ c.txReceiver ∧
      c.Collects (ts ++ p₁ ++ p₂) acc' ∧
      (held = none → q₁ ++ q₂ = [] ∧ acc'.limitReached = acc.limitReached) ∧
      ∀ h, held = some h → c.HeldBack acc' h := by
  rcases h₁ : c.drainLane acc c.priorityTxReceiver with ⟨acc₁, held₁, rest₁⟩
  obtain ⟨p₁, hp₁, hacc₁, hnone₁, hsome₁⟩ := c.drainLane_spec hN hacc h₁
  cases held₁ with
  | some h =>
    -- held on the priority lane: the normal lane is not read
    simp only [pullLanes, h₁, Prod.mk.injEq] at hr
    obtain ⟨rfl, rfl, rfl, rfl⟩ := hr
    refine ⟨p₁, h :: rest₁, [], c.txReceiver, by simpa using hp₁, by simp, by simp, by simp,
      ⟨p₁ ++ [h], by simp [hp₁]⟩, List.suffix_refl _, by simpa using hacc₁, by simp, hsome₁⟩
  | none =>
    obtain ⟨rfl, hlim₁⟩ := hnone₁ rfl
    rcases h₂ : c.drainLane acc₁ c.txReceiver with ⟨acc₂, held₂, rest₂⟩
    simp only [pullLanes, h₁, h₂, Prod.mk.injEq] at hr
    obtain ⟨rfl, rfl, rfl, rfl⟩ := hr
    obtain ⟨p₂, hp₂, hacc₂, hnone₂, hsome₂⟩ := c.drainLane_spec hN hacc₁ h₂
    refine ⟨p₁, [], p₂, held₂.toList ++ rest₂, by simpa using hp₁, by simpa using hp₂, fun _ => rfl,
      by simp, List.nil_suffix, ⟨p₂ ++ held₂.toList, by simp [hp₂]⟩, by simpa using hacc₂,
      fun h => ⟨by simp [(hnone₂ h).1], (hnone₂ h).2.trans hlim₁⟩, hsome₂⟩

/-- `next` rebuilt from its two loops. -/
theorem next_eq {acc : NextAcc} {dropped : Option TransactionsGuard} {q₁ q₂ : List TransactionsGuard}
    (h₁ : c.takePending = (acc, dropped)) (h₂ : c.pullLanes acc = (acc', held, q₁, q₂)) :
    c.next = (⟨acc'.transactions, acc'.acks, acc'.limitReached, dropped⟩,
      { c with priorityTxReceiver := q₁, txReceiver := q₂, pendingTransactions := held }) := by
  simp [next, h₁, h₂]

/-- The invariant of the consumer: the indices of a block stay below the
reserved ones, and every queued bundle fits an empty block. -/
structure Inv (c : TransactionConsumer) : Prop where
  maxNum_lt : c.maxNumTransactionsInBlock - 1 < transactionIndexMax - numReservedTransactionIndices
  fits : ∀ t ∈ c.queued, Fits c.maxTransactionsInBlockBytes c.maxNumTransactionsInBlock t

theorem Inv.maxNum_lt_u16 (h : c.Inv) : c.maxNumTransactionsInBlock < 2 ^ 16 := by
  have := h.maxNum_lt
  unfold transactionIndexMax numReservedTransactionIndices at this
  omega

/-- A bundle that fits an empty block is not held back from an empty batch. -/
theorem Collects.not_heldBack_of_nil (hacc : c.Collects [] acc)
    (hfit : Fits c.maxTransactionsInBlockBytes c.maxNumTransactionsInBlock t) : ¬c.HeldBack acc t := by
  intro hheld
  have hzero : acc.totalBytes = 0 ∧ acc.transactions.length = 0 := by
    simp [hacc.totalBytes_eq, hacc.transactions_eq]
  have hex := hheld.exceeds
  rw [hzero.1, hzero.2] at hex
  exact not_exceeds_of_fits hfit hex

/-- The held-over bundle fits the empty block, so it is never dropped. -/
theorem takePending_spec (hinv : c.Inv) :
    ∃ acc, c.takePending = (acc, none) ∧ c.Collects c.pendingTransactions.toList acc ∧
      acc.limitReached = .allTransactionsIncluded := by
  cases hp : c.pendingTransactions with
  | none => exact ⟨NextAcc.empty, by simp [takePending, hp], c.collects_empty, rfl⟩
  | some t =>
    have hfit := hinv.fits t (by simp [queued, hp])
    rcases hstep : c.handleTxs NextAcc.empty t with ⟨acc, held⟩
    rcases handleTxs_cases hinv.maxNum_lt_u16 c.collects_empty hstep with
      ⟨rfl, hacc, hlim⟩ | ⟨rfl, hacc, hheld⟩
    · exact ⟨acc, by simp [takePending, hp, hstep], by simpa using hacc, hlim⟩
    · exact absurd hheld (hacc.not_heldBack_of_nil hfit)

/-- The accumulators at the end of `next` make the batch of the bundles they
collected. -/
theorem Collects.batchOf (hacc : c.Collects ts acc)
    (hnone : held = none → acc.limitReached = .allTransactionsIncluded)
    (hsome : ∀ h, held = some h → c.HeldBack acc h) :
    BatchOf c.maxTransactionsInBlockBytes c.maxNumTransactionsInBlock ts held
      ⟨acc.transactions, acc.acks, acc.limitReached, none⟩ where
  dropped_eq := rfl
  transactions_eq := hacc.transactions_eq
  acks_eq := hacc.acks_eq
  bytes_le := hacc.totalBytes_eq ▸ hacc.totalBytes_le
  length_le := hacc.length_le
  held_exceeds h hh := ⟨(hsome h hh).ne_nil, hacc.totalBytes_eq ▸ (hsome h hh).exceeds⟩
  limitReached_eq := by
    cases held with
    | none => simp [hnone rfl, limitReachedFor]
    | some h => rw [(hsome h rfl).limitReached_eq, hacc.totalBytes_eq]

/-- What one call of `next` does: it returns as one batch the held-over
bundle, a prefix `p₁` of the priority lane and — only once that lane is
emptied — a prefix `p₂` of the normal lane, taking at least one bundle when one
is queued; the rest stays queued in order. -/
def NextSpec (c : TransactionConsumer) : Prop :=
  ∃ p₁ r₁ p₂ r₂, c.priorityTxReceiver = p₁ ++ r₁ ∧ c.txReceiver = p₂ ++ r₂ ∧
    (p₂ ≠ [] → r₁ = []) ∧ c.next.2.queued = r₁ ++ r₂ ∧
    c.queued = c.pendingTransactions.toList ++ p₁ ++ p₂ ++ c.next.2.queued ∧
    (c.queued ≠ [] → c.pendingTransactions.toList ++ p₁ ++ p₂ ≠ []) ∧
    c.next.2.priorityTxReceiver <:+ c.priorityTxReceiver ∧ c.next.2.txReceiver <:+ c.txReceiver ∧
    BatchOf c.maxTransactionsInBlockBytes c.maxNumTransactionsInBlock
      (c.pendingTransactions.toList ++ p₁ ++ p₂) c.next.2.pendingTransactions c.next.1

/-- `next` keeps the limits of the consumer. -/
theorem next_limits (c : TransactionConsumer) :
    c.next.2.maxTransactionsInBlockBytes = c.maxTransactionsInBlockBytes ∧
      c.next.2.maxNumTransactionsInBlock = c.maxNumTransactionsInBlock := by
  rcases h₁ : c.takePending with ⟨acc, dropped⟩
  rcases h₂ : c.pullLanes acc with ⟨acc', held, q₁, q₂⟩
  rw [next_eq h₁ h₂]
  exact ⟨rfl, rfl⟩

/-- One call of `next` from a consumer that keeps the invariant. -/
theorem next_spec (hinv : c.Inv) : c.NextSpec := by
  obtain ⟨acc, h₁, hacc, hlim⟩ := takePending_spec hinv
  rcases h₂ : c.pullLanes acc with ⟨acc', held, q₁, q₂⟩
  obtain ⟨p₁, r₁, p₂, r₂, hp, hn, hr₁, hq, hs₁, hs₂, hacc', hnone, hsome⟩ :=
    pullLanes_spec hinv.maxNum_lt_u16 hacc h₂
  have hqueued : c.queued = c.pendingTransactions.toList ++ p₁ ++ p₂ ++ (r₁ ++ r₂) := by
    by_cases hp₂ : p₂ = []
    · simp [queued, hp, hn, hp₂]
    · simp [queued, hp, hn, hr₁ hp₂]
  unfold NextSpec
  rw [next_eq h₁ h₂]
  refine ⟨p₁, r₁, p₂, r₂, hp, hn, hr₁, by simpa [queued] using hq, by simpa [queued, ← hq] using hqueued,
    ?_, hs₁, hs₂, hacc'.batchOf (fun h => (hnone h).2.trans hlim) hsome⟩
  -- progress: a held bundle with nothing taken would not fit an empty block
  intro hne hnil
  rw [hnil, List.nil_append] at hqueued
  rw [hnil] at hacc'
  cases held with
  | none => exact hne (by rw [hqueued, ← hq]; simpa using (hnone rfl).1)
  | some h =>
    have hfit := hinv.fits h (by rw [hqueued, ← hq]; simp)
    exact hacc'.not_heldBack_of_nil hfit (hsome h rfl)

/-- `next` keeps the invariant: what stays queued was queued before. -/
theorem next_inv (hinv : c.Inv) : c.next.2.Inv := by
  obtain ⟨p₁, r₁, p₂, r₂, -, -, -, -, hqueued, -⟩ := next_spec hinv
  obtain ⟨hB, hN⟩ := c.next_limits
  refine ⟨hN ▸ hinv.maxNum_lt, fun t ht => ?_⟩
  rw [hB, hN]
  exact hinv.fits t (by rw [hqueued]; exact List.mem_append_right _ ht)

end TransactionConsumer

/-! ### The client -/

/-- `ClientError`, for the checks of `submit_no_wait`: the value found and the
limit it is over. -/
inductive ClientError
  | oversizedTransaction (size limit : ℕ)
  | oversizedTransactionBundleBytes (size limit : ℕ)
  | oversizedTransactionBundleCount (count limit : ℕ)
  deriving DecidableEq, Repr

/-- `TransactionClient`: the limits it checks bundles against. -/
structure TransactionClient where
  /-- `max_transaction_size` -/
  maxTransactionSize : ℕ
  /-- `max_transactions_in_block_bytes` -/
  maxTransactionsInBlockBytes : ℕ
  /-- `max_transactions_in_block_count` -/
  maxTransactionsInBlockCount : ℕ
  deriving DecidableEq, Repr

namespace TransactionClient

/-- `TransactionClient::new`: the limits of the protocol configuration. -/
def new (context : Context) : TransactionClient where
  maxTransactionSize := context.protocolConfig.maxTransactionSizeBytes
  maxTransactionsInBlockBytes := context.protocolConfig.maxTransactionsInBlockBytes
  maxTransactionsInBlockCount := context.protocolConfig.maxNumTransactionsInBlock

/-- The `for` loop of `submit_no_wait` over the transactions, from the bundle
size so far. -/
def checkTransactions (client : TransactionClient) :
    ℕ → List (List UInt8) → Except ClientError Unit
  | _, [] => .ok ()
  | bundleSize, transaction :: rest =>
    if transaction.length > client.maxTransactionSize then
      .error (.oversizedTransaction transaction.length client.maxTransactionSize)
    else
      let bundleSize := bundleSize + transaction.length
      if bundleSize > client.maxTransactionsInBlockBytes then
        .error (.oversizedTransactionBundleBytes bundleSize client.maxTransactionsInBlockBytes)
      else client.checkTransactions bundleSize rest

/-- `TransactionClient::submit_no_wait` up to the send: the bundle to send,
with the acknowledgement channel `ack`. -/
def submitNoWait (client : TransactionClient) (transactions : List (List UInt8)) (ack : ℕ) :
    Except ClientError TransactionsGuard :=
  if transactions.length > client.maxTransactionsInBlockCount then
    .error (.oversizedTransactionBundleCount transactions.length client.maxTransactionsInBlockCount)
  else do
    client.checkTransactions 0 transactions
    pure ⟨transactions.map Transaction.mk, ack⟩

/-- The error is over the limit of the client it names. -/
def Reports (client : TransactionClient) : ClientError → Prop
  | .oversizedTransaction size limit => limit = client.maxTransactionSize ∧ limit < size
  | .oversizedTransactionBundleBytes size limit =>
    limit = client.maxTransactionsInBlockBytes ∧ limit < size
  | .oversizedTransactionBundleCount count limit =>
    limit = client.maxTransactionsInBlockCount ∧ limit < count

variable {client : TransactionClient}

/-- The loop passes exactly when every transaction is within the size limit
and the whole bundle within the block bytes; the running check is the final
one, the sizes only growing. -/
theorem checkTransactions_eq_ok_iff :
    ∀ {bundleSize : ℕ} {txs : List (List UInt8)}, bundleSize ≤ client.maxTransactionsInBlockBytes →
      (client.checkTransactions bundleSize txs = .ok () ↔
        (∀ tx ∈ txs, tx.length ≤ client.maxTransactionSize) ∧
          bundleSize + (txs.map List.length).sum ≤ client.maxTransactionsInBlockBytes)
  | _, [], h => by simpa [checkTransactions] using h
  | bundleSize, tx :: txs, h => by
    by_cases hsize : client.maxTransactionSize < tx.length
    · simp [checkTransactions, hsize]
    by_cases hbytes : client.maxTransactionsInBlockBytes < bundleSize + tx.length
    · simp only [checkTransactions, gt_iff_lt, hsize, hbytes, if_true, if_false, List.mem_cons,
        List.map_cons, List.sum_cons, reduceCtorEq, false_iff, not_and, not_le]
      intro _
      omega
    · simp only [checkTransactions, gt_iff_lt, hsize, hbytes, if_false, List.mem_cons,
        List.map_cons, List.sum_cons]
      rw [checkTransactions_eq_ok_iff (by omega)]
      constructor
      · rintro ⟨hall, hsum⟩
        exact ⟨fun x hx => hx.elim (fun h => h ▸ Nat.le_of_not_lt hsize) (hall x), by omega⟩
      · rintro ⟨hall, hsum⟩
        exact ⟨fun x hx => hall x (.inr hx), by omega⟩

theorem checkTransactions_reports :
    ∀ {bundleSize : ℕ} {txs : List (List UInt8)} {e : ClientError},
      client.checkTransactions bundleSize txs = .error e → client.Reports e
  | _, [], _, h => by simp [checkTransactions] at h
  | bundleSize, tx :: txs, e, h => by
    simp only [checkTransactions, gt_iff_lt] at h
    split at h
    · cases h
      exact ⟨rfl, by assumption⟩
    split at h
    · cases h
      exact ⟨rfl, by assumption⟩
    exact checkTransactions_reports h

/-- A submission is accepted exactly when the bundle fits a block by the
client's limits; it is then sent whole, with its acknowledgement channel. -/
theorem submitNoWait_eq_ok {transactions : List (List UInt8)} {ack : ℕ} {t : TransactionsGuard} :
    client.submitNoWait transactions ack = .ok t ↔
      t = ⟨transactions.map Transaction.mk, ack⟩ ∧
        transactions.length ≤ client.maxTransactionsInBlockCount ∧
        (∀ tx ∈ transactions, tx.length ≤ client.maxTransactionSize) ∧
        (transactions.map List.length).sum ≤ client.maxTransactionsInBlockBytes := by
  have hcheck : client.checkTransactions 0 transactions = .ok () ↔
      (∀ tx ∈ transactions, tx.length ≤ client.maxTransactionSize) ∧
        0 + (transactions.map List.length).sum ≤ client.maxTransactionsInBlockBytes :=
    checkTransactions_eq_ok_iff (Nat.zero_le _)
  rw [Nat.zero_add] at hcheck
  unfold submitNoWait
  by_cases hcount : client.maxTransactionsInBlockCount < transactions.length
  · simp [hcount]
  · simp only [gt_iff_lt, hcount, if_false, Nat.le_of_not_lt hcount, true_and]
    cases h : client.checkTransactions 0 transactions with
    | error e =>
      rw [h] at hcheck
      constructor
      · intro h'
        cases h'
      · rintro ⟨-, hok⟩
        cases hcheck.mpr hok
    | ok u =>
      rw [h] at hcheck
      obtain ⟨hall, hsum⟩ := hcheck.mp rfl
      constructor
      · intro h'
        cases h'
        exact ⟨rfl, hall, hsum⟩
      · rintro ⟨rfl, -⟩
        rfl

/-- A rejected submission reports a value over the limit it names. -/
theorem submitNoWait_reports {transactions : List (List UInt8)} {ack : ℕ} {e : ClientError}
    (h : client.submitNoWait transactions ack = .error e) : client.Reports e := by
  unfold submitNoWait at h
  split at h
  · cases h
    exact ⟨rfl, by assumption⟩
  · cases hc : client.checkTransactions 0 transactions with
    | error e' =>
      rw [hc] at h
      cases h
      exact checkTransactions_reports hc
    | ok u => simp [hc] at h

end TransactionClient

/-- The bytes of a bundle built from raw transactions. -/
theorem transactionsBytes_mk (transactions : List (List UInt8)) (ack : ℕ) :
    TransactionsGuard.transactionsBytes ⟨transactions.map Transaction.mk, ack⟩ =
      (transactions.map List.length).sum := by
  simp [TransactionsGuard.transactionsBytes, Function.comp_def]

/-! ### Interleaved runs -/

/-- The two ends of the intake: the client, the consumer with what the two
lanes carry, and the number of acknowledgement channels made so far. -/
structure Intake where
  /-- the submitting end -/
  client : TransactionClient
  /-- the proposing end, with the lanes -/
  consumer : TransactionConsumer
  /-- acknowledgement channels made so far -/
  acksMade : ℕ
  deriving DecidableEq, Repr

namespace Intake

/-- What happens next: a submission, or the proposer asking for the
transactions of a block. -/
inductive Event
  | submitNoWait (transactions : List (List UInt8)) (priority : Priority)
  | next
  deriving DecidableEq, Repr

/-- What an event returns. -/
inductive Output
  | submitted (result : Except ClientError TransactionsGuard)
  | proposed (result : NextResult)

/-- The bundle a submission sent. -/
def Output.accepted : Output → List TransactionsGuard
  | .submitted (.ok t) => [t]
  | _ => []

/-- The batch a call of `next` returned. -/
def Output.batch : Output → List NextResult
  | .proposed r => [r]
  | _ => []

/-- The client and the consumer made from one context, with empty lanes. -/
def start (context : Context) : Option Intake :=
  (TransactionConsumer.new [] [] context).map fun consumer =>
    ⟨TransactionClient.new context, consumer, 0⟩

/-- A bundle sent down the lane of its priority. -/
def send (s : Intake) (priority : Priority) (t : TransactionsGuard) : Intake :=
  match priority with
  | .high =>
    { s with consumer := { s.consumer with priorityTxReceiver := s.consumer.priorityTxReceiver ++ [t] } }
  | .normal => { s with consumer := { s.consumer with txReceiver := s.consumer.txReceiver ++ [t] } }

/-- One event. -/
def step (s : Intake) : Event → Output × Intake
  | .submitNoWait transactions priority =>
    -- the acknowledgement channel is made before the checks
    let s' := { s with acksMade := s.acksMade + 1 }
    match s.client.submitNoWait transactions s.acksMade with
    | .ok t => (.submitted (.ok t), s'.send priority t)
    | .error e => (.submitted (.error e), s')
  | .next => (.proposed s.consumer.next.1, { s with consumer := s.consumer.next.2 })

/-- A run of events, with what each returned. -/
def run : Intake → List Event → List Output × Intake
  | s, [] => ([], s)
  | s, e :: es => ((s.step e).1 :: ((s.step e).2.run es).1, ((s.step e).2.run es).2)

/-- The invariant of the intake: the consumer's, and the client checking the
consumer's limits. -/
structure Inv (s : Intake) : Prop where
  consumer : s.consumer.Inv
  bytes_eq : s.client.maxTransactionsInBlockBytes = s.consumer.maxTransactionsInBlockBytes
  count_eq : s.client.maxTransactionsInBlockCount = s.consumer.maxNumTransactionsInBlock

variable {s : Intake}

theorem queued_send (s : Intake) (priority : Priority) (t : TransactionsGuard) :
    (s.send priority t).consumer.queued.Perm (s.consumer.queued ++ [t]) := by
  cases priority with
  | high =>
    simp only [send, TransactionConsumer.queued, List.append_assoc]
    exact (List.perm_append_comm.append_left _).append_left _
  | normal => simp [send, TransactionConsumer.queued]

/-- The limits and the client stay as they are. -/
theorem step_limits (s : Intake) (e : Event) :
    (s.step e).2.client = s.client ∧
      (s.step e).2.consumer.maxTransactionsInBlockBytes = s.consumer.maxTransactionsInBlockBytes ∧
      (s.step e).2.consumer.maxNumTransactionsInBlock = s.consumer.maxNumTransactionsInBlock := by
  cases e with
  | submitNoWait transactions priority =>
    cases priority <;> cases h : s.client.submitNoWait transactions s.acksMade <;> simp [step, send, h]
  | next => exact ⟨rfl, s.consumer.next_limits⟩

/-- An accepted bundle fits an empty block: the client's checks are the
consumer's. -/
theorem Inv.fits_of_submit {transactions : List (List UInt8)} {t : TransactionsGuard}
    (hs : s.Inv) (h : s.client.submitNoWait transactions s.acksMade = .ok t) :
    Fits s.consumer.maxTransactionsInBlockBytes s.consumer.maxNumTransactionsInBlock t := by
  obtain ⟨rfl, hcount, -, hbytes⟩ := TransactionClient.submitNoWait_eq_ok.mp h
  rw [← hs.bytes_eq, ← hs.count_eq]
  exact ⟨(transactionsBytes_mk _ _).symm ▸ hbytes, by simpa using hcount⟩

/-- What one event does to the bundles: a submission queues the bundle it
accepts, a call of `next` returns a batch of queued bundles. -/
theorem Inv.step_spec (hs : s.Inv) (e : Event) :
    (s.step e).2.Inv ∧ ∃ incl : List (List TransactionsGuard),
      List.Forall₂ (fun ts r => ∃ held, BatchOf s.consumer.maxTransactionsInBlockBytes
        s.consumer.maxNumTransactionsInBlock ts held r) incl (s.step e).1.batch ∧
      (s.consumer.queued ++ (s.step e).1.accepted).Perm (incl.flatten ++ (s.step e).2.consumer.queued) := by
  cases e with
  | submitNoWait transactions priority =>
    cases h : s.client.submitNoWait transactions s.acksMade with
    | ok t =>
      have hfit := hs.fits_of_submit h
      have hperm := queued_send { s with acksMade := s.acksMade + 1 } priority t
      simp only [step, h, Output.batch, Output.accepted]
      refine ⟨⟨⟨?_, fun t' ht' => ?_⟩, ?_, ?_⟩, [], .nil, by simpa using hperm.symm⟩
      · cases priority <;> exact hs.consumer.maxNum_lt
      · rcases List.mem_append.mp (hperm.subset ht') with hold | hnew
        · cases priority <;> exact hs.consumer.fits t' hold
        · rw [List.mem_singleton.mp hnew]
          cases priority <;> exact hfit
      · cases priority <;> exact hs.bytes_eq
      · cases priority <;> exact hs.count_eq
    | error err =>
      simp only [step, h, Output.batch, Output.accepted]
      exact ⟨⟨hs.consumer, hs.bytes_eq, hs.count_eq⟩, [], .nil, by simp⟩
  | next =>
    obtain ⟨p₁, r₁, p₂, r₂, -, -, -, -, hqueued, -, -, -, hbatch⟩ :=
      TransactionConsumer.next_spec hs.consumer
    obtain ⟨hB, hN⟩ := s.consumer.next_limits
    refine ⟨⟨TransactionConsumer.next_inv hs.consumer, hs.bytes_eq.trans hB.symm,
      hs.count_eq.trans hN.symm⟩, [s.consumer.pendingTransactions.toList ++ p₁ ++ p₂],
      .cons ⟨_, hbatch⟩ .nil, ?_⟩
    simp only [step, Output.accepted, List.append_nil, List.flatten_cons, List.flatten_nil]
    rw [hqueued]

theorem run_append (s : Intake) (es fs : List Event) :
    s.run (es ++ fs) = ((s.run es).1 ++ ((s.run es).2.run fs).1, ((s.run es).2.run fs).2) := by
  induction es generalizing s with
  | nil => rfl
  | cons e es ih => simp [run, ih]

theorem run_limits (es : List Event) (s : Intake) :
    (s.run es).2.client = s.client ∧
      (s.run es).2.consumer.maxTransactionsInBlockBytes = s.consumer.maxTransactionsInBlockBytes ∧
      (s.run es).2.consumer.maxNumTransactionsInBlock = s.consumer.maxNumTransactionsInBlock := by
  induction es generalizing s with
  | nil => exact ⟨rfl, rfl, rfl⟩
  | cons e es ih =>
    obtain ⟨h₁, h₂, h₃⟩ := ih (s.step e).2
    obtain ⟨h₁', h₂', h₃'⟩ := s.step_limits e
    exact ⟨h₁.trans h₁', h₂.trans h₂', h₃.trans h₃'⟩

/-- Each accepted submission has a fresh acknowledgement channel: they are
numbered in the order of the submissions. -/
theorem run_acks (es : List Event) (s : Intake) :
    s.acksMade ≤ (s.run es).2.acksMade ∧
      (∀ t ∈ (s.run es).1.flatMap Output.accepted, s.acksMade ≤ t.includedInBlockAck) ∧
      (((s.run es).1.flatMap Output.accepted).map TransactionsGuard.includedInBlockAck).Pairwise
        (· < ·) := by
  induction es generalizing s with
  | nil => simp [run]
  | cons e es ih =>
    obtain ⟨hmade, hge, hpw⟩ := ih (s.step e).2
    -- one event: at most one bundle, numbered by the channels made before it
    have hstep : s.acksMade ≤ (s.step e).2.acksMade ∧
        ∀ t ∈ (s.step e).1.accepted, t.includedInBlockAck = s.acksMade ∧
          s.acksMade < (s.step e).2.acksMade := by
      cases e with
      | submitNoWait transactions priority =>
        cases h : s.client.submitNoWait transactions s.acksMade with
        | ok t =>
          obtain ⟨rfl, -⟩ := TransactionClient.submitNoWait_eq_ok.mp h
          cases priority <;> simp [step, h, send, Output.accepted]
        | error err => simp [step, h, Output.accepted]
      | next => simp [step, Output.accepted]
    refine ⟨hstep.1.trans hmade, fun t ht => ?_, ?_⟩
    · simp only [run, List.flatMap_cons, List.mem_append] at ht
      rcases ht with ht | ht
      · exact (hstep.2 t ht).1.ge
      · exact hstep.1.trans (hge t ht)
    · simp only [run, List.flatMap_cons, List.map_append, List.pairwise_append]
      refine ⟨?_, hpw, ?_⟩
      · -- one event accepts at most one bundle
        cases h : (s.step e).1.accepted with
        | nil => simp
        | cons t ts =>
          have := hstep.2
          rw [h] at this
          cases ts with
          | nil => simp
          | cons t' _ =>
            have h₁ := (this t (by simp)).1
            have h₂ := (this t' (by simp)).1
            cases e with
            | submitNoWait transactions priority =>
              cases hs : s.client.submitNoWait transactions s.acksMade <;>
                simp [step, hs, Output.accepted] at h
            | next => simp [step, Output.accepted] at h
      · intro a ha b hb
        obtain ⟨t, ht, rfl⟩ := List.mem_map.mp ha
        obtain ⟨t', ht', rfl⟩ := List.mem_map.mp hb
        rw [(hstep.2 t ht).1]
        exact Nat.lt_of_lt_of_le (hstep.2 t ht).2 (hge t' ht')

/-- The run lemma: over any interleaving of submissions and calls of `next`,
the bundles queued at the start and accepted since are, up to order, those
returned in the batches and those still queued; every batch is the batch of
its bundles. -/
theorem run_spec (es : List Event) (s : Intake) (hs : s.Inv) :
    (s.run es).2.Inv ∧ ∃ incl : List (List TransactionsGuard),
      List.Forall₂ (fun ts r => ∃ held, BatchOf s.consumer.maxTransactionsInBlockBytes
        s.consumer.maxNumTransactionsInBlock ts held r) incl ((s.run es).1.flatMap Output.batch) ∧
      (s.consumer.queued ++ (s.run es).1.flatMap Output.accepted).Perm
        (incl.flatten ++ (s.run es).2.consumer.queued) := by
  induction es generalizing s with
  | nil => exact ⟨hs, [], .nil, by simp [run]⟩
  | cons e es ih =>
    obtain ⟨hs₁, incl₁, hall₁, hperm₁⟩ := hs.step_spec e
    obtain ⟨hinv, incl, hall, hperm⟩ := ih (s.step e).2 hs₁
    obtain ⟨-, hB, hN⟩ := s.step_limits e
    rw [hB, hN] at hall
    refine ⟨hinv, incl₁ ++ incl, ?_, ?_⟩
    · simpa [run] using List.rel_append hall₁ hall
    · simp only [run, List.flatMap_cons, List.flatten_append, List.append_assoc]
      rw [← List.append_assoc]
      exact (hperm₁.append_right _).trans (by simpa using hperm.append_left incl₁.flatten)

/-- Enough calls of `next` with nothing submitted return every queued bundle,
in the order of `queued`. -/
theorem run_flush (n : ℕ) (s : Intake) (hs : s.Inv) (hn : s.consumer.queued.length ≤ n) :
    (s.run (List.replicate n .next)).2.consumer.queued = [] ∧ ∃ incl : List (List TransactionsGuard),
      List.Forall₂ (fun ts r => ∃ held, BatchOf s.consumer.maxTransactionsInBlockBytes
        s.consumer.maxNumTransactionsInBlock ts held r) incl
        ((s.run (List.replicate n .next)).1.flatMap Output.batch) ∧
      incl.flatten = s.consumer.queued := by
  induction n generalizing s with
  | zero =>
    have hq : s.consumer.queued = [] := List.eq_nil_of_length_eq_zero (Nat.le_zero.mp hn)
    exact ⟨hq, [], .nil, hq.symm⟩
  | succ n ih =>
    obtain ⟨p₁, r₁, p₂, r₂, -, -, -, -, hqueued, hprog, -, -, hbatch⟩ :=
      TransactionConsumer.next_spec hs.consumer
    -- the call takes a bundle whenever one is queued
    have hlen : s.consumer.next.2.queued.length ≤ n := by
      by_cases hnil : s.consumer.queued = []
      · rw [hnil] at hqueued
        simp [List.nil_eq_append_iff.mp hqueued]
      · have hpos := List.length_pos_of_ne_nil (hprog hnil)
        have := congrArg List.length hqueued
        simp only [List.length_append] at this hpos
        omega
    obtain ⟨hs₁, -⟩ := hs.step_spec .next
    obtain ⟨hempty, incl, hall, hflat⟩ := ih ({ s with consumer := s.consumer.next.2 }) hs₁ hlen
    obtain ⟨hB, hN⟩ := s.consumer.next_limits
    refine ⟨hempty, (s.consumer.pendingTransactions.toList ++ p₁ ++ p₂) :: incl, ?_, ?_⟩
    · simp only [List.replicate_succ, run, step, List.flatMap_cons, Output.batch, List.singleton_append]
      exact .cons ⟨_, hbatch⟩ (by simpa [hB, hN] using hall)
    · rw [List.flatten_cons, hflat, hqueued]

/-- A run of calls of `next` accepts nothing. -/
theorem accepted_run_next (n : ℕ) (s : Intake) :
    (s.run (List.replicate n .next)).1.flatMap Output.accepted = [] := by
  induction n generalizing s with
  | zero => rfl
  | succ n ih => simp [List.replicate_succ, run, step, Output.accepted, ih]

/-- A submission returns what the client's checks return, with the
acknowledgement channel made for it. -/
theorem step_submitNoWait (s : Intake) (transactions : List (List UInt8)) (priority : Priority) :
    (s.step (.submitNoWait transactions priority)).1 =
      .submitted (s.client.submitNoWait transactions s.acksMade) := by
  cases h : s.client.submitNoWait transactions s.acksMade <;> simp [step, h]

/-- The output of an event after a prefix is that event's, from the state
the prefix reaches. -/
theorem run_output_at (s : Intake) (pre : List Event) (e : Event) (post : List Event) :
    (s.run (pre ++ e :: post)).1[pre.length]? = some ((s.run pre).2.step e).1 := by
  induction pre generalizing s with
  | nil => simp [run]
  | cons e' pre ih => simpa [run] using ih (s.step e').2

theorem start_spec {context : Context} (h : start context = some s) :
    s.Inv ∧ s.consumer.queued = [] ∧ s.acksMade = 0 ∧
      s.consumer.maxTransactionsInBlockBytes = context.protocolConfig.maxTransactionsInBlockBytes ∧
      s.consumer.maxNumTransactionsInBlock = context.protocolConfig.maxNumTransactionsInBlock ∧
      s.client = TransactionClient.new context := by
  unfold start TransactionConsumer.new at h
  split at h
  · simp only [Option.map_some, Option.some.injEq] at h
    subst h
    exact ⟨⟨⟨by assumption, by simp [TransactionConsumer.queued]⟩, rfl, rfl⟩, rfl, rfl, rfl, rfl, rfl⟩
  · cases h

end Intake

/-- The intake from `start`: a submission is accepted exactly when it is
within the limits, as the guard of its own transactions with the next
acknowledgement channel; at every reachable state a call of `next` is as
`NextSpec` says; and after any interleaving of submissions and calls of `next`,
enough further calls return every accepted bundle, whole, in exactly one batch,
each batch within the block limits, acknowledged with its exact index range and
never dropping a held-over bundle. -/
theorem transactionIntake_returns_each_bundle_once (context : Context) (s : Intake)
    (hs : Intake.start context = some s) (events : List Intake.Event) :
    (∀ (pre post : List Intake.Event) (transactions : List (List UInt8)) (priority : Priority)
        (t : TransactionsGuard),
      (s.run (pre ++ .submitNoWait transactions priority :: post)).1[pre.length]? =
          some (.submitted (.ok t)) ↔
        t = ⟨transactions.map Transaction.mk, (s.run pre).2.acksMade⟩ ∧
          transactions.length ≤ context.protocolConfig.maxNumTransactionsInBlock ∧
          (∀ tx ∈ transactions, tx.length ≤ context.protocolConfig.maxTransactionSizeBytes) ∧
          (transactions.map List.length).sum ≤ context.protocolConfig.maxTransactionsInBlockBytes) ∧
    (∀ pre : List Intake.Event, (s.run pre).2.consumer.NextSpec) ∧
      let flushed := s.run (events ++ List.replicate (s.run events).2.consumer.queued.length .next)
      flushed.2.consumer.queued = [] ∧ ∃ incl : List (List TransactionsGuard),
        List.Forall₂ (fun ts r => ∃ held, BatchOf context.protocolConfig.maxTransactionsInBlockBytes
          context.protocolConfig.maxNumTransactionsInBlock ts held r) incl
          (flushed.1.flatMap Intake.Output.batch) ∧
        (flushed.1.flatMap Intake.Output.accepted).Perm incl.flatten ∧
        (incl.flatten.map TransactionsGuard.includedInBlockAck).Nodup := by
  obtain ⟨hinv, hnil, hmade, hB, hN, hclient⟩ := Intake.start_spec hs
  refine ⟨fun pre post transactions priority t => ?_,
    fun pre => TransactionConsumer.next_spec (Intake.run_spec pre s hinv).1.consumer, ?_⟩
  · -- the event's output is the client's answer, and the client is the context's
    rw [Intake.run_output_at, Intake.step_submitNoWait, (Intake.run_limits pre s).1, hclient,
      Option.some.injEq, Intake.Output.submitted.injEq]
    exact TransactionClient.submitNoWait_eq_ok
  -- the run of `events`, then the calls of `next` that flush the lanes
  obtain ⟨hinv₁, incl₁, hall₁, hperm₁⟩ := Intake.run_spec events s hinv
  obtain ⟨-, hB₁, hN₁⟩ := Intake.run_limits events s
  obtain ⟨hempty, incl₂, hall₂, hflat₂⟩ :=
    Intake.run_flush _ (s.run events).2 hinv₁ le_rfl
  obtain ⟨-, -, hpw⟩ := Intake.run_acks events s
  rw [hB₁, hN₁] at hall₂
  rw [hB, hN] at hall₁ hall₂
  rw [hnil, List.nil_append] at hperm₁
  have hperm : ((s.run events).1.flatMap Intake.Output.accepted).Perm (incl₁ ++ incl₂).flatten := by
    rw [List.flatten_append, hflat₂]
    exact hperm₁
  refine ⟨by rw [Intake.run_append]; exact hempty, incl₁ ++ incl₂, ?_, ?_, ?_⟩
  · rw [Intake.run_append, List.flatMap_append]
    exact List.rel_append hall₁ hall₂
  · rw [Intake.run_append, List.flatMap_append, Intake.accepted_run_next, List.append_nil]
    exact hperm
  · -- the acknowledgement channels of the accepted bundles are numbered apart
    exact (hperm.map _).nodup_iff.mp (hpw.imp Nat.ne_of_lt)

/-- One ping on the priority lane and a two-transaction bundle on the normal
lane, with blocks of at most two transactions. -/
theorem transactionIntake_on_ping_and_bundle :
    let context : Context := ⟨0, 0, ⟨0, [⟨1⟩], 1, 1, 1, 1⟩, ⟨0, some 1, 0, 1, 1, false, 4, 2, 8⟩⟩
    let s : Intake := ⟨TransactionClient.new context, ⟨[], [], 8, 2, none⟩, 0⟩
    let events := [Intake.Event.submitNoWait [[1, 2], [3]] .normal, .submitNoWait [] .high]
    Intake.start context = some s ∧
      (s.run (events ++ List.replicate (s.run events).2.consumer.queued.length .next)).2.consumer.queued =
        [] := by
  intro context s events
  have hs : Intake.start context = some s := rfl
  exact ⟨hs, (transactionIntake_returns_each_bundle_once context s hs events).2.2.1⟩

end Sui
