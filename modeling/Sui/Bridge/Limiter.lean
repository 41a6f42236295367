import Mathlib.Algebra.Order.BigOperators.Group.List
import Mathlib.Algebra.Order.Group.Nat
import Mathlib.Data.List.GetD
import Mathlib.Tactic.NormNum
import Sui.MoveArith

/-!
# The bridge's transfer limiter (`bridge::limiter`)

The bridge caps the notional value (in USD with 8 decimals) that may cross
each route in any 24 hours. For each route a `TransferRecord` keeps one bucket
per hour, from `hour_tail` to `hour_head`, and their total;
`check_and_record_sending_transfer` first slides the window to the current
hour (`adjust_transfer_records`: evict the buckets older than 23 hours, then
add empty buckets up to the current hour), then compares the window's total
with the route's limit, both scaled by the token's decimal multiplier, and on
success adds the transfer's notional amount to the current bucket.

The model keeps the source's loops as structural recursions on the rounds
they run, and every checked operation of the source (`MoveArith`). The two
maps of the limiter are functions from routes; the token's treasury metadata
is an argument.

* **`Tracks`** — the invariant of every reachable limiter with respect to the
  log of the transfers it accepted: each route's record has 24 buckets ending
  at its head, each holding the notional amounts of the route's accepted
  transfers during its hour, and a total equal to their sum.
* **`checkAndRecordSendingTransfer_spec`** — from such a limiter, at an hour
  from 24 on and not before its clock, a transfer aborts exactly when its
  route has no limit or when the scaled window total plus the transfer
  overflows `u128`; otherwise it returns whether the scaled window total plus
  the transfer is within the scaled limit, records it when it is, and keeps
  `Tracks`.
* **`run_tracks`** — hence `Tracks` holds after every run of calls with a
  clock that does not go back, at a clock from which the calls after the run
  are admissible; `limiter_enforces_rolling_cap` spells it out record by
  record and for the next transfer of every run.
* **`transferRecord_short_and_request_overflow`** — a route first used at
  hour 23 gets 23 buckets for its 24 hours, and the scaled sum can overflow
  `u128`.

**Proof shape.** The window is `(List.range' hourTail 24).map (hourTotal log
route)`. Sliding it by `k` hours drops `k` buckets from the front
(`evictStale_eq`) and appends `k` empty ones (`backfill_eq`), and the hours
past the head have no transfers (`window_slide`). A transfer changes only the
last bucket (`window_append_last`).
-/

namespace Sui

namespace Bridge

open MoveArith

/-- A route between two chains (`chain_ids::BridgeRoute`). -/
structure BridgeRoute where
  source : ℕ
  destination : ℕ
  deriving DecidableEq, Repr

namespace Limiter

/-- The abort of `bridge::limiter`. -/
inductive Code
  | eLimitNotFoundForRoute
  deriving DecidableEq, Repr

/-- The hourly buckets of a route. -/
structure TransferRecord where
  hourHead : ℕ
  hourTail : ℕ
  perHourAmounts : List ℕ
  totalAmount : ℕ
  deriving DecidableEq, Repr

/-- The limiter: the limit of each route and the record of each route used. -/
structure TransferLimiter where
  transferLimits : BridgeRoute → Option ℕ
  transferRecords : BridgeRoute → Option TransferRecord

/-- What the limiter reads of the treasury's metadata of the token type. -/
structure TokenMetadata where
  decimalMultiplier : ℕ
  notionalValue : ℕ
  deriving DecidableEq, Repr

/-- vector::remove of the first entry. -/
def removeFirst : List ℕ → Except (Abort Code) (ℕ × List ℕ)
  | [] => .error .indexOutOfBounds
  | a :: rest => .ok (a, rest)

/-- vector::pop_back. -/
def popBack (l : List ℕ) : Except (Abort Code) (ℕ × List ℕ) :=
  match l.getLast? with
  | some a => .ok (a, l.dropLast)
  | none => .error .indexOutOfBounds

/-- The record a route gets on its first transfer. -/
def TransferRecord.empty : TransferRecord := ⟨0, 0, [], 0⟩

/-- current_hour_since_epoch -/
def currentHourSinceEpoch (timestampMs : ℕ) : ℕ := timestampMs / 3600000

/-- The eviction loop of adjust_transfer_records: while `hour_tail` is below
the target, remove the first bucket from the total and advance the tail.
`rounds` is the number of rounds it may still run. -/
def evictStale (targetTail : ℕ) : ℕ → TransferRecord → Except (Abort Code) TransferRecord
  | 0, self => pure self
  | rounds + 1, self =>
    if self.hourTail < targetTail then do
      let (removed, rest) ← removeFirst self.perHourAmounts
      let totalAmount ← sub self.totalAmount removed
      evictStale targetTail rounds ⟨self.hourHead, self.hourTail + 1, rest, totalAmount⟩
    else pure self

/-- The backfill loop of adjust_transfer_records: while `hour_head` is below
the current hour, push an empty bucket and advance the head. -/
def backfill (currentHour : ℕ) : ℕ → TransferRecord → TransferRecord
  | 0, self => self
  | rounds + 1, self =>
    if self.hourHead < currentHour then
      backfill currentHour rounds
        ⟨self.hourHead + 1, self.hourTail, self.perHourAmounts ++ [0], self.totalAmount⟩
    else self

/-- adjust_transfer_records: slide the window to end at the current hour. -/
def adjustTransferRecords (self : TransferRecord) (currentHourSinceEpoch : ℕ) :
    Except (Abort Code) TransferRecord :=
  if self.hourHead = currentHourSinceEpoch then pure self
  else do
    let targetTail ← sub currentHourSinceEpoch 23
    -- a head older than the window: every bucket is evicted
    let self ← if self.hourHead < targetTail then pure ⟨targetTail, targetTail, [0], 0⟩
      else evictStale targetTail (targetTail - self.hourTail) self
    pure (backfill currentHourSinceEpoch (currentHourSinceEpoch - self.hourHead) self)

/-- check_and_record_sending_transfer: whether the transfer fits the route's
limit, and the limiter after it. The adjusted record is kept also when the
transfer does not fit. -/
def checkAndRecordSendingTransfer (self : TransferLimiter) (token : TokenMetadata)
    (timestampMs : ℕ) (route : BridgeRoute) (amount : ℕ) :
    Except (Abort Code) (Bool × TransferLimiter) := do
  let record := (self.transferRecords route).getD TransferRecord.empty
  let record ← adjustTransferRecords record (currentHourSinceEpoch timestampMs)
  let adjusted : TransferLimiter :=
    ⟨self.transferLimits, Function.update self.transferRecords route (some record)⟩
  match self.transferLimits route with
  | none => .error (.abort .eLimitNotFoundForRoute)
  | some routeLimit =>
    let routeLimitAdjusted ← mul 128 routeLimit token.decimalMultiplier
    let value := token.notionalValue
    let notionalAmountWithTokenMultiplier ← mul 128 value amount
    let scaledTotal ← mul 128 record.totalAmount token.decimalMultiplier
    let requested ← add 128 scaledTotal notionalAmountWithTokenMultiplier
    if requested > routeLimitAdjusted then pure (false, adjusted)
    else do
      let notionalAmount ← div notionalAmountWithTokenMultiplier token.decimalMultiplier
      let notionalAmount ← cast 64 notionalAmount
      let (last, rest) ← popBack record.perHourAmounts
      let newAmount ← add 64 last notionalAmount
      let totalAmount ← add 64 record.totalAmount notionalAmount
      pure (true, ⟨self.transferLimits, Function.update self.transferRecords route
        (some ⟨record.hourHead, record.hourTail, rest ++ [newAmount], totalAmount⟩)⟩)

/-- update_route_limit: insert the route's limit or overwrite it. -/
def updateRouteLimit (self : TransferLimiter) (route : BridgeRoute) (newUsdLimit : ℕ) :
    TransferLimiter :=
  ⟨Function.update self.transferLimits route (some newUsdLimit), self.transferRecords⟩

/-! ## The loops of adjust_transfer_records -/

/-- The eviction loop run to its end removes the first `k` buckets from the
window and from its total. -/
theorem evictStale_eq {targetTail head : ℕ} :
    ∀ (k tail : ℕ) (amounts : List ℕ), tail + k = targetTail → k ≤ amounts.length →
      evictStale targetTail k ⟨head, tail, amounts, amounts.sum⟩ =
        .ok ⟨head, targetTail, amounts.drop k, (amounts.drop k).sum⟩
  | 0, tail, amounts, htail, _ => by
    rw [Nat.add_zero] at htail
    rw [htail, List.drop_zero]
    rfl
  | k + 1, tail, a :: rest, htail, hk => by
    have hlt : tail < targetTail := by omega
    have hsub : (sub (a :: rest).sum a : Except (Abort Code) ℕ) = .ok rest.sum := by
      rw [sub_eq_ok (by rw [List.sum_cons]; omega), List.sum_cons, Nat.add_sub_cancel_left]
    rw [evictStale, if_pos hlt]
    simp only [removeFirst, hsub, ok_bind]
    rw [evictStale_eq k (tail + 1) rest (by omega) (by simp at hk; omega), List.drop_succ_cons]

/-- The backfill loop run to its end appends an empty bucket per hour. -/
theorem backfill_eq {currentHour tail total : ℕ} :
    ∀ (k head : ℕ) (amounts : List ℕ), head + k = currentHour →
      backfill currentHour k ⟨head, tail, amounts, total⟩ =
        ⟨currentHour, tail, amounts ++ List.replicate k 0, total⟩
  | 0, head, amounts, hhead => by
    rw [Nat.add_zero] at hhead
    rw [hhead, List.replicate_zero, List.append_nil]
    rfl
  | k + 1, head, amounts, hhead => by
    rw [backfill]
    dsimp only
    rw [if_pos (by omega), backfill_eq k (head + 1) (amounts ++ [0]) (by omega),
      List.append_assoc, List.singleton_append, List.replicate_succ]

/-! ## The log of accepted transfers -/

/-- A transfer the limiter accepted: its route, its hour and its notional
amount. -/
structure Transfer where
  route : BridgeRoute
  hour : ℕ
  notional : ℕ
  deriving DecidableEq, Repr

/-- The notional amounts of the transfers on `route` during `hour`. -/
def hourTotal (log : List Transfer) (route : BridgeRoute) (hour : ℕ) : ℕ :=
  ((log.filter fun t => t.route = route ∧ t.hour = hour).map Transfer.notional).sum

/-- The 24 hourly totals of `route` from `hourTail` on. -/
def window (log : List Transfer) (route : BridgeRoute) (hourTail : ℕ) : List ℕ :=
  (List.range' hourTail 24).map (hourTotal log route)

/-- The record of the 24 hours of `route` ending at `hour`. -/
def windowRecord (log : List Transfer) (route : BridgeRoute) (hour : ℕ) : TransferRecord :=
  ⟨hour, hour - 23, window log route (hour - 23), (window log route (hour - 23)).sum⟩

/-- A record holds, hour by hour, the last 24 hours of its route's transfers
up to its head. -/
structure RecordMatches (log : List Transfer) (route : BridgeRoute) (r : TransferRecord) :
    Prop where
  tail_add : r.hourTail + 23 = r.hourHead
  amounts_eq : r.perHourAmounts = window log route r.hourTail
  total_eq : r.totalAmount = r.perHourAmounts.sum
  total_lt : r.totalAmount < 2 ^ 64
  hour_le : ∀ t ∈ log, t.route = route → t.hour ≤ r.hourHead

/-- What a matching record says, bucket by bucket. -/
theorem RecordMatches.spec {log : List Transfer} {route : BridgeRoute} {r : TransferRecord}
    (h : RecordMatches log route r) :
    r.hourTail + 23 = r.hourHead ∧ r.perHourAmounts.length = 24 ∧
      r.totalAmount = r.perHourAmounts.sum ∧
      ∀ i < 24, r.perHourAmounts.getD i 0 = hourTotal log route (r.hourTail + i) := by
  refine ⟨h.tail_add, by rw [h.amounts_eq, window, List.length_map, List.length_range'],
    h.total_eq, fun i hi => ?_⟩
  rw [h.amounts_eq, window, List.getD_eq_getElem _ _ (by simpa using hi), List.getElem_map,
    List.getElem_range', Nat.one_mul]

theorem hourTotal_eq_zero {log : List Transfer} {route : BridgeRoute} {hour : ℕ}
    (h : ∀ t ∈ log, t.route = route → t.hour ≠ hour) : hourTotal log route hour = 0 := by
  have hnil : (log.filter fun t => t.route = route ∧ t.hour = hour) = [] := by
    rw [List.filter_eq_nil_iff]
    intro t ht hsel
    simp only [decide_eq_true_eq] at hsel
    exact h t ht hsel.1 hsel.2
  rw [hourTotal, hnil, List.map_nil, List.sum_nil]

theorem hourTotal_append (log l : List Transfer) (route : BridgeRoute) (hour : ℕ) :
    hourTotal (log ++ l) route hour = hourTotal log route hour + hourTotal l route hour := by
  rw [hourTotal, hourTotal, hourTotal, List.filter_append, List.map_append, List.sum_append]

theorem hourTotal_singleton_self (route : BridgeRoute) (hour x : ℕ) :
    hourTotal [⟨route, hour, x⟩] route hour = x := by
  simp [hourTotal]

/-- Past its head, sliding the window by `k` hours drops `k` buckets from the
front and adds `k` empty ones. -/
theorem window_slide {log : List Transfer} {route : BridgeRoute} (tail k : ℕ) (hk : k ≤ 24)
    (hhour : ∀ t ∈ log, t.route = route → t.hour ≤ tail + 23) :
    window log route (tail + k) = (window log route tail).drop k ++ List.replicate k 0 := by
  have hsplit : List.range' (tail + k) 24 =
      List.range' (tail + k) (24 - k) ++ List.range' (tail + 24) k := by
    rw [show tail + 24 = tail + k + (24 - k) by omega, List.range'_append_1]
    congr 1
    omega
  have hzero : (List.range' (tail + 24) k).map (hourTotal log route) = List.replicate k 0 := by
    rw [List.eq_replicate_iff, List.length_map, List.length_range']
    refine ⟨rfl, fun b hb => ?_⟩
    obtain ⟨hour, hmem, rfl⟩ := List.mem_map.mp hb
    have hge := (List.mem_range'_1.mp hmem).1
    exact hourTotal_eq_zero fun t ht hroute => by have := hhour t ht hroute; omega
  rw [window, window, hsplit, List.map_append, hzero, ← List.map_drop, List.drop_range',
    Nat.mul_one]

/-- A window wholly past the route's transfers is empty. -/
theorem window_eq_replicate {log : List Transfer} {route : BridgeRoute} {tail : ℕ}
    (hhour : ∀ t ∈ log, t.route = route → t.hour < tail) :
    window log route tail = List.replicate 24 0 := by
  rw [List.eq_replicate_iff, window, List.length_map, List.length_range']
  refine ⟨rfl, fun b hb => ?_⟩
  obtain ⟨hour, hmem, rfl⟩ := List.mem_map.mp hb
  have hge := (List.mem_range'_1.mp hmem).1
  exact hourTotal_eq_zero fun t ht hroute => by have := hhour t ht hroute; omega

/-- **Sliding a matching record** to a later hour gives the record of the 24
hours ending there. -/
theorem adjustTransferRecords_of_matches {log : List Transfer} {route : BridgeRoute}
    {r : TransferRecord} {hour : ℕ} (hr : RecordMatches log route r) (hle : r.hourHead ≤ hour) :
    adjustTransferRecords r hour = .ok (windowRecord log route hour) := by
  obtain ⟨head, tail, amounts, total⟩ := r
  obtain ⟨htail, hamounts, htotal, -, hhour⟩ := hr
  dsimp only at htail hamounts htotal hhour hle
  subst htail hamounts
  subst total
  by_cases hsame : tail + 23 = hour
  · -- the head is the current hour: nothing moves
    subst hsame
    rw [adjustTransferRecords, if_pos rfl, windowRecord, Nat.add_sub_cancel]
    rfl
  rw [adjustTransferRecords, if_neg hsame, sub_eq_ok (by omega), ok_bind]
  by_cases hold : tail + 23 < hour - 23
  · -- the head is older than the window: every bucket is evicted
    have hempty : window log route (hour - 23) = List.replicate 24 0 :=
      window_eq_replicate fun t ht hroute => by have := hhour t ht hroute; omega
    simp only [if_pos hold, pure, Except.pure, ok_bind]
    rw [show hour - (hour - 23) = 23 by omega, backfill_eq 23 (hour - 23) [0] (by omega),
      windowRecord, hempty]
    rfl
  · -- the buckets from the new tail on stay, and empty ones follow
    have hslide := window_slide tail (hour - 23 - tail) (by omega) hhour
    rw [show tail + (hour - 23 - tail) = hour - 23 by omega] at hslide
    simp only [if_neg hold]
    rw [evictStale_eq (hour - 23 - tail) tail _ (by omega)
        (by rw [window, List.length_map, List.length_range']; omega), ok_bind]
    simp only [pure, Except.pure]
    rw [backfill_eq (hour - (tail + 23)) (tail + 23) _ (by omega), windowRecord, hslide,
      show hour - (tail + 23) = hour - 23 - tail by omega, List.sum_append, List.sum_replicate,
      smul_zero, Nat.add_zero]

/-- A route's first transfer from hour 24 on starts the record of the 24
hours ending there, empty. -/
theorem adjustTransferRecords_empty {log : List Transfer} {route : BridgeRoute} {hour : ℕ}
    (h24 : 24 ≤ hour) (hfresh : ∀ t ∈ log, t.route ≠ route) :
    adjustTransferRecords TransferRecord.empty hour = .ok (windowRecord log route hour) := by
  have hempty : window log route (hour - 23) = List.replicate 24 0 :=
    window_eq_replicate fun t ht hroute => absurd hroute (hfresh t ht)
  have hold : TransferRecord.empty.hourHead < hour - 23 := by
    dsimp only [TransferRecord.empty]; omega
  rw [adjustTransferRecords, if_neg (by dsimp only [TransferRecord.empty]; omega),
    sub_eq_ok (by omega), ok_bind]
  simp only [if_pos hold, pure, Except.pure, ok_bind]
  rw [show hour - (hour - 23) = 23 by omega, backfill_eq 23 (hour - 23) [0] (by omega),
    windowRecord, hempty]
  rfl

theorem window_eq_concat (log : List Transfer) (route : BridgeRoute) (tail : ℕ) :
    window log route tail =
      (List.range' tail 23).map (hourTotal log route) ++ [hourTotal log route (tail + 23)] := by
  rw [window, List.range'_concat, Nat.one_mul, List.map_append, List.map_singleton]

theorem popBack_window (log : List Transfer) (route : BridgeRoute) (tail : ℕ) :
    popBack (window log route tail) =
      .ok (hourTotal log route (tail + 23), (List.range' tail 23).map (hourTotal log route)) := by
  rw [window_eq_concat, popBack, List.getLast?_concat, List.dropLast_concat]

/-- Transfers on other routes leave a route's window as it was. -/
theorem window_append_of_ne {log l : List Transfer} {route : BridgeRoute} (tail : ℕ)
    (hl : ∀ t ∈ l, t.route ≠ route) : window (log ++ l) route tail = window log route tail := by
  apply List.map_congr_left
  intro hour _
  rw [hourTotal_append, hourTotal_eq_zero fun t ht hroute => absurd hroute (hl t ht),
    Nat.add_zero]

/-- A transfer at the window's last hour adds to its last bucket only. -/
theorem window_append_last (log : List Transfer) (route : BridgeRoute) (tail x : ℕ) :
    window (log ++ [⟨route, tail + 23, x⟩]) route tail =
      (List.range' tail 23).map (hourTotal log route) ++ [hourTotal log route (tail + 23) + x] := by
  rw [window_eq_concat, hourTotal_append, hourTotal_singleton_self]
  congr 1
  apply List.map_congr_left
  intro hour hmem
  have hlt := (List.mem_range'_1.mp hmem).2
  have hnone : hourTotal [⟨route, tail + 23, x⟩] route hour = 0 :=
    hourTotal_eq_zero fun t ht _ => by rw [List.mem_singleton] at ht; subst ht; dsimp only; omega
  rw [hourTotal_append, hnone, Nat.add_zero]

theorem sum_window_append_last (log : List Transfer) (route : BridgeRoute) (tail x : ℕ) :
    (window (log ++ [⟨route, tail + 23, x⟩]) route tail).sum = (window log route tail).sum + x := by
  rw [window_append_last, window_eq_concat, List.sum_append, List.sum_append, List.sum_singleton,
    List.sum_singleton, Nat.add_assoc]

theorem RecordMatches.append_of_ne {log l : List Transfer} {route : BridgeRoute}
    {r : TransferRecord} (h : RecordMatches log route r) (hl : ∀ t ∈ l, t.route ≠ route) :
    RecordMatches (log ++ l) route r where
  tail_add := h.tail_add
  amounts_eq := by rw [window_append_of_ne _ hl]; exact h.amounts_eq
  total_eq := h.total_eq
  total_lt := h.total_lt
  hour_le t ht hroute := by
    rcases List.mem_append.mp ht with hlog | hnew
    · exact h.hour_le t hlog hroute
    · exact absurd hroute (hl t hnew)

theorem windowRecord_matches {log : List Transfer} {route : BridgeRoute} {hour : ℕ}
    (h23 : 23 ≤ hour) (hhour : ∀ t ∈ log, t.route = route → t.hour ≤ hour)
    (hlt : (window log route (hour - 23)).sum < 2 ^ 64) :
    RecordMatches log route (windowRecord log route hour) where
  tail_add := Nat.sub_add_cancel h23
  amounts_eq := rfl
  total_eq := rfl
  total_lt := hlt
  hour_le := hhour

/-- Sliding a record's window to a later hour does not increase its total. -/
theorem RecordMatches.sum_window_le {log : List Transfer} {route : BridgeRoute}
    {r : TransferRecord} (hr : RecordMatches log route r) {hour : ℕ} (hle : r.hourHead ≤ hour) :
    (window log route (hour - 23)).sum ≤ r.totalAmount := by
  obtain ⟨head, tail, amounts, total⟩ := r
  obtain ⟨htail, hamounts, htotal, -, hhour⟩ := hr
  dsimp only at htail hamounts htotal hhour hle ⊢
  rw [htotal, hamounts]
  by_cases hnear : hour - 23 ≤ tail + 24
  · have hhour' : ∀ t ∈ log, t.route = route → t.hour ≤ tail + 23 := by rw [htail]; exact hhour
    have hslide := window_slide tail (hour - 23 - tail) (by omega) hhour'
    rw [show tail + (hour - 23 - tail) = hour - 23 by omega] at hslide
    rw [hslide, List.sum_append, List.sum_replicate, smul_zero, Nat.add_zero]
    exact (List.drop_sublist _ _).sum_le_sum fun _ _ => Nat.zero_le _
  · rw [window_eq_replicate fun t ht hroute => by have := hhour t ht hroute; omega,
      List.sum_replicate, smul_zero]
    exact Nat.zero_le _

/-! ## The invariant of the limiter -/

/-- A limiter tracks the log of the transfers it accepted up to the hour
`clock`: each route's record matches the log and does not run past the clock,
a route without a record has no transfer, and every limit is a `u64`. -/
structure Tracks (limiter : TransferLimiter) (clock : ℕ) (log : List Transfer) : Prop where
  record_matches : ∀ route r, limiter.transferRecords route = some r → RecordMatches log route r
  head_le : ∀ route r, limiter.transferRecords route = some r → r.hourHead ≤ clock
  fresh : ∀ route, limiter.transferRecords route = none → ∀ t ∈ log, t.route ≠ route
  limit_lt : ∀ route limit, limiter.transferLimits route = some limit → limit < 2 ^ 64

section Tracks

variable {s : TransferLimiter} {clock hour : ℕ} {log : List Transfer} {route : BridgeRoute}

theorem Tracks.mono (hs : Tracks s clock log) (hclock : clock ≤ hour) : Tracks s hour log where
  record_matches := hs.record_matches
  head_le route r hr := (hs.head_le route r hr).trans hclock
  fresh := hs.fresh
  limit_lt := hs.limit_lt

/-- Every transfer of the log is no later than the clock. -/
theorem Tracks.hour_le (hs : Tracks s clock log) : ∀ t ∈ log, t.route = route → t.hour ≤ clock := by
  intro t ht hroute
  cases hr : s.transferRecords route with
  | none => exact absurd hroute (hs.fresh route hr t ht)
  | some r => exact ((hs.record_matches route r hr).hour_le t ht hroute).trans (hs.head_le route r hr)

/-- The route's record once slid to an hour from 24 on, not before the clock. -/
theorem Tracks.adjust (hs : Tracks s clock log) (hclock : clock ≤ hour) (h24 : 24 ≤ hour) :
    adjustTransferRecords ((s.transferRecords route).getD TransferRecord.empty) hour =
      .ok (windowRecord log route hour) := by
  cases hr : s.transferRecords route with
  | none => exact adjustTransferRecords_empty h24 (hs.fresh route hr)
  | some r =>
    exact adjustTransferRecords_of_matches (hs.record_matches route r hr)
      ((hs.head_le route r hr).trans hclock)

/-- The window's total fits a `u64` at every later hour. -/
theorem Tracks.sum_window_lt (hs : Tracks s clock log) (hclock : clock ≤ hour) :
    (window log route (hour - 23)).sum < 2 ^ 64 := by
  cases hr : s.transferRecords route with
  | none =>
    rw [window_eq_replicate fun t ht hroute => absurd hroute (hs.fresh route hr t ht),
      List.sum_replicate, smul_zero]
    exact Nat.two_pow_pos 64
  | some r =>
    have hmatch := hs.record_matches route r hr
    exact (hmatch.sum_window_le ((hs.head_le route r hr).trans hclock)).trans_lt hmatch.total_lt

/-- Writing a record for `route` that matches the log with some new transfers
on `route`, at a later hour. -/
theorem Tracks.update (hs : Tracks s clock log) (hclock : clock ≤ hour) {l : List Transfer}
    (hl : ∀ t ∈ l, t.route = route) {R : TransferRecord} (hR : RecordMatches (log ++ l) route R)
    (hhead : R.hourHead ≤ hour) :
    Tracks ⟨s.transferLimits, Function.update s.transferRecords route (some R)⟩ hour (log ++ l) where
  record_matches route' r hr := by
    dsimp only at hr
    by_cases hroute : route' = route
    · subst hroute
      rw [Function.update_self, Option.some.injEq] at hr
      exact hr ▸ hR
    · rw [Function.update_of_ne hroute] at hr
      exact (hs.record_matches route' r hr).append_of_ne fun t ht h => hroute (h ▸ hl t ht)
  head_le route' r hr := by
    dsimp only at hr
    by_cases hroute : route' = route
    · subst hroute
      rw [Function.update_self, Option.some.injEq] at hr
      exact hr ▸ hhead
    · rw [Function.update_of_ne hroute] at hr
      exact (hs.head_le route' r hr).trans hclock
  fresh route' hr t ht := by
    dsimp only at hr
    by_cases hroute : route' = route
    · subst hroute
      rw [Function.update_self] at hr
      exact absurd hr (Option.some_ne_none _)
    · rw [Function.update_of_ne hroute] at hr
      rcases List.mem_append.mp ht with hlog | hnew
      · exact hs.fresh route' hr t hlog
      · exact fun h => hroute (h ▸ hl t hnew)
  limit_lt := hs.limit_lt

end Tracks

/-! ## A transfer -/

/-- The window's total and the transfer's notional value, both scaled by the
token's decimal multiplier, as check_and_record_sending_transfer compares
them with the scaled limit. -/
def scaledRequest (log : List Transfer) (route : BridgeRoute) (hour : ℕ) (token : TokenMetadata)
    (amount : ℕ) : ℕ :=
  (window log route (hour - 23)).sum * token.decimalMultiplier + token.notionalValue * amount

/-- What a transfer does, by the log: without a limit for the route it
aborts, when the scaled request overflows `u128` it aborts, and otherwise it
is accepted exactly when the scaled request is within the scaled limit. -/
def transferSpec (limits : BridgeRoute → Option ℕ) (log : List Transfer) (token : TokenMetadata)
    (hour : ℕ) (route : BridgeRoute) (amount : ℕ) : Except (Abort Code) Bool :=
  match limits route with
  | none => .error (.abort .eLimitNotFoundForRoute)
  | some limit =>
    if scaledRequest log route hour token amount < 2 ^ 128 then
      .ok (decide (scaledRequest log route hour token amount ≤ limit * token.decimalMultiplier))
    else .error .arithmeticError

theorem transferSpec_of_some {limits : BridgeRoute → Option ℕ} {log : List Transfer}
    {token : TokenMetadata} {hour : ℕ} {route : BridgeRoute} {amount limit : ℕ}
    (h : limits route = some limit) :
    transferSpec limits log token hour route amount =
      if scaledRequest log route hour token amount < 2 ^ 128 then
        .ok (decide (scaledRequest log route hour token amount ≤ limit * token.decimalMultiplier))
      else .error .arithmeticError := by
  rw [transferSpec, h]

/-- The metadata the treasury keeps for a token: `u64` values and a positive
decimal multiplier. -/
structure TokenMetadata.Valid (token : TokenMetadata) : Prop where
  decimalMultiplier_pos : 0 < token.decimalMultiplier
  decimalMultiplier_lt : token.decimalMultiplier < 2 ^ 64
  notionalValue_lt : token.notionalValue < 2 ^ 64

section Transfer

variable {s : TransferLimiter} {clock : ℕ} {log : List Transfer} {token : TokenMetadata}
  {timestampMs : ℕ} {route : BridgeRoute} {amount limit : ℕ}

/-- Two `u64` values widened to `u128` multiply without abort. -/
theorem mul_u128_eq_ok {a b : ℕ} (ha : a < 2 ^ 64) (hb : b < 2 ^ 64) :
    (mul 128 a b : Except (Abort Code) ℕ) = .ok (a * b) :=
  mul_eq_ok (mul_lt_two_pow_double ha hb)

/-- Within the scaled limit, the window's total and the transfer's notional
amount, rounded down, are within the limit. -/
theorem add_div_le_of_scaled_le {total notional multiplier limit : ℕ} (hpos : 0 < multiplier)
    (hle : total * multiplier + notional ≤ limit * multiplier) :
    total + notional / multiplier ≤ limit := by
  have htotal : total ≤ limit :=
    Nat.le_of_mul_le_mul_right (Nat.le_of_add_right_le hle) hpos
  have hnotional : notional ≤ multiplier * (limit - total) := by
    rw [Nat.mul_sub, Nat.mul_comm multiplier, Nat.mul_comm multiplier]
    omega
  have := Nat.div_le_of_le_mul hnotional
  omega

/-- The last bucket is part of the window's total. -/
theorem hourTotal_le_sum_window (log : List Transfer) (route : BridgeRoute) (tail : ℕ) :
    hourTotal log route (tail + 23) ≤ (window log route tail).sum := by
  rw [window_eq_concat, List.sum_append, List.sum_singleton]
  exact Nat.le_add_left _ _

/-- Without a limit for the route the transfer aborts. -/
theorem checkAndRecordSendingTransfer_of_none (hs : Tracks s clock log)
    (hclock : clock ≤ currentHourSinceEpoch timestampMs)
    (h24 : 24 ≤ currentHourSinceEpoch timestampMs) (hnone : s.transferLimits route = none) :
    checkAndRecordSendingTransfer s token timestampMs route amount =
      .error (.abort .eLimitNotFoundForRoute) := by
  rw [checkAndRecordSendingTransfer, hs.adjust hclock h24, ok_bind]
  simp only [hnone]

/-- The only arithmetic abort: the scaled request overflows `u128`. -/
theorem checkAndRecordSendingTransfer_of_overflow (hs : Tracks s clock log) (htoken : token.Valid)
    (hamount : amount < 2 ^ 64) (hclock : clock ≤ currentHourSinceEpoch timestampMs)
    (h24 : 24 ≤ currentHourSinceEpoch timestampMs) (hlimit : s.transferLimits route = some limit)
    (hover : 2 ^ 128 ≤ scaledRequest log route (currentHourSinceEpoch timestampMs) token amount) :
    checkAndRecordSendingTransfer s token timestampMs route amount = .error .arithmeticError := by
  rw [checkAndRecordSendingTransfer, hs.adjust hclock h24, ok_bind]
  simp only [hlimit, windowRecord,
    mul_u128_eq_ok (hs.limit_lt route limit hlimit) htoken.decimalMultiplier_lt,
    mul_u128_eq_ok htoken.notionalValue_lt hamount,
    mul_u128_eq_ok (hs.sum_window_lt hclock) htoken.decimalMultiplier_lt, ok_bind,
    add_eq_error hover, error_bind]

/-- Over the limit: the transfer is refused, and the slid record is kept. -/
theorem checkAndRecordSendingTransfer_of_gt (hs : Tracks s clock log) (htoken : token.Valid)
    (hamount : amount < 2 ^ 64) (hclock : clock ≤ currentHourSinceEpoch timestampMs)
    (h24 : 24 ≤ currentHourSinceEpoch timestampMs) (hlimit : s.transferLimits route = some limit)
    (hfit : scaledRequest log route (currentHourSinceEpoch timestampMs) token amount < 2 ^ 128)
    (hgt : limit * token.decimalMultiplier <
      scaledRequest log route (currentHourSinceEpoch timestampMs) token amount) :
    checkAndRecordSendingTransfer s token timestampMs route amount =
      .ok (false, ⟨s.transferLimits, Function.update s.transferRecords route
        (some (windowRecord log route (currentHourSinceEpoch timestampMs)))⟩) := by
  rw [checkAndRecordSendingTransfer, hs.adjust hclock h24, ok_bind]
  simp only [hlimit,
    mul_u128_eq_ok (hs.limit_lt route limit hlimit) htoken.decimalMultiplier_lt,
    mul_u128_eq_ok htoken.notionalValue_lt hamount, ok_bind]
  rw [windowRecord]
  simp only [mul_u128_eq_ok (hs.sum_window_lt hclock) htoken.decimalMultiplier_lt, ok_bind]
  rw [scaledRequest] at hfit hgt
  rw [add_eq_ok hfit, ok_bind, if_pos (show _ > _ from hgt)]
  rfl

/-- Within the limit: the transfer is accepted, and the record is that of
the log with the transfer added at the current hour. -/
theorem checkAndRecordSendingTransfer_of_le (hs : Tracks s clock log) (htoken : token.Valid)
    (hamount : amount < 2 ^ 64) (hclock : clock ≤ currentHourSinceEpoch timestampMs)
    (h24 : 24 ≤ currentHourSinceEpoch timestampMs) (hlimit : s.transferLimits route = some limit)
    (hle : scaledRequest log route (currentHourSinceEpoch timestampMs) token amount ≤
      limit * token.decimalMultiplier) :
    checkAndRecordSendingTransfer s token timestampMs route amount =
      .ok (true, ⟨s.transferLimits, Function.update s.transferRecords route
        (some (windowRecord (log ++ [⟨route, currentHourSinceEpoch timestampMs,
          token.notionalValue * amount / token.decimalMultiplier⟩]) route
          (currentHourSinceEpoch timestampMs)))⟩) := by
  have hlim := hs.limit_lt route limit hlimit
  have hfit : scaledRequest log route (currentHourSinceEpoch timestampMs) token amount < 2 ^ 128 :=
    hle.trans_lt (mul_lt_two_pow_double hlim htoken.decimalMultiplier_lt)
  have hbound := add_div_le_of_scaled_le htoken.decimalMultiplier_pos hle
  rw [checkAndRecordSendingTransfer, hs.adjust hclock h24, ok_bind]
  simp only [hlimit, mul_u128_eq_ok hlim htoken.decimalMultiplier_lt,
    mul_u128_eq_ok htoken.notionalValue_lt hamount, ok_bind]
  rw [windowRecord]
  simp only [mul_u128_eq_ok (hs.sum_window_lt hclock) htoken.decimalMultiplier_lt, ok_bind]
  generalize currentHourSinceEpoch timestampMs = hour at *
  have hlast := hourTotal_le_sum_window log route (hour - 23)
  rw [scaledRequest] at hfit hle
  rw [add_eq_ok hfit, ok_bind, if_neg (show ¬ _ > _ from Nat.not_lt.mpr hle),
    div_eq_ok htoken.decimalMultiplier_pos, ok_bind, cast_eq_ok (by omega), ok_bind,
    popBack_window, ok_bind]
  dsimp only
  rw [add_eq_ok (by omega), ok_bind, add_eq_ok (by omega), ok_bind]
  -- the new buckets are the window of the log with the transfer in its last hour
  generalize token.notionalValue * amount / token.decimalMultiplier = x
  have h23 : hour - 23 + 23 = hour := by omega
  have hw := window_append_last log route (hour - 23) x
  have hsum := sum_window_append_last log route (hour - 23) x
  rw [h23] at hw hsum
  rw [h23, windowRecord, hsum, hw]
  rfl

/-- **A transfer from a tracked limiter**, at an hour from 24 on and not
before its clock, does what `transferSpec` says; when it returns, the
limiter tracks the log with the transfer added if it was accepted, the
route's record ends at the current hour, and an accepted transfer leaves the
route's total within its limit. -/
theorem checkAndRecordSendingTransfer_spec (route : BridgeRoute) (hs : Tracks s clock log) (htoken : token.Valid)
    (hamount : amount < 2 ^ 64) (hclock : clock ≤ currentHourSinceEpoch timestampMs)
    (h24 : 24 ≤ currentHourSinceEpoch timestampMs) :
    Prod.fst <$> checkAndRecordSendingTransfer s token timestampMs route amount =
        transferSpec s.transferLimits log token (currentHourSinceEpoch timestampMs) route amount ∧
      ∀ accepted s', checkAndRecordSendingTransfer s token timestampMs route amount =
          .ok (accepted, s') →
        Tracks s' (currentHourSinceEpoch timestampMs) (if accepted then log ++
          [⟨route, currentHourSinceEpoch timestampMs,
            token.notionalValue * amount / token.decimalMultiplier⟩] else log) ∧
        (s'.transferRecords route).map TransferRecord.hourHead =
          some (currentHourSinceEpoch timestampMs) ∧
        (accepted = true → ∀ limit r, s.transferLimits route = some limit →
          s'.transferRecords route = some r → r.totalAmount ≤ limit) := by
  have h23 : 23 ≤ currentHourSinceEpoch timestampMs := by omega
  have hhour : ∀ t ∈ log, t.route = route → t.hour ≤ clock := hs.hour_le
  cases hlimit : s.transferLimits route with
  | none =>
    rw [checkAndRecordSendingTransfer_of_none hs hclock h24 hlimit, transferSpec, hlimit]
    exact ⟨rfl, fun _ _ h => nomatch h⟩
  | some limit =>
    by_cases hfit : scaledRequest log route (currentHourSinceEpoch timestampMs) token amount < 2 ^ 128
    · by_cases hle : scaledRequest log route (currentHourSinceEpoch timestampMs) token amount ≤
          limit * token.decimalMultiplier
      · -- accepted: the transfer joins the log at the current hour
        have hbound := add_div_le_of_scaled_le htoken.decimalMultiplier_pos hle
        have hsum := sum_window_append_last log route (currentHourSinceEpoch timestampMs - 23)
          (token.notionalValue * amount / token.decimalMultiplier)
        rw [Nat.sub_add_cancel h23] at hsum
        rw [checkAndRecordSendingTransfer_of_le hs htoken hamount hclock h24 hlimit hle,
          transferSpec_of_some hlimit, if_pos hfit, decide_eq_true hle]
        refine ⟨rfl, ?_⟩
        rintro accepted s' ⟨⟩
        refine ⟨?_, by simp [windowRecord], fun _ limit' r hlimit' hr => ?_⟩
        · refine hs.update hclock (fun t ht => by rw [List.mem_singleton] at ht; rw [ht])
            (windowRecord_matches h23 (fun t ht hroute => ?_) ?_) le_rfl
          · rcases List.mem_append.mp ht with hlog | hnew
            · exact (hhour t hlog hroute).trans hclock
            · rw [List.mem_singleton] at hnew
              rw [hnew]
          · have := hs.limit_lt route limit hlimit
            omega
        · rw [Option.some.injEq] at hlimit'
          dsimp only at hr
          rw [Function.update_self, Option.some.injEq] at hr
          rw [← hr, ← hlimit', windowRecord]
          dsimp only
          omega
      · -- refused: the slid record is kept
        rw [checkAndRecordSendingTransfer_of_gt hs htoken hamount hclock h24 hlimit hfit
          (Nat.lt_of_not_le hle), transferSpec_of_some hlimit, if_pos hfit, decide_eq_false hle]
        refine ⟨rfl, ?_⟩
        rintro accepted s' ⟨⟩
        refine ⟨?_, by simp [windowRecord], fun h => nomatch h⟩
        have hupdate := hs.update hclock (l := []) (fun t ht => nomatch ht)
          (R := windowRecord log route (currentHourSinceEpoch timestampMs))
          (by rw [List.append_nil]
              exact windowRecord_matches h23 (fun t ht hroute => (hhour t ht hroute).trans hclock)
                (hs.sum_window_lt hclock)) le_rfl
        rw [List.append_nil] at hupdate
        exact hupdate
    · rw [checkAndRecordSendingTransfer_of_overflow hs htoken hamount hclock h24 hlimit
        (Nat.le_of_not_lt hfit), transferSpec_of_some hlimit, if_neg hfit]
      exact ⟨rfl, fun _ _ h => nomatch h⟩

end Transfer

theorem tracks_updateRouteLimit {s : TransferLimiter} {clock : ℕ} {log : List Transfer}
    (hs : Tracks s clock log) (route : BridgeRoute) {newUsdLimit : ℕ} (hnew : newUsdLimit < 2 ^ 64) :
    Tracks (updateRouteLimit s route newUsdLimit) clock log where
  record_matches := hs.record_matches
  head_le := hs.head_le
  fresh := hs.fresh
  limit_lt route' limit h := by
    rw [updateRouteLimit] at h
    dsimp only at h
    by_cases hroute : route' = route
    · subst hroute
      rw [Function.update_self, Option.some.injEq] at h
      exact h ▸ hnew
    · rw [Function.update_of_ne hroute] at h
      exact hs.limit_lt route' limit h

/-- A limiter whose routes have `u64` limits and no record yet tracks the
empty log. -/
theorem tracks_init {limits : BridgeRoute → Option ℕ}
    (hlimits : ∀ route limit, limits route = some limit → limit < 2 ^ 64) :
    Tracks ⟨limits, fun _ => none⟩ 0 [] where
  record_matches _ _ h := nomatch h
  head_le _ _ h := nomatch h
  fresh _ _ _ ht := nomatch ht
  limit_lt := hlimits

/-! ## Runs of calls -/

/-- A call to the limiter: a transfer of a token on a route at a time, or a
new limit for a route. -/
inductive Call
  | checkAndRecordSendingTransfer (token : TokenMetadata) (timestampMs : ℕ) (route : BridgeRoute)
      (amount : ℕ)
  | updateRouteLimit (route : BridgeRoute) (newUsdLimit : ℕ)

/-- One call as a transaction of its own, with the log of accepted transfers
beside the limiter: a call that aborts changes nothing, and an accepted
transfer is logged at its hour with its notional amount. -/
def step (state : TransferLimiter × List Transfer) : Call → TransferLimiter × List Transfer
  | .checkAndRecordSendingTransfer token timestampMs route amount =>
    match checkAndRecordSendingTransfer state.1 token timestampMs route amount with
    | .ok (true, s') => (s', state.2 ++ [⟨route, currentHourSinceEpoch timestampMs,
        token.notionalValue * amount / token.decimalMultiplier⟩])
    | .ok (false, s') => (s', state.2)
    | .error _ => state
  | .updateRouteLimit route newUsdLimit => (updateRouteLimit state.1 route newUsdLimit, state.2)

/-- A run of calls. -/
def run (state : TransferLimiter × List Transfer) (calls : List Call) :
    TransferLimiter × List Transfer :=
  calls.foldl step state

/-- The calls pass values of their Move types, and the clock, read by the
transfers only, does not go back and is past hour 23 at every transfer. -/
def Admissible : ℕ → List Call → Prop
  | _, [] => True
  | clock, .checkAndRecordSendingTransfer token timestampMs _ amount :: calls =>
    token.Valid ∧ amount < 2 ^ 64 ∧ clock ≤ currentHourSinceEpoch timestampMs ∧
      24 ≤ currentHourSinceEpoch timestampMs ∧ Admissible (currentHourSinceEpoch timestampMs) calls
  | clock, .updateRouteLimit _ newUsdLimit :: calls => newUsdLimit < 2 ^ 64 ∧ Admissible clock calls

/-- One admissible call keeps the limiter tracking its log, up to the call's
hour. -/
theorem tracks_step {state : TransferLimiter × List Transfer} {clock : ℕ}
    (hs : Tracks state.1 clock state.2) (token : TokenMetadata) (timestampMs : ℕ)
    (route : BridgeRoute) (amount : ℕ) (htoken : token.Valid) (hamount : amount < 2 ^ 64)
    (hclock : clock ≤ currentHourSinceEpoch timestampMs)
    (h24 : 24 ≤ currentHourSinceEpoch timestampMs) :
    Tracks (step state (.checkAndRecordSendingTransfer token timestampMs route amount)).1
      (currentHourSinceEpoch timestampMs)
      (step state (.checkAndRecordSendingTransfer token timestampMs route amount)).2 := by
  have hspec := (checkAndRecordSendingTransfer_spec route hs htoken hamount hclock h24).2
  rw [step]
  split
  · next s' heq => exact (hspec true s' heq).1
  · next s' heq => exact (hspec false s' heq).1
  · exact hs.mono hclock

/-- **Every admissible run keeps the limiter tracking the log of the
transfers it accepted**, at a clock from which the calls that follow the run
stay admissible. The induction is on the calls, with the clock of the last
transfer. -/
theorem run_tracks :
    ∀ (calls more : List Call) (state : TransferLimiter × List Transfer) (clock : ℕ),
      Tracks state.1 clock state.2 → Admissible clock (calls ++ more) →
      ∃ clock', Tracks (run state calls).1 clock' (run state calls).2 ∧ Admissible clock' more
  | [], _, _, clock, hs, hmore => ⟨clock, hs, hmore⟩
  | .checkAndRecordSendingTransfer token timestampMs route amount :: calls, more, _, _, hs,
      ⟨htoken, hamount, hclock, h24, hrest⟩ =>
    run_tracks calls more _ _
      (tracks_step hs token timestampMs route amount htoken hamount hclock h24) hrest
  | .updateRouteLimit route _ :: calls, more, _, _, hs, ⟨hnew, hrest⟩ =>
    run_tracks calls more _ _ (tracks_updateRouteLimit hs route hnew) hrest

/-- **The limiter keeps a rolling 24-hour cap per route.** After every
admissible run from limiters with `u64` limits and no records, the limiter
tracks the log of the transfers it accepted, and every record has 24 buckets
from its tail to its head, the i-th holding the notional amounts accepted on
its route during hour `hour_tail + i`, and their sum as its total. The next
transfer of the run, at an hour from 24 on and not before the run's last
transfer, does what `transferSpec` says (it aborts only without a limit for
the route or when the scaled request overflows `u128`, and otherwise returns
whether the scaled request is within the scaled limit), its route's record
then ends at that hour, and an accepted transfer leaves the route's total
within its limit. -/
theorem limiter_enforces_rolling_cap :
    ∀ (limits : BridgeRoute → Option ℕ) (calls : List Call),
      (∀ route limit, limits route = some limit → limit < 2 ^ 64) → Admissible 0 calls →
      let state := run (⟨limits, fun _ => none⟩, []) calls
      (∃ clock, Tracks state.1 clock state.2) ∧
      (∀ route r, state.1.transferRecords route = some r →
          r.hourTail + 23 = r.hourHead ∧ r.perHourAmounts.length = 24 ∧
          r.totalAmount = r.perHourAmounts.sum ∧
          ∀ i < 24, r.perHourAmounts.getD i 0 = hourTotal state.2 route (r.hourTail + i)) ∧
      ∀ (token : TokenMetadata) (timestampMs : ℕ) (route : BridgeRoute) (amount : ℕ),
        Admissible 0 (calls ++ [.checkAndRecordSendingTransfer token timestampMs route amount]) →
        Prod.fst <$> checkAndRecordSendingTransfer state.1 token timestampMs route amount =
            transferSpec state.1.transferLimits state.2 token (currentHourSinceEpoch timestampMs)
              route amount ∧
          ∀ accepted s', checkAndRecordSendingTransfer state.1 token timestampMs route amount =
              .ok (accepted, s') →
            (s'.transferRecords route).map TransferRecord.hourHead =
              some (currentHourSinceEpoch timestampMs) ∧
            (accepted = true → ∀ limit r, state.1.transferLimits route = some limit →
              s'.transferRecords route = some r → r.totalAmount ≤ limit) := by
  intro limits calls hlimits hcalls state
  -- the run from the empty records, with what may follow it
  have htracks : ∀ more, Admissible 0 (calls ++ more) →
      ∃ clock, Tracks state.1 clock state.2 ∧ Admissible clock more := fun more hmore =>
    run_tracks calls more _ 0 (tracks_init hlimits) hmore
  obtain ⟨clock, hs, -⟩ := htracks [] (by rwa [List.append_nil])
  refine ⟨⟨clock, hs⟩, fun route r hr => (hs.record_matches route r hr).spec, ?_⟩
  -- the next transfer is admissible from the clock the run leaves
  intro token timestampMs route amount hnext
  obtain ⟨clock', hs', htoken, hamount, hclock, h24, -⟩ := htracks _ hnext
  obtain ⟨hspec, hstate⟩ := checkAndRecordSendingTransfer_spec route hs' htoken hamount hclock h24
  exact ⟨hspec, fun accepted s' h => (hstate accepted s' h).2⟩

/-- A route with limit 100 that took 60 at hour 24 refuses 50 more at hour 25. -/
theorem limiter_enforces_rolling_cap_two :
    Prod.fst <$> checkAndRecordSendingTransfer
        (run (⟨fun _ => some 100, fun _ => none⟩, [])
          [.checkAndRecordSendingTransfer ⟨1, 1⟩ (24 * 3600000) ⟨11, 2⟩ 60]).1
        ⟨1, 1⟩ (25 * 3600000) ⟨11, 2⟩ 50 = .ok false := by
  have hvalid : TokenMetadata.Valid ⟨1, 1⟩ := ⟨by decide, by decide, by decide⟩
  have hlimits : ∀ (route : BridgeRoute) limit, (fun _ => some 100) route = some limit →
      limit < 2 ^ 64 := fun _ _ h => by rw [← Option.some.inj h]; decide
  have hcap := (limiter_enforces_rolling_cap (fun _ => some 100)
    [.checkAndRecordSendingTransfer ⟨1, 1⟩ (24 * 3600000) ⟨11, 2⟩ 60] hlimits
    ⟨hvalid, by decide, Nat.zero_le _, by decide, trivial⟩).2.2 ⟨1, 1⟩ (25 * 3600000) ⟨11, 2⟩ 50
    ⟨hvalid, by decide, Nat.zero_le _, by decide, hvalid, by decide, by decide, by decide, trivial⟩
  rw [hcap.1]
  decide

/-- Outside the hours and the values the cap is proved for: a route first
used at hour 23 gets 23 buckets for the 24 hours from its tail to its head,
and a transfer whose scaled request passes `2 ^ 128` aborts, here on a route
whose first transfer filled its `u64` limit. -/
theorem transferRecord_short_and_request_overflow :
    (∃ s', checkAndRecordSendingTransfer ⟨fun _ => some 0, fun _ => none⟩ ⟨1, 1⟩ (23 * 3600000)
        ⟨11, 2⟩ 0 = .ok (true, s') ∧
      s'.transferRecords ⟨11, 2⟩ = some ⟨23, 0, List.replicate 23 0, 0⟩) ∧
    (∃ s₁, checkAndRecordSendingTransfer ⟨fun _ => some (2 ^ 64 - 1), fun _ => none⟩
        ⟨1, 2 ^ 64 - 1⟩ (24 * 3600000) ⟨11, 2⟩ 1 = .ok (true, s₁) ∧
      checkAndRecordSendingTransfer s₁ ⟨10, 2 ^ 64 - 1⟩ (24 * 3600000) ⟨11, 2⟩ (2 ^ 64 - 1) =
        .error .arithmeticError) := by
  refine ⟨⟨_, rfl, rfl⟩, ?_⟩
  have hs₀ : Tracks ⟨fun _ => some (2 ^ 64 - 1), fun _ => none⟩ 0 [] :=
    tracks_init fun _ _ h => by rw [← Option.some.inj h]; omega
  have hhour : currentHourSinceEpoch (24 * 3600000) = 24 := rfl
  have hempty : (window [] ⟨11, 2⟩ 1).sum = 0 := by
    rw [window_eq_replicate (fun _ ht _ => absurd ht List.not_mem_nil), List.sum_replicate,
      smul_zero]
  -- the first transfer is the limit itself
  have hle : scaledRequest [] ⟨11, 2⟩ (currentHourSinceEpoch (24 * 3600000)) ⟨1, 2 ^ 64 - 1⟩ 1 ≤
      (2 ^ 64 - 1) * 1 := by
    rw [scaledRequest, hhour, show 24 - 23 = 1 from rfl, hempty]
    dsimp only
    omega
  have hvalid : TokenMetadata.Valid ⟨1, 2 ^ 64 - 1⟩ := ⟨by decide, by decide, by decide⟩
  have hfirst := checkAndRecordSendingTransfer_of_le hs₀ hvalid (by decide) (Nat.zero_le _)
    (by rw [hhour]) rfl hle
  refine ⟨_, hfirst, ?_⟩
  have hs₁ := ((checkAndRecordSendingTransfer_spec _ hs₀ hvalid (by decide) (Nat.zero_le _)
    (by rw [hhour])).2 true _ hfirst).1
  rw [if_pos rfl] at hs₁
  -- the second one scales the filled window by ten and adds a square near 2 ^ 128
  have hsum := sum_window_append_last [] ⟨11, 2⟩ 1 (2 ^ 64 - 1)
  rw [hempty, show 1 + 23 = 24 from rfl] at hsum
  refine checkAndRecordSendingTransfer_of_overflow hs₁ ⟨by decide, by decide, by decide⟩
    (by decide) le_rfl (by rw [hhour]) rfl ?_
  rw [scaledRequest, hhour, show 24 - 23 = 1 from rfl]
  dsimp only
  rw [Nat.mul_one, Nat.div_one, hsum]
  norm_num

end Limiter

end Bridge

end Sui
