import Mathlib.Data.List.Induction

/-!
# Logs of writes that take effect at the next epoch

A register whose writes are stamped with the epoch they are made in, and
become visible only from the next epoch on. Its history is a log of writes
in non-decreasing epochs; a write is `some a`, or `none` for a removal. A
reader at epoch `e` sees the last write made in an epoch before `e`
(`visibleAt`), and the last write of all is what the next epoch will see
(`latest`).

The facts a two-slot encoding of such a register is checked against: a new
write is not visible in its own epoch (`visibleAt_concat_self`) and is
visible in every later one (`visibleAt_concat_of_lt`), and a reader after
every write's epoch sees the latest write (`visibleAt_eq_latest`).
-/

namespace EpochLog

variable {α : Type}

/-- The value a reader at epoch `e` sees: the last write made in an epoch
before `e`, or `none` before any. -/
def visibleAt (log : List (ℕ × Option α)) (e : ℕ) : Option α :=
  log.foldl (fun value entry => if entry.1 < e then entry.2 else value) none

/-- The last write of all, or `none` before any. -/
def latest (log : List (ℕ × Option α)) : Option α :=
  log.foldl (fun _ entry => entry.2) none

/-- The epoch of the last write, `0` before any. -/
def lastEpoch (log : List (ℕ × Option α)) : ℕ :=
  (log.getLast?.map Prod.fst).getD 0

/-- The writes were made in non-decreasing epochs. -/
def Sorted (log : List (ℕ × Option α)) : Prop :=
  log.Pairwise fun a b => a.1 ≤ b.1

@[simp] theorem visibleAt_nil (e : ℕ) : visibleAt ([] : List (ℕ × Option α)) e = none := rfl

@[simp] theorem latest_nil : latest ([] : List (ℕ × Option α)) = none := rfl

@[simp] theorem lastEpoch_nil : lastEpoch ([] : List (ℕ × Option α)) = 0 := rfl

theorem visibleAt_concat (log : List (ℕ × Option α)) (e' : ℕ) (w : Option α) (e : ℕ) :
    visibleAt (log ++ [(e', w)]) e = if e' < e then w else visibleAt log e := by
  simp [visibleAt, List.foldl_append]

@[simp] theorem latest_concat (log : List (ℕ × Option α)) (e : ℕ) (w : Option α) :
    latest (log ++ [(e, w)]) = w := by
  simp [latest, List.foldl_append]

@[simp] theorem lastEpoch_concat (log : List (ℕ × Option α)) (e : ℕ) (w : Option α) :
    lastEpoch (log ++ [(e, w)]) = e := by
  simp [lastEpoch]

/-- A write is not visible in its own epoch. -/
@[simp] theorem visibleAt_concat_self (log : List (ℕ × Option α)) (e : ℕ) (w : Option α) :
    visibleAt (log ++ [(e, w)]) e = visibleAt log e := by
  simp [visibleAt_concat]

/-- A write is visible in every later epoch. -/
theorem visibleAt_concat_of_lt (log : List (ℕ × Option α)) {e e' : ℕ} (w : Option α)
    (h : e' < e) : visibleAt (log ++ [(e', w)]) e = w := by
  simp [visibleAt_concat, h]

/-- In a sorted log every write is at most the last epoch. -/
theorem le_lastEpoch {log : List (ℕ × Option α)} (hs : Sorted log) :
    ∀ entry ∈ log, entry.1 ≤ lastEpoch log := by
  induction log using List.reverseRecOn with
  | nil => simp
  | append_singleton log last _ =>
    intro entry hentry
    rw [lastEpoch_concat]
    rcases List.mem_append.mp hentry with h | h
    · exact (List.pairwise_append.mp hs).2.2 entry h last (List.mem_singleton_self _)
    · exact Nat.le_of_eq (congrArg Prod.fst (List.mem_singleton.mp h))

/-- A reader after the epoch of every write sees the latest one. -/
theorem visibleAt_eq_latest {log : List (ℕ × Option α)} (hs : Sorted log) {e : ℕ}
    (he : lastEpoch log < e) : visibleAt log e = latest log := by
  -- every step of the fold takes the write it reads
  have hall : ∀ entry ∈ log, entry.1 < e := fun entry hentry =>
    Nat.lt_of_le_of_lt (le_lastEpoch hs entry hentry) he
  unfold visibleAt latest
  clear hs he
  induction log using List.reverseRecOn with
  | nil => rfl
  | append_singleton log last ih =>
    rw [List.foldl_append, List.foldl_append, ih fun entry h => hall entry (by simp [h])]
    simp [hall last (by simp)]

/-- A reader at an epoch not before the last write's sees the latest write
after it, and during it what was in force before it. -/
theorem visibleAt_of_lastEpoch_le {log : List (ℕ × Option α)} (hs : Sorted log) {e : ℕ}
    (he : lastEpoch log ≤ e) :
    visibleAt log e = if lastEpoch log < e then latest log else visibleAt log (lastEpoch log) := by
  split_ifs with hlt
  · exact visibleAt_eq_latest hs hlt
  · rw [Nat.le_antisymm he (Nat.not_lt.mp hlt)]

/-- A write in an epoch not before the last keeps the log sorted. -/
theorem Sorted.concat {log : List (ℕ × Option α)} (hs : Sorted log) {e : ℕ}
    (he : lastEpoch log ≤ e) (w : Option α) : Sorted (log ++ [(e, w)]) := by
  refine List.pairwise_append.mpr ⟨hs, List.pairwise_singleton _ _, fun entry hentry x hx => ?_⟩
  rw [List.mem_singleton.mp hx]
  exact Nat.le_trans (le_lastEpoch hs entry hentry) he

end EpochLog
