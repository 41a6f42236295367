import Mathlib.Data.List.Nodup

/-!
# Doubly linked lists of keys

A doubly linked list whose nodes are found by their keys stores, at each key,
the key after it and the key before it. For a list `l` of distinct keys these
are `nextOf l k` and `prevOf l k`, and a list can be read back from such links
by walking from its first key (`walk`).

* **`nextOf_insert`**, **`prevOf_insert`** — putting `k` between `l₁` and `r`
  links it to the last key of `l₁` and the first of `r`, relinks those two to
  `k`, and changes no other link. Every insertion and removal of a linked list
  is a case of these (a removal read backwards).
* **`nextOf_eq_some_iff_prevOf`** — the links back mirror the links forward.
* **`putBefore_append`**, **`putAfter_append`** — putting a key next to an
  anchor is an insertion between the keys around the anchor.
* **`walk_nextOf`** — walking the links forward from the first key reads the
  whole list.
* **`eq_nextOf_of_walk`** — conversely, links that a walk reads as a list of
  distinct keys, the last without a successor, are that list's links.
-/

namespace LinkedKeys

variable {K : Type*} [DecidableEq K]

/-- The key after the first occurrence of `k` in `l`. -/
def nextOf : List K → K → Option K
  | [], _ => none
  | a :: l, k => if a = k then l.head? else nextOf l k

/-- The key before `k` in `l`: the key after it in the reversed list. -/
def prevOf (l : List K) (k : K) : Option K := nextOf l.reverse k

@[simp] theorem nextOf_nil (k : K) : nextOf [] k = none := rfl

theorem nextOf_cons (a : K) (l : List K) (k : K) :
    nextOf (a :: l) k = if a = k then l.head? else nextOf l k := rfl

theorem nextOf_of_not_mem {l : List K} {k : K} (h : k ∉ l) : nextOf l k = none := by
  induction l with
  | nil => rfl
  | cons a l ih =>
    rw [List.mem_cons, not_or] at h
    rw [nextOf_cons, if_neg (Ne.symm h.1), ih h.2]

theorem prevOf_of_not_mem {l : List K} {k : K} (h : k ∉ l) : prevOf l k = none :=
  nextOf_of_not_mem (by rwa [List.mem_reverse])

omit [DecidableEq K] in
/-- The last key of `a :: l` is the last key of `l`, unless `l` is empty. -/
theorem getLast?_cons_eq_some_of_ne {a j : K} {l : List K} (h : a ≠ j) :
    (a :: l).getLast? = some j ↔ l.getLast? = some j := by
  cases l with
  | nil => simp [h]
  | cons b l => simp

theorem nextOf_insert {l₁ r : List K} {k : K} (hnd : (l₁ ++ k :: r).Nodup) (j : K) :
    nextOf (l₁ ++ k :: r) j =
      if j = k then r.head? else if l₁.getLast? = some j then some k else nextOf (l₁ ++ r) j := by
  induction l₁ with
  | nil =>
    by_cases hjk : j = k
    · simp [nextOf_cons, hjk]
    · simp [nextOf_cons, hjk, Ne.symm hjk]
  | cons a l₁ ih =>
    rw [List.cons_append, List.nodup_cons] at hnd
    rw [List.cons_append, nextOf_cons, ih hnd.2, List.cons_append, nextOf_cons]
    by_cases haj : a = j
    · -- `j` is the first key: it is not `k`, and it is the last key before `k` only alone
      subst haj
      have hak : a ≠ k := fun h => hnd.1 (by simp [h])
      rw [if_pos rfl, if_neg hak, if_pos rfl]
      cases l₁ with
      | nil => simp
      | cons b l₁ =>
        have hlast : (b :: l₁).getLast? ≠ some a := fun h =>
          hnd.1 (List.mem_append_left _ (List.mem_of_getLast? h))
        rw [List.getLast?_cons_cons, if_neg hlast]
        rfl
    · simp only [getLast?_cons_eq_some_of_ne haj, if_neg haj]

theorem prevOf_insert {l₁ r : List K} {k : K} (hnd : (l₁ ++ k :: r).Nodup) (j : K) :
    prevOf (l₁ ++ k :: r) j =
      if j = k then l₁.getLast? else if r.head? = some j then some k else prevOf (l₁ ++ r) j := by
  have hrev : (l₁ ++ k :: r).reverse = r.reverse ++ k :: l₁.reverse := by simp
  have hnd' : (r.reverse ++ k :: l₁.reverse).Nodup := by rw [← hrev]; exact List.nodup_reverse.mpr hnd
  rw [prevOf, hrev, nextOf_insert hnd', prevOf, List.reverse_append, List.head?_reverse,
    List.getLast?_reverse]

omit [DecidableEq K] in
/-- In a list of distinct keys the last key of a prefix is not the first key of the rest. -/
theorem getLast?_ne_head? {l₁ r : List K} {j : K} (hnd : (l₁ ++ r).Nodup)
    (h : l₁.getLast? = some j) : r.head? ≠ some j := fun h' =>
  List.disjoint_of_nodup_append hnd (List.mem_of_getLast? h) (List.mem_of_head? h')

/-- After a removal the key before the gap links to the key after it. -/
theorem nextOf_append_of_getLast? {l₁ r : List K} {j : K} (hnd : (l₁ ++ r).Nodup)
    (hj : l₁.getLast? = some j) : nextOf (l₁ ++ r) j = r.head? := by
  induction l₁ with
  | nil => simp at hj
  | cons a l₁ ih =>
    rw [List.cons_append, List.nodup_cons] at hnd
    rw [List.cons_append, nextOf_cons]
    by_cases haj : a = j
    · -- `a` is last and not in `l₁`, so it is alone
      subst haj
      cases l₁ with
      | nil => simp
      | cons b l₁ =>
        rw [List.getLast?_cons_cons] at hj
        exact absurd (List.mem_append_left _ (List.mem_of_getLast? hj)) hnd.1
    · rw [if_neg haj]
      exact ih hnd.2 ((getLast?_cons_eq_some_of_ne haj).mp hj)

/-- After a removal the key after the gap links back to the key before it. -/
theorem prevOf_append_of_head? {l₁ r : List K} {j : K} (hnd : (l₁ ++ r).Nodup)
    (hj : r.head? = some j) : prevOf (l₁ ++ r) j = l₁.getLast? := by
  have hnd' : (r.reverse ++ l₁.reverse).Nodup := by
    rwa [← List.reverse_append, List.nodup_reverse]
  rw [prevOf, List.reverse_append, nextOf_append_of_getLast? hnd' (by rwa [List.getLast?_reverse]),
    List.head?_reverse]

/-- The first key has no key before it. -/
theorem prevOf_of_head? {l : List K} {a : K} (hnd : l.Nodup) (h : l.head? = some a) :
    prevOf l a = none := by
  obtain ⟨r, rfl⟩ : ∃ r, l = a :: r := ⟨l.tail, by cases l <;> simp_all⟩
  have := prevOf_insert (show ([] ++ a :: r).Nodup from hnd) a
  simpa using this

/-- The last key has no key after it. -/
theorem nextOf_of_getLast? {l : List K} {a : K} (hnd : l.Nodup) (h : l.getLast? = some a) :
    nextOf l a = none := by
  have := nextOf_append_of_getLast? (show (l ++ []).Nodup by simpa using hnd) h
  simpa using this

theorem prevOf_of_nextOf {l : List K} {a b : K} (hnd : l.Nodup) (h : nextOf l a = some b) :
    prevOf l b = some a := by
  have ha : a ∈ l := by
    by_contra ha
    rw [nextOf_of_not_mem ha] at h
    cases h
  obtain ⟨l₁, r, rfl⟩ := List.append_of_mem ha
  rw [nextOf_insert hnd, if_pos rfl] at h
  -- the key after `a` is the first key of `r`
  obtain ⟨r, rfl⟩ : ∃ r', r = b :: r' := by
    cases r with
    | nil => cases h
    | cons c r => exact ⟨r, by rw [Option.some_inj.mp h]⟩
  have hba : b ≠ a := by
    intro hba
    subst hba
    simp [List.nodup_append] at hnd
  rw [prevOf_insert hnd, if_neg hba, List.head?_cons, if_pos rfl]

/-- The links back mirror the links forward. -/
theorem nextOf_eq_some_iff_prevOf {l : List K} (hnd : l.Nodup) {a b : K} :
    nextOf l a = some b ↔ prevOf l b = some a := by
  constructor
  · exact prevOf_of_nextOf hnd
  · intro h
    have := prevOf_of_nextOf (List.nodup_reverse.mpr hnd) h
    rwa [prevOf, List.reverse_reverse] at this

/-! ### Insertion next to a key -/

/-- `l` with `k` put just before the first `anchor`. -/
def putBefore (anchor k : K) : List K → List K
  | [] => []
  | a :: l => if a = anchor then k :: a :: l else a :: putBefore anchor k l

/-- `l` with `k` put just after the first `anchor`. -/
def putAfter (anchor k : K) : List K → List K
  | [] => []
  | a :: l => if a = anchor then a :: k :: l else a :: putAfter anchor k l

theorem putBefore_append {l₁ : List K} {anchor : K} (h : anchor ∉ l₁) (k : K) (r : List K) :
    putBefore anchor k (l₁ ++ anchor :: r) = l₁ ++ k :: anchor :: r := by
  induction l₁ with
  | nil => simp [putBefore]
  | cons a l₁ ih =>
    rw [List.mem_cons, not_or] at h
    rw [List.cons_append, putBefore, if_neg (Ne.symm h.1), ih h.2, List.cons_append]

theorem putAfter_append {l₁ : List K} {anchor : K} (h : anchor ∉ l₁) (k : K) (r : List K) :
    putAfter anchor k (l₁ ++ anchor :: r) = l₁ ++ anchor :: k :: r := by
  induction l₁ with
  | nil => simp [putAfter]
  | cons a l₁ ih =>
    rw [List.mem_cons, not_or] at h
    rw [List.cons_append, putAfter, if_neg (Ne.symm h.1), ih h.2, List.cons_append]

/-! ### Walking the links -/

/-- The keys met following `succ` from `start`, at most `n` of them. -/
def walk (succ : K → Option K) : Option K → ℕ → List K
  | _, 0 => []
  | none, _ + 1 => []
  | some k, n + 1 => k :: walk succ (succ k) n

omit [DecidableEq K] in
theorem walk_head? {succ : K → Option K} {s : Option K} {n : ℕ} (hn : 0 < n) :
    (walk succ s n).head? = s := by
  obtain ⟨n, rfl⟩ : ∃ m, n = m + 1 := ⟨n - 1, by omega⟩
  cases s <;> rfl

/-- Walking the links of a list from any key reads the rest of the list. The induction is on
the rest, the keys already read moving to the prefix. -/
theorem walk_nextOf_of_append {l : List K} (hnd : l.Nodup) (s : List K) :
    ∀ p, l = p ++ s → walk (nextOf l) s.head? s.length = s := by
  induction s with
  | nil => intro _ _; rfl
  | cons a s ih =>
    intro p h
    have hnext : nextOf l a = s.head? := by
      subst h
      rw [nextOf_insert hnd, if_pos rfl]
    rw [List.head?_cons, List.length_cons, walk, hnext, ih (p ++ [a]) (by simp [h])]

theorem walk_nextOf {l : List K} (hnd : l.Nodup) : walk (nextOf l) l.head? l.length = l :=
  walk_nextOf_of_append hnd l [] rfl

/-- Links that walk from `s` through `n` distinct keys, the last without a successor, are the
links of the list walked. The induction is on `n`, dropping the first key. -/
theorem eq_nextOf_of_walk {succ : K → Option K} {s : Option K} {n : ℕ}
    (hlen : (walk succ s n).length = n) (hnd : (walk succ s n).Nodup)
    (hlast : ∀ t, (walk succ s n).getLast? = some t → succ t = none) :
    ∀ k ∈ walk succ s n, succ k = nextOf (walk succ s n) k := by
  induction n generalizing s with
  | zero => simp [walk]
  | succ n ih =>
    cases s with
    | none => simp [walk] at hlen
    | some a =>
      simp only [walk] at hlen hnd hlast ⊢
      rw [List.nodup_cons] at hnd
      intro k hk
      rw [nextOf_cons]
      by_cases hak : a = k
      · -- the first key: its successor is the next key walked, or none at the end
        subst hak
        rw [if_pos rfl]
        cases n with
        | zero => exact hlast a rfl
        | succ n => rw [walk_head? (Nat.succ_pos n)]
      · rw [if_neg hak]
        have hk' : k ∈ walk succ (succ a) n := by
          rcases List.mem_cons.mp hk with h | h
          · exact absurd h.symm hak
          · exact h
        refine ih (by simpa using hlen) hnd.2 (fun t ht => hlast t ?_) k hk'
        rw [List.getLast?_cons, ht]
        rfl

end LinkedKeys
