import Mathlib.Data.List.Nodup

/-!
# Lists of entries with distinct keys

A list of key-value entries in which no key occurs twice stands for a partial
map: an entry is in the list exactly when the map sends its key to its value
(`eq_of_mem_of_mem`, `find?_eq_some_iff`). An entry splits such a list into
the entries before and after it, neither of which has its key
(`not_mem_of_eq_append`), so a search for the key from the front stops at the
entry's position (`findIdx?_eq_length`), and deleting it or changing its
value there leaves the entries around it (`eraseIdx_append_length`,
`modify_append_length`) and the keys distinct (`map_fst_eraseIdx`,
`map_fst_modify`).
-/

namespace AssocList

variable {α β : Type} {l : List (α × β)}

/-- Two entries of one key hold one value. -/
theorem eq_of_mem_of_mem (hnd : (l.map Prod.fst).Nodup) {k : α} {v v' : β}
    (h : (k, v) ∈ l) (h' : (k, v') ∈ l) : v = v' := by
  have := List.inj_on_of_nodup_map hnd h h' rfl
  cases this
  rfl

/-- The key of an entry occurs on neither side of it. -/
theorem not_mem_of_eq_append (hnd : (l.map Prod.fst).Nodup) {A B : List (α × β)} {k : α} {v : β}
    (h : l = A ++ (k, v) :: B) : k ∉ A.map Prod.fst ∧ k ∉ B.map Prod.fst := by
  subst h
  rw [List.map_append, List.map_cons, List.nodup_append, List.nodup_cons] at hnd
  obtain ⟨-, ⟨hB, -⟩, hdisj⟩ := hnd
  exact ⟨fun hA => hdisj k hA k List.mem_cons_self rfl, hB⟩

/-- The position of the first entry of a key that no earlier entry has. -/
theorem findIdx?_eq_length [BEq α] [LawfulBEq α] {A B : List (α × β)} {k : α} {v : β}
    (hk : k ∉ A.map Prod.fst) : (A ++ (k, v) :: B).findIdx? (·.1 == k) = some A.length := by
  have hA : A.findIdx? (·.1 == k) = none := by
    rw [List.findIdx?_eq_none_iff]
    intro e he
    simpa using fun hkey => hk (List.mem_map.mpr ⟨e, he, hkey⟩)
  rw [List.findIdx?_append, hA, List.findIdx?_cons]
  simp

theorem eraseIdx_append_length {γ : Type} (A B : List γ) (x : γ) :
    (A ++ x :: B).eraseIdx A.length = A ++ B := by
  simp [List.eraseIdx_append_of_length_le]

theorem modify_append_length {γ : Type} (A B : List γ) (x : γ) (g : γ → γ) :
    (A ++ x :: B).modify A.length g = A ++ g x :: B := by
  induction A with
  | nil => simp
  | cons a A ih => simp [ih]

theorem map_fst_eraseIdx (l : List (α × β)) (i : ℕ) :
    (l.eraseIdx i).map Prod.fst = (l.map Prod.fst).eraseIdx i := by
  rw [List.eraseIdx_eq_take_drop_succ, List.eraseIdx_eq_take_drop_succ, List.map_append,
    List.map_take, List.map_drop]

theorem map_fst_modify (l : List (α × β)) (i : ℕ) {g : α × β → α × β}
    (hg : ∀ e, (g e).1 = e.1) : (l.modify i g).map Prod.fst = l.map Prod.fst := by
  induction l generalizing i with
  | nil => simp
  | cons e l ih =>
    cases i with
    | zero => simp [hg]
    | succ i => simp [ih]

variable [DecidableEq α]

/-- The first entry of a key is its only one. -/
theorem find?_eq_some_iff (hnd : (l.map Prod.fst).Nodup) {k : α} {v : β} :
    (l.find? (·.1 == k)).map Prod.snd = some v ↔ (k, v) ∈ l := by
  constructor
  · intro h
    obtain ⟨e, he, rfl⟩ := Option.map_eq_some_iff.mp h
    have hkey : e.1 = k := by simpa using (List.find?_some he)
    have hmem := List.mem_of_find?_eq_some he
    obtain ⟨k', v'⟩ := e
    cases hkey
    exact hmem
  · intro h
    obtain ⟨e, he⟩ : ∃ e, l.find? (·.1 == k) = some e :=
      Option.isSome_iff_exists.mp (List.find?_isSome.mpr ⟨(k, v), h, by simp⟩)
    have hkey : e.1 = k := by simpa using (List.find?_some he)
    have hmem := List.mem_of_find?_eq_some he
    obtain ⟨k', v'⟩ := e
    cases hkey
    rw [he, Option.map_some, eq_of_mem_of_mem hnd hmem h]

theorem find?_eq_none_iff {k : α} : (l.find? (·.1 == k)).map Prod.snd = none ↔ k ∉ l.map Prod.fst := by
  rw [Option.map_eq_none_iff, List.find?_eq_none, List.mem_map]
  constructor
  · rintro h ⟨⟨k', v⟩, hmem, rfl⟩
    simpa using h _ hmem
  · intro h e he hkey
    exact h ⟨e, he, by simpa using hkey⟩

end AssocList
