import Mathlib.Data.List.Basic

/-!
# Partial list traversals

Code that may fail on any element — a lookup that panics, a check that
asserts — is modelled in the `Option` monad, and its loops over lists become
`List.mapM` and `List.filterM` there. This file gives the facts such loops
are reasoned with:

* a traversal whose steps all succeed succeeds (`mapM_isSome`), returns the
  images of the elements (`mem_of_mapM_eq_some`, `mapM_eq_ok_map`,
  `mapM_eq_some_map`), one that succeeds succeeded at every element
  (`isSome_of_mapM_eq_some`), and a
  filter by a predicate that never fails is the total filter
  (`filterM_eq_some_filter`);
* a traversal only looks at the list's elements (`mapM_congr`,
  `findSomeM?_congr`), and one in `Except` that fails, fails at one of them
  (`exists_of_mapM_eq_error`); a loop of checks passes when each check does
  (`forM_eq_ok`);
* a search with `List.findSomeM?` succeeds when its steps do, and what it
  finds comes from one step (`findSomeM?_isSome`,
  `exists_of_findSomeM?_eq_some`);
* a filter that keeps one element of a list without duplicates returns just
  it (`filter_eq_singleton`), which is how "at most one candidate" checks
  are discharged; in a list ordered by a relation, every element is related
  to the last (`rel_getLast_of_pairwise`);
* a fold in `Except` keeps an invariant and a relation to its start that
  each step keeps (`foldlM_invariant`), and one that fails, fails at a step
  from a state keeping the invariant (`foldlM_eq_error`);
* two folds whose steps agree up to a relation agree (`foldlM_agree`): the
  simulation of one run by another, with an error the same on both sides.
-/

namespace OptionList

variable {α β : Type}

/-- A traversal in `Except` that fails, fails at one of the list's elements. -/
theorem exists_of_mapM_eq_error {ε : Type} {f : α → Except ε β} :
    ∀ {l : List α} {e : ε}, l.mapM f = .error e → ∃ a ∈ l, f a = .error e
  | [], e, h => by cases h
  | a :: l, e, h => by
    rw [List.mapM_cons] at h
    simp only [bind, Except.bind] at h
    split at h
    · rename_i e' hf
      cases h
      exact ⟨a, List.mem_cons_self, hf⟩
    · split at h
      · rename_i e' hl
        cases h
        obtain ⟨a', ha', hf⟩ := exists_of_mapM_eq_error hl
        exact ⟨a', List.mem_cons_of_mem _ ha', hf⟩
      · cases h

/-- A loop of checks in `Except` passes exactly when every check does. -/
theorem forM_eq_ok {ε : Type} {f : α → Except ε PUnit} :
    ∀ {l : List α}, l.forM f = .ok ⟨⟩ ↔ ∀ a ∈ l, f a = .ok ⟨⟩
  | [] => by simp [List.forM, pure, Except.pure]
  | a :: l => by
    rw [List.forM, List.forall_mem_cons, ← forM_eq_ok]
    cases f a <;> simp [bind, Except.bind]

/-- A traversal in `Except` whose steps all succeed returns the images. -/
theorem mapM_eq_ok_map {ε : Type} {f : α → Except ε β} {g : α → β} :
    ∀ {l : List α}, (∀ a ∈ l, f a = .ok (g a)) → l.mapM f = .ok (l.map g)
  | [], _ => rfl
  | a :: l, h => by
    rw [List.mapM_cons, h a List.mem_cons_self,
      mapM_eq_ok_map fun a' ha' => h a' (List.mem_cons_of_mem _ ha')]
    rfl

/-- A traversal in `Option` whose steps all succeed returns the images. -/
theorem mapM_eq_some_map {f : α → Option β} {g : α → β} :
    ∀ {l : List α}, (∀ a ∈ l, f a = some (g a)) → l.mapM f = some (l.map g)
  | [], _ => rfl
  | a :: l, h => by
    rw [List.mapM_cons, h a List.mem_cons_self,
      mapM_eq_some_map fun a' ha' => h a' (List.mem_cons_of_mem _ ha')]
    rfl

/-- A successful traversal of the empty list returns the empty list. -/
theorem eq_nil_of_mapM_nil_eq_some {f : α → Option β} {L : List β}
    (h : ([] : List α).mapM f = some L) : L = [] := by
  simp only [List.mapM_nil, Option.pure_def, Option.some.injEq] at h
  exact h.symm

/-- A successful traversal of `a :: l` succeeded at `a` and then on `l`. -/
theorem exists_of_mapM_cons_eq_some {f : α → Option β} {a : α} {l : List α} {L : List β}
    (h : (a :: l).mapM f = some L) : ∃ b L', f a = some b ∧ l.mapM f = some L' ∧ L = b :: L' := by
  rw [List.mapM_cons] at h
  simp only [Option.bind_eq_bind, Option.bind_eq_some_iff, Option.pure_def,
    Option.some.injEq] at h
  obtain ⟨b, hb, L', hL', rfl⟩ := h
  exact ⟨b, L', hb, hL', rfl⟩

/-- A traversal in `Option` that succeeds succeeded at every element. -/
theorem isSome_of_mapM_eq_some {f : α → Option β} :
    ∀ {l : List α} {L : List β}, l.mapM f = some L → ∀ a ∈ l, (f a).isSome
  | [], _, _, _, ha => by cases ha
  | a :: l, L, h, x, hx => by
    obtain ⟨b, L', hb, hL', -⟩ := exists_of_mapM_cons_eq_some h
    rcases List.mem_cons.mp hx with rfl | hx
    · rw [hb]
      rfl
    · exact isSome_of_mapM_eq_some hL' x hx

/-- What a successful traversal returns are the images of the list's elements. -/
theorem mem_of_mapM_eq_some {f : α → Option β} :
    ∀ {l : List α} {L : List β}, l.mapM f = some L → ∀ b, b ∈ L ↔ ∃ a ∈ l, f a = some b
  | [], L, h, b => by
    rw [eq_nil_of_mapM_nil_eq_some h]
    simp
  | a :: l, L, h, b => by
    obtain ⟨c, L', hc, hL', rfl⟩ := exists_of_mapM_cons_eq_some h
    rw [List.mem_cons, mem_of_mapM_eq_some hL' b]
    constructor
    · rintro (rfl | ⟨x, hx, hfx⟩)
      · exact ⟨a, List.mem_cons_self, hc⟩
      · exact ⟨x, List.mem_cons_of_mem _ hx, hfx⟩
    · rintro ⟨x, hx, hfx⟩
      rcases List.mem_cons.mp hx with rfl | hx
      · rw [hc] at hfx
        exact .inl (Option.some.inj hfx).symm
      · exact .inr ⟨x, hx, hfx⟩

/-- A traversal whose every image `g` sends back to its element returns a
list that `g` sends back to the traversed one. -/
theorem map_of_mapM_eq_some {f : α → Option β} {g : β → α} (hg : ∀ a b, f a = some b → g b = a) :
    ∀ {l : List α} {L : List β}, l.mapM f = some L → L.map g = l
  | [], L, h => by
    rw [eq_nil_of_mapM_nil_eq_some h]
    rfl
  | a :: l, L, h => by
    obtain ⟨c, L', hc, hL', rfl⟩ := exists_of_mapM_cons_eq_some h
    rw [List.map_cons, hg a c hc, map_of_mapM_eq_some hg hL']

/-- A successful traversal returns one image per element. -/
theorem length_of_mapM_eq_some {f : α → Option β} :
    ∀ {l : List α} {L : List β}, l.mapM f = some L → L.length = l.length
  | [], L, h => by
    rw [eq_nil_of_mapM_nil_eq_some h]
    rfl
  | a :: l, L, h => by
    obtain ⟨c, L', -, hL', rfl⟩ := exists_of_mapM_cons_eq_some h
    rw [List.length_cons, List.length_cons, length_of_mapM_eq_some hL']

/-- A traversal whose steps all succeed succeeds. -/
theorem mapM_isSome {f : α → Option β} :
    ∀ {l : List α}, (∀ a ∈ l, (f a).isSome) → ∃ L, l.mapM f = some L
  | [], _ => ⟨[], rfl⟩
  | a :: l, h => by
    obtain ⟨b, hb⟩ := Option.isSome_iff_exists.mp (h a List.mem_cons_self)
    obtain ⟨L, hL⟩ := mapM_isSome (l := l) fun x hx => h x (List.mem_cons_of_mem _ hx)
    exact ⟨b :: L, by simp [hb, hL]⟩

/-- A traversal only depends on the function on the list's elements. -/
theorem mapM_congr {f g : α → Option β} :
    ∀ {l : List α}, (∀ a ∈ l, f a = g a) → l.mapM f = l.mapM g
  | [], _ => rfl
  | a :: l, h => by
    rw [List.mapM_cons, List.mapM_cons, h a List.mem_cons_self,
      mapM_congr fun x hx => h x (List.mem_cons_of_mem _ hx)]

/-- A traversal that tags each image with a key, filtered by one key, is the
traversal of the elements with that key. -/
theorem mapM_filter_of_mapM_tag {γ : Type} [DecidableEq γ] {f : α → Option β} {k : α → γ}
    (x : γ) :
    ∀ {l : List α} {L : List (γ × β)}, l.mapM (fun a => (f a).map fun b => (k a, b)) = some L →
      (l.filter fun a => k a = x).mapM f = some ((L.filter (·.1 = x)).map (·.2))
  | [], L, h => by
    rw [eq_nil_of_mapM_nil_eq_some h]
    rfl
  | a :: l, L, h => by
    obtain ⟨c, L', hc, hL', rfl⟩ := exists_of_mapM_cons_eq_some h
    obtain ⟨b, hb, rfl⟩ := Option.map_eq_some_iff.mp hc
    have ih := mapM_filter_of_mapM_tag x hL'
    by_cases hk : k a = x
    · simp [hk, hb, ih]
    · simp [hk, ih]

variable {p : α → Option Bool} {q : α → Bool}

theorem filterAuxM_eq_some :
    ∀ {l : List α} (acc : List α), (∀ a ∈ l, p a = some (q a)) →
      List.filterAuxM p l acc = some ((l.filter q).reverse ++ acc)
  | [], acc, _ => rfl
  | a :: l, acc, h => by
    rw [List.filterAuxM, h a List.mem_cons_self]
    simp only [Option.bind_eq_bind, Option.bind_some]
    rw [filterAuxM_eq_some _ fun x hx => h x (List.mem_cons_of_mem _ hx), List.filter_cons]
    cases q a <;> simp

/-- `filterM` in `Option` with a predicate that never fails is `filter`. -/
theorem filterM_eq_some_filter {l : List α} (h : ∀ a ∈ l, p a = some (q a)) :
    l.filterM p = some (l.filter q) := by
  rw [List.filterM, filterAuxM_eq_some [] h]
  simp

section FindSome

variable {f g : α → Option (Option β)}

/-- A search whose steps all succeed computes the total search. -/
theorem findSomeM?_eq_some_findSome? {h : α → Option β} :
    ∀ {l : List α}, (∀ a ∈ l, f a = some (h a)) → l.findSomeM? f = some (l.findSome? h)
  | [], _ => rfl
  | a :: l, hf => by
    rw [List.findSomeM?_cons, hf a List.mem_cons_self, List.findSome?_cons]
    cases h a with
    | some b => rfl
    | none =>
      exact findSomeM?_eq_some_findSome? fun x hx => hf x (List.mem_cons_of_mem _ hx)

/-- A search whose steps all succeed succeeds. -/
theorem findSomeM?_isSome : ∀ {l : List α}, (∀ a ∈ l, (f a).isSome) → (l.findSomeM? f).isSome
  | [], _ => rfl
  | a :: l, hf => by
    obtain ⟨b, hb⟩ := Option.isSome_iff_exists.mp (hf a List.mem_cons_self)
    rw [List.findSomeM?_cons, hb]
    cases b with
    | some c => rfl
    | none => exact findSomeM?_isSome fun x hx => hf x (List.mem_cons_of_mem _ hx)

/-- A search only depends on the step function on the list's elements. -/
theorem findSomeM?_congr : ∀ {l : List α}, (∀ a ∈ l, f a = g a) → l.findSomeM? f = l.findSomeM? g
  | [], _ => rfl
  | a :: l, hf => by
    rw [List.findSomeM?_cons, List.findSomeM?_cons, hf a List.mem_cons_self,
      findSomeM?_congr fun x hx => hf x (List.mem_cons_of_mem _ hx)]

/-- What a successful search finds is found by the step on one of the
list's elements. -/
theorem exists_of_findSomeM?_eq_some {b : β} :
    ∀ {l : List α}, l.findSomeM? f = some (some b) → ∃ a ∈ l, f a = some (some b)
  | [], h => by cases h
  | a :: l, h => by
    rw [List.findSomeM?_cons] at h
    cases hfa : f a with
    | none => rw [hfa] at h; cases h
    | some c =>
      rw [hfa] at h
      cases c with
      | some c' =>
        have hc' : c' = b := by simpa using h
        exact ⟨a, List.mem_cons_self, by rw [hfa, hc']⟩
      | none =>
        obtain ⟨x, hx, hfx⟩ := exists_of_findSomeM?_eq_some h
        exact ⟨x, List.mem_cons_of_mem _ hx, hfx⟩

end FindSome

section Filter

variable {p : α → Bool} {b : α}

/-- A list without duplicates, where `b` is the only element passing `p`,
filters to `[b]`. -/
theorem filter_eq_singleton {l : List α} (hnd : l.Nodup) (hb : b ∈ l) (hp : p b = true)
    (huniq : ∀ x ∈ l, p x = true → x = b) : l.filter p = [b] := by
  have hmem : ∀ x, x ∈ l.filter p ↔ x = b := fun x => by
    rw [List.mem_filter]
    exact ⟨fun ⟨hx, hpx⟩ => huniq x hx hpx, fun hx => hx ▸ ⟨hb, hp⟩⟩
  have hnd' : (l.filter p).Nodup := hnd.filter p
  rcases hf : l.filter p with _ | ⟨x, t⟩
  · rw [hf] at hmem
    exact absurd ((hmem b).mpr rfl) List.not_mem_nil
  · rw [hf] at hmem hnd'
    obtain rfl : x = b := (hmem x).mp List.mem_cons_self
    have ht : t = [] := List.eq_nil_iff_forall_not_mem.mpr fun y hy =>
      (List.nodup_cons.mp hnd').1 ((hmem y).mp (List.mem_cons_of_mem _ hy) ▸ hy)
    rw [ht]

end Filter

/-- In a list ordered by `R`, every element is its last one or before it
in `R`. -/
theorem rel_getLast_of_pairwise {R : α → α → Prop} {l : List α} {x : α} (hl : l.Pairwise R)
    (hx : l.getLast? = some x) : ∀ y ∈ l, y = x ∨ R y x := by
  obtain ⟨ys, rfl⟩ := List.getLast?_eq_some_iff.mp hx
  intro y hy
  rcases List.mem_append.mp hy with hy | hy
  · exact .inr ((List.pairwise_append.mp hl).2.2 y hy x List.mem_cons_self)
  · exact .inl (List.mem_singleton.mp hy)

/-- A fold in `Except` that returns keeps what every successful step keeps:
an invariant `P`, and a reflexive, transitive relation `R` to the start. -/
theorem foldlM_invariant {ε σ : Type} {f : σ → α → Except ε σ} (P : σ → Prop)
    (R : σ → σ → Prop) (hrefl : ∀ s, R s s) (htrans : ∀ s₁ s₂ s₃, R s₁ s₂ → R s₂ s₃ → R s₁ s₃) :
    ∀ {l : List α}, (∀ s a s', a ∈ l → P s → f s a = .ok s' → P s' ∧ R s s') →
      ∀ {s s' : σ}, P s → l.foldlM f s = .ok s' → P s' ∧ R s s'
  | [], _, s, s', hs, h => by
    cases h
    exact ⟨hs, hrefl s⟩
  | a :: l, hstep, s, s', hs, h => by
    rw [List.foldlM_cons] at h
    cases hf : f s a with
    | error e => rw [hf] at h; cases h
    | ok s₁ =>
      rw [hf] at h
      obtain ⟨hs₁, hR₁⟩ := hstep s a s₁ List.mem_cons_self hs hf
      obtain ⟨hs', hR'⟩ := foldlM_invariant P R hrefl htrans
        (fun s a s' ha => hstep s a s' (List.mem_cons_of_mem _ ha)) hs₁ h
      exact ⟨hs', htrans _ _ _ hR₁ hR'⟩

/-- A fold in `Except` that fails, fails at a step from a state its steps
reach, keeping an invariant `P` that every successful step keeps. -/
theorem foldlM_eq_error {ε σ : Type} {f : σ → α → Except ε σ} (P : σ → Prop) :
    ∀ {l : List α}, (∀ s a s', a ∈ l → P s → f s a = .ok s' → P s') →
      ∀ {s : σ} {e : ε}, P s → l.foldlM f s = .error e → ∃ s' a, a ∈ l ∧ P s' ∧ f s' a = .error e
  | [], _, s, e, _, h => by cases h
  | a :: l, hstep, s, e, hs, h => by
    rw [List.foldlM_cons] at h
    cases hf : f s a with
    | error e' =>
      rw [hf] at h
      cases h
      exact ⟨s, a, List.mem_cons_self, hs, hf⟩
    | ok s₁ =>
      rw [hf] at h
      obtain ⟨s', a', ha', hs', hf'⟩ := foldlM_eq_error P
        (fun s a s' ha => hstep s a s' (List.mem_cons_of_mem _ ha)) (hstep s a s₁ List.mem_cons_self hs hf) h
      exact ⟨s', a', List.mem_cons_of_mem _ ha', hs', hf'⟩

/-- Two fallible results agree up to `R`: both fail with one error, or both
return, with values related by `R`. -/
def Agree {ε σ τ : Type} (R : σ → τ → Prop) : Except ε σ → Except ε τ → Prop
  | .error e, .error e' => e = e'
  | .ok x, .ok y => R x y
  | _, _ => False

/-- Agreement up to `R` gives agreement up to `R'` where `R` implies `R'` of
the two results. -/
theorem Agree.imp_ok {ε σ τ : Type} {R R' : σ → τ → Prop} :
    ∀ {r : Except ε σ} {r' : Except ε τ}, Agree R r r' →
      (∀ x y, r = .ok x → r' = .ok y → R x y → R' x y) → Agree R' r r'
  | .error _, .error _, h, _ => h
  | .ok x, .ok y, h, hR => hR x y rfl rfl h
  | .ok _, .error _, h, _ => h.elim
  | .error _, .ok _, h, _ => h.elim

/-- A result that agrees with another and returns has a related partner that
returns. -/
theorem Agree.exists_of_ok {ε σ τ : Type} {R : σ → τ → Prop} :
    ∀ {r : Except ε σ} {r' : Except ε τ} {x : σ}, Agree R r r' → r = .ok x → ∃ y, r' = .ok y ∧ R x y
  | .ok _, .ok y, _, h, hx => by
    cases hx
    exact ⟨y, rfl, h⟩
  | .ok _, .error _, _, h, _ => h.elim
  | .error _, _, _, _, hx => by cases hx

/-- One fold simulates another: each step of `f` from a state related by `R`
to one of `g` agrees with `g`'s step, so the two folds agree. The steps may
rest on a condition `P` on the steps still to come and `g`'s state, which
every step of `g` that returns passes on to the rest. -/
theorem foldlM_agree {ε σ τ : Type} {f : σ → α → Except ε σ} {g : τ → α → Except ε τ}
    (R : σ → τ → Prop) (P : List α → τ → Prop)
    (hstep : ∀ a l x y, R x y → P (a :: l) y → Agree R (f x a) (g y a))
    (hpass : ∀ a l y y', P (a :: l) y → g y a = .ok y' → P l y') :
    ∀ (l : List α) {x : σ} {y : τ}, R x y → P l y → Agree R (l.foldlM f x) (l.foldlM g y)
  | [], _, _, hR, _ => hR
  | a :: l, x, y, hR, hP => by
    rw [List.foldlM_cons, List.foldlM_cons]
    have hagree := hstep a l x y hR hP
    cases hf : f x a with
    | error e =>
      cases hg : g y a with
      | error e' => rw [hf, hg] at hagree; exact hagree
      | ok y' => rw [hf, hg] at hagree; exact hagree.elim
    | ok x' =>
      cases hg : g y a with
      | error e' => rw [hf, hg] at hagree; exact hagree.elim
      | ok y' =>
        rw [hf, hg] at hagree
        exact foldlM_agree R P hstep hpass l hagree (hpass a l y y' hP hg)

end OptionList
