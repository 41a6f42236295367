import Mathlib.Data.Finset.Card
import Mathlib.Logic.Relation

/-!
# Depth-first search over a store of marks

The search keeps a stack of nodes. It pops the top node, appends it to its
output, and takes the successor keys it follows that the store does not
mark, all read against the store before any of them is marked; it looks each
one up, then pushes the nodes and marks their keys in order, failing when a
key was marked already (a key listed twice). The store's reads and marks may
fail with errors of its own, and the loop runs on fuel.

The store is seen through the keys it knows and the keys it marks, with
hypotheses on its operations. Started from one node whose key is marked, the
search pops once each exactly the nodes reachable through followed keys that
were not marked at the start, and leaves their keys marked as well
(`run_spec`). It needs one round of fuel per known key, and one more. Nothing
here knows what the nodes or the store are.
-/

namespace Dfs

/-- A search over a store `σ` of nodes `α` keyed by `κ`, failing with `ε`:
the graph it walks, which keys it follows, and the store's operations. -/
structure Search (σ α κ ε : Type) where
  /-- the key of a node -/
  key : α → κ
  /-- the keys of a node's successors -/
  succ : α → List κ
  /-- whether the search follows a key -/
  follow : κ → Bool
  /-- whether the store marks a key -/
  isMarked : σ → κ → Except ε Bool
  /-- mark a key, answering whether it was not marked yet -/
  mark : σ → κ → Except ε (Bool × σ)
  /-- the node of a key -/
  lookup : σ → κ → Except ε α
  /-- the failed check that a pushed key was not marked yet -/
  markedTwice : κ → ε
  /-- the loop ran out of fuel -/
  outOfFuel : ε

variable {σ α κ ε : Type}

namespace Search

variable (S : Search σ α κ ε)

/-- The successor keys a popped node hands on, in order: those the search
follows and the store does not mark. -/
def unmarkedSucc (st : σ) : List κ → Except ε (List κ)
  | [] => pure []
  | k :: ks => do
    let take ← if S.follow k then (fun marked => !marked) <$> S.isMarked st k else pure false
    let rest ← unmarkedSucc st ks
    pure (if take then k :: rest else rest)

/-- Push the looked-up nodes one by one, marking each key and checking that
it was not marked yet. -/
def pushAll : List α → List α → σ → Except ε (List α × σ)
  | [], stack, st => pure (stack, st)
  | b :: bs, stack, st => do
    let (newly, st) ← S.mark st (S.key b)
    if newly then pushAll bs (b :: stack) st else throw (S.markedTwice (S.key b))

/-- The search loop, until the stack (top first) is empty: the popped nodes
in order, and the store. -/
def run : ℕ → List α → List α → σ → Except ε (List α × σ)
  | _, [], out, st => pure (out, st)
  | 0, _ :: _, _, _ => throw S.outOfFuel
  | fuel + 1, a :: stack, out, st => do
    let ks ← S.unmarkedSucc st (S.succ a)
    let bs ← ks.mapM (S.lookup st)
    let (stack, st) ← S.pushAll bs stack st
    run fuel stack (out ++ [a]) st

/-- One mark of the store. -/
def MarkStep (st st' : σ) : Prop := ∃ k newly, S.mark st k = .ok (newly, st')

/-- The nodes reachable from `a₀` through followed keys outside `M₀`, looked
up in the store `st₀`. -/
inductive Reaches (st₀ : σ) (M₀ : Finset κ) (a₀ : α) : α → Prop
  | root : Reaches st₀ M₀ a₀ a₀
  | step {a b : α} {k : κ} : Reaches st₀ M₀ a₀ a → k ∈ S.succ a → S.follow k = true → k ∉ M₀ →
      S.lookup st₀ k = .ok b → Reaches st₀ M₀ a₀ b

end Search

open Search

variable {S : Search σ α κ ε} [DecidableEq κ] (known M : σ → Finset κ)

/-! ## The store -/

section Store

variable (hmarked : ∀ st, ∀ k ∈ known st, S.isMarked st k = .ok (decide (k ∈ M st)))
  (hmark : ∀ st, ∀ k ∈ known st,
    ∃ st', S.mark st k = .ok (decide (k ∉ M st), st') ∧ M st' = insert k (M st))
  (hframe : ∀ st k newly st', S.mark st k = .ok (newly, st') →
    known st' = known st ∧ S.lookup st' = S.lookup st)

include hmarked in
/-- A popped node hands on its followed successor keys the store does not
mark. -/
theorem unmarkedSucc_eq (st : σ) :
    ∀ ks : List κ, (∀ k ∈ ks, S.follow k = true → k ∈ known st) →
      S.unmarkedSucc st ks = .ok (ks.filter fun k => S.follow k && decide (k ∉ M st))
  | [], _ => rfl
  | k :: ks, hks => by
    have hrest := unmarkedSucc_eq st ks fun k' hk' => hks k' (List.mem_cons_of_mem _ hk')
    rw [unmarkedSucc, hrest]
    by_cases hfollow : S.follow k = true
    · rw [if_pos hfollow, hmarked st k (hks k List.mem_cons_self hfollow)]
      by_cases hk : k ∈ M st <;> simp [bind, Except.bind, pure, Except.pure, hfollow, hk]
    · simp [bind, Except.bind, pure, Except.pure, hfollow]

include hframe in
omit [DecidableEq κ] in
/-- Marks change neither the known keys nor the nodes. -/
theorem MarkStep.frame {st st' : σ} (h : Relation.ReflTransGen S.MarkStep st st') :
    known st' = known st ∧ S.lookup st' = S.lookup st := by
  induction h with
  | refl => exact ⟨rfl, rfl⟩
  | tail _ hstep ih =>
    obtain ⟨k, newly, hk⟩ := hstep
    obtain ⟨hknown, hlookup⟩ := hframe _ k newly _ hk
    exact ⟨hknown.trans ih.1, hlookup.trans ih.2⟩

include hmark hframe in
/-- Pushing nodes of distinct known keys the store does not mark pushes them
all and marks their keys. -/
theorem pushAll_spec :
    ∀ (bs stack : List α) (st : σ), (bs.map S.key).Nodup →
      (∀ b ∈ bs, S.key b ∈ known st ∧ S.key b ∉ M st) →
      ∃ st', S.pushAll bs stack st = .ok (bs.reverse ++ stack, st') ∧
        M st' = M st ∪ (bs.map S.key).toFinset ∧ Relation.ReflTransGen S.MarkStep st st'
  | [], stack, st, _, _ => ⟨st, rfl, by simp, .refl⟩
  | b :: bs, stack, st, hnd, hbs => by
    rw [List.map_cons, List.nodup_cons] at hnd
    obtain ⟨hknown, hfresh⟩ := hbs b List.mem_cons_self
    obtain ⟨st₁, hmark₁, hM₁⟩ := hmark st (S.key b) hknown
    have hknown₁ := (hframe _ _ _ _ hmark₁).1
    -- the rest stays known and unmarked after the first mark
    have hrest : ∀ c ∈ bs, S.key c ∈ known st₁ ∧ S.key c ∉ M st₁ := fun c hc => by
      obtain ⟨hck, hcm⟩ := hbs c (List.mem_cons_of_mem _ hc)
      refine ⟨hknown₁ ▸ hck, ?_⟩
      rw [hM₁, Finset.mem_insert, not_or]
      exact ⟨fun h => hnd.1 (h ▸ List.mem_map_of_mem hc), hcm⟩
    obtain ⟨st', hpush, hM', hsteps⟩ := pushAll_spec bs (b :: stack) st₁ hnd.2 hrest
    refine ⟨st', ?_, ?_, .head ⟨_, _, hmark₁⟩ hsteps⟩
    · simp only [pushAll, hmark₁, bind, Except.bind, decide_eq_true hfresh, if_true, hpush,
        List.reverse_cons, List.append_assoc, List.singleton_append]
    · rw [hM', hM₁, List.map_cons, List.toFinset_cons, Finset.insert_union,
        ← Finset.union_insert]

omit [DecidableEq κ] in
/-- Looking up keys that all have nodes gives their nodes, in order. -/
theorem mapM_lookup (hkey : ∀ st k b, S.lookup st k = .ok b → S.key b = k) (st : σ) :
    ∀ ks : List κ, (∀ k ∈ ks, ∃ b, S.lookup st k = .ok b) →
      ∃ bs, ks.mapM (S.lookup st) = .ok bs ∧ bs.map S.key = ks ∧
        ∀ b ∈ bs, S.lookup st (S.key b) = .ok b
  | [], _ => ⟨[], rfl, rfl, by simp⟩
  | k :: ks, hks => by
    obtain ⟨b, hb⟩ := hks k List.mem_cons_self
    obtain ⟨bs, hbs, hkeys, hlookup⟩ :=
      mapM_lookup hkey st ks fun k' hk' => hks k' (List.mem_cons_of_mem _ hk')
    have hbk := hkey st k b hb
    refine ⟨b :: bs, ?_, by rw [List.map_cons, hbk, hkeys], fun c hc => ?_⟩
    · simp only [List.mapM_cons, hb, hbs, bind, Except.bind, pure, Except.pure]
    · rcases List.mem_cons.mp hc with rfl | hc
      · rwa [hbk]
      · exact hlookup c hc

end Store

/-! ## The loop -/

section Run

variable {st₀ : σ} {a₀ : α}

omit [DecidableEq κ] in
/-- A reachable node is the start node, or a node of its key outside `M₀`. -/
theorem Search.Reaches.eq_root_or_lookup (hkey : ∀ st k b, S.lookup st k = .ok b → S.key b = k)
    {M₀ : Finset κ} {b : α} (h : S.Reaches st₀ M₀ a₀ b) :
    b = a₀ ∨ S.key b ∉ M₀ ∧ S.lookup st₀ (S.key b) = .ok b := by
  cases h with
  | root => exact .inl rfl
  | step _ _ _ hk hlookup =>
    rw [hkey st₀ _ _ hlookup]
    exact .inr ⟨hk, hlookup⟩

variable (S) in
/-- What the loop keeps between rounds, with `P` the nodes popped and `stack`
those waiting: the store is the start store with their keys marked, once
each; all of them are reachable; the followed successor keys of popped
nodes that were not marked at the start are among them; the start node is
among them. -/
structure Invariant (st₀ : σ) (a₀ : α) (P stack : List α) (st : σ) : Prop where
  marked : Relation.ReflTransGen S.MarkStep st₀ st
  marks_eq : M st = M st₀ ∪ ((P ++ stack).map S.key).toFinset
  keys_nodup : ((P ++ stack).map S.key).Nodup
  reaches : ∀ b ∈ P ++ stack, S.Reaches st₀ (M st₀) a₀ b
  closed : ∀ a ∈ P, ∀ k ∈ S.succ a, S.follow k = true → k ∉ M st₀ →
    ∃ b ∈ P ++ stack, S.key b = k
  root_mem : a₀ ∈ P ++ stack

theorem invariant_start (hroot : S.key a₀ ∈ M st₀) : Invariant S M st₀ a₀ [] [a₀] st₀ where
  marked := .refl
  marks_eq := by simp [hroot]
  keys_nodup := List.nodup_singleton _
  reaches b hb := by
    obtain rfl : b = a₀ := by simpa using hb
    exact .root
  closed a ha := by simp at ha
  root_mem := by simp

theorem mem_pop {P stack bs : List α} {a x : α} :
    x ∈ P ++ [a] ++ (bs.reverse ++ stack) ↔ x ∈ P ++ a :: stack ∨ x ∈ bs := by
  simp only [List.mem_append, List.mem_reverse, List.mem_cons]
  tauto

/-- When the stack is empty, the popped nodes are exactly the reachable
ones. -/
theorem Invariant.mem_iff (hkey : ∀ st k b, S.lookup st k = .ok b → S.key b = k)
    (hroot : S.key a₀ ∈ M st₀) {P : List α} {st : σ} (hinv : Invariant S M st₀ a₀ P [] st) (b : α) :
    b ∈ P ↔ S.Reaches st₀ (M st₀) a₀ b := by
  rw [← List.append_nil P]
  refine ⟨hinv.reaches b, fun h => ?_⟩
  induction h with
  | root => exact hinv.root_mem
  | step _ hk hfollow hfresh hlookup ih =>
    obtain ⟨c, hc, rfl⟩ := hinv.closed _ (by simpa using ih) _ hk hfollow hfresh
    rcases (hinv.reaches c hc).eq_root_or_lookup hkey with rfl | ⟨-, hc'⟩
    · exact absurd hroot hfresh
    · rw [hlookup] at hc'
      cases hc'
      exact hc

variable (hmarked : ∀ st, ∀ k ∈ known st, S.isMarked st k = .ok (decide (k ∈ M st)))
  (hmark : ∀ st, ∀ k ∈ known st,
    ∃ st', S.mark st k = .ok (decide (k ∉ M st), st') ∧ M st' = insert k (M st))
  (hframe : ∀ st k newly st', S.mark st k = .ok (newly, st') →
    known st' = known st ∧ S.lookup st' = S.lookup st)
  (hkey : ∀ st k b, S.lookup st k = .ok b → S.key b = k)
  (hsucc : ∀ a, S.Reaches st₀ (M st₀) a₀ a → (S.succ a).Nodup ∧
    ∀ k ∈ S.succ a, S.follow k = true → k ∈ known st₀ ∧ (k ∉ M st₀ → ∃ b, S.lookup st₀ k = .ok b))

include hkey hsucc in
omit [DecidableEq κ] in
/-- The key of a reachable node is the start node's or a known one. -/
theorem Search.Reaches.key_mem {b : α} (h : S.Reaches st₀ (M st₀) a₀ b) :
    S.key b = S.key a₀ ∨ S.key b ∈ known st₀ := by
  cases h with
  | root => exact .inl rfl
  | step ha hk hfollow _ hlookup =>
    rw [hkey st₀ _ _ hlookup]
    exact .inr ((hsucc _ ha).2 _ hk hfollow).1

include hkey hsucc in
/-- The nodes popped and waiting have distinct keys, each the start node's or
a known one, so there are at most one more of them than known keys. -/
theorem Invariant.length_le {P stack : List α} {st : σ} (hinv : Invariant S M st₀ a₀ P stack st) :
    P.length + stack.length ≤ (known st₀).card + 1 := by
  have hsub : ((P ++ stack).map S.key).toFinset ⊆ insert (S.key a₀) (known st₀) := fun k hk => by
    obtain ⟨b, hb, rfl⟩ := List.mem_map.mp (List.mem_toFinset.mp hk)
    rcases (hinv.reaches b hb).key_mem known M hkey hsucc with h | h
    · exact h ▸ Finset.mem_insert_self _ _
    · exact Finset.mem_insert_of_mem h
  calc P.length + stack.length = ((P ++ stack).map S.key).toFinset.card := by
        rw [List.toFinset_card_of_nodup hinv.keys_nodup, List.length_map, List.length_append]
    _ ≤ (insert (S.key a₀) (known st₀)).card := Finset.card_le_card hsub
    _ ≤ (known st₀).card + 1 := Finset.card_insert_le _ _

include hsucc in
/-- **Popping the top node** keeps the invariant: the nodes of its followed
successor keys not marked yet are pushed and their keys marked. -/
theorem Invariant.pop {P stack bs : List α} {a : α} {st st' : σ}
    (hinv : Invariant S M st₀ a₀ P (a :: stack) st)
    (hkeys : bs.map S.key = (S.succ a).filter fun k => S.follow k && decide (k ∉ M st))
    (hbs : ∀ b ∈ bs, S.lookup st₀ (S.key b) = .ok b)
    (hM' : M st' = M st ∪ (bs.map S.key).toFinset)
    (hsteps : Relation.ReflTransGen S.MarkStep st st') :
    Invariant S M st₀ a₀ (P ++ [a]) (bs.reverse ++ stack) st' := by
  have ha : a ∈ P ++ a :: stack := List.mem_append_right _ List.mem_cons_self
  have hreach_a := hinv.reaches a ha
  have hmem_b : ∀ b ∈ bs, S.key b ∈ S.succ a ∧ S.follow (S.key b) = true ∧ S.key b ∉ M st :=
    fun b hb => by
      have : S.key b ∈ bs.map S.key := List.mem_map_of_mem hb
      rw [hkeys, List.mem_filter, Bool.and_eq_true, decide_eq_true_eq] at this
      exact ⟨this.1, this.2.1, this.2.2⟩
  have hM₀ : M st₀ ⊆ M st := hinv.marks_eq ▸ Finset.subset_union_left
  refine ⟨hinv.marked.trans hsteps, ?_, ?_, fun x hx => ?_, fun x hx k hk hfollow hfresh => ?_, ?_⟩
  · -- the marks grow by the pushed keys
    ext k
    simp only [hM', hinv.marks_eq, Finset.mem_union, List.mem_toFinset, List.mem_map, mem_pop]
    constructor
    · rintro ((h | ⟨x, hx, rfl⟩) | ⟨x, hx, rfl⟩)
      · exact .inl h
      · exact .inr ⟨x, .inl hx, rfl⟩
      · exact .inr ⟨x, .inr hx, rfl⟩
    · rintro (h | ⟨x, hx | hx, rfl⟩)
      · exact .inl (.inl h)
      · exact .inl (.inr ⟨x, hx, rfl⟩)
      · exact .inr ⟨x, hx, rfl⟩
  · -- the pushed keys are new, so the keys stay distinct
    have hperm : ((P ++ [a] ++ (bs.reverse ++ stack)).map S.key).Perm
        ((P ++ a :: stack).map S.key ++ bs.map S.key) := by
      rw [List.perm_iff_count]
      intro k
      simp only [List.map_append, List.map_reverse, List.map_cons, List.map_nil, List.count_append,
        List.count_reverse, List.count_cons, List.count_nil]
      omega
    rw [hperm.nodup_iff, List.nodup_append]
    refine ⟨hinv.keys_nodup, ?_, fun k hk k' hk' hkk' => ?_⟩
    · rw [hkeys]
      exact ((hsucc a hreach_a).1).filter _
    · obtain ⟨b, hb, rfl⟩ := List.mem_map.mp hk'
      refine (hmem_b b hb).2.2 ?_
      rw [hinv.marks_eq, ← hkk']
      exact Finset.mem_union_right _ (List.mem_toFinset.mpr hk)
  · -- a pushed node is one step from the popped one
    rcases mem_pop.mp hx with hx | hx
    · exact hinv.reaches x hx
    · obtain ⟨hk, hfollow, hfresh⟩ := hmem_b x hx
      exact .step hreach_a hk hfollow (fun h => hfresh (hM₀ h)) (hbs x hx)
  · -- a followed unmarked key of a popped node is waiting or popped
    have hsub : ∀ y ∈ P ++ a :: stack, y ∈ P ++ [a] ++ (bs.reverse ++ stack) :=
      fun y hy => mem_pop.mpr (.inl hy)
    rcases List.mem_append.mp hx with hx | hx
    · obtain ⟨b, hb, rfl⟩ := hinv.closed x hx k hk hfollow hfresh
      exact ⟨b, hsub b hb, rfl⟩
    · obtain rfl : x = a := by simpa using hx
      by_cases hkm : k ∈ M st
      · rw [hinv.marks_eq, Finset.mem_union] at hkm
        rcases hkm with hkm | hkm
        · exact absurd hkm hfresh
        · obtain ⟨b, hb, rfl⟩ := List.mem_map.mp (List.mem_toFinset.mp hkm)
          exact ⟨b, hsub b hb, rfl⟩
      · have : k ∈ bs.map S.key := by
          rw [hkeys, List.mem_filter, Bool.and_eq_true, decide_eq_true_eq]
          exact ⟨hk, hfollow, hkm⟩
        obtain ⟨b, hb, rfl⟩ := List.mem_map.mp this
        exact ⟨b, mem_pop.mpr (.inr hb), rfl⟩
  · exact mem_pop.mpr (.inl hinv.root_mem)

include hmarked hmark hframe hkey hsucc in
/-- The loop from an invariant state with one round of fuel for each known
key not popped yet, and one more. -/
theorem run_spec_aux (hroot : S.key a₀ ∈ M st₀) :
    ∀ (fuel : ℕ) (P stack : List α) (st : σ), Invariant S M st₀ a₀ P stack st →
      (known st₀).card + 1 ≤ fuel + P.length →
      ∃ P' st', S.run fuel stack P st = .ok (P', st') ∧
        (∀ b, b ∈ P' ↔ S.Reaches st₀ (M st₀) a₀ b) ∧ (P'.map S.key).Nodup ∧
        M st' = M st₀ ∪ (P'.map S.key).toFinset ∧ Relation.ReflTransGen S.MarkStep st₀ st'
  | _, P, [], st, hinv, _ =>
    ⟨P, st, by rw [run]; rfl, hinv.mem_iff M hkey hroot, by simpa using hinv.keys_nodup,
      by simpa using hinv.marks_eq, hinv.marked⟩
  | 0, P, a :: stack, st, hinv, hfuel => by
    -- a waiting node has a key of its own, beyond those of the popped ones
    have := hinv.length_le known M hkey hsucc
    simp only [List.length_cons] at this
    omega
  | fuel + 1, P, a :: stack, st, hinv, hfuel => by
    have hreach_a := hinv.reaches a (List.mem_append_right _ List.mem_cons_self)
    obtain ⟨hknown, hlookup⟩ := MarkStep.frame known hframe hinv.marked
    obtain ⟨-, hsucc_a⟩ := hsucc a hreach_a
    have hM₀ : M st₀ ⊆ M st := hinv.marks_eq ▸ Finset.subset_union_left
    -- the keys handed on, their nodes, and the pushes
    have hks := unmarkedSucc_eq known M hmarked st (S.succ a)
      fun k hk hfollow => hknown ▸ (hsucc_a k hk hfollow).1
    obtain ⟨bs, hbs, hkeys, hbs_lookup⟩ := mapM_lookup hkey st
      ((S.succ a).filter fun k => S.follow k && decide (k ∉ M st)) fun k hk => by
        rw [List.mem_filter, Bool.and_eq_true, decide_eq_true_eq] at hk
        rw [hlookup]
        exact (hsucc_a k hk.1 hk.2.1).2 fun h => hk.2.2 (hM₀ h)
    have hfresh : ∀ b ∈ bs, S.key b ∈ known st ∧ S.key b ∉ M st := fun b hb => by
      have : S.key b ∈ bs.map S.key := List.mem_map_of_mem hb
      rw [hkeys, List.mem_filter, Bool.and_eq_true, decide_eq_true_eq] at this
      exact ⟨hknown ▸ (hsucc_a _ this.1 this.2.1).1, this.2.2⟩
    have hnd : (bs.map S.key).Nodup := by
      rw [hkeys]
      exact (hsucc a hreach_a).1.filter _
    obtain ⟨st', hpush, hM', hsteps⟩ := pushAll_spec known M hmark hframe bs stack st hnd hfresh
    have hinv' := hinv.pop known M hsucc hkeys (fun b hb => hlookup ▸ hbs_lookup b hb) hM' hsteps
    obtain ⟨P', st'', hrun, hrest⟩ := run_spec_aux hroot fuel (P ++ [a]) (bs.reverse ++ stack) st'
      hinv' (by rw [List.length_append, List.length_singleton]; omega)
    refine ⟨P', st'', ?_, hrest⟩
    simp only [run, hks, hbs, hpush, bind, Except.bind]
    exact hrun

include hmarked hmark hframe hkey hsucc in
/-- **Depth-first search** from a node whose key is marked, with one round of
fuel per known key and one more, pops once each exactly the nodes reachable
through followed keys not marked at the start, and leaves the store with
their keys marked too. -/
theorem run_spec (hroot : S.key a₀ ∈ M st₀) {fuel : ℕ} (hfuel : (known st₀).card + 1 ≤ fuel) :
    ∃ P st, S.run fuel [a₀] [] st₀ = .ok (P, st) ∧
      (∀ b, b ∈ P ↔ S.Reaches st₀ (M st₀) a₀ b) ∧ (P.map S.key).Nodup ∧
      M st = M st₀ ∪ (P.map S.key).toFinset ∧ Relation.ReflTransGen S.MarkStep st₀ st :=
  run_spec_aux known M hmarked hmark hframe hkey hsucc hroot fuel [] [a₀] st₀
    (invariant_start M hroot) (by simpa using hfuel)

end Run

/-! ## Several start nodes, skipping keys marked meanwhile -/

namespace Search

variable (S : Search σ α κ ε)

/-- Mark the keys of the start nodes one by one, checking that each was not
marked yet. -/
def markAll : List α → σ → Except ε σ
  | [], st => pure st
  | a :: as, st => do
    let (newly, st) ← S.mark st (S.key a)
    if newly then markAll as st else throw (S.markedTwice (S.key a))

/-- Mark the keys one by one and push the node of each key that was not
marked yet, looked up after its mark; a key marked already, before or
earlier in the list, is skipped. -/
def pushFresh : List κ → List α → σ → Except ε (List α × σ)
  | [], stack, st => pure (stack, st)
  | k :: ks, stack, st => do
    let (newly, st) ← S.mark st k
    if newly then
      let b ← S.lookup st k
      pushFresh ks (b :: stack) st
    else pushFresh ks stack st

/-- The search loop with `pushFresh` in place of `pushAll`: a successor key
listed twice is pushed once. -/
def runFresh : ℕ → List α → List α → σ → Except ε (List α × σ)
  | _, [], out, st => pure (out, st)
  | 0, _ :: _, _, _ => throw S.outOfFuel
  | fuel + 1, a :: stack, out, st => do
    let ks ← S.unmarkedSucc st (S.succ a)
    let (stack, st) ← S.pushFresh ks stack st
    runFresh fuel stack (out ++ [a]) st

/-- The nodes reachable from any of `roots` through followed keys outside
`M₀`, looked up in the store `st₀`. -/
inductive ReachesFrom (st₀ : σ) (M₀ : Finset κ) (roots : List α) : α → Prop
  | root {a : α} : a ∈ roots → ReachesFrom st₀ M₀ roots a
  | step {a b : α} {k : κ} : ReachesFrom st₀ M₀ roots a → k ∈ S.succ a → S.follow k = true →
      k ∉ M₀ → S.lookup st₀ k = .ok b → ReachesFrom st₀ M₀ roots b

end Search

section Roots

variable {st₀ : σ} {roots : List α}

variable (hmarked : ∀ st, ∀ k ∈ known st, S.isMarked st k = .ok (decide (k ∈ M st)))
  (hmark : ∀ st, ∀ k ∈ known st,
    ∃ st', S.mark st k = .ok (decide (k ∉ M st), st') ∧ M st' = insert k (M st))
  (hframe : ∀ st k newly st', S.mark st k = .ok (newly, st') →
    known st' = known st ∧ S.lookup st' = S.lookup st)
  (hkey : ∀ st k b, S.lookup st k = .ok b → S.key b = k)
  (hsucc : ∀ a, S.ReachesFrom st₀ (M st₀) roots a → ∀ k ∈ S.succ a, S.follow k = true →
    k ∈ known st₀ ∧ (k ∉ M st₀ → ∃ b, S.lookup st₀ k = .ok b))


omit [DecidableEq κ] in
/-- Marking the start nodes does what pushing them does to the store. -/
theorem markAll_eq : ∀ (as stack : List α) (st : σ),
    S.markAll as st = Prod.snd <$> S.pushAll as stack st
  | [], _, _ => rfl
  | a :: as, stack, st => by
    simp only [markAll, pushAll, bind, Except.bind]
    cases S.mark st (S.key a) with
    | error e => rfl
    | ok p =>
      obtain ⟨newly, st'⟩ := p
      cases newly
      · rfl
      · exact markAll_eq as (a :: stack) st'

include hmark hframe in
/-- Marking distinct known keys the store does not mark marks them all. -/
theorem markAll_spec (as : List α) (st : σ) (hnd : (as.map S.key).Nodup)
    (has : ∀ a ∈ as, S.key a ∈ known st ∧ S.key a ∉ M st) :
    ∃ st', S.markAll as st = .ok st' ∧
      M st' = M st ∪ (as.map S.key).toFinset ∧ Relation.ReflTransGen S.MarkStep st st' := by
  obtain ⟨st', hpush, hM, hsteps⟩ := pushAll_spec known M hmark hframe as [] st hnd has
  exact ⟨st', by rw [markAll_eq as [] st, hpush]; rfl, hM, hsteps⟩

include hmark hframe hkey in
/-- Marking known keys pushes, once each and in order, the nodes of those the
store did not mark, and marks them all. -/
theorem pushFresh_spec :
    ∀ (ks : List κ) (stack : List α) (st : σ),
      (∀ k ∈ ks, k ∈ known st ∧ (k ∉ M st → ∃ b, S.lookup st k = .ok b)) →
      ∃ (bs : List α) (st' : σ), S.pushFresh ks stack st = .ok (bs.reverse ++ stack, st') ∧
        (∀ k, k ∈ bs.map S.key ↔ k ∈ ks ∧ k ∉ M st) ∧ (bs.map S.key).Nodup ∧
        (∀ b ∈ bs, S.lookup st (S.key b) = .ok b) ∧
        M st' = M st ∪ (bs.map S.key).toFinset ∧ Relation.ReflTransGen S.MarkStep st st'
  | [], stack, st, _ => ⟨[], st, rfl, by simp, List.nodup_nil, by simp, by simp, .refl⟩
  | k :: ks, stack, st, hks => by
    obtain ⟨hknown, hfound⟩ := hks k List.mem_cons_self
    obtain ⟨st₁, hmark₁, hM₁⟩ := hmark st k hknown
    obtain ⟨hknown₁, hlookup₁⟩ := hframe _ _ _ _ hmark₁
    have hrest : ∀ k' ∈ ks, k' ∈ known st₁ ∧ (k' ∉ M st₁ → ∃ b, S.lookup st₁ k' = .ok b) :=
      fun k' hk' => by
        obtain ⟨hk'known, hk'found⟩ := hks k' (List.mem_cons_of_mem _ hk')
        refine ⟨hknown₁ ▸ hk'known, fun hk'M => hlookup₁ ▸ hk'found fun h => hk'M ?_⟩
        rw [hM₁]
        exact Finset.mem_insert_of_mem h
    by_cases hk : k ∈ M st
    · -- a key marked already is skipped
      have hM₁' : M st₁ = M st := by rw [hM₁, Finset.insert_eq_of_mem hk]
      obtain ⟨bs, st', hpush, hmem, hnd, hbs, hM', hsteps⟩ := pushFresh_spec ks stack st₁ hrest
      refine ⟨bs, st', ?_, fun k' => ?_, hnd, fun b hb => hlookup₁ ▸ hbs b hb, hM₁' ▸ hM',
        .head ⟨_, _, hmark₁⟩ hsteps⟩
      · simp only [pushFresh, hmark₁, bind, Except.bind, decide_not, decide_eq_true hk,
          Bool.not_true, Bool.false_eq_true, if_false, hpush]
      · rw [hmem, hM₁', List.mem_cons]
        constructor
        · exact fun h => ⟨.inr h.1, h.2⟩
        · rintro ⟨rfl | h, hk'⟩
          · exact absurd hk hk'
          · exact ⟨h, hk'⟩
    · -- a fresh key has its node pushed
      obtain ⟨b, hb⟩ := hfound hk
      have hbk := hkey st k b hb
      obtain ⟨bs, st', hpush, hmem, hnd, hbs, hM', hsteps⟩ :=
        pushFresh_spec ks (b :: stack) st₁ hrest
      have hkbs : k ∉ bs.map S.key := fun h => ((hmem k).mp h).2 (hM₁ ▸ Finset.mem_insert_self _ _)
      refine ⟨b :: bs, st', ?_, fun k' => ?_, ?_, fun c hc => ?_, ?_, .head ⟨_, _, hmark₁⟩ hsteps⟩
      · simp only [pushFresh, hmark₁, bind, Except.bind, decide_eq_false hk, decide_not,
          Bool.not_false, if_true, hlookup₁, hb, hpush, List.reverse_cons, List.append_assoc,
          List.singleton_append]
      · rw [List.map_cons, hbk, List.mem_cons, hmem, List.mem_cons, hM₁, Finset.mem_insert]
        by_cases hkk : k' = k
        · subst hkk
          simp [hk]
        · simp [hkk]
      · rw [List.map_cons, hbk, List.nodup_cons]
        exact ⟨hkbs, hnd⟩
      · rcases List.mem_cons.mp hc with rfl | hc
        · rwa [hbk]
        · exact hlookup₁ ▸ hbs c hc
      · rw [hM', hM₁, List.map_cons, hbk, List.toFinset_cons, Finset.insert_union,
          ← Finset.union_insert]

omit [DecidableEq κ] in
/-- A reachable node is a start node, or a node of its key outside `M₀`. -/
theorem Search.ReachesFrom.mem_roots_or_lookup
    (hkey : ∀ st k b, S.lookup st k = .ok b → S.key b = k) {M₀ : Finset κ} {b : α}
    (h : S.ReachesFrom st₀ M₀ roots b) :
    b ∈ roots ∨ S.key b ∉ M₀ ∧ S.lookup st₀ (S.key b) = .ok b := by
  cases h with
  | root hb => exact .inl hb
  | step _ _ _ hk hlookup =>
    rw [hkey st₀ _ _ hlookup]
    exact .inr ⟨hk, hlookup⟩

variable (S) in
/-- What the loop from several start nodes keeps between rounds: as
`Invariant`, with every start node among those popped and waiting. -/
structure RootsInvariant (st₀ : σ) (roots P stack : List α) (st : σ) : Prop where
  marked : Relation.ReflTransGen S.MarkStep st₀ st
  marks_eq : M st = M st₀ ∪ ((P ++ stack).map S.key).toFinset
  keys_nodup : ((P ++ stack).map S.key).Nodup
  reaches : ∀ b ∈ P ++ stack, S.ReachesFrom st₀ (M st₀) roots b
  closed : ∀ a ∈ P, ∀ k ∈ S.succ a, S.follow k = true → k ∉ M st₀ →
    ∃ b ∈ P ++ stack, S.key b = k
  roots_mem : ∀ r ∈ roots, r ∈ P ++ stack

theorem rootsInvariant_start (hroots : ∀ r ∈ roots, S.key r ∈ M st₀)
    (hnd : (roots.map S.key).Nodup) : RootsInvariant S M st₀ roots [] roots st₀ where
  marked := .refl
  marks_eq := by
    refine (Finset.union_eq_left.mpr fun k hk => ?_).symm
    obtain ⟨r, hr, rfl⟩ := List.mem_map.mp (List.mem_toFinset.mp hk)
    exact hroots r (by simpa using hr)
  keys_nodup := by simpa using hnd
  reaches b hb := .root (by simpa using hb)
  closed a ha := by simp at ha
  roots_mem r hr := by simpa using hr

/-- When the stack is empty, the popped nodes are exactly the reachable
ones. -/
theorem RootsInvariant.mem_iff (hkey : ∀ st k b, S.lookup st k = .ok b → S.key b = k)
    (hroots : ∀ r ∈ roots, S.key r ∈ M st₀) {P : List α} {st : σ}
    (hinv : RootsInvariant S M st₀ roots P [] st) (b : α) :
    b ∈ P ↔ S.ReachesFrom st₀ (M st₀) roots b := by
  rw [← List.append_nil P]
  refine ⟨hinv.reaches b, fun h => ?_⟩
  induction h with
  | root hb => exact hinv.roots_mem _ hb
  | step _ hk hfollow hfresh hlookup ih =>
    obtain ⟨c, hc, rfl⟩ := hinv.closed _ (by simpa using ih) _ hk hfollow hfresh
    rcases (hinv.reaches c hc).mem_roots_or_lookup hkey with hroot | ⟨-, hc'⟩
    · exact absurd (hroots c hroot) hfresh
    · rw [hlookup] at hc'
      cases hc'
      exact hc

/-- **Popping the top node** keeps the invariant, given the nodes pushed for
it: once each, those of its followed successor keys not marked yet. -/
theorem RootsInvariant.pop {P stack bs : List α} {a : α} {st st' : σ}
    (hinv : RootsInvariant S M st₀ roots P (a :: stack) st)
    (hkeys : ∀ k, k ∈ bs.map S.key ↔ k ∈ S.succ a ∧ S.follow k = true ∧ k ∉ M st)
    (hnd : (bs.map S.key).Nodup)
    (hbs : ∀ b ∈ bs, S.lookup st₀ (S.key b) = .ok b)
    (hM' : M st' = M st ∪ (bs.map S.key).toFinset)
    (hsteps : Relation.ReflTransGen S.MarkStep st st') :
    RootsInvariant S M st₀ roots (P ++ [a]) (bs.reverse ++ stack) st' := by
  have ha : a ∈ P ++ a :: stack := List.mem_append_right _ List.mem_cons_self
  have hreach_a := hinv.reaches a ha
  have hmem_b : ∀ b ∈ bs, S.key b ∈ S.succ a ∧ S.follow (S.key b) = true ∧ S.key b ∉ M st :=
    fun b hb => (hkeys _).mp (List.mem_map_of_mem hb)
  have hM₀ : M st₀ ⊆ M st := hinv.marks_eq ▸ Finset.subset_union_left
  refine ⟨hinv.marked.trans hsteps, ?_, ?_, fun x hx => ?_, fun x hx k hk hfollow hfresh => ?_,
    fun r hr => mem_pop.mpr (.inl (hinv.roots_mem r hr))⟩
  · -- the marks grow by the pushed keys
    ext k
    simp only [hM', hinv.marks_eq, Finset.mem_union, List.mem_toFinset, List.mem_map, mem_pop]
    constructor
    · rintro ((h | ⟨x, hx, rfl⟩) | ⟨x, hx, rfl⟩)
      · exact .inl h
      · exact .inr ⟨x, .inl hx, rfl⟩
      · exact .inr ⟨x, .inr hx, rfl⟩
    · rintro (h | ⟨x, hx | hx, rfl⟩)
      · exact .inl (.inl h)
      · exact .inl (.inr ⟨x, hx, rfl⟩)
      · exact .inr ⟨x, hx, rfl⟩
  · -- the pushed keys are new, so the keys stay distinct
    have hperm : ((P ++ [a] ++ (bs.reverse ++ stack)).map S.key).Perm
        ((P ++ a :: stack).map S.key ++ bs.map S.key) := by
      rw [List.perm_iff_count]
      intro k
      simp only [List.map_append, List.map_reverse, List.map_cons, List.map_nil, List.count_append,
        List.count_reverse, List.count_cons, List.count_nil]
      omega
    rw [hperm.nodup_iff, List.nodup_append]
    refine ⟨hinv.keys_nodup, hnd, fun k hk k' hk' hkk' => ?_⟩
    obtain ⟨b, hb, rfl⟩ := List.mem_map.mp hk'
    refine (hmem_b b hb).2.2 ?_
    rw [hinv.marks_eq, ← hkk']
    exact Finset.mem_union_right _ (List.mem_toFinset.mpr hk)
  · -- a pushed node is one step from the popped one
    rcases mem_pop.mp hx with hx | hx
    · exact hinv.reaches x hx
    · obtain ⟨hk, hfollow, hfresh⟩ := hmem_b x hx
      exact .step hreach_a hk hfollow (fun h => hfresh (hM₀ h)) (hbs x hx)
  · -- a followed unmarked key of a popped node is waiting or popped
    have hsub : ∀ y ∈ P ++ a :: stack, y ∈ P ++ [a] ++ (bs.reverse ++ stack) :=
      fun y hy => mem_pop.mpr (.inl hy)
    rcases List.mem_append.mp hx with hx | hx
    · obtain ⟨b, hb, rfl⟩ := hinv.closed x hx k hk hfollow hfresh
      exact ⟨b, hsub b hb, rfl⟩
    · obtain rfl : x = a := by simpa using hx
      by_cases hkm : k ∈ M st
      · rw [hinv.marks_eq, Finset.mem_union] at hkm
        rcases hkm with hkm | hkm
        · exact absurd hkm hfresh
        · obtain ⟨b, hb, rfl⟩ := List.mem_map.mp (List.mem_toFinset.mp hkm)
          exact ⟨b, hsub b hb, rfl⟩
      · obtain ⟨b, hb, rfl⟩ := List.mem_map.mp ((hkeys k).mpr ⟨hk, hfollow, hkm⟩)
        exact ⟨b, mem_pop.mpr (.inr hb), rfl⟩

include hkey hsucc in
omit [DecidableEq κ] in
/-- The key of a reachable node is a start node's or a known one. -/
theorem Search.ReachesFrom.key_mem {b : α} (h : S.ReachesFrom st₀ (M st₀) roots b) :
    S.key b ∈ roots.map S.key ∨ S.key b ∈ known st₀ := by
  cases h with
  | root hb => exact .inl (List.mem_map_of_mem hb)
  | step ha hk hfollow _ hlookup =>
    rw [hkey st₀ _ _ hlookup]
    exact .inr (hsucc _ ha _ hk hfollow).1

include hkey hsucc in
/-- The nodes popped and waiting have distinct keys, each a start node's or a
known one. -/
theorem RootsInvariant.length_le {P stack : List α} {st : σ}
    (hinv : RootsInvariant S M st₀ roots P stack st) :
    P.length + stack.length ≤ (known st₀).card + roots.length := by
  have hsub : ((P ++ stack).map S.key).toFinset ⊆ (roots.map S.key).toFinset ∪ known st₀ :=
    fun k hk => by
      obtain ⟨b, hb, rfl⟩ := List.mem_map.mp (List.mem_toFinset.mp hk)
      rcases (hinv.reaches b hb).key_mem known M hkey hsucc with h | h
      · exact Finset.mem_union_left _ (List.mem_toFinset.mpr h)
      · exact Finset.mem_union_right _ h
  calc P.length + stack.length = ((P ++ stack).map S.key).toFinset.card := by
        rw [List.toFinset_card_of_nodup hinv.keys_nodup, List.length_map, List.length_append]
    _ ≤ ((roots.map S.key).toFinset ∪ known st₀).card := Finset.card_le_card hsub
    _ ≤ (roots.map S.key).toFinset.card + (known st₀).card := Finset.card_union_le _ _
    _ ≤ (known st₀).card + roots.length := by
        have := (roots.map S.key).toFinset_card_le
        rw [List.length_map] at this
        omega

include hmarked hmark hframe hkey hsucc in
/-- The loop from an invariant state with one round of fuel for each known
key and start node not popped yet. -/
theorem runFresh_spec_aux (hroots : ∀ r ∈ roots, S.key r ∈ M st₀) :
    ∀ (fuel : ℕ) (P stack : List α) (st : σ), RootsInvariant S M st₀ roots P stack st →
      (known st₀).card + roots.length ≤ fuel + P.length →
      ∃ P' st', S.runFresh fuel stack P st = .ok (P', st') ∧
        (∀ b, b ∈ P' ↔ S.ReachesFrom st₀ (M st₀) roots b) ∧ (P'.map S.key).Nodup ∧
        M st' = M st₀ ∪ (P'.map S.key).toFinset ∧ Relation.ReflTransGen S.MarkStep st₀ st'
  | _, P, [], st, hinv, _ =>
    ⟨P, st, by rw [runFresh]; rfl, hinv.mem_iff M hkey hroots, by simpa using hinv.keys_nodup,
      by simpa using hinv.marks_eq, hinv.marked⟩
  | 0, P, a :: stack, st, hinv, hfuel => by
    -- a waiting node has a key of its own, beyond those of the popped ones
    have := hinv.length_le known M hkey hsucc
    simp only [List.length_cons] at this
    omega
  | fuel + 1, P, a :: stack, st, hinv, hfuel => by
    have hreach_a := hinv.reaches a (List.mem_append_right _ List.mem_cons_self)
    obtain ⟨hknown, hlookup⟩ := MarkStep.frame known hframe hinv.marked
    have hM₀ : M st₀ ⊆ M st := hinv.marks_eq ▸ Finset.subset_union_left
    -- the keys handed on, and the nodes pushed for them
    have hks := unmarkedSucc_eq known M hmarked st (S.succ a)
      fun k hk hfollow => hknown ▸ (hsucc a hreach_a k hk hfollow).1
    obtain ⟨bs, st', hpush, hmem, hnd, hbs, hM', hsteps⟩ :=
      pushFresh_spec known M hmark hframe hkey
        ((S.succ a).filter fun k => S.follow k && decide (k ∉ M st)) stack st fun k hk => by
          rw [List.mem_filter, Bool.and_eq_true, decide_eq_true_eq] at hk
          obtain ⟨hk₀, hfound⟩ := hsucc a hreach_a k hk.1 hk.2.1
          exact ⟨hknown ▸ hk₀, fun _ => hlookup ▸ hfound fun h => hk.2.2 (hM₀ h)⟩
    have hkeys : ∀ k, k ∈ bs.map S.key ↔ k ∈ S.succ a ∧ S.follow k = true ∧ k ∉ M st := by
      intro k
      rw [hmem, List.mem_filter, Bool.and_eq_true, decide_eq_true_eq]
      tauto
    have hinv' := hinv.pop M hkeys hnd (fun b hb => hlookup ▸ hbs b hb) hM' hsteps
    obtain ⟨P', st'', hrun, hrest⟩ := runFresh_spec_aux hroots fuel (P ++ [a])
      (bs.reverse ++ stack) st' hinv' (by rw [List.length_append, List.length_singleton]; omega)
    refine ⟨P', st'', ?_, hrest⟩
    simp only [runFresh, hks, hpush, bind, Except.bind]
    exact hrun

include hmarked hmark hframe hkey hsucc in
/-- **Depth-first search from several nodes**, whose keys are distinct and
marked, with one round of fuel per known key and start node: it pops once
each exactly the nodes reachable from them through followed keys not marked
at the start, and leaves the store with their keys marked too. -/
theorem runFresh_spec (hroots : ∀ r ∈ roots, S.key r ∈ M st₀) (hnd : (roots.map S.key).Nodup)
    {fuel : ℕ} (hfuel : (known st₀).card + roots.length ≤ fuel) :
    ∃ P st, S.runFresh fuel roots [] st₀ = .ok (P, st) ∧
      (∀ b, b ∈ P ↔ S.ReachesFrom st₀ (M st₀) roots b) ∧ (P.map S.key).Nodup ∧
      M st = M st₀ ∪ (P.map S.key).toFinset ∧ Relation.ReflTransGen S.MarkStep st₀ st :=
  runFresh_spec_aux known M hmarked hmark hframe hkey hsucc hroots fuel [] roots st₀
    (rootsInvariant_start M hroots hnd) (by simpa using hfuel)

end Roots

end Dfs
