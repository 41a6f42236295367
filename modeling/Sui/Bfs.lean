import Mathlib.Data.Finset.Card

/-!
# Breadth-first search with a visited set

The search pops the front of a queue of nodes and walks the keys of the
popped node's successors: a followed key that was not visited yet is marked,
looked up, and its node pushed to the back; every successor key, followed or
not, is also handed to a visitor that folds it into an accumulator. The loop
runs on fuel and answers `none` when a lookup fails or the fuel runs out.

Started from one node, the search pops every node reachable through followed
keys exactly once, in some order `P`, and returns the visitor folded over the
successors of `P` (`run_spec`). It needs as much fuel as there are keys of
reachable nodes. Nothing here knows what the nodes are.
-/

namespace Bfs

/-- A graph searched by key: nodes with their keys and the keys of their
successors, a lookup from keys to nodes, and which keys the search follows. -/
structure Graph (α κ : Type) where
  /-- the key of a node -/
  key : α → κ
  /-- the keys of a node's successors -/
  succ : α → List κ
  /-- the node of a key -/
  lookup : κ → Option α
  /-- whether the search follows a key -/
  follow : κ → Bool

variable {α κ σ : Type} [DecidableEq κ] (G : Graph α κ) (visit : α → κ → σ → σ)

/-- The walk over the successor keys of a popped node `a`. -/
def expand (a : α) : List κ → List α → Finset κ → σ → Option (List α × Finset κ × σ)
  | [], queue, visited, acc => some (queue, visited, acc)
  | k :: ks, queue, visited, acc =>
    if G.follow k ∧ k ∉ visited then
      match G.lookup k with
      | some b => expand a ks (queue ++ [b]) (insert k visited) (visit a k acc)
      | none => none
    else expand a ks queue visited (visit a k acc)

/-- The search loop, until the queue is empty. -/
def run : ℕ → List α → Finset κ → σ → Option σ
  | _, [], _, acc => some acc
  | 0, _ :: _, _, _ => none
  | fuel + 1, a :: queue, visited, acc =>
    match expand G visit a (G.succ a) queue visited acc with
    | some (queue, visited, acc) => run fuel queue visited acc
    | none => none

/-- The visitor folded over the successor keys of the nodes of `P`, in order. -/
def visitAll (P : List α) (acc : σ) : σ :=
  P.foldl (fun acc a => (G.succ a).foldl (fun acc k => visit a k acc) acc) acc

/-- The nodes reachable from `a₀` through followed keys. -/
inductive Reaches (a₀ : α) : α → Prop
  | root : Reaches a₀ a₀
  | step {a b : α} {k : κ} :
      Reaches a₀ a → k ∈ G.succ a → G.follow k = true → G.lookup k = some b → Reaches a₀ b

variable {G visit}

omit [DecidableEq κ] in
theorem visitAll_concat (P : List α) (a : α) (acc : σ) :
    visitAll G visit (P ++ [a]) acc =
      (G.succ a).foldl (fun acc k => visit a k acc) (visitAll G visit P acc) := by
  simp only [visitAll, List.foldl_append, List.foldl_cons, List.foldl_nil]

/-! ## One node -/

section Expand

variable (hkey : ∀ k b, G.lookup k = some b → G.key b = k)
include hkey

/-- **Expanding a node** appends the nodes of its followed, unvisited
successor keys, once each, marks their keys, and folds the visitor over all
its successor keys. -/
theorem expand_spec (a : α) :
    ∀ (ks : List κ) (queue : List α) (visited : Finset κ) (acc : σ),
      (∀ k ∈ ks, G.follow k = true → (G.lookup k).isSome) →
      ∃ new visited', expand G visit a ks queue visited acc =
          some (queue ++ new, visited', ks.foldl (fun acc k => visit a k acc) acc) ∧
        (∀ k, k ∈ visited' ↔ k ∈ visited ∨ ∃ b ∈ new, G.key b = k) ∧
        (new.map G.key).Nodup ∧
        (∀ b ∈ new, G.key b ∉ visited ∧ ∃ k ∈ ks, G.follow k = true ∧ G.lookup k = some b) ∧
        ∀ k ∈ ks, G.follow k = true → k ∈ visited'
  | [], queue, visited, acc, _ =>
    ⟨[], visited, by simp [expand], by simp, List.nodup_nil, by simp, by simp⟩
  | k :: ks, queue, visited, acc, hks => by
    have hrest : ∀ k' ∈ ks, G.follow k' = true → (G.lookup k').isSome :=
      fun k' hk' => hks k' (List.mem_cons_of_mem _ hk')
    by_cases hnew : G.follow k = true ∧ k ∉ visited
    · -- a new key: its node is pushed and its key marked before the rest
      obtain ⟨b, hb⟩ := Option.isSome_iff_exists.mp (hks k List.mem_cons_self hnew.1)
      have hbk := hkey k b hb
      obtain ⟨new, visited', hexp, hmem, hnd, hnew', hfollow⟩ :=
        expand_spec a ks (queue ++ [b]) (insert k visited) (visit a k acc) hrest
      refine ⟨b :: new, visited', ?_, fun x => ?_, ?_, fun c hc => ?_, fun x hx hfx => ?_⟩
      · rw [expand, if_pos (by simpa using hnew), hb]
        simpa using hexp
      · rw [hmem, Finset.mem_insert]
        simp only [List.mem_cons, exists_eq_or_imp, hbk]
        tauto
      · rw [List.map_cons, List.nodup_cons]
        refine ⟨fun hin => ?_, hnd⟩
        obtain ⟨c, hc, hck⟩ := List.mem_map.mp hin
        exact (hnew' c hc).1 (Finset.mem_insert.mpr (.inl (hck.trans hbk)))
      · rcases List.mem_cons.mp hc with rfl | hc
        · exact ⟨hbk ▸ hnew.2, k, List.mem_cons_self, hnew.1, hb⟩
        · obtain ⟨hcv, k', hk', hfk', hlk'⟩ := hnew' c hc
          exact ⟨fun h => hcv (Finset.mem_insert_of_mem h), k', List.mem_cons_of_mem _ hk', hfk', hlk'⟩
      · rcases List.mem_cons.mp hx with rfl | hx
        · exact (hmem x).mpr (.inl (Finset.mem_insert_self x visited))
        · exact hfollow x hx hfx
    · -- a key not followed or already visited: only the visitor sees it
      obtain ⟨new, visited', hexp, hmem, hnd, hnew', hfollow⟩ :=
        expand_spec a ks queue visited (visit a k acc) hrest
      refine ⟨new, visited', ?_, hmem, hnd, fun c hc => ?_, fun x hx hfx => ?_⟩
      · rw [expand, if_neg (by simpa using hnew)]
        simpa using hexp
      · obtain ⟨hcv, k', hk', hfk', hlk'⟩ := hnew' c hc
        exact ⟨hcv, k', List.mem_cons_of_mem _ hk', hfk', hlk'⟩
      · rcases List.mem_cons.mp hx with rfl | hx
        · have hvis : x ∈ visited := by
            by_contra hxv
            exact hnew ⟨hfx, hxv⟩
          exact (hmem x).mpr (.inl hvis)
        · exact hfollow x hx hfx

end Expand

/-! ## The loop -/

/-- What the loop keeps between rounds, with `P` the nodes already popped
and `queue` those waiting: the visited keys are the keys of both, once
each; all of them are reachable and are what their keys look up; the
followed successor keys of popped nodes are visited; the start node is
among them. -/
structure Invariant (G : Graph α κ) (a₀ : α) (P queue : List α) (visited : Finset κ) : Prop where
  visited_iff : ∀ k, k ∈ visited ↔ ∃ a ∈ P ++ queue, G.key a = k
  keys_nodup : ((P ++ queue).map G.key).Nodup
  reaches : ∀ a ∈ P ++ queue, Reaches G a₀ a
  lookup_key : ∀ a ∈ P ++ queue, G.lookup (G.key a) = some a
  closed : ∀ a ∈ P, ∀ k ∈ G.succ a, G.follow k = true → k ∈ visited
  root_mem : a₀ ∈ P ++ queue

omit [DecidableEq κ] in
theorem invariant_start {a₀ : α} (hroot : G.lookup (G.key a₀) = some a₀) :
    Invariant G a₀ [] [a₀] {G.key a₀} where
  visited_iff k := by simp [eq_comm]
  keys_nodup := List.nodup_singleton _
  reaches a ha := by
    obtain rfl : a = a₀ := by simpa using ha
    exact Reaches.root
  lookup_key a ha := by
    obtain rfl : a = a₀ := by simpa using ha
    exact hroot
  closed a ha := by simp at ha
  root_mem := by simp

omit [DecidableEq κ] in
/-- Popping the front node keeps the invariant. -/
theorem Invariant.pop (hkey : ∀ k b, G.lookup k = some b → G.key b = k) {a₀ a : α}
    {P queue new : List α} {visited visited' : Finset κ} (hinv : Invariant G a₀ P (a :: queue) visited)
    (hmem : ∀ k, k ∈ visited' ↔ k ∈ visited ∨ ∃ b ∈ new, G.key b = k) (hnd : (new.map G.key).Nodup)
    (hnew : ∀ b ∈ new, G.key b ∉ visited ∧ ∃ k ∈ G.succ a, G.follow k = true ∧ G.lookup k = some b)
    (hfollow : ∀ k ∈ G.succ a, G.follow k = true → k ∈ visited') :
    Invariant G a₀ (P ++ [a]) (queue ++ new) visited' := by
  have hsame : P ++ [a] ++ (queue ++ new) = (P ++ a :: queue) ++ new := by simp
  have hold : ∀ x ∈ P ++ a :: queue, x ∈ P ++ [a] ++ (queue ++ new) := fun x hx => by
    rw [hsame]
    exact List.mem_append_left _ hx
  have ha : a ∈ P ++ a :: queue := List.mem_append_right _ List.mem_cons_self
  refine ⟨fun k => ?_, ?_, fun x hx => ?_, fun x hx => ?_, fun x hx k hk hfk => ?_, hold _ hinv.root_mem⟩
  · rw [hmem, hinv.visited_iff, hsame]
    simp only [List.mem_append, or_and_right, exists_or]
  · rw [hsame, List.map_append, List.nodup_append]
    refine ⟨hinv.keys_nodup, hnd, fun x hx y hy hxy => ?_⟩
    obtain ⟨b, hb, rfl⟩ := List.mem_map.mp hy
    obtain ⟨c, hc, rfl⟩ := List.mem_map.mp hx
    exact (hnew b hb).1 ((hinv.visited_iff _).mpr ⟨c, hc, hxy⟩)
  · rw [hsame] at hx
    rcases List.mem_append.mp hx with hx | hx
    · exact hinv.reaches x hx
    · obtain ⟨-, k, hk, hfk, hlk⟩ := (hnew x hx)
      exact Reaches.step (hinv.reaches a ha) hk hfk hlk
  · rw [hsame] at hx
    rcases List.mem_append.mp hx with hx | hx
    · exact hinv.lookup_key x hx
    · obtain ⟨-, k, -, -, hlk⟩ := (hnew x hx)
      rwa [hkey k x hlk]
  · rcases List.mem_append.mp hx with hx | hx
    · exact (hmem k).mpr (.inl (hinv.closed x hx k hk hfk))
    · obtain rfl : x = a := by simpa using hx
      exact hfollow k hk hfk

omit [DecidableEq κ] in
/-- When the queue is empty, the popped nodes are exactly the reachable
ones. -/
theorem Invariant.mem_iff {a₀ : α} {P : List α} {visited : Finset κ}
    (hinv : Invariant G a₀ P [] visited) (b : α) : b ∈ P ↔ Reaches G a₀ b := by
  rw [← List.append_nil P]
  refine ⟨hinv.reaches b, fun h => ?_⟩
  induction h with
  | root => exact hinv.root_mem
  | step _ hk hfk hlk ih =>
    obtain ⟨c, hc, hck⟩ := (hinv.visited_iff _).mp (hinv.closed _ (by simpa using ih) _ hk hfk)
    have := hinv.lookup_key c hc
    rw [hck, hlk] at this
    cases this
    exact hc

section Run

variable {a₀ : α} (hkey : ∀ k b, G.lookup k = some b → G.key b = k) (U : Finset κ)
  (hU : ∀ b, Reaches G a₀ b → G.key b ∈ U)
  (hlookup : ∀ a, Reaches G a₀ a → ∀ k ∈ G.succ a, G.follow k = true → (G.lookup k).isSome)
include hkey hU hlookup

omit hkey hlookup in
/-- The nodes popped and waiting have distinct keys of reachable nodes, so
there are at most as many as keys in `U`. -/
theorem Invariant.length_le {P queue : List α} {visited : Finset κ}
    (hinv : Invariant G a₀ P queue visited) : P.length + queue.length ≤ U.card := by
  have hsub : ((P ++ queue).map G.key).toFinset ⊆ U := fun k hk => by
    obtain ⟨a, ha, rfl⟩ := List.mem_map.mp (List.mem_toFinset.mp hk)
    exact hU a (hinv.reaches a ha)
  calc P.length + queue.length = ((P ++ queue).map G.key).toFinset.card := by
        rw [List.toFinset_card_of_nodup hinv.keys_nodup, List.length_map, List.length_append]
    _ ≤ U.card := Finset.card_le_card hsub

/-- The loop from an invariant state with enough fuel for the keys not
popped yet. -/
theorem run_spec_aux :
    ∀ (fuel : ℕ) (P queue : List α) (visited : Finset κ) (acc₀ : σ),
      Invariant G a₀ P queue visited → U.card ≤ fuel + P.length →
        ∃ P', (∀ b, b ∈ P' ↔ Reaches G a₀ b) ∧ (P'.map G.key).Nodup ∧
          run G visit fuel queue visited (visitAll G visit P acc₀) = some (visitAll G visit P' acc₀)
  | _, P, [], visited, acc₀, hinv, _ =>
    ⟨P, hinv.mem_iff, by simpa using hinv.keys_nodup, by rw [run]⟩
  | 0, P, a :: queue, visited, acc₀, hinv, hfuel => by
    -- a waiting node has a key of its own, beyond those of the popped ones
    have := hinv.length_le U hU
    simp only [List.length_cons] at this
    omega
  | fuel + 1, P, a :: queue, visited, acc₀, hinv, hfuel => by
    have ha : Reaches G a₀ a := hinv.reaches a (List.mem_append_right _ List.mem_cons_self)
    obtain ⟨new, visited', hexp, hmem, hnd, hnew, hfollow⟩ :=
      expand_spec hkey a (G.succ a) queue visited (visitAll G visit P acc₀) (hlookup a ha)
    have hinv' := hinv.pop hkey hmem hnd hnew hfollow
    obtain ⟨P', hP', hnd', hrun⟩ := run_spec_aux fuel (P ++ [a]) (queue ++ new) visited' acc₀ hinv'
      (by rw [List.length_append, List.length_singleton]; omega)
    refine ⟨P', hP', hnd', ?_⟩
    rw [run, hexp]
    dsimp only
    rw [← visitAll_concat]
    exact hrun

/-- **Breadth-first search** from `a₀`, with as much fuel as there are keys
of reachable nodes, pops the reachable nodes once each, in some order `P`,
and returns the visitor folded over their successor keys. -/
theorem run_spec (hroot : G.lookup (G.key a₀) = some a₀) {fuel : ℕ} (hfuel : U.card ≤ fuel)
    (acc₀ : σ) :
    ∃ P, (∀ b, b ∈ P ↔ Reaches G a₀ b) ∧ (P.map G.key).Nodup ∧
      run G visit fuel [a₀] {G.key a₀} acc₀ = some (visitAll G visit P acc₀) :=
  run_spec_aux hkey U hU hlookup fuel [] [a₀] {G.key a₀} acc₀ (invariant_start hroot)
    (by simpa using hfuel)

end Run

end Bfs
