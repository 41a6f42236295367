import Mathlib.Data.Finset.Max

/-!
# Draining a worklist by its largest element

A traversal pattern for graphs whose edges go down in a linear order: keep a
finite set of pending elements and, while its largest element is not a
stopping one, replace that element by its successors. `drain` is this loop,
run on fuel, and answering `none` when a successor lookup fails or the fuel
runs out.

When every successor is smaller than the element it comes from and stopping is
downward closed, the loop never revisits an element, so it ends after at most
as many rounds as there are non-stopping elements to meet, and it ends with
exactly the stopping elements reachable from the start through non-stopping
ones (`drain_spec`). Nothing here knows what the elements are.
-/

namespace Worklist

variable {α : Type*} [LinearOrder α] (next : α → Option (Finset α)) (stop : α → Bool)

/-- Replace the largest pending element by its successors until the largest
one stops the loop. -/
def drain : ℕ → Finset α → Option (Finset α)
  | 0, _ => none
  | fuel + 1, W =>
    match W.max with
    | ⊥ => some W
    | (x : α) =>
      if stop x then some W
      else
        match next x with
        | none => none
        | some ns => drain fuel (W.erase x ∪ ns)

/-- The elements reachable from `W`, expanding only non-stopping ones. -/
inductive Reach (W : Finset α) : α → Prop
  | base {a : α} : a ∈ W → Reach W a
  | step {a b : α} {ns : Finset α} :
      Reach W a → stop a = false → next a = some ns → b ∈ ns → Reach W b

variable {next stop}

/-! ## Unfolding the loop -/

theorem drain_of_max_eq_bot {fuel : ℕ} {W : Finset α} (h : W.max = ⊥) :
    drain next stop (fuel + 1) W = some W := by
  rw [drain, h]

theorem drain_of_max_eq {fuel : ℕ} {W : Finset α} {x : α} (h : W.max = x) :
    drain next stop (fuel + 1) W =
      if stop x then some W
      else
        match next x with
        | none => none
        | some ns => drain next stop fuel (W.erase x ∪ ns) := by
  rw [drain, h]

/-! ## Reachability -/

/-- Reachability is transitive: what is reachable from elements reachable from
`W` is reachable from `W`. -/
theorem Reach.trans {W W' : Finset α} (hW' : ∀ a ∈ W', Reach next stop W a) {b : α}
    (h : Reach next stop W' b) : Reach next stop W b := by
  induction h with
  | base hb => exact hW' _ hb
  | step _ hstop hnext hmem ih => exact Reach.step ih hstop hnext hmem

/-- From a set of stopping elements nothing else is reachable. -/
theorem Reach.mem_of_forall_stop {W : Finset α} (hW : ∀ a ∈ W, stop a = true) {b : α}
    (h : Reach next stop W b) : b ∈ W := by
  induction h with
  | base hb => exact hb
  | step _ hstop _ _ ih => rw [hW _ ih] at hstop; cases hstop

/-- Popping `x` and pushing its successors loses nothing reachable but `x`
itself. -/
theorem Reach.pop {W ns : Finset α} {x : α} (hstop : stop x = false) (hnext : next x = some ns)
    {b : α} (h : Reach next stop W b) : b = x ∨ Reach next stop (W.erase x ∪ ns) b := by
  induction h with
  | @base a ha =>
    by_cases hax : a = x
    · exact .inl hax
    · exact .inr (.base (Finset.mem_union_left _ (Finset.mem_erase.mpr ⟨hax, ha⟩)))
  | @step a b ms _ hsa hna hb ih =>
    refine .inr ?_
    rcases ih with rfl | hreach
    · rw [hnext] at hna
      cases hna
      exact .base (Finset.mem_union_right _ hb)
    · exact .step hreach hsa hna hb

/-- Reachability only consults `next` at the non-stopping elements it
reaches, so two successor functions that agree there reach the same
elements. -/
theorem Reach.congr {next' : α → Option (Finset α)} {W : Finset α}
    (h : ∀ a, Reach next stop W a → stop a = false → next a = next' a) {b : α} :
    Reach next stop W b ↔ Reach next' stop W b := by
  constructor
  · intro hb
    induction hb with
    | base hb => exact .base hb
    | step hr hstop hnext hmem ih => exact .step ih hstop (h _ hr hstop ▸ hnext) hmem
  · intro hb
    induction hb with
    | base hb => exact .base hb
    | step _ hstop hnext hmem ih => exact .step ih hstop ((h _ ih hstop).trans hnext) hmem

/-! ## The loop computes the reachable stopping elements -/

/-- How many of the elements of `U` are at most the largest pending one. -/
def rank (U W : Finset α) : ℕ := (U.filter fun u : α => (u : WithBot α) ≤ W.max).card

section Spec

variable {W₀ U : Finset α}
  (hdown : ∀ a b, b ≤ a → stop a = true → stop b = true)
  (hnext : ∀ a, Reach next stop W₀ a → stop a = false →
    ∃ ns, next a = some ns ∧ ∀ b ∈ ns, b < a)
  (hU : ∀ a, Reach next stop W₀ a → stop a = false → a ∈ U)

include hdown hnext hU in
theorem drain_spec_aux : ∀ (fuel : ℕ) (W : Finset α),
    (∀ a ∈ W, Reach next stop W₀ a) →
    (∀ a, Reach next stop W₀ a → stop a = true → Reach next stop W a) →
    rank U W < fuel →
    ∃ W', drain next stop fuel W = some W' ∧
      ∀ a, a ∈ W' ↔ Reach next stop W₀ a ∧ stop a = true := by
  intro fuel
  induction fuel with
  | zero => intro W _ _ hrank; omega
  | succ fuel ih =>
    intro W hsound hcomplete hrank
    -- once every pending element stops, the pending set is the answer
    have hdone : (∀ a ∈ W, stop a = true) →
        ∀ a, a ∈ W ↔ Reach next stop W₀ a ∧ stop a = true := by
      intro hall a
      exact ⟨fun ha => ⟨hsound a ha, hall a ha⟩,
        fun ⟨hr, hs⟩ => (hcomplete a hr hs).mem_of_forall_stop hall⟩
    rcases W.eq_empty_or_nonempty with hempty | hne
    · have hmax : W.max = ⊥ := Finset.max_eq_bot.mpr hempty
      refine ⟨W, drain_of_max_eq_bot hmax, hdone ?_⟩
      intro a ha
      rw [hempty] at ha
      cases ha
    · obtain ⟨x, hmax⟩ := Finset.max_of_nonempty hne
      have hxW : x ∈ W := Finset.mem_of_max hmax
      rw [drain_of_max_eq hmax]
      by_cases hsx : stop x = true
      · rw [if_pos hsx]
        exact ⟨W, rfl, hdone fun a ha => hdown x a (Finset.le_max_of_eq ha hmax) hsx⟩
      · have hsx' : stop x = false := by simpa using hsx
        rw [if_neg hsx]
        obtain ⟨ns, hns, hlt⟩ := hnext x (hsound x hxW) hsx'
        rw [hns]
        -- every element pending after the pop is below `x`
        have hbelow : ∀ a ∈ W.erase x ∪ ns, a < x := by
          intro a ha
          rcases Finset.mem_union.mp ha with ha | ha
          · obtain ⟨hax, haW⟩ := Finset.mem_erase.mp ha
            exact lt_of_le_of_ne (Finset.le_max_of_eq haW hmax) hax
          · exact hlt a ha
        refine ih _ ?_ ?_ ?_
        · intro a ha
          rcases Finset.mem_union.mp ha with ha | ha
          · exact hsound a (Finset.mem_of_mem_erase ha)
          · exact .step (hsound x hxW) hsx' hns ha
        · intro a hr hs
          rcases (hcomplete a hr hs).pop hsx' hns with rfl | h
          · rw [hs] at hsx'
            cases hsx'
          · exact h
        · -- the rank drops: `x` itself is no longer counted
          have hxU : x ∈ U := hU x (hsound x hxW) hsx'
          have hsub : U.filter (fun u : α => (u : WithBot α) ≤ (W.erase x ∪ ns).max) ⊆
              (U.filter fun u : α => (u : WithBot α) ≤ ↑x).erase x := by
            intro u hu
            obtain ⟨huU, hule⟩ := Finset.mem_filter.mp hu
            have hult : (u : WithBot α) < ↑x := by
              rcases (W.erase x ∪ ns).eq_empty_or_nonempty with he | hne'
              · rw [he, Finset.max_empty] at hule
                exact absurd hule (not_le.mpr (WithBot.bot_lt_coe u))
              · obtain ⟨m, hm⟩ := Finset.max_of_nonempty hne'
                rw [hm] at hule
                exact lt_of_le_of_lt hule
                  (WithBot.coe_lt_coe.mpr (hbelow m (Finset.mem_of_max hm)))
            refine Finset.mem_erase.mpr ⟨?_, Finset.mem_filter.mpr ⟨huU, hult.le⟩⟩
            rintro rfl
            exact lt_irrefl _ hult
          have hxmem : x ∈ U.filter (fun u : α => (u : WithBot α) ≤ ↑x) :=
            Finset.mem_filter.mpr ⟨hxU, le_rfl⟩
          have hcard := Finset.card_le_card hsub
          rw [Finset.card_erase_of_mem hxmem] at hcard
          have hpos : 0 < (U.filter fun u : α => (u : WithBot α) ≤ ↑x).card :=
            Finset.card_pos.mpr ⟨x, hxmem⟩
          unfold rank at hrank ⊢
          rw [hmax] at hrank
          omega

include hdown hnext hU in
/-- **Draining is reachability.** With successors below their element and a
downward-closed stopping test, fuel above the number of non-stopping
reachable elements suffices, and the loop returns exactly the stopping
elements reachable from the start. -/
theorem drain_spec {fuel : ℕ} (hfuel : U.card < fuel) :
    ∃ W, drain next stop fuel W₀ = some W ∧
      ∀ a, a ∈ W ↔ Reach next stop W₀ a ∧ stop a = true := by
  refine drain_spec_aux hdown hnext hU fuel W₀ (fun a ha => .base ha) (fun a ha _ => ha) ?_
  exact lt_of_le_of_lt (Finset.card_filter_le _ _) hfuel

end Spec

end Worklist
