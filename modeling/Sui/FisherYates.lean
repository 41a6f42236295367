import Mathlib.Data.List.Perm.Basic
import Mathlib.Data.List.Nodup

/-!
# Fisher–Yates shuffles

The Fisher–Yates (Knuth) shuffle of a list of length `n` walks the positions
`0, 1, …, n - 2`; at position `p` it picks a position `j` between `p` and the
last one and swaps the two. Here the picks are given as a list, so the
shuffle is a plain function of them (`shuffleFrom`, which starts at any
position `i`), and a list of picks is valid when each lies in its range
(`Choices`).

* **`shuffleFrom_perm`** — a shuffle permutes the list.
* **`existsUnique_shuffleFrom`** — over a list without duplicates, every
  permutation is reached by exactly one valid list of picks. Picks made
  uniformly and independently therefore give every permutation the same
  probability.

**Proof shape.** A pick at position `p` fixes that position for good, since
later swaps only touch later positions (`take_shuffleFrom`); so the pick at
`p` must bring the target's `p`-th element forward, which in a list without
duplicates only one position holds.
-/

namespace FisherYates

variable {β : Type}

/-- The shuffle from position `i` on: the `t`-th pick is swapped into position `i + t`. -/
def shuffleFrom : ℕ → List ℕ → List β → List β
  | _, [], v => v
  | i, j :: js, v => shuffleFrom (i + 1) js (v.swap i j)

/-- Valid picks from position `i` on, in a list of length `n`: one for every position but the
last, each between its position and the last one. -/
def Choices (n : ℕ) : ℕ → List ℕ → Prop
  | i, [] => i + 1 = n
  | i, j :: js => i ≤ j ∧ j < n ∧ Choices n (i + 1) js

theorem shuffleFrom_perm : ∀ (i : ℕ) (js : List ℕ) (v : List β), (shuffleFrom i js v).Perm v
  | _, [], v => List.Perm.refl v
  | i, j :: js, v => (shuffleFrom_perm (i + 1) js (v.swap i j)).trans (List.swap_perm v i j)

theorem Choices.length_eq {n : ℕ} : ∀ {i : ℕ} {js : List ℕ}, Choices n i js → i + js.length + 1 = n
  | _, [], h => h
  | _, _ :: _, h => by
    have hrest := h.2.2.length_eq
    rw [List.length_cons]
    omega

/-- A swap of two positions from `p` on leaves the first `p` entries alone. -/
theorem take_swap {v : List β} {p i j : ℕ} (hi : p ≤ i) (hj : p ≤ j) :
    (v.swap i j).take p = v.take p := by
  apply List.ext_getElem (by rw [List.length_take, List.length_take, List.length_swap])
  intro t h₁ _
  have ht : t < p := by
    rw [List.length_take] at h₁
    omega
  rw [List.getElem_take, List.getElem_take, List.getElem_swap_of_ne (by omega) (by omega)]

theorem take_succ_eq {w : List β} {i : ℕ} (hi : i < w.length) :
    w.take (i + 1) = w.take i ++ [w[i]] := by
  rw [List.take_add_one, List.getElem?_eq_getElem hi, Option.toList_some]

/-- Swapping `j` into position `i` brings its entry right after the untouched first `i`. -/
theorem take_succ_swap {v : List β} {i j : ℕ} (hij : i ≤ j) (hj : j < v.length) :
    (v.swap i j).take (i + 1) = v.take i ++ [v[j]] := by
  have hi : i < (v.swap i j).length := by
    rw [List.length_swap]
    omega
  rw [take_succ_eq hi, take_swap (Nat.le_refl i) hij, List.getElem_swap_left_of_lt hj]

/-- Valid picks from position `i` on leave the first `i` entries alone. -/
theorem take_shuffleFrom {n : ℕ} :
    ∀ {i : ℕ} {js : List ℕ} (v : List β), Choices n i js → (shuffleFrom i js v).take i = v.take i
  | _, [], _, _ => rfl
  | i, j :: js, v, ⟨hij, _, hrest⟩ => by
    have h := take_shuffleFrom (v.swap i j) hrest
    calc (shuffleFrom i (j :: js) v).take i
        = ((shuffleFrom (i + 1) js (v.swap i j)).take (i + 1)).take i := by
          rw [shuffleFrom, List.take_take, Nat.min_eq_left (Nat.le_succ i)]
      _ = v.take i := by
          rw [h, List.take_take, Nat.min_eq_left (Nat.le_succ i), take_swap (Nat.le_refl i) hij]

/-- A permutation that agrees with `v` on all but its last entry is `v`. -/
theorem eq_of_perm_of_take {v w : List β} {i : ℕ} (hw : w.Perm v) (hlen : v.length = i + 1)
    (htake : w.take i = v.take i) : w = v := by
  obtain ⟨a, ha⟩ := List.length_eq_one_iff.mp (show (v.drop i).length = 1 by
    rw [List.length_drop]
    omega)
  -- the entries after the common prefix are a permutation of `[a]`
  have hdrop : (w.drop i).Perm (v.drop i) := by
    have h := hw
    rw [← List.take_append_drop i w, ← List.take_append_drop i v, htake] at h
    exact List.perm_append_left_iff _ |>.mp h
  rw [ha, List.perm_singleton] at hdrop
  rw [← List.take_append_drop i w, ← List.take_append_drop i v, htake, hdrop, ha]

/-- Over a list without duplicates, each permutation that keeps the first `i` entries is the
shuffle from `i` of exactly one valid list of picks. -/
theorem existsUnique_shuffleFrom {n : ℕ} :
    ∀ (k i : ℕ) (v w : List β), i + k + 1 = n → v.length = n → v.Nodup → w.Perm v →
      w.take i = v.take i → ∃! js, Choices n i js ∧ shuffleFrom i js v = w
  | 0, i, v, w, hn, hv, _, hw, htake => by
    refine ⟨[], ⟨hn, (eq_of_perm_of_take hw (by omega) htake).symm⟩, ?_⟩
    rintro js ⟨hjs, -⟩
    have hlen := hjs.length_eq
    exact List.eq_nil_of_length_eq_zero (by omega)
  | k + 1, i, v, w, hn, hv, hnodup, hw, htake => by
    have hwlen : w.length = n := hw.length_eq.trans hv
    have hi : i < w.length := by omega
    have hwnodup : w.Nodup := hw.nodup_iff.mpr hnodup
    -- the pick at `i` must be where `v` holds the target's entry at `i`
    obtain ⟨j, hj, hvj⟩ := List.getElem_of_mem (hw.mem_iff.mp (List.getElem_mem hi))
    have hij : i ≤ j := by
      by_contra hji
      have hjw : j < w.length := by omega
      have hwj : w[j] = v[j] := by
        have h := congrArg (fun l => l[j]?) htake
        simp only [List.getElem?_take, if_pos (show j < i by omega)] at h
        rw [List.getElem?_eq_getElem hjw, List.getElem?_eq_getElem hj, Option.some.injEq] at h
        exact h
      have := (hwnodup.getElem_inj_iff).mp (hwj.trans hvj)
      omega
    have hv' : (v.swap i j).length = n := by rw [List.length_swap, hv]
    have hnodup' : (v.swap i j).Nodup := (List.swap_perm v i j).nodup_iff.mpr hnodup
    have hw' : w.Perm (v.swap i j) := hw.trans (List.swap_perm v i j).symm
    have htake' : w.take (i + 1) = (v.swap i j).take (i + 1) := by
      rw [take_succ_eq hi, take_succ_swap hij hj, htake, hvj]
    obtain ⟨js, ⟨hjs, hshuffle⟩, huniq⟩ :=
      existsUnique_shuffleFrom k (i + 1) (v.swap i j) w (by omega) hv' hnodup' hw' htake'
    refine ⟨j :: js, ⟨⟨hij, by omega, hjs⟩, hshuffle⟩, ?_⟩
    rintro (_ | ⟨j₂, js₂⟩) ⟨hjs₂, hshuffle₂⟩
    · have hlen : i + 1 = n := hjs₂
      omega
    · obtain ⟨hij₂, hj₂, hrest₂⟩ := hjs₂
      -- the first pick brought `v[j₂]` to position `i`, where the target has `v[j]`
      have htake₂ := take_shuffleFrom (v.swap i j₂) hrest₂
      rw [show shuffleFrom (i + 1) js₂ (v.swap i j₂) = w from hshuffle₂, take_succ_eq hi,
        take_succ_swap hij₂ (by omega), htake] at htake₂
      have hentry : w[i] = v[j₂] := by
        have h := (List.append_inj htake₂ rfl).2
        exact List.singleton_inj.mp h
      have hj₂j : j₂ = j := (hnodup.getElem_inj_iff).mp (hentry.symm.trans hvj.symm)
      subst hj₂j
      rw [huniq js₂ ⟨hrest₂, hshuffle₂⟩]

end FisherYates
