import Mathlib.Data.List.Sort

/-!
# Ordered maps and sets as sorted lists

An ordered map (a B-tree map) is modelled by the list of its entries in
increasing key order, an ordered set (a bitmap of indices) by the list of its
keys in increasing order. Inserting a key that is present overwrites its
value, and a set keeps it; a new key is put at its place. Collecting a list of
pairs into a map inserts them in turn, so a later value of a repeated key wins.

What the proofs use is how inserts move the contents: without a repeated key,
a map collected from a list holds a permutation of the list (`ofList_perm`),
and a set grows by the key inserted (`SortedSet.insert_perm`), staying
strictly sorted (`SortedSet.pairwise_insert`).
-/

variable {κ β : Type} [LinearOrder κ]

namespace SortedMap

/-- Insert a key and its value into a map. -/
def insert (k : κ) (v : β) (m : List (κ × β)) : List (κ × β) :=
  if k ∈ m.map Prod.fst then m.map fun p => if p.1 = k then (k, v) else p
  else m.orderedInsert (fun p q => p.1 ≤ q.1) (k, v)

/-- Collect a list of pairs into a map. -/
def ofList (l : List (κ × β)) : List (κ × β) := l.foldl (fun m p => insert p.1 p.2 m) []

theorem insert_perm {k : κ} {v : β} {m : List (κ × β)} (h : k ∉ m.map Prod.fst) :
    (insert k v m).Perm ((k, v) :: m) := by
  rw [insert, if_neg h]
  exact List.perm_orderedInsert _ _ _

/-- Collecting pairs of distinct keys into a map holding some entries puts
them in front of those entries, up to order. -/
theorem foldl_insert_perm :
    ∀ (l m : List (κ × β)), (m.map Prod.fst ++ l.map Prod.fst).Nodup →
      (l.foldl (fun m p => insert p.1 p.2 m) m).Perm (l.reverse ++ m)
  | [], m, _ => by simp
  | p :: l, m, hnd => by
    rw [List.map_cons, List.nodup_append, List.nodup_cons] at hnd
    obtain ⟨hm, ⟨hp, hl⟩, hdisj⟩ := hnd
    have hpm : p.1 ∉ m.map Prod.fst := fun h => hdisj _ h _ List.mem_cons_self rfl
    have hins := insert_perm (v := p.2) hpm
    -- the keys of the new map are those of `m` and `p`
    have hnd' : ((insert p.1 p.2 m).map Prod.fst ++ l.map Prod.fst).Nodup := by
      rw [((hins.map Prod.fst).append_right _).nodup_iff, List.map_cons, List.cons_append,
        List.nodup_cons, List.nodup_append]
      refine ⟨?_, hm, hl, fun a ha b hb hab => hdisj a ha b (List.mem_cons_of_mem _ hb) hab⟩
      rw [List.mem_append, not_or]
      exact ⟨hpm, hp⟩
    rw [List.foldl_cons, List.reverse_cons, List.append_assoc, List.singleton_append]
    exact (foldl_insert_perm l _ hnd').trans ((hins.append_left _).trans (by rfl))

/-- Without a repeated key, collecting a list into a map keeps its entries. -/
theorem ofList_perm {l : List (κ × β)} (hnd : (l.map Prod.fst).Nodup) : (ofList l).Perm l := by
  have h := foldl_insert_perm l [] (by simpa using hnd)
  rw [List.append_nil] at h
  exact h.trans (List.reverse_perm l)

end SortedMap

namespace SortedSet

/-- Insert a key into a set. -/
def insert (k : κ) (s : List κ) : List κ := if k ∈ s then s else s.orderedInsert (· ≤ ·) k

theorem insert_perm {k : κ} {s : List κ} (h : k ∉ s) : (insert k s).Perm (k :: s) := by
  rw [insert, if_neg h]
  exact List.perm_orderedInsert _ _ _

theorem mem_insert {k a : κ} {s : List κ} : a ∈ insert k s ↔ a = k ∨ a ∈ s := by
  unfold insert
  split_ifs with h
  · exact ⟨.inr, fun h' => h'.elim (fun e => e ▸ h) id⟩
  · exact List.mem_orderedInsert _

/-- A set stays strictly sorted. -/
theorem pairwise_insert {k : κ} {s : List κ} (hs : s.Pairwise (· < ·)) :
    (insert k s).Pairwise (· < ·) := by
  by_cases h : k ∈ s
  · rwa [insert, if_pos h]
  · have hle : (insert k s).Pairwise (· ≤ ·) := by
      rw [insert, if_neg h]
      exact (hs.imp le_of_lt).orderedInsert k s
    have hnd : (insert k s).Nodup := (insert_perm h).nodup_iff.mpr
      (List.nodup_cons.mpr ⟨h, hs.imp ne_of_lt⟩)
    exact (hle.and hnd).imp fun hab => lt_of_le_of_ne hab.1 hab.2

end SortedSet
