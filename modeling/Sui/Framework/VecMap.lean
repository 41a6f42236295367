import Sui.AssocList
import Sui.MoveArith

/-!
# Maps backed by a vector (`vec_map.move`)

A `VecMap<K, V>` keeps its entries in a vector, in the order they were
inserted, and finds a key by a scan from the front. Its documentation
promises no key twice; `insert` checks for the key before it pushes the
entry, and every other operation only deletes entries or rewrites a value in
place, so every map the module builds has distinct keys. The model carries
that promise as a field, `nodup`, and each operation that builds a map proves
it. An entry is a (key, value) pair.

The map a `VecMap` stands for is `lookup`, the value of the only entry of a
key. The lemmas say where each operation finds a key and what it leaves:

* `getIdxOpt_eq_length`: a key is found at the position of its entry, which
  is the first one of that key because no other has it; so `get`, `remove`
  and a write through `get_mut` act on that entry (`get_eq_ok`,
  `remove_eq_ok`, `write_eq_ok`) and abort exactly when the key is absent;
* `lookup_eq_some_iff`: `lookup` is membership of the entry;
* `fromKeysValues_intoKeysValues` and `intoKeysValues_fromKeysValues`:
  `from_keys_values` rebuilds a map from its keys and values, and returns
  exactly on columns of one length whose keys are distinct, which
  `into_keys_values` then gives back.
-/

namespace Sui

/-- A `VecMap<K, V>`: the entries in insertion order, no key twice. -/
structure VecMap (K V : Type) where
  contents : List (K × V)
  nodup : (contents.map Prod.fst).Nodup

namespace VecMap

open MoveArith

/-- The abort codes of vec_map. -/
inductive Code where
  /-- EKeyAlreadyExists -/
  | eKeyAlreadyExists
  /-- EKeyDoesNotExist -/
  | eKeyDoesNotExist
  /-- EMapNotEmpty -/
  | eMapNotEmpty
  /-- EIndexOutOfBounds -/
  | eIndexOutOfBounds
  /-- EMapEmpty -/
  | eMapEmpty
  /-- EUnequalLengths -/
  | eUnequalLengths
  deriving DecidableEq, Repr

variable {K V : Type}

/-- vec_map::empty -/
def empty : VecMap K V :=
  ⟨[], List.nodup_nil⟩

/-- vec_map::keys -/
def keys (self : VecMap K V) : List K :=
  self.contents.map Prod.fst

/-- vec_map::length -/
def length (self : VecMap K V) : ℕ :=
  self.contents.length

/-- vec_map::size, the deprecated name of `length`. -/
def size (self : VecMap K V) : ℕ :=
  self.contents.length

/-- vec_map::is_empty -/
def isEmpty (self : VecMap K V) : Bool :=
  self.length == 0

/-- vec_map::destroy_empty -/
def destroyEmpty (self : VecMap K V) : Except (Abort Code) Unit :=
  assert self.contents.isEmpty .eMapNotEmpty

/-- vec_map::into_keys_values: the keys and the values, each in entry order. -/
def intoKeysValues (self : VecMap K V) : List K × List V :=
  self.contents.unzip

/-- vector::remove on the entries: the entry at `idx` and the map without it. -/
def removeAt (self : VecMap K V) (idx : ℕ) : Except (Abort Code) ((K × V) × VecMap K V) :=
  if h : idx < self.contents.length then
    .ok (self.contents[idx], ⟨self.contents.eraseIdx idx,
      by rw [AssocList.map_fst_eraseIdx]; exact self.nodup.eraseIdx idx⟩)
  else .error .indexOutOfBounds

/-- A write of `value` through a mutable reference to the value of entry `idx`. -/
def writeAt (self : VecMap K V) (idx : ℕ) (value : V) : Except (Abort Code) (VecMap K V) :=
  if idx < self.contents.length then
    .ok ⟨self.contents.modify idx (fun e => (e.1, value)),
      by rw [AssocList.map_fst_modify (g := fun e => (e.1, value)) _ _ (fun _ => rfl)]; exact self.nodup⟩
  else .error .indexOutOfBounds

/-- vec_map::pop: vector::pop_back on the entries, after the EMapEmpty check. -/
def pop (self : VecMap K V) : Except (Abort Code) ((K × V) × VecMap K V) := do
  assert (self.contents.length ≠ 0) .eMapEmpty
  self.removeAt (self.contents.length - 1)

/-- vec_map::get_entry_by_idx -/
def getEntryByIdx (self : VecMap K V) (idx : ℕ) : Except (Abort Code) (K × V) := do
  assert (idx < self.length) .eIndexOutOfBounds
  getAt self.contents idx

/-- vec_map::remove_entry_by_idx -/
def removeEntryByIdx (self : VecMap K V) (idx : ℕ) : Except (Abort Code) ((K × V) × VecMap K V) := do
  assert (idx < self.length) .eIndexOutOfBounds
  self.removeAt idx

/-- A write of `value` through the reference vec_map::get_entry_by_idx_mut returns. -/
def writeEntryByIdx (self : VecMap K V) (idx : ℕ) (value : V) : Except (Abort Code) (VecMap K V) := do
  assert (idx < self.length) .eIndexOutOfBounds
  self.writeAt idx value

section Keyed

variable [DecidableEq K]

/-- vec_map::get_idx_opt: the first position whose entry has the key. -/
def getIdxOpt (self : VecMap K V) (key : K) : Option ℕ :=
  self.contents.findIdx? (·.1 == key)

/-- vec_map::get_idx, which aborts when the key is absent. -/
def getIdx (self : VecMap K V) (key : K) : Except (Abort Code) ℕ :=
  match self.getIdxOpt key with
  | some idx => .ok idx
  | none => .error (.abort .eKeyDoesNotExist)

/-- vec_map::contains -/
def contains (self : VecMap K V) (key : K) : Bool :=
  (self.getIdxOpt key).isSome

theorem contains_iff {self : VecMap K V} {key : K} : self.contains key = true ↔ key ∈ self.keys := by
  simp [contains, getIdxOpt, List.findIdx?_isSome, keys]

/-- vec_map::insert: aborts when the key is present, else pushes the entry at the back. -/
def insert (self : VecMap K V) (key : K) (value : V) : Except (Abort Code) (VecMap K V) :=
  if h : self.contains key then .error (.abort .eKeyAlreadyExists)
  else .ok ⟨self.contents ++ [(key, value)], by
    have hkey : key ∉ self.keys := fun hmem => h (contains_iff.mpr hmem)
    rw [List.map_append, List.map_singleton, List.nodup_append_comm, List.singleton_append]
    exact List.nodup_cons.mpr ⟨hkey, self.nodup⟩⟩

/-- vec_map::remove: the entry of the key and the map without it. -/
def remove (self : VecMap K V) (key : K) : Except (Abort Code) ((K × V) × VecMap K V) := do
  let idx ← self.getIdx key
  self.removeAt idx

/-- The idiom `if (self.contains(&key)) self.remove(&key);` of vec_map's
callers: the map without the key, whether it held it or not. -/
def removeIfContains (self : VecMap K V) (key : K) : Except (Abort Code) (VecMap K V) :=
  if self.contains key then do
    let (_, self) ← self.remove key
    pure self
  else pure self

/-- vec_map::get -/
def get (self : VecMap K V) (key : K) : Except (Abort Code) V := do
  let idx ← self.getIdx key
  let entry ← getAt self.contents idx
  pure entry.2

/-- A write of `value` through the reference vec_map::get_mut returns for `key`. -/
def write (self : VecMap K V) (key : K) (value : V) : Except (Abort Code) (VecMap K V) := do
  let idx ← self.getIdx key
  self.writeAt idx value

/-- vec_map::try_get -/
def tryGet (self : VecMap K V) (key : K) : Except (Abort Code) (Option V) :=
  if self.contains key then some <$> self.get key else pure none

/-- vec_map::from_keys_values: after the EUnequalLengths check, each pair
inserted in turn into the empty map. -/
def fromKeysValues (keys : List K) (values : List V) : Except (Abort Code) (VecMap K V) := do
  assert (keys.length = values.length) .eUnequalLengths
  (keys.zip values).foldlM (fun contents kv => contents.insert kv.1 kv.2) empty

/-- The map a `VecMap` stands for: the value of the entry of the key. -/
def lookup (self : VecMap K V) (key : K) : Option V :=
  (self.contents.find? (·.1 == key)).map Prod.snd

end Keyed

theorem ext {self self' : VecMap K V} (h : self.contents = self'.contents) : self = self' := by
  cases self
  cases self'
  cases h
  rfl

section Lemmas

variable {self self' : VecMap K V} {key : K} {value v : V} {e : K × V} {A B : List (K × V)}

/-! ### Operations at a position -/

theorem removeAt_append_length (h : self.contents = A ++ (key, v) :: B) :
    ∃ self', self.removeAt A.length = .ok ((key, v), self') ∧ self'.contents = A ++ B := by
  have hlt : A.length < self.contents.length := by simp [h]
  have hentry : self.contents[A.length] = (key, v) := by simp [h]
  refine ⟨_, by rw [removeAt, dif_pos hlt, hentry], ?_⟩
  change self.contents.eraseIdx A.length = A ++ B
  rw [h, AssocList.eraseIdx_append_length]

theorem writeAt_append_length (h : self.contents = A ++ (key, v) :: B) (value : V) :
    ∃ self', self.writeAt A.length value = .ok self' ∧ self'.contents = A ++ (key, value) :: B := by
  have hlt : A.length < self.contents.length := by simp [h]
  refine ⟨_, if_pos hlt, ?_⟩
  change self.contents.modify A.length _ = _
  rw [h, AssocList.modify_append_length]

theorem exists_eq_append_of_mem_keys (hk : key ∈ self.keys) :
    ∃ A v B, self.contents = A ++ (key, v) :: B := by
  obtain ⟨⟨k, v⟩, hmem, rfl⟩ := List.mem_map.mp hk
  obtain ⟨A, B, h⟩ := List.mem_iff_append.mp hmem
  exact ⟨A, v, B, h⟩

variable [DecidableEq K]

/-! ### Finding a key -/

/-- A key is found at the position of its entry. -/
theorem getIdxOpt_eq_length (h : self.contents = A ++ (key, v) :: B) :
    self.getIdxOpt key = some A.length := by
  rw [getIdxOpt, h]
  exact AssocList.findIdx?_eq_length (AssocList.not_mem_of_eq_append self.nodup h).1

theorem getIdxOpt_eq_none (hk : key ∉ self.keys) : self.getIdxOpt key = none := by
  rw [getIdxOpt, List.findIdx?_eq_none_iff]
  intro e he
  simpa using fun hkey => hk (List.mem_map.mpr ⟨e, he, hkey⟩)

theorem getIdx_eq_length (h : self.contents = A ++ (key, v) :: B) :
    self.getIdx key = .ok A.length := by
  rw [getIdx, getIdxOpt_eq_length h]

theorem getIdx_eq_error (hk : key ∉ self.keys) :
    self.getIdx key = .error (.abort .eKeyDoesNotExist) := by
  rw [getIdx, getIdxOpt_eq_none hk]

theorem contains_eq_false (hk : key ∉ self.keys) : self.contains key = false :=
  Bool.eq_false_iff.mpr fun h => hk (contains_iff.mp h)

/-! ### The keyed operations -/

theorem insert_eq_ok (hk : key ∉ self.keys) (value : V) :
    ∃ self', self.insert key value = .ok self' ∧ self'.contents = self.contents ++ [(key, value)] :=
  ⟨_, dif_neg (by simpa [contains_iff] using hk), rfl⟩

theorem insert_eq_error (hk : key ∈ self.keys) (value : V) :
    self.insert key value = .error (.abort .eKeyAlreadyExists) :=
  dif_pos (contains_iff.mpr hk)

theorem eq_of_insert_eq_ok (h : self.insert key value = .ok self') :
    key ∉ self.keys ∧ self'.contents = self.contents ++ [(key, value)] := by
  by_cases hk : key ∈ self.keys
  · rw [insert_eq_error hk] at h
    cases h
  · obtain ⟨s, hs, hcontents⟩ := insert_eq_ok hk value
    rw [hs] at h
    cases h
    exact ⟨hk, hcontents⟩

theorem remove_eq_ok (h : self.contents = A ++ (key, v) :: B) :
    ∃ self', self.remove key = .ok ((key, v), self') ∧ self'.contents = A ++ B := by
  obtain ⟨self', hremove, hcontents⟩ := removeAt_append_length h
  exact ⟨self', by rw [remove, getIdx_eq_length h, ok_bind, hremove], hcontents⟩

theorem remove_eq_error (hk : key ∉ self.keys) :
    self.remove key = .error (.abort .eKeyDoesNotExist) := by
  rw [remove, getIdx_eq_error hk]
  rfl

theorem get_eq_ok (h : self.contents = A ++ (key, v) :: B) : self.get key = .ok v := by
  have hlt : A.length < self.contents.length := by simp [h]
  have hentry : self.contents[A.length] = (key, v) := by simp [h]
  rw [get, getIdx_eq_length h, ok_bind, getAt, dif_pos hlt, ok_bind, hentry]
  rfl

theorem get_eq_error (hk : key ∉ self.keys) : self.get key = .error (.abort .eKeyDoesNotExist) := by
  rw [get, getIdx_eq_error hk]
  rfl

theorem write_eq_ok (h : self.contents = A ++ (key, v) :: B) (value : V) :
    ∃ self', self.write key value = .ok self' ∧ self'.contents = A ++ (key, value) :: B := by
  obtain ⟨self', hwrite, hcontents⟩ := writeAt_append_length h value
  exact ⟨self', by rw [write, getIdx_eq_length h, ok_bind, hwrite], hcontents⟩

theorem write_eq_error (hk : key ∉ self.keys) (value : V) :
    self.write key value = .error (.abort .eKeyDoesNotExist) := by
  rw [write, getIdx_eq_error hk]
  rfl

/-- A removal that returns took out the entry of the key, wherever it stood. -/
theorem eq_of_remove_eq_ok (h : self.remove key = .ok (e, self')) :
    ∃ A v B, self.contents = A ++ (key, v) :: B ∧ e = (key, v) ∧ self'.contents = A ++ B := by
  by_cases hk : key ∈ self.keys
  · obtain ⟨A, v, B, hsplit⟩ := exists_eq_append_of_mem_keys hk
    obtain ⟨s, hs, hcontents⟩ := remove_eq_ok hsplit
    rw [hs] at h
    cases h
    exact ⟨A, v, B, hsplit, rfl, hcontents⟩
  · rw [remove_eq_error hk] at h
    cases h

theorem eq_of_write_eq_ok (h : self.write key value = .ok self') :
    ∃ A v B, self.contents = A ++ (key, v) :: B ∧ self'.contents = A ++ (key, value) :: B := by
  by_cases hk : key ∈ self.keys
  · obtain ⟨A, v, B, hsplit⟩ := exists_eq_append_of_mem_keys hk
    obtain ⟨s, hs, hcontents⟩ := write_eq_ok hsplit value
    rw [hs] at h
    cases h
    exact ⟨A, v, B, hsplit, hcontents⟩
  · rw [write_eq_error hk] at h
    cases h

theorem eq_of_get_eq_ok (h : self.get key = .ok value) : (key, value) ∈ self.contents := by
  by_cases hk : key ∈ self.keys
  · obtain ⟨A, v, B, hsplit⟩ := exists_eq_append_of_mem_keys hk
    rw [get_eq_ok hsplit] at h
    cases h
    simp [hsplit]
  · rw [get_eq_error hk] at h
    cases h

/-! ### The map a vector stands for -/

theorem lookup_eq_some_iff : self.lookup key = some v ↔ (key, v) ∈ self.contents :=
  AssocList.find?_eq_some_iff self.nodup

theorem lookup_eq_none_iff : self.lookup key = none ↔ key ∉ self.keys :=
  AssocList.find?_eq_none_iff

/-- A map that agrees with another away from `key` is the other updated at
`key`. -/
theorem lookup_eq_update
    (hother : ∀ k v, k ≠ key → ((k, v) ∈ self'.contents ↔ (k, v) ∈ self.contents)) :
    self'.lookup = Function.update self.lookup key (self'.lookup key) := by
  funext k
  by_cases hk : k = key
  · subst hk
    rw [Function.update_self]
  · rw [Function.update_of_ne hk]
    apply Option.ext
    intro v
    rw [lookup_eq_some_iff, lookup_eq_some_iff]
    exact hother k v hk

theorem lookup_of_insert_eq_ok (h : self.insert key value = .ok self') :
    self'.lookup = Function.update self.lookup key (some value) := by
  have hcontents := (eq_of_insert_eq_ok h).2
  have hkey : self'.lookup key = some value := lookup_eq_some_iff.mpr (by simp [hcontents])
  rw [← hkey]
  apply lookup_eq_update
  intro k v hk
  simp [hcontents, hk]

theorem lookup_of_write_eq_ok (h : self.write key value = .ok self') :
    self'.lookup = Function.update self.lookup key (some value) := by
  obtain ⟨A, v, B, hsplit, hcontents⟩ := eq_of_write_eq_ok h
  have hkey : self'.lookup key = some value := lookup_eq_some_iff.mpr (by simp [hcontents])
  rw [← hkey]
  apply lookup_eq_update
  intro k v hk
  simp [hsplit, hcontents, hk]

/-- Taking a key out when present never aborts, and leaves the other entries
in their order. -/
theorem removeIfContains_eq_ok (self : VecMap K V) (key : K) :
    ∃ self', self.removeIfContains key = .ok self' ∧
      self'.contents = self.contents.filter (fun e => e.1 ≠ key) := by
  by_cases hk : key ∈ self.keys
  · obtain ⟨A, v, B, hsplit⟩ := exists_eq_append_of_mem_keys hk
    obtain ⟨s, hs, hcontents⟩ := remove_eq_ok hsplit
    obtain ⟨hA, hB⟩ := AssocList.not_mem_of_eq_append self.nodup hsplit
    refine ⟨s, by rw [removeIfContains, if_pos (contains_iff.mpr hk), hs]; rfl, ?_⟩
    have hfilter : ∀ l : List (K × V), key ∉ l.map Prod.fst → l.filter (fun e => e.1 ≠ key) = l :=
      fun l hl => List.filter_eq_self.mpr fun e he => by
        simpa using fun hkey => hl (List.mem_map.mpr ⟨e, he, hkey⟩)
    rw [hcontents, hsplit, List.filter_append, List.filter_cons_of_neg (by simp), hfilter A hA,
      hfilter B hB]
  · refine ⟨self, by rw [removeIfContains, contains_eq_false hk]; rfl, ?_⟩
    refine (List.filter_eq_self.mpr fun e he => ?_).symm
    simpa using fun hkey => hk (List.mem_map.mpr ⟨e, he, hkey⟩)

theorem lookup_of_removeIfContains_eq_ok (h : self.removeIfContains key = .ok self') :
    self'.lookup = Function.update self.lookup key none := by
  obtain ⟨s, hs, hcontents⟩ := removeIfContains_eq_ok self key
  rw [hs] at h
  cases h
  have hkey : self'.lookup key = none := by
    rw [lookup_eq_none_iff, keys, hcontents]
    simp
  rw [← hkey]
  apply lookup_eq_update
  intro k v hk
  simp [hcontents, hk]

/-! ### Building a map from its columns -/

/-- Inserting pairs one by one returns exactly when their keys are new and
distinct. -/
theorem foldlM_insert_eq_ok_iff :
    ∀ {pairs : List (K × V)} {self : VecMap K V},
      (∃ self', pairs.foldlM (fun m kv => m.insert kv.1 kv.2) self = .ok self') ↔
        (self.keys ++ pairs.map Prod.fst).Nodup
  | [], self => by
    simp only [List.foldlM_nil, List.map_nil, List.append_nil]
    exact ⟨fun _ => self.nodup, fun _ => ⟨self, rfl⟩⟩
  | (key, value) :: pairs, self => by
    rw [List.foldlM_cons]
    by_cases hkey : key ∈ self.keys
    · rw [insert_eq_error hkey]
      have hdup : ¬(self.keys ++ ((key, value) :: pairs).map Prod.fst).Nodup := fun hnd =>
        List.disjoint_of_nodup_append hnd hkey List.mem_cons_self
      simp only [hdup, iff_false, not_exists]
      intro s h
      cases h
    · obtain ⟨s, hs, hcontents⟩ := insert_eq_ok hkey value
      have hkeys : s.keys = self.keys ++ [key] := by simp [keys, hcontents]
      rw [hs, ok_bind, foldlM_insert_eq_ok_iff, hkeys, List.append_assoc, List.map_cons,
        List.singleton_append]

/-- ... and then appends them. -/
theorem contents_of_foldlM_insert_eq_ok :
    ∀ {pairs : List (K × V)} {self self' : VecMap K V},
      pairs.foldlM (fun m kv => m.insert kv.1 kv.2) self = .ok self' →
        self'.contents = self.contents ++ pairs
  | [], self, self', h => by
    cases h
    simp
  | (key, value) :: pairs, self, self', h => by
    rw [List.foldlM_cons] at h
    obtain ⟨s, hs, hrest⟩ := bind_eq_ok.mp h
    rw [contents_of_foldlM_insert_eq_ok hrest, (eq_of_insert_eq_ok hs).2, List.append_assoc,
      List.singleton_append]

/-- `from_keys_values` returns exactly on columns of one length whose keys are
distinct. -/
theorem fromKeysValues_isOk_iff (ks : List K) (vs : List V) :
    (∃ self, fromKeysValues ks vs = .ok self) ↔ ks.length = vs.length ∧ ks.Nodup := by
  by_cases hlen : ks.length = vs.length
  · have hfst : (ks.zip vs).map Prod.fst = ks := List.map_fst_zip (le_of_eq hlen)
    rw [fromKeysValues, assert_eq_ok hlen, ok_bind, foldlM_insert_eq_ok_iff, hfst]
    simp [hlen, keys, empty]
  · rw [fromKeysValues, assert, if_neg hlen]
    simp only [hlen, false_and, iff_false, not_exists]
    intro s h
    cases h

/-- `into_keys_values` gives back the columns `from_keys_values` was built from. -/
theorem intoKeysValues_fromKeysValues {ks : List K} {vs : List V}
    (h : fromKeysValues ks vs = .ok self) : self.intoKeysValues = (ks, vs) := by
  rw [fromKeysValues] at h
  obtain ⟨u, hassert, hfold⟩ := bind_eq_ok.mp h
  have hlen := of_assert_eq_ok hassert
  rw [intoKeysValues, contents_of_foldlM_insert_eq_ok hfold]
  simpa [empty] using List.unzip_zip hlen

/-- `from_keys_values` rebuilds a map from the columns `into_keys_values` gives. -/
theorem fromKeysValues_intoKeysValues (self : VecMap K V) :
    fromKeysValues self.intoKeysValues.1 self.intoKeysValues.2 = .ok self := by
  have hlen : self.intoKeysValues.1.length = self.intoKeysValues.2.length := by
    simp [intoKeysValues]
  obtain ⟨s, hs⟩ := (fromKeysValues_isOk_iff _ _).mpr ⟨hlen, by simpa [intoKeysValues] using self.nodup⟩
  rw [hs]
  congr 1
  apply ext
  have hcols := intoKeysValues_fromKeysValues hs
  rw [← List.zip_unzip s.contents, ← List.zip_unzip self.contents]
  exact congrArg (fun p => p.1.zip p.2) hcols

end Lemmas

end VecMap

end Sui
