import Sui.MoveArith
import Sui.LinkedKeys

set_option linter.dupNamespace false

/-!
# Linked tables (`sui::linked_table`)

A `LinkedTable` stores each entry as a dynamic field of the table's object, a
`Node` under the entry's key holding the value and the keys before and after
it; the table itself keeps the number of entries and the first and last keys.
The dynamic fields are a map from keys to nodes (`DynamicField`), whose `add`,
`borrow` and `remove` abort as `sui::dynamic_field` does; the size is a `u64`
whose `+ 1` and `- 1` are checked (`MoveArith`).

An abstract state is a list of distinct keys and their values; `toTable ks vals`
is the table that stores it, each node linked to its neighbours in `ks`
(`LinkedKeys.nextOf`, `LinkedKeys.prevOf`).

* **`Linked`** — the representation invariant, read off a table: walking `next`
  from the head meets every stored key once and ends at the tail, the `prev`
  links mirror the `next` links, the head has no `prev` and the tail no `next`.
* **`linked_toTable`**, **`eq_toTable_of_linked`** — the tables with the
  invariant are exactly the tables of abstract states, `keys` and `values`
  reading the state back.
* **`pushFront_toTable`**, **`pushBack_toTable`**, **`insertBefore_toTable`**,
  **`insertAfter_toTable`**, **`remove_toTable`**, **`popFront_toTable`**,
  **`popBack_toTable`** — each call on the table of a state is the table of
  the updated state, or the abort the source raises, with its code.

**Proof shape.** Every insertion puts `k` between two neighbours and every
removal takes it out, so two lemmas say what that does to the links
(`toTable_insert_fields`, `toTable_erase_fields`); each call is then shown to
make those writes in its own order.
-/

namespace Sui

namespace LinkedTable

open MoveArith LinkedKeys

/-- The abort codes a linked-table call can end with: its own, and those of the
`dynamic_field` and `option` functions it calls. -/
inductive Code
  | eTableNotEmpty
  | eTableIsEmpty
  | eFieldAlreadyExists
  | eFieldDoesNotExist
  | eOptionNotSet
  deriving DecidableEq, Repr

/-! ### Dynamic fields -/

namespace DynamicField

variable {K α : Type} [DecidableEq K]

/-- `df::add`: a new field, aborting when the key has one already. -/
def add (fields : K → Option α) (k : K) (v : α) : Except (Abort Code) (K → Option α) :=
  if (fields k).isSome then throw (.abort .eFieldAlreadyExists)
  else pure (Function.update fields k (some v))

/-- `df::borrow`, aborting when the key has no field. -/
def borrow (fields : K → Option α) (k : K) : Except (Abort Code) α :=
  match fields k with
  | some v => pure v
  | none => throw (.abort .eFieldDoesNotExist)

/-- A write through `df::borrow_mut`. -/
def borrowMut (fields : K → Option α) (k : K) (f : α → α) :
    Except (Abort Code) (K → Option α) := do
  let v ← borrow fields k
  pure (Function.update fields k (some (f v)))

/-- A write through `df::borrow_mut` at the key an option holds, if it holds one:
`o.do!` and `o.map!` around a `borrow_mut`. -/
def borrowMutSome (fields : K → Option α) (o : Option K) (f : α → α) :
    Except (Abort Code) (K → Option α) :=
  match o with
  | some k => borrowMut fields k f
  | none => pure fields

/-- `df::remove`. -/
def remove (fields : K → Option α) (k : K) : Except (Abort Code) (α × (K → Option α)) := do
  let v ← borrow fields k
  pure (v, Function.update fields k none)

/-- `df::exists_with_type`: only nodes are stored under the keys of a table. -/
def existsWithType (fields : K → Option α) (k : K) : Bool := (fields k).isSome

variable {fields : K → Option α} {k : K}

theorem add_eq_ok (h : fields k = none) (v : α) :
    add fields k v = .ok (Function.update fields k (some v)) := by
  simp [add, h, pure, Except.pure]

theorem add_eq_error (h : (fields k).isSome) (v : α) :
    add fields k v = .error (.abort .eFieldAlreadyExists) := by
  simp [add, h, throw, throwThe, MonadExceptOf.throw]

omit [DecidableEq K] in
theorem borrow_eq_ok {v : α} (h : fields k = some v) : borrow fields k = .ok v := by
  simp [borrow, h, pure, Except.pure]

omit [DecidableEq K] in
theorem borrow_eq_error (h : fields k = none) :
    borrow fields k = .error (.abort .eFieldDoesNotExist) := by
  simp [borrow, h, throw, throwThe, MonadExceptOf.throw]

theorem borrowMut_eq_ok {v : α} (h : fields k = some v) (f : α → α) :
    borrowMut fields k f = .ok (Function.update fields k (some (f v))) := by
  rw [borrowMut, borrow_eq_ok h, ok_bind]
  rfl

/-- A write at an optional key that is present changes that key's field only. -/
theorem borrowMutSome_eq_ok {o : Option K} (h : ∀ j, o = some j → (fields j).isSome)
    (f : α → α) :
    borrowMutSome fields o f = .ok (fun j => if o = some j then (fields j).map f else fields j) := by
  cases o with
  | none => simp [borrowMutSome, pure, Except.pure]
  | some k =>
    obtain ⟨v, hv⟩ := Option.isSome_iff_exists.mp (h k rfl)
    rw [borrowMutSome, borrowMut_eq_ok hv]
    congr 1
    funext j
    by_cases hj : j = k
    · subst hj
      simp [hv]
    · simp [hj, Ne.symm hj]

/-- `o.fold!` over a write at the key `o` holds: the same write, and the result of the
branch taken. -/
theorem elim_borrowMut_eq_ok {β : Type} {o : Option K} (h : ∀ j, o = some j → (fields j).isSome)
    (x y : β) (f : α → α) :
    (o.elim (pure (x, fields)) fun p => do
        let fields ← borrowMut fields p f
        pure (y, fields) : Except (Abort Code) (β × (K → Option α))) =
      .ok (o.elim x fun _ => y, fun j => if o = some j then (fields j).map f else fields j) := by
  have hsome := borrowMutSome_eq_ok h f
  cases o with
  | none => simp [pure, Except.pure]
  | some k =>
    rw [borrowMutSome] at hsome
    rw [Option.elim, hsome, ok_bind]
    rfl

/-- A write at an optional key leaves every key stored or not as it was. -/
@[simp] theorem isSome_ite_map (o : Option K) (f : α → α) (j : K) :
    (if o = some j then (fields j).map f else fields j).isSome = (fields j).isSome := by
  split <;> simp

theorem remove_eq_ok {v : α} (h : fields k = some v) :
    remove fields k = .ok (v, Function.update fields k none) := by
  rw [remove, borrow_eq_ok h, ok_bind]
  rfl

theorem remove_eq_error (h : fields k = none) :
    remove fields k = .error (.abort .eFieldDoesNotExist) := by
  rw [remove, borrow_eq_error h]
  rfl

end DynamicField

/-- `option::borrow`, aborting on `none`. -/
def optionBorrow {K : Type} (o : Option K) : Except (Abort Code) K :=
  match o with
  | some k => pure k
  | none => throw (.abort .eOptionNotSet)

/-! ### The table -/

/-- `Node`: the keys before and after an entry, and its value. -/
structure Node (K V : Type) where
  prev : Option K
  next : Option K
  value : V

/-- `LinkedTable`: the dynamic fields of its object, a map from keys to nodes,
with the number of entries and the first and last keys. -/
@[ext]
structure LinkedTable (K V : Type) where
  fields : K → Option (Node K V)
  size : ℕ
  head : Option K
  tail : Option K

variable {K V : Type} [DecidableEq K]

/-- `new`: an empty table. -/
def new : LinkedTable K V := ⟨fun _ => none, 0, none, none⟩

/-- `front`: the first key. -/
def front (table : LinkedTable K V) : Option K := table.head

/-- `back`: the last key. -/
def back (table : LinkedTable K V) : Option K := table.tail

/-- `push_front`: insert `k` as the first key; aborts when `k` is present. -/
def pushFront (table : LinkedTable K V) (k : K) (value : V) :
    Except (Abort Code) (LinkedTable K V) := do
  -- `swap_or_fill` makes `k` the head and returns the old one
  let oldHead := table.head
  let tail := if table.tail.isNone then some k else table.tail
  let fields ← DynamicField.borrowMutSome table.fields oldHead fun node =>
    { node with prev := some k }
  let fields ← DynamicField.add fields k ⟨none, oldHead, value⟩
  let size ← add 64 table.size 1
  pure ⟨fields, size, some k, tail⟩

/-- `push_back`: insert `k` as the last key; aborts when `k` is present. -/
def pushBack (table : LinkedTable K V) (k : K) (value : V) :
    Except (Abort Code) (LinkedTable K V) := do
  let head := if table.head.isNone then some k else table.head
  let oldTail := table.tail
  let fields ← DynamicField.borrowMutSome table.fields oldTail fun node =>
    { node with next := some k }
  let fields ← DynamicField.add fields k ⟨oldTail, none, value⟩
  let size ← add 64 table.size 1
  pure ⟨fields, size, head, some k⟩

/-- `insert_before`: insert `k` just before `anchor`; aborts when `anchor` is
absent or `k` present. -/
def insertBefore (table : LinkedTable K V) (anchor k : K) (value : V) :
    Except (Abort Code) (LinkedTable K V) := do
  let anchorNode ← DynamicField.borrow table.fields anchor
  -- `swap_or_fill` on the anchor's `prev`
  let oldPrev := anchorNode.prev
  let fields := Function.update table.fields anchor (some { anchorNode with prev := some k })
  -- `old_prev.fold!`: with no key before the anchor, `k` becomes the head
  let (head, fields) ← oldPrev.elim (pure (some k, fields)) fun oldPrevK => do
    let fields ← DynamicField.borrowMut fields oldPrevK fun node => { node with next := some k }
    pure (table.head, fields)
  let fields ← DynamicField.add fields k ⟨oldPrev, some anchor, value⟩
  let size ← add 64 table.size 1
  pure ⟨fields, size, head, table.tail⟩

/-- `insert_after`: insert `k` just after `anchor`; aborts when `anchor` is
absent or `k` present. -/
def insertAfter (table : LinkedTable K V) (anchor k : K) (value : V) :
    Except (Abort Code) (LinkedTable K V) := do
  let anchorNode ← DynamicField.borrow table.fields anchor
  let oldNext := anchorNode.next
  let fields := Function.update table.fields anchor (some { anchorNode with next := some k })
  -- with no key after the anchor, `k` becomes the tail
  let (tail, fields) ← oldNext.elim (pure (some k, fields)) fun oldNextK => do
    let fields ← DynamicField.borrowMut fields oldNextK fun node => { node with prev := some k }
    pure (table.tail, fields)
  let fields ← DynamicField.add fields k ⟨some anchor, oldNext, value⟩
  let size ← add 64 table.size 1
  pure ⟨fields, size, table.head, tail⟩

/-- `borrow`: the value under `k`. -/
def borrow (table : LinkedTable K V) (k : K) : Except (Abort Code) V := do
  let node ← DynamicField.borrow table.fields k
  pure node.value

/-- A write through `borrow_mut`: the value under `k` replaced by `f` of it. -/
def borrowMut (table : LinkedTable K V) (k : K) (f : V → V) :
    Except (Abort Code) (LinkedTable K V) := do
  let fields ← DynamicField.borrowMut table.fields k fun node => { node with value := f node.value }
  pure { table with fields }

/-- `prev`: the key before `k`. -/
def prev (table : LinkedTable K V) (k : K) : Except (Abort Code) (Option K) := do
  let node ← DynamicField.borrow table.fields k
  pure node.prev

/-- `next`: the key after `k`. -/
def next (table : LinkedTable K V) (k : K) : Except (Abort Code) (Option K) := do
  let node ← DynamicField.borrow table.fields k
  pure node.next

/-- `remove`: take `k` out, splicing its neighbours together, and return its
value; aborts when `k` is absent. -/
def remove (table : LinkedTable K V) (k : K) : Except (Abort Code) (V × LinkedTable K V) := do
  let (node, fields) ← DynamicField.remove table.fields k
  let size ← sub table.size 1
  -- `prev.do!` and `next.do!`
  let fields ← DynamicField.borrowMutSome fields node.prev fun n => { n with next := node.next }
  let fields ← DynamicField.borrowMutSome fields node.next fun n => { n with prev := node.prev }
  -- the head and tail are compared with `k` after the splice
  let headK ← optionBorrow table.head
  let head := if headK = k then node.next else table.head
  let tailK ← optionBorrow table.tail
  let tail := if tailK = k then node.prev else table.tail
  pure (node.value, ⟨fields, size, head, tail⟩)

/-- `pop_front`: remove the first key; aborts when the table is empty. -/
def popFront (table : LinkedTable K V) : Except (Abort Code) ((K × V) × LinkedTable K V) := do
  -- `destroy_or!`
  let head ← match table.head with
    | some head => pure head
    | none => throw (.abort .eTableIsEmpty)
  let (value, table) ← remove table head
  pure ((head, value), table)

/-- `pop_back`: remove the last key; aborts when the table is empty. -/
def popBack (table : LinkedTable K V) : Except (Abort Code) ((K × V) × LinkedTable K V) := do
  let tail ← match table.tail with
    | some tail => pure tail
    | none => throw (.abort .eTableIsEmpty)
  let (value, table) ← remove table tail
  pure ((tail, value), table)

/-- `contains`. -/
def contains (table : LinkedTable K V) (k : K) : Bool :=
  DynamicField.existsWithType table.fields k

/-- `length`. -/
def length (table : LinkedTable K V) : ℕ := table.size

/-- `is_empty`. -/
def isEmpty (table : LinkedTable K V) : Bool := table.size == 0

/-- `destroy_empty`: aborts when the table has entries. -/
def destroyEmpty (table : LinkedTable K V) : Except (Abort Code) Unit :=
  assert (table.size = 0) .eTableNotEmpty

/-! ### The table of an abstract state -/

/-- The table storing the keys `ks` in this order, with the values `vals`. -/
def toTable (ks : List K) (vals : K → Option V) : LinkedTable K V where
  fields j := (vals j).map fun value => ⟨prevOf ks j, nextOf ks j, value⟩
  size := ks.length
  head := ks.head?
  tail := ks.getLast?

/-- An abstract state: distinct keys, a value for each key and for no other, and no more keys
than a `u64` counts. -/
structure Valid (ks : List K) (vals : K → Option V) : Prop where
  nodup : ks.Nodup
  isSome_iff : ∀ j, (vals j).isSome ↔ j ∈ ks
  length_lt : ks.length < 2 ^ 64

section Abstract

variable {ks : List K} {vals : K → Option V}

@[simp] theorem toTable_size : (toTable ks vals).size = ks.length := rfl
@[simp] theorem toTable_head : (toTable ks vals).head = ks.head? := rfl
@[simp] theorem toTable_tail : (toTable ks vals).tail = ks.getLast? := rfl

omit [DecidableEq K] in
theorem Valid.eq_none (hv : Valid ks vals) {j : K} (h : j ∉ ks) : vals j = none :=
  Option.not_isSome_iff_eq_none.mp (mt (hv.isSome_iff j).mp h)

theorem toTable_fields_isSome (hv : Valid ks vals) (j : K) :
    ((toTable ks vals).fields j).isSome ↔ j ∈ ks := by
  simp only [toTable, Option.isSome_map]
  exact hv.isSome_iff j

/-- Following `next` in the table of `ks` is `nextOf ks`. -/
theorem toTable_bind_next (hv : Valid ks vals) (j : K) :
    ((toTable ks vals).fields j).bind Node.next = nextOf ks j := by
  by_cases hj : j ∈ ks
  · obtain ⟨v, hv'⟩ := Option.isSome_iff_exists.mp ((hv.isSome_iff j).mpr hj)
    simp [toTable, hv']
  · simp [toTable, hv.eq_none hj, nextOf_of_not_mem hj]

/-- Following `prev` in the table of `ks` is `prevOf ks`. -/
theorem toTable_bind_prev (hv : Valid ks vals) (j : K) :
    ((toTable ks vals).fields j).bind Node.prev = prevOf ks j := by
  by_cases hj : j ∈ ks
  · obtain ⟨v, hv'⟩ := Option.isSome_iff_exists.mp ((hv.isSome_iff j).mpr hj)
    simp [toTable, hv']
  · simp [toTable, hv.eq_none hj, prevOf_of_not_mem hj]

/-- Adding a new key between `l₁` and `r` keeps the state valid, within the `u64` bound. -/
theorem Valid.insert {l₁ r : List K} {k : K} (hv : Valid (l₁ ++ r) vals) (hk : k ∉ l₁ ++ r)
    (hlen : (l₁ ++ r).length + 1 < 2 ^ 64) (value : V) :
    Valid (l₁ ++ k :: r) (Function.update vals k (some value)) where
  nodup := List.nodup_middle.mpr (List.nodup_cons.mpr ⟨hk, hv.nodup⟩)
  isSome_iff j := by
    by_cases hj : j = k
    · simp [hj]
    · simp [hj, hv.isSome_iff j]
  length_lt := by
    simp only [List.length_append, List.length_cons] at hlen ⊢
    omega

/-- Taking a key out keeps the state valid. -/
theorem Valid.erase {l₁ r : List K} {k : K} (hv : Valid (l₁ ++ k :: r) vals) :
    Valid (l₁ ++ r) (Function.update vals k none) where
  nodup := (List.nodup_cons.mp (List.nodup_middle.mp hv.nodup)).2
  isSome_iff j := by
    have hk := (List.nodup_cons.mp (List.nodup_middle.mp hv.nodup)).1
    by_cases hj : j = k
    · subst hj
      simpa using hk
    · simp [hj, hv.isSome_iff j]
  length_lt := by
    have := hv.length_lt
    simp only [List.length_append, List.length_cons] at this ⊢
    omega

/-- Putting a new key before a stored one keeps the state valid, within the `u64` bound. -/
theorem Valid.putBefore {anchor k : K} (hv : Valid ks vals) (ha : anchor ∈ ks) (hk : k ∉ ks)
    (hlen : ks.length + 1 < 2 ^ 64) (value : V) :
    Valid (putBefore anchor k ks) (Function.update vals k (some value)) := by
  obtain ⟨l₁, r, rfl⟩ := List.append_of_mem ha
  have hal : anchor ∉ l₁ :=
    (List.nodup_cons.mp (List.nodup_middle.mp hv.nodup)).1 ∘ List.mem_append_left r
  rw [putBefore_append hal]
  exact hv.insert hk hlen value

/-- Putting a new key after a stored one keeps the state valid, within the `u64` bound. -/
theorem Valid.putAfter {anchor k : K} (hv : Valid ks vals) (ha : anchor ∈ ks) (hk : k ∉ ks)
    (hlen : ks.length + 1 < 2 ^ 64) (value : V) :
    Valid (putAfter anchor k ks) (Function.update vals k (some value)) := by
  obtain ⟨l₁, r, rfl⟩ := List.append_of_mem ha
  have hal : anchor ∉ l₁ :=
    (List.nodup_cons.mp (List.nodup_middle.mp hv.nodup)).1 ∘ List.mem_append_left r
  rw [putAfter_append hal]
  have hv' : Valid ((l₁ ++ [anchor]) ++ r) vals := by simpa using hv
  simpa using hv'.insert (by simpa using hk) (by simpa using hlen) value

/-- Erasing a stored key keeps the state valid. -/
theorem Valid.erase_of_mem {k : K} (hv : Valid ks vals) (hk : k ∈ ks) :
    Valid (ks.erase k) (Function.update vals k none) := by
  obtain ⟨l₁, r, rfl⟩ := List.append_of_mem hk
  have hkl : k ∉ l₁ :=
    (List.nodup_cons.mp (List.nodup_middle.mp hv.nodup)).1 ∘ List.mem_append_left r
  rw [List.erase_append_right _ hkl, List.erase_cons_head]
  exact hv.erase

/-- The fields after `k` is linked in between `before` and `after`: its node, and the links
of its neighbours turned to it. -/
def linkIn (fields : K → Option (Node K V)) (before after : Option K) (k : K) (value : V) :
    K → Option (Node K V) := fun j =>
  if j = k then some ⟨before, after, value⟩
  else if before = some j then (fields j).map fun node => { node with next := some k }
  else if after = some j then (fields j).map fun node => { node with prev := some k }
  else fields j

/-- The fields after `k` is taken out from between `before` and `after`: its node gone, and
its neighbours linked to each other. -/
def unlink (fields : K → Option (Node K V)) (before after : Option K) (k : K) :
    K → Option (Node K V) := fun j =>
  if j = k then none
  else if before = some j then (fields j).map fun node => { node with next := after }
  else if after = some j then (fields j).map fun node => { node with prev := before }
  else fields j

/-- Putting `k` between `l₁` and `r` links it in between the last key of `l₁` and the first
of `r`. -/
theorem toTable_insert_fields {l₁ r : List K} {k : K} (hv : Valid (l₁ ++ r) vals)
    (hk : k ∉ l₁ ++ r) (value : V) :
    (toTable (l₁ ++ k :: r) (Function.update vals k (some value))).fields =
      linkIn (toTable (l₁ ++ r) vals).fields l₁.getLast? r.head? k value := by
  have hnd : (l₁ ++ k :: r).Nodup := List.nodup_middle.mpr (List.nodup_cons.mpr ⟨hk, hv.nodup⟩)
  funext j
  simp only [toTable, linkIn, Function.update_apply]
  rw [nextOf_insert hnd, prevOf_insert hnd]
  by_cases hjk : j = k
  · simp [hjk]
  · by_cases hb : l₁.getLast? = some j
    · simp [hjk, hb, getLast?_ne_head? hv.nodup hb, Function.comp_def]
    · by_cases ha : r.head? = some j
      · simp [hjk, hb, ha, Function.comp_def]
      · simp [hjk, hb, ha]

/-- Taking `k` out from between `l₁` and `r` links the last key of `l₁` and the first of `r`
to each other. -/
theorem toTable_erase_fields {l₁ r : List K} {k : K} (hv : Valid (l₁ ++ k :: r) vals) :
    (toTable (l₁ ++ r) (Function.update vals k none)).fields =
      unlink (toTable (l₁ ++ k :: r) vals).fields l₁.getLast? r.head? k := by
  have hnd' := hv.erase.nodup
  funext j
  simp only [toTable, unlink, Function.update_apply]
  rw [nextOf_insert hv.nodup, prevOf_insert hv.nodup]
  by_cases hjk : j = k
  · simp [hjk]
  · by_cases hb : l₁.getLast? = some j
    · rw [nextOf_append_of_getLast? hnd' hb]
      simp [hjk, hb, getLast?_ne_head? hnd' hb, Function.comp_def]
    · by_cases ha : r.head? = some j
      · rw [prevOf_append_of_head? hnd' ha]
        simp [hjk, hb, ha, Function.comp_def]
      · simp [hjk, hb, ha]

end Abstract

/-! ### The representation invariant -/

/-- `keys`: the keys met walking `next` from the head, as many as the size counts. -/
def LinkedTable.keys (table : LinkedTable K V) : List K :=
  walk (fun j => (table.fields j).bind Node.next) table.head table.size

/-- `values`: the value stored under each key. -/
def LinkedTable.values (table : LinkedTable K V) (k : K) : Option V := (table.fields k).map Node.value

/-- The representation invariant: the head, the tail and the size agree on emptiness; walking
`next` from the head meets `size` distinct keys, every stored key among them, and ends at the
tail; `prev` mirrors `next`; the head has no `prev` and the tail no `next`. -/
structure Linked (table : LinkedTable K V) : Prop where
  size_lt : table.size < 2 ^ 64
  head_eq_none : table.head = none ↔ table.size = 0
  tail_eq_none : table.tail = none ↔ table.size = 0
  keys_length : table.keys.length = table.size
  keys_nodup : table.keys.Nodup
  isSome_iff : ∀ k, (table.fields k).isSome ↔ k ∈ table.keys
  keys_getLast : table.keys.getLast? = table.tail
  next_iff_prev : ∀ a b,
    (table.fields a).bind Node.next = some b ↔ (table.fields b).bind Node.prev = some a
  head_prev : ∀ h, table.head = some h → (table.fields h).bind Node.prev = none
  tail_next : ∀ t, table.tail = some t → (table.fields t).bind Node.next = none

/-- `t` is a linked table storing the keys `ks` in this order, with the values `vals`, and
counting them in its size. -/
def Represents (t : LinkedTable K V) (ks : List K) (vals : K → Option V) : Prop :=
  Linked t ∧ t.keys = ks ∧ t.values = vals ∧ t.size = ks.length

section Invariant

variable {ks : List K} {vals : K → Option V} {table : LinkedTable K V}

theorem keys_toTable (hv : Valid ks vals) : (toTable ks vals).keys = ks := by
  have hnext : (fun j => ((toTable ks vals).fields j).bind Node.next) = nextOf ks :=
    funext (toTable_bind_next hv)
  rw [LinkedTable.keys, hnext]
  exact walk_nextOf hv.nodup

theorem values_toTable (vals : K → Option V) : (toTable ks vals).values = vals := by
  funext j
  simp [LinkedTable.values, toTable, Option.map_map, Function.comp_def]

/-- The table of a state has the invariant. -/
theorem linked_toTable (hv : Valid ks vals) : Linked (toTable ks vals) where
  size_lt := hv.length_lt
  head_eq_none := by simp
  tail_eq_none := by simp
  keys_length := by rw [keys_toTable hv]; rfl
  keys_nodup := by rw [keys_toTable hv]; exact hv.nodup
  isSome_iff k := by rw [keys_toTable hv]; exact toTable_fields_isSome hv k
  keys_getLast := by rw [keys_toTable hv]; rfl
  next_iff_prev a b := by
    rw [toTable_bind_next hv, toTable_bind_prev hv]
    exact nextOf_eq_some_iff_prevOf hv.nodup
  head_prev h hh := by
    rw [toTable_bind_prev hv]
    exact prevOf_of_head? hv.nodup hh
  tail_next t ht := by
    rw [toTable_bind_next hv]
    exact nextOf_of_getLast? hv.nodup ht

theorem represents_toTable (hv : Valid ks vals) : Represents (toTable ks vals) ks vals :=
  ⟨linked_toTable hv, keys_toTable hv, values_toTable vals, rfl⟩

omit [DecidableEq K] in
theorem Linked.valid (h : Linked table) : Valid table.keys table.values where
  nodup := h.keys_nodup
  isSome_iff j := by simpa [LinkedTable.values] using h.isSome_iff j
  length_lt := h.keys_length ▸ h.size_lt

/-- In a linked table `next` is the key after in the walk: the walk's own links, the last key
having none. -/
theorem Linked.bind_next (h : Linked table) {j : K} (hj : j ∈ table.keys) :
    (table.fields j).bind Node.next = nextOf table.keys j :=
  eq_nextOf_of_walk h.keys_length h.keys_nodup
    (fun t ht => h.tail_next t (h.keys_getLast ▸ ht)) j hj

/-- In a linked table `prev` is the key before in the walk, by the mirror of `next`. -/
theorem Linked.bind_prev (h : Linked table) (j : K) :
    (table.fields j).bind Node.prev = prevOf table.keys j := by
  -- a key linking back to `j` is stored, so it is in the walk and links forward to `j`
  have hlinked : ∀ a, (table.fields j).bind Node.prev = some a → nextOf table.keys a = some j := by
    intro a ha
    have hnext := (h.next_iff_prev a j).mpr ha
    have hmem : a ∈ table.keys := (h.isSome_iff a).mp (by
      cases hfa : table.fields a <;> simp_all)
    rwa [h.bind_next hmem] at hnext
  cases hp : prevOf table.keys j with
  | some a =>
    have ha := (nextOf_eq_some_iff_prevOf h.keys_nodup).mpr hp
    have hmem : a ∈ table.keys := by
      by_contra hn
      rw [nextOf_of_not_mem hn] at ha
      cases ha
    exact (h.next_iff_prev a j).mp ((h.bind_next hmem).trans ha)
  | none =>
    cases hq : (table.fields j).bind Node.prev with
    | none => rfl
    | some a =>
      rw [(nextOf_eq_some_iff_prevOf h.keys_nodup).mp (hlinked a hq)] at hp
      cases hp

/-- A linked table is the table of the state it stores. -/
theorem Linked.eq_toTable (h : Linked table) : table = toTable table.keys table.values := by
  refine LinkedTable.ext ?_ h.keys_length.symm ?_ h.keys_getLast.symm
  · funext j
    cases hj : table.fields j with
    | none => simp [toTable, LinkedTable.values, hj]
    | some node =>
      have hmem : j ∈ table.keys := (h.isSome_iff j).mp (by simp [hj])
      have hnext := h.bind_next hmem
      have hprev := h.bind_prev j
      rw [hj] at hnext hprev
      simp [toTable, LinkedTable.values, hj, ← hnext, ← hprev]
  · -- the walk starts at the head, unless the table is empty
    rcases Nat.eq_zero_or_pos table.size with h0 | hpos
    · rw [h.head_eq_none.mpr h0, LinkedTable.keys, h0]
      rfl
    · exact (walk_head? hpos).symm

end Invariant

/-! ### Each call on the table of a state -/

section Calls

variable {ks : List K} {vals : K → Option V}

theorem toTable_fields_of_eq_some {j : K} {v : V} (h : vals j = some v) :
    (toTable ks vals).fields j = some ⟨prevOf ks j, nextOf ks j, v⟩ := by
  simp [toTable, h]

/-- A write to a stored node leaves the same keys stored. -/
theorem isSome_update_of_mem (hv : Valid ks vals) {a : K} (ha : a ∈ ks) (n : Node K V) (j : K) :
    (Function.update (toTable ks vals).fields a (some n) j).isSome ↔ j ∈ ks := by
  by_cases hja : j = a
  · subst hja
    simp [ha]
  · simp [hja, toTable_fields_isSome hv]

/-- The end of every insertion: `df::add` of the new node, aborting when its key is stored,
then `size + 1`, aborting at the `u64` bound. -/
theorem add_then_count {G : K → Option (Node K V)} {k : K} {node : Node K V} {n : ℕ} {p : Prop}
    [Decidable p] (hG : (G k).isSome ↔ p) (mk : (K → Option (Node K V)) → ℕ → LinkedTable K V) :
    (do
      let fields ← DynamicField.add G k node
      let size ← add 64 n 1
      pure (mk fields size) : Except (Abort Code) (LinkedTable K V)) =
      if p then .error (.abort .eFieldAlreadyExists)
      else if n + 1 < 2 ^ 64 then .ok (mk (Function.update G k (some node)) (n + 1))
      else .error .arithmeticError := by
  by_cases hp : p
  · rw [if_pos hp, DynamicField.add_eq_error (hG.mpr hp), error_bind]
  · rw [if_neg hp, DynamicField.add_eq_ok (Option.not_isSome_iff_eq_none.mp (mt hG.mp hp)), ok_bind]
    by_cases hlen : n + 1 < 2 ^ 64
    · rw [if_pos hlen, add_eq_ok hlen, ok_bind]
      rfl
    · rw [if_neg hlen, add_eq_error (Nat.not_lt.mp hlen), error_bind]

theorem pushFront_toTable (hv : Valid ks vals) (k : K) (value : V) :
    pushFront (toTable ks vals) k value =
      if k ∈ ks then .error (.abort .eFieldAlreadyExists)
      else if ks.length + 1 < 2 ^ 64 then
        .ok (toTable (k :: ks) (Function.update vals k (some value)))
      else .error .arithmeticError := by
  have hhead : ∀ j, ks.head? = some j → ((toTable ks vals).fields j).isSome := fun j hj =>
    (toTable_fields_isSome hv j).mpr (List.mem_of_head? hj)
  simp only [pushFront, toTable_head, toTable_size]
  rw [DynamicField.borrowMutSome_eq_ok hhead, ok_bind]
  rw [add_then_count (by rw [DynamicField.isSome_ite_map, toTable_fields_isSome hv])]
  by_cases hk : k ∈ ks
  · simp only [if_pos hk]
  simp only [if_neg hk]
  congr 2
  refine LinkedTable.ext ?_ rfl rfl ?_
  · -- `k` is linked in before the old head
    have h := toTable_insert_fields (show Valid ([] ++ ks) vals from hv)
      (show k ∉ [] ++ ks from hk) value
    simp only [List.nil_append, List.getLast?_nil] at h
    rw [h]
    funext j
    by_cases hjk : j = k
    · simp [linkIn, hjk]
    · simp [linkIn, hjk]
  · cases h : ks.getLast? <;> simp [h, List.getLast?_cons]

theorem pushBack_toTable (hv : Valid ks vals) (k : K) (value : V) :
    pushBack (toTable ks vals) k value =
      if k ∈ ks then .error (.abort .eFieldAlreadyExists)
      else if ks.length + 1 < 2 ^ 64 then
        .ok (toTable (ks ++ [k]) (Function.update vals k (some value)))
      else .error .arithmeticError := by
  have htail : ∀ j, ks.getLast? = some j → ((toTable ks vals).fields j).isSome := fun j hj =>
    (toTable_fields_isSome hv j).mpr (List.mem_of_getLast? hj)
  simp only [pushBack, toTable_tail, toTable_size]
  rw [DynamicField.borrowMutSome_eq_ok htail, ok_bind]
  rw [add_then_count (by rw [DynamicField.isSome_ite_map, toTable_fields_isSome hv])]
  by_cases hk : k ∈ ks
  · simp only [if_pos hk]
  simp only [if_neg hk]
  congr 2
  refine LinkedTable.ext ?_ (by simp) ?_ (by simp)
  · -- `k` is linked in after the old tail
    have h := toTable_insert_fields (show Valid (ks ++ []) vals by simpa using hv)
      (show k ∉ ks ++ [] by simpa using hk) value
    simp only [List.append_nil, List.head?_nil] at h
    rw [h]
    funext j
    by_cases hjk : j = k
    · simp [linkIn, hjk]
    · simp [linkIn, hjk]
  · cases h : ks.head? <;> simp [h]

theorem insertBefore_toTable (hv : Valid ks vals) (anchor k : K) (value : V) :
    insertBefore (toTable ks vals) anchor k value =
      if anchor ∈ ks then
        if k ∈ ks then .error (.abort .eFieldAlreadyExists)
        else if ks.length + 1 < 2 ^ 64 then
          .ok (toTable (putBefore anchor k ks) (Function.update vals k (some value)))
        else .error .arithmeticError
      else .error (.abort .eFieldDoesNotExist) := by
  by_cases ha : anchor ∈ ks
  swap
  · rw [if_neg ha, insertBefore, DynamicField.borrow_eq_error (by simp [toTable, hv.eq_none ha]),
      error_bind]
  rw [if_pos ha]
  obtain ⟨va, hva⟩ := Option.isSome_iff_exists.mp ((hv.isSome_iff anchor).mpr ha)
  -- the anchor sits between `l₁` and `r`, and `k` goes in between `l₁` and the anchor
  obtain ⟨l₁, r, rfl⟩ := List.append_of_mem ha
  have hnd := hv.nodup
  have hal : anchor ∉ l₁ := (List.nodup_cons.mp (List.nodup_middle.mp hnd)).1 ∘ List.mem_append_left r
  have hprev : prevOf (l₁ ++ anchor :: r) anchor = l₁.getLast? := by
    rw [prevOf_insert hnd, if_pos rfl]
  set F := (toTable (l₁ ++ anchor :: r) vals).fields with hF
  set F₁ := Function.update F anchor (some ⟨some k, nextOf (l₁ ++ anchor :: r) anchor, va⟩)
    with hF₁
  have hstored := isSome_update_of_mem hv ha ⟨some k, nextOf (l₁ ++ anchor :: r) anchor, va⟩
  simp only [insertBefore, toTable_head, toTable_tail, toTable_size]
  rw [DynamicField.borrow_eq_ok (toTable_fields_of_eq_some hva), ok_bind]
  simp only [hprev]
  rw [DynamicField.elim_borrowMut_eq_ok
    (fun j hj => (hstored j).mpr (List.mem_append_left _ (List.mem_of_getLast? hj))), ok_bind]
  have hkey : ((fun j => if l₁.getLast? = some j then (F₁ j).map (fun node =>
      { node with next := some k }) else F₁ j) k).isSome ↔ k ∈ l₁ ++ anchor :: r := by
    rw [DynamicField.isSome_ite_map, hstored]
  rw [add_then_count (p := k ∈ l₁ ++ anchor :: r) hkey]
  by_cases hk : k ∈ l₁ ++ anchor :: r
  · simp only [if_pos hk]
  simp only [if_neg hk]
  congr 2
  rw [putBefore_append hal]
  refine LinkedTable.ext ?_ (by simp only [toTable_size, List.length_append, List.length_cons]; omega)
    ?_ (by simp)
  · have h := toTable_insert_fields hv hk value
    rw [List.head?_cons] at h
    rw [h]
    funext j
    simp only [linkIn, Function.update_apply]
    by_cases hjk : j = k
    · simp [hjk]
    by_cases hb : l₁.getLast? = some j
    · have hja : j ≠ anchor := fun h => hal (h ▸ List.mem_of_getLast? hb)
      simp [hjk, hb, hja]
    by_cases hja : j = anchor
    · subst hja
      simp [hjk, hb, toTable_fields_of_eq_some hva]
    · simp [hjk, hb, hja, Ne.symm hja]
  · -- the head changes only when the anchor was first
    cases l₁ with
    | nil => simp
    | cons a l₁ => simp [List.getLast?_cons]

theorem insertAfter_toTable (hv : Valid ks vals) (anchor k : K) (value : V) :
    insertAfter (toTable ks vals) anchor k value =
      if anchor ∈ ks then
        if k ∈ ks then .error (.abort .eFieldAlreadyExists)
        else if ks.length + 1 < 2 ^ 64 then
          .ok (toTable (putAfter anchor k ks) (Function.update vals k (some value)))
        else .error .arithmeticError
      else .error (.abort .eFieldDoesNotExist) := by
  by_cases ha : anchor ∈ ks
  swap
  · rw [if_neg ha, insertAfter, DynamicField.borrow_eq_error (by simp [toTable, hv.eq_none ha]),
      error_bind]
  rw [if_pos ha]
  obtain ⟨va, hva⟩ := Option.isSome_iff_exists.mp ((hv.isSome_iff anchor).mpr ha)
  -- the anchor sits between `l₁` and `r`, and `k` goes in between the anchor and `r`
  obtain ⟨l₁, r, rfl⟩ := List.append_of_mem ha
  have hnd := hv.nodup
  have har : anchor ∉ r := (List.nodup_cons.mp (List.nodup_middle.mp hnd)).1 ∘ List.mem_append_right l₁
  have hal : anchor ∉ l₁ := (List.nodup_cons.mp (List.nodup_middle.mp hnd)).1 ∘ List.mem_append_left r
  have hnext : nextOf (l₁ ++ anchor :: r) anchor = r.head? := by
    rw [nextOf_insert hnd, if_pos rfl]
  set F := (toTable (l₁ ++ anchor :: r) vals).fields with hF
  set F₁ := Function.update F anchor (some ⟨prevOf (l₁ ++ anchor :: r) anchor, some k, va⟩)
    with hF₁
  have hstored := isSome_update_of_mem hv ha ⟨prevOf (l₁ ++ anchor :: r) anchor, some k, va⟩
  simp only [insertAfter, toTable_head, toTable_tail, toTable_size]
  rw [DynamicField.borrow_eq_ok (toTable_fields_of_eq_some hva), ok_bind]
  simp only [hnext]
  rw [DynamicField.elim_borrowMut_eq_ok
    (fun j hj => (hstored j).mpr (List.mem_append_right _ (List.mem_cons_of_mem _
      (List.mem_of_head? hj)))), ok_bind]
  have hkey : ((fun j => if r.head? = some j then (F₁ j).map (fun node =>
      { node with prev := some k }) else F₁ j) k).isSome ↔ k ∈ l₁ ++ anchor :: r := by
    rw [DynamicField.isSome_ite_map, hstored]
  rw [add_then_count (p := k ∈ l₁ ++ anchor :: r) hkey]
  by_cases hk : k ∈ l₁ ++ anchor :: r
  · simp only [if_pos hk]
  simp only [if_neg hk]
  congr 2
  rw [putAfter_append hal]
  refine LinkedTable.ext ?_ (by simp only [toTable_size, List.length_append, List.length_cons]; omega)
    (by simp) ?_
  · have h := toTable_insert_fields (show Valid ((l₁ ++ [anchor]) ++ r) vals by simpa using hv)
      (show k ∉ (l₁ ++ [anchor]) ++ r by simpa using hk) value
    simp only [List.append_assoc, List.singleton_append, List.getLast?_concat] at h
    rw [h]
    funext j
    simp only [linkIn, Function.update_apply]
    by_cases hjk : j = k
    · simp [hjk]
    by_cases hja : j = anchor
    · subst hja
      have hrh : r.head? ≠ some j := fun h => har (List.mem_of_head? h)
      simp [hjk, hrh, toTable_fields_of_eq_some hva]
    · simp [hjk, hja, Ne.symm hja]
  · -- the tail changes only when the anchor was last
    cases r with
    | nil => simp
    | cons b r => simp

theorem remove_toTable_of_not_mem (hv : Valid ks vals) {k : K} (hk : k ∉ ks) :
    remove (toTable ks vals) k = .error (.abort .eFieldDoesNotExist) := by
  rw [remove, DynamicField.remove_eq_error (by simp [toTable, hv.eq_none hk]), error_bind]

theorem remove_toTable (hv : Valid ks vals) {k : K} {value : V} (hk : vals k = some value) :
    remove (toTable ks vals) k =
      .ok (value, toTable (ks.erase k) (Function.update vals k none)) := by
  have hmem : k ∈ ks := (hv.isSome_iff k).mp (by simp [hk])
  -- `k` sits between `l₁` and `r`
  obtain ⟨l₁, r, rfl⟩ := List.append_of_mem hmem
  have hnd := hv.nodup
  have hkl : k ∉ l₁ := (List.nodup_cons.mp (List.nodup_middle.mp hnd)).1 ∘ List.mem_append_left r
  have hkr : k ∉ r := (List.nodup_cons.mp (List.nodup_middle.mp hnd)).1 ∘ List.mem_append_right l₁
  have hprev : prevOf (l₁ ++ k :: r) k = l₁.getLast? := by rw [prevOf_insert hnd, if_pos rfl]
  have hnext : nextOf (l₁ ++ k :: r) k = r.head? := by rw [nextOf_insert hnd, if_pos rfl]
  set F := (toTable (l₁ ++ k :: r) vals).fields with hF
  -- the neighbours of `k` are still stored once its node is gone
  have hstored : ∀ j, j ≠ k → j ∈ l₁ ++ k :: r → (Function.update F k none j).isSome := by
    intro j hjk hj
    simpa [hjk, hF, toTable_fields_isSome hv] using hj
  have hbefore : ∀ j, l₁.getLast? = some j → (Function.update F k none j).isSome :=
    fun j hj => hstored j (fun h => hkl (h ▸ List.mem_of_getLast? hj))
      (List.mem_append_left _ (List.mem_of_getLast? hj))
  have hafter : ∀ j, r.head? = some j → (Function.update F k none j).isSome :=
    fun j hj => hstored j (fun h => hkr (h ▸ List.mem_of_head? hj))
      (List.mem_append_right _ (List.mem_cons_of_mem _ (List.mem_of_head? hj)))
  -- the head and the tail are compared with `k`
  obtain ⟨h, hh, hhead⟩ : ∃ h, (l₁ ++ k :: r).head? = some h ∧
      (if h = k then r.head? else some h) = (l₁ ++ r).head? := by
    cases l₁ with
    | nil => exact ⟨k, rfl, by simp⟩
    | cons a l₁ =>
      have hak : a ≠ k := fun h => hkl (h ▸ List.mem_cons_self)
      exact ⟨a, rfl, by simp [hak]⟩
  obtain ⟨t, ht, htail⟩ : ∃ t, (l₁ ++ k :: r).getLast? = some t ∧
      (if t = k then l₁.getLast? else some t) = (l₁ ++ r).getLast? := by
    rcases r.eq_nil_or_concat with rfl | ⟨r', b, rfl⟩
    · exact ⟨k, by simp, by simp⟩
    · rw [List.concat_eq_append] at hkr ⊢
      have hbk : b ≠ k := fun h => hkr (h ▸ List.mem_concat_self)
      exact ⟨b, by rw [← List.cons_append, ← List.append_assoc, List.getLast?_concat],
        by simp [hbk]⟩
  simp only [remove, toTable_head, toTable_tail, toTable_size]
  rw [DynamicField.remove_eq_ok (toTable_fields_of_eq_some hk), ok_bind]
  simp only [hprev, hnext]
  rw [sub_eq_ok (by simp only [List.length_append, List.length_cons]; omega), ok_bind,
    DynamicField.borrowMutSome_eq_ok hbefore, ok_bind,
    DynamicField.borrowMutSome_eq_ok (by simpa using hafter), ok_bind, hh, ht]
  simp only [optionBorrow, pure_bind, hhead, htail, List.erase_append_right _ hkl,
    List.erase_cons_head]
  congr 2
  refine LinkedTable.ext ?_ (by simp) rfl rfl
  rw [toTable_erase_fields hv]
  funext j
  simp only [unlink, Function.update_apply]
  by_cases hjk : j = k
  · have hb : l₁.getLast? ≠ some k := fun h => hkl (List.mem_of_getLast? h)
    have ha : r.head? ≠ some k := fun h => hkr (List.mem_of_head? h)
    simp [hjk, hb, ha]
  by_cases hb : l₁.getLast? = some j
  · simp [hjk, hb, getLast?_ne_head? hv.erase.nodup hb, hF]
  · simp [hjk, hb, hF]

theorem popFront_toTable_nil : popFront (toTable [] vals) = .error (.abort .eTableIsEmpty) := rfl

theorem popFront_toTable {k : K} {r : List K} (hv : Valid (k :: r) vals) {value : V}
    (hk : vals k = some value) :
    popFront (toTable (k :: r) vals) = .ok ((k, value), toTable r (Function.update vals k none)) := by
  have h := remove_toTable hv hk
  rw [List.erase_cons_head] at h
  simp only [popFront, toTable_head, List.head?_cons, pure_bind]
  rw [h, ok_bind]
  rfl

theorem popBack_toTable_nil : popBack (toTable [] vals) = .error (.abort .eTableIsEmpty) := rfl

theorem popBack_toTable {l : List K} {t : K} (hv : Valid (l ++ [t]) vals) {value : V}
    (ht : vals t = some value) :
    popBack (toTable (l ++ [t]) vals) = .ok ((t, value), toTable l (Function.update vals t none)) := by
  have htl : t ∉ l := fun hmem =>
    (List.nodup_append.mp hv.nodup).2.2 t hmem t (List.mem_singleton_self t) rfl
  have h := remove_toTable hv ht
  rw [List.erase_append_right _ htl, List.erase_cons_head, List.append_nil] at h
  simp only [popBack, toTable_tail, List.getLast?_concat, pure_bind]
  rw [h, ok_bind]
  rfl

end Calls

/-! ### Each call on a linked table -/

section Represents

variable {ks : List K} {vals : K → Option V}

theorem pushFront_represents (hv : Valid ks vals) (k : K) (value : V) :
    if k ∈ ks then pushFront (toTable ks vals) k value = .error (.abort .eFieldAlreadyExists)
    else if ks.length + 1 < 2 ^ 64 then
      ∃ t, pushFront (toTable ks vals) k value = .ok t ∧
        Represents t (k :: ks) (Function.update vals k (some value))
    else pushFront (toTable ks vals) k value = .error .arithmeticError := by
  rw [pushFront_toTable hv]
  split_ifs with hk hlen
  · rfl
  · exact ⟨_, rfl, represents_toTable ((show Valid ([] ++ ks) vals from hv).insert hk hlen value)⟩
  · rfl

theorem pushBack_represents (hv : Valid ks vals) (k : K) (value : V) :
    if k ∈ ks then pushBack (toTable ks vals) k value = .error (.abort .eFieldAlreadyExists)
    else if ks.length + 1 < 2 ^ 64 then
      ∃ t, pushBack (toTable ks vals) k value = .ok t ∧
        Represents t (ks ++ [k]) (Function.update vals k (some value))
    else pushBack (toTable ks vals) k value = .error .arithmeticError := by
  rw [pushBack_toTable hv]
  split_ifs with hk hlen
  · rfl
  · have hv' : Valid (ks ++ []) vals := by simpa using hv
    exact ⟨_, rfl, represents_toTable (hv'.insert (by simpa using hk) (by simpa using hlen) value)⟩
  · rfl

theorem insertBefore_represents (hv : Valid ks vals) (anchor k : K) (value : V) :
    if anchor ∈ ks then
      if k ∈ ks then insertBefore (toTable ks vals) anchor k value =
        .error (.abort .eFieldAlreadyExists)
      else if ks.length + 1 < 2 ^ 64 then
        ∃ t, insertBefore (toTable ks vals) anchor k value = .ok t ∧
          Represents t (putBefore anchor k ks) (Function.update vals k (some value))
      else insertBefore (toTable ks vals) anchor k value = .error .arithmeticError
    else insertBefore (toTable ks vals) anchor k value = .error (.abort .eFieldDoesNotExist) := by
  rw [insertBefore_toTable hv]
  split_ifs with ha hk hlen
  · rfl
  · exact ⟨_, rfl, represents_toTable (hv.putBefore ha hk hlen value)⟩
  · rfl
  · rfl

theorem insertAfter_represents (hv : Valid ks vals) (anchor k : K) (value : V) :
    if anchor ∈ ks then
      if k ∈ ks then insertAfter (toTable ks vals) anchor k value =
        .error (.abort .eFieldAlreadyExists)
      else if ks.length + 1 < 2 ^ 64 then
        ∃ t, insertAfter (toTable ks vals) anchor k value = .ok t ∧
          Represents t (putAfter anchor k ks) (Function.update vals k (some value))
      else insertAfter (toTable ks vals) anchor k value = .error .arithmeticError
    else insertAfter (toTable ks vals) anchor k value = .error (.abort .eFieldDoesNotExist) := by
  rw [insertAfter_toTable hv]
  split_ifs with ha hk hlen
  · rfl
  · exact ⟨_, rfl, represents_toTable (hv.putAfter ha hk hlen value)⟩
  · rfl
  · rfl

theorem remove_represents (hv : Valid ks vals) (k : K) :
    if k ∈ ks then
      ∃ value t, remove (toTable ks vals) k = .ok (value, t) ∧ vals k = some value ∧
        Represents t (ks.erase k) (Function.update vals k none)
    else remove (toTable ks vals) k = .error (.abort .eFieldDoesNotExist) := by
  split_ifs with hk
  · obtain ⟨value, hval⟩ := Option.isSome_iff_exists.mp ((hv.isSome_iff k).mpr hk)
    exact ⟨value, _, remove_toTable hv hval, hval, represents_toTable (hv.erase_of_mem hk)⟩
  · exact remove_toTable_of_not_mem hv hk

theorem popFront_represents (hv : Valid ks vals) :
    (ks = [] → popFront (toTable ks vals) = .error (.abort .eTableIsEmpty)) ∧
    ∀ first rest, ks = first :: rest →
      ∃ value t, popFront (toTable ks vals) = .ok ((first, value), t) ∧ vals first = some value ∧
        Represents t rest (Function.update vals first none) := by
  refine ⟨fun h => by subst h; exact popFront_toTable_nil, ?_⟩
  rintro first rest rfl
  obtain ⟨value, hval⟩ :=
    Option.isSome_iff_exists.mp ((hv.isSome_iff first).mpr List.mem_cons_self)
  exact ⟨value, _, popFront_toTable hv hval, hval,
    represents_toTable (show Valid ([] ++ first :: rest) vals from hv).erase⟩

theorem popBack_represents (hv : Valid ks vals) :
    (ks = [] → popBack (toTable ks vals) = .error (.abort .eTableIsEmpty)) ∧
    ∀ init last, ks = init ++ [last] →
      ∃ value t, popBack (toTable ks vals) = .ok ((last, value), t) ∧ vals last = some value ∧
        Represents t init (Function.update vals last none) := by
  refine ⟨fun h => by subst h; exact popBack_toTable_nil, ?_⟩
  rintro init last rfl
  obtain ⟨value, hval⟩ :=
    Option.isSome_iff_exists.mp ((hv.isSome_iff last).mpr List.mem_concat_self)
  have hv' : Valid (init ++ []) (Function.update vals last none) :=
    (show Valid (init ++ last :: []) vals from hv).erase
  exact ⟨value, _, popBack_toTable hv hval, hval, represents_toTable (by simpa using hv')⟩

end Represents

theorem new_eq_toTable : (new : LinkedTable K V) = toTable [] fun _ => none := rfl

theorem linked_new : Linked (new : LinkedTable K V) := by
  rw [new_eq_toTable]
  exact linked_toTable ⟨List.nodup_nil, by simp, by simp⟩

/-- Every call on a linked table acts on the key sequence it stores, keeping the invariant:
`push_front` prepends, `push_back` appends, `insert_before` and `insert_after` put the key
next to the anchor, `remove` deletes the key and `pop_front` and `pop_back` the first and
last keys, the values following. The calls abort exactly when the key to insert is present,
when the anchor or the key to remove is absent, when the table is empty for a pop, and, for an
insertion, when the table already counts `2 ^ 64 - 1` entries, since `size + 1` overflows. -/
theorem linkedTable_calls_on_key_sequence (table : LinkedTable K V) (h : Linked table)
    (anchor k : K) (value : V) :
    (if k ∈ table.keys then pushFront table k value = .error (.abort .eFieldAlreadyExists)
      else if table.size + 1 < 2 ^ 64 then
        ∃ t, pushFront table k value = .ok t ∧
          Represents t (k :: table.keys) (Function.update table.values k (some value))
      else pushFront table k value = .error .arithmeticError) ∧
    (if k ∈ table.keys then pushBack table k value = .error (.abort .eFieldAlreadyExists)
      else if table.size + 1 < 2 ^ 64 then
        ∃ t, pushBack table k value = .ok t ∧
          Represents t (table.keys ++ [k]) (Function.update table.values k (some value))
      else pushBack table k value = .error .arithmeticError) ∧
    (if anchor ∈ table.keys then
        if k ∈ table.keys then insertBefore table anchor k value =
          .error (.abort .eFieldAlreadyExists)
        else if table.size + 1 < 2 ^ 64 then
          ∃ t, insertBefore table anchor k value = .ok t ∧
            Represents t (putBefore anchor k table.keys) (Function.update table.values k (some value))
        else insertBefore table anchor k value = .error .arithmeticError
      else insertBefore table anchor k value = .error (.abort .eFieldDoesNotExist)) ∧
    (if anchor ∈ table.keys then
        if k ∈ table.keys then insertAfter table anchor k value =
          .error (.abort .eFieldAlreadyExists)
        else if table.size + 1 < 2 ^ 64 then
          ∃ t, insertAfter table anchor k value = .ok t ∧
            Represents t (putAfter anchor k table.keys) (Function.update table.values k (some value))
        else insertAfter table anchor k value = .error .arithmeticError
      else insertAfter table anchor k value = .error (.abort .eFieldDoesNotExist)) ∧
    (if k ∈ table.keys then
        ∃ v t, remove table k = .ok (v, t) ∧ table.values k = some v ∧
          Represents t (table.keys.erase k) (Function.update table.values k none)
      else remove table k = .error (.abort .eFieldDoesNotExist)) ∧
    ((table.keys = [] → popFront table = .error (.abort .eTableIsEmpty)) ∧
      ∀ first rest, table.keys = first :: rest →
        ∃ v t, popFront table = .ok ((first, v), t) ∧ table.values first = some v ∧
          Represents t rest (Function.update table.values first none)) ∧
    ((table.keys = [] → popBack table = .error (.abort .eTableIsEmpty)) ∧
      ∀ init last, table.keys = init ++ [last] →
        ∃ v t, popBack table = .ok ((last, v), t) ∧ table.values last = some v ∧
          Represents t init (Function.update table.values last none)) := by
  -- the table is the table of the state it stores; the calls are then those on that state
  have hv := h.valid
  have heq := h.eq_toTable
  rw [← h.keys_length]
  generalize table.keys = ks at hv heq ⊢
  generalize table.values = vals at hv heq ⊢
  subst heq
  exact ⟨pushFront_represents hv k value, pushBack_represents hv k value,
    insertBefore_represents hv anchor k value, insertAfter_represents hv anchor k value,
    remove_represents hv k, popFront_represents hv, popBack_represents hv⟩

/-- On a table of keys `1, 2, 3`, `insert_before` of key 9 at key 2 links it in
between 1 and 2, and `insert_after` at a key that is not there aborts. -/
theorem linkedTable_calls_on_three :
    (∃ t, insertBefore (toTable [1, 2, 3] fun j => if j ∈ [1, 2, 3] then some j else none) 2 9 9 =
        .ok t ∧ Represents t [1, 9, 2, 3] (Function.update
          (toTable [1, 2, 3] fun j => if j ∈ [1, 2, 3] then some j else none).values 9 (some 9))) ∧
      insertAfter (toTable [1, 2, 3] fun j => if j ∈ [1, 2, 3] then some j else none) 4 9 9 =
        .error (.abort .eFieldDoesNotExist) := by
  have hv : Valid [1, 2, 3] fun j => if j ∈ [1, 2, 3] then some j else none :=
    ⟨by decide, fun j => by by_cases hj : j ∈ [1, 2, 3] <;> simp [hj], by decide⟩
  obtain ⟨-, -, hbefore, -, -⟩ :=
    linkedTable_calls_on_key_sequence _ (linked_toTable hv) 2 9 9
  obtain ⟨-, -, -, hafter', -⟩ := linkedTable_calls_on_key_sequence _ (linked_toTable hv) 4 9 9
  rw [keys_toTable hv] at hbefore hafter'
  rw [if_pos (by decide), if_neg (by decide), if_pos (by decide)] at hbefore
  rw [if_neg (by decide)] at hafter'
  exact ⟨hbefore, hafter'⟩

/-- The `u64` bound on the size: on a table already counting `2 ^ 64 - 1` entries, `push_front`
of a key that is not there aborts, on the overflow of `size + 1`. -/
theorem pushFront_aborts_at_u64_bound :
    Linked (toTable (List.range (2 ^ 64 - 1)) fun j => if j < 2 ^ 64 - 1 then some () else none) ∧
      2 ^ 64 - 1 ∉ (toTable (List.range (2 ^ 64 - 1))
        fun j => if j < 2 ^ 64 - 1 then some () else none).keys ∧
      pushFront (toTable (List.range (2 ^ 64 - 1))
        fun j => if j < 2 ^ 64 - 1 then some () else none) (2 ^ 64 - 1) () =
        .error .arithmeticError := by
  have hv : Valid (List.range (2 ^ 64 - 1)) fun j => if j < 2 ^ 64 - 1 then some () else none :=
    ⟨List.nodup_range, fun j => by simp [List.mem_range], by simp⟩
  have hk : 2 ^ 64 - 1 ∉ List.range (2 ^ 64 - 1) := by simp [List.mem_range]
  refine ⟨linked_toTable hv, by rw [keys_toTable hv]; exact hk, ?_⟩
  rw [pushFront_toTable hv, if_neg hk, if_neg (by simp)]

end LinkedTable

end Sui
