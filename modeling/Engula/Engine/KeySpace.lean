import Mathlib.Data.List.Basic

/-! `KeySpace` of `engine/src/key_space.rs`: objects in a hashbrown `RawTable`, grown by an
incremental rehash. Once the current table is 86% full, a table of twice its capacity becomes
`next_space`, and every later call first moves up to `ADVANCE_STEP + 1` objects across; when the
current table runs empty the two swap. During a rehash, lookups try `next_space` first, and an
insert of a key not in `next_space` goes there and removes the key from the current table.

`RawTable` is hashbrown's and not in the source. It is modelled from its contract: a table holds
its objects in iteration order and a `growth_left`; `capacity()` is `len() + growth_left`;
`with_capacity(n)` gives at least `n`. Whether a write fills or frees an `EMPTY` slot, which
moves `growth_left`, or a tombstone, which does not, depends on control bytes the model does not
keep: it is read from a list of outcomes in the key space, one per write, so that every theorem
holds for every pattern of them. An `insert_no_grow` on a table with no growth left is `none`.
Hashes are left out: a lookup compares keys, as `equivalent_key` does. -/

namespace Engula.Engine

def minNumBuckets : Nat := 16

def advanceStep : Nat := 64

theorem advanceStep_succ : advanceStep + 1 = 65 := rfl

/-- What `RawTable::with_capacity` allocates: at least the capacity asked for. -/
structure TableAlloc where
  capacity : Nat → Nat
  le_capacity : ∀ n, n ≤ capacity n

/-- A `RawTable<ObjectEntry>`: its objects in iteration order, and its `growth_left`. -/
structure RawTable (α : Type) where
  entries : List α
  growthLeft : Nat
  deriving DecidableEq, Repr

/-- Whether the next write fills or frees an `EMPTY` slot; past the end of the list it does. -/
def takeSlot : List Bool → Bool × List Bool
  | [] => (true, [])
  | b :: bs => (b, bs)

namespace RawTable

variable {α κ : Type} [DecidableEq κ] (key : α → κ)

def withCapacity (A : TableAlloc) (n : Nat) : RawTable α := ⟨[], A.capacity n⟩

def len (t : RawTable α) : Nat := t.entries.length

def capacity (t : RawTable α) : Nat := t.len + t.growthLeft

def get (t : RawTable α) (k : κ) : Option α := t.entries.find? (key · = k)

/-- `insert_no_grow`: the object goes last; `growth_left` falls when its slot was `EMPTY`. -/
def insertNoGrow (t : RawTable α) (o : α) (empty : Bool) : Option (RawTable α) :=
  if t.growthLeft = 0 then none
  else some ⟨t.entries ++ [o], if empty then t.growthLeft - 1 else t.growthLeft⟩

/-- `remove_entry`: `growth_left` rises when the freed slot becomes `EMPTY`. -/
def removeEntry (t : RawTable α) (k : κ) (empty : Bool) : Option α × RawTable α :=
  match t.get key k with
  | none => (none, t)
  | some o => (some o, ⟨t.entries.eraseP (key · = k), if empty then t.growthLeft + 1 else t.growthLeft⟩)

end RawTable

section Ops

variable {α κ : Type} [DecidableEq κ] (key : α → κ)

/-- `get_mut` and `mem::replace`: the first object under `k` gives way to `o` and is returned. -/
def replaceFirst (k : κ) (o : α) : List α → Option α × List α
  | [] => (none, [])
  | x :: xs =>
    if key x = k then (some x, o :: xs)
    else ((replaceFirst k o xs).1, x :: (replaceFirst k o xs).2)

/-- The loop of `advance_rehash`; the flag says whether it ran to its end. -/
def moveEntries (advanced : Nat) : List α → Nat → RawTable α → List Bool →
    Option (Bool × RawTable α × RawTable α × List Bool)
  | [], gl, next, slots => some (true, ⟨[], gl⟩, next, slots)
  | o :: rest, gl, next, slots =>
    let gl := if (takeSlot slots).1 then gl + 1 else gl
    let slots := (takeSlot slots).2
    match next.insertNoGrow o (takeSlot slots).1 with
    | none => none
    | some next =>
      if advanced + 1 > advanceStep then some (false, ⟨rest, gl⟩, next, (takeSlot slots).2)
      else moveEntries (advanced + 1) rest gl next (takeSlot slots).2

end Ops

/-- `KeySpace`, with the slot outcomes of the writes still to come. -/
structure KeySpace (α : Type) where
  currentSpace : RawTable α
  nextSpace : Option (RawTable α)
  slots : List Bool
  deriving DecidableEq, Repr

namespace KeySpace

variable {α κ : Type} [DecidableEq κ] (key : α → κ) (A : TableAlloc)

def new (slots : List Bool) : KeySpace α := ⟨.withCapacity A minNumBuckets, none, slots⟩

/-- `KeySpace::advance_rehash`: when the loop runs to its end the tables swap. -/
def advanceRehash (s : KeySpace α) : Option (KeySpace α) :=
  match s.nextSpace with
  | none => some s
  | some next =>
    match moveEntries 0 s.currentSpace.entries s.currentSpace.growthLeft next s.slots with
    | none => none
    | some (true, _, next, slots) => some ⟨next, none, slots⟩
    | some (false, current, next, slots) => some ⟨current, some next, slots⟩

def ensureEnoughSpace (s : KeySpace α) : Option (KeySpace α) :=
  if s.nextSpace.isSome then some s
  else
    let cap := s.currentSpace.capacity
    let len := s.currentSpace.len
    if len * 100 ≥ 86 * cap then advanceRehash { s with nextSpace := some (.withCapacity A (cap * 2)) }
    else some s

/-- `KeySpace::insert`: the object it replaces, if any. -/
def insert (s : KeySpace α) (k : κ) (o : α) : Option (Option α × KeySpace α) := do
  let s ← s.advanceRehash
  match s.nextSpace with
  | some next =>
    match replaceFirst key k o next.entries with
    | (some old, entries) => pure (some old, { s with nextSpace := some ⟨entries, next.growthLeft⟩ })
    | (none, _) =>
      let next ← next.insertNoGrow o (takeSlot s.slots).1
      let slots := (takeSlot s.slots).2
      pure (none, ⟨(s.currentSpace.removeEntry key k (takeSlot slots).1).2, some next,
        (takeSlot slots).2⟩)
  | none =>
    match replaceFirst key k o s.currentSpace.entries with
    | (some old, entries) =>
      pure (some old, { s with currentSpace := ⟨entries, s.currentSpace.growthLeft⟩ })
    | (none, _) =>
      let current ← s.currentSpace.insertNoGrow o (takeSlot s.slots).1
      let s ← ensureEnoughSpace A ⟨current, none, (takeSlot s.slots).2⟩
      pure (none, s)

/-- `KeySpace::remove`: `next_space` first, then the current table. -/
def remove (s : KeySpace α) (k : κ) : Option (Option α × KeySpace α) := do
  let s ← s.advanceRehash
  match s.nextSpace.map (·.removeEntry key k (takeSlot s.slots).1) with
  | some (some o, next) => pure (some o, ⟨s.currentSpace, some next, (takeSlot s.slots).2⟩)
  | _ => pure ((s.currentSpace.removeEntry key k (takeSlot s.slots).1).1,
      ⟨(s.currentSpace.removeEntry key k (takeSlot s.slots).1).2, s.nextSpace, (takeSlot s.slots).2⟩)

/-- `KeySpace::get`: `next_space` first, then the current table. -/
def get (s : KeySpace α) (k : κ) : Option (Option α × KeySpace α) := do
  let s ← s.advanceRehash
  match s.nextSpace.bind (·.get key k) with
  | some o => pure (some o, s)
  | none => pure (s.currentSpace.get key k, s)

inductive Call (α κ : Type)
  | insert (k : κ) (o : α)
  | remove (k : κ)
  | get (k : κ)

def call (s : KeySpace α) : Call α κ → Option (Option α × KeySpace α)
  | .insert k o => s.insert key A k o
  | .remove k => s.remove key k
  | .get k => s.get key k

def run (s : KeySpace α) : List (Call α κ) → Option (List (Option α) × KeySpace α)
  | [] => some ([], s)
  | c :: cs => do
    let (r, s) ← s.call key A c
    let (rs, s) ← s.run cs
    pure (r :: rs, s)

end KeySpace

/-! ### Lemmas on the table operations -/

section Tables

variable {α κ : Type} [DecidableEq κ] (key : α → κ)

theorem replaceFirst_fst (k : κ) (o : α) (l : List α) :
    (replaceFirst key k o l).1 = l.find? (key · = k) := by
  induction l with
  | nil => rfl
  | cons x xs ih => by_cases h : key x = k <;> simp [replaceFirst, h, ih]

theorem length_replaceFirst (k : κ) (o : α) (l : List α) : (replaceFirst key k o l).2.length = l.length := by
  induction l with
  | nil => rfl
  | cons x xs ih => by_cases h : key x = k <;> simp [replaceFirst, h, ih]

namespace RawTable

theorem insertNoGrow_of_pos {t : RawTable α} (o : α) (empty : Bool) (h : 0 < t.growthLeft) :
    t.insertNoGrow o empty =
      some ⟨t.entries ++ [o], if empty then t.growthLeft - 1 else t.growthLeft⟩ := by
  simp [insertNoGrow, Nat.pos_iff_ne_zero.1 h]

theorem insertNoGrow_spec {t t' : RawTable α} {o : α} {empty : Bool} (h : t.insertNoGrow o empty = some t') :
    t'.len = t.len + 1 ∧ t.capacity ≤ t'.capacity := by
  unfold insertNoGrow at h
  split_ifs at h with h0 <;> cases h <;>
    exact ⟨by simp [len], by simp only [capacity, len, List.length_append, List.length_singleton]; omega⟩

theorem entries_of_insertNoGrow {t t' : RawTable α} {o : α} {empty : Bool}
    (h : t.insertNoGrow o empty = some t') : t'.entries = t.entries ++ [o] := by
  unfold insertNoGrow at h
  split_ifs at h <;> cases h <;> rfl

@[simp] theorem removeEntry_fst (t : RawTable α) (k : κ) (empty : Bool) :
    (t.removeEntry key k empty).1 = t.get key k := by
  unfold removeEntry
  split <;> simp_all

@[simp] theorem entries_removeEntry (t : RawTable α) (k : κ) (empty : Bool) :
    (t.removeEntry key k empty).2.entries = t.entries.eraseP (key · = k) := by
  unfold removeEntry
  split
  · next hg => exact (List.eraseP_of_forall_not fun x hx => by simpa using List.find?_eq_none.1 hg x hx).symm
  · rfl

theorem removeEntry_of_fst_eq_none {t : RawTable α} {k : κ} {empty : Bool}
    (h : (t.removeEntry key k empty).1 = none) : (t.removeEntry key k empty).2 = t := by
  unfold removeEntry at h ⊢
  split at h <;> simp_all

theorem removeEntry_of_fst_eq_some {t : RawTable α} {k : κ} {empty : Bool} {o : α}
    (h : (t.removeEntry key k empty).1 = some o) :
    (t.removeEntry key k empty).2.len + 1 = t.len ∧ t.capacity ≤ (t.removeEntry key k empty).2.capacity + 1 := by
  unfold removeEntry at h ⊢
  rcases hg : t.get key k with _ | o'
  · simp [hg] at h
  · have hmem : o' ∈ t.entries := List.mem_of_find?_eq_some hg
    have hlen : (t.entries.eraseP (key · = k)).length + 1 = t.entries.length := by
      rw [List.length_eraseP_of_mem hmem (by simpa using List.find?_some hg)]
      exact Nat.sub_add_cancel (List.length_pos_of_mem hmem)
    simp only [capacity, len]
    split_ifs <;> omega

theorem len_removeEntry_le (t : RawTable α) (k : κ) (empty : Bool) : (t.removeEntry key k empty).2.len ≤ t.len := by
  rcases h : (t.removeEntry key k empty).1 with _ | o
  · rw [removeEntry_of_fst_eq_none key h]
  · have := (removeEntry_of_fst_eq_some key h).1
    omega

end RawTable

end Tables

/-! ### An insert during a rehash -/

section Rehash

variable {α κ : Type} [DecidableEq κ] (key : α → κ) (A : TableAlloc)

/-- During a rehash, `insert` on a key the advance has not moved answers `None`. -/
theorem insert_during_rehash_returns_none {s s' : KeySpace α} {next : RawTable α} {k : κ} {old : α}
    (o : α) (hadv : s.advanceRehash = some s') (hnext : s'.nextSpace = some next)
    (hk : next.get key k = none) (hcur : s'.currentSpace.get key k = some old)
    (hgl : 0 < next.growthLeft) :
    (s.get key k).map Prod.fst = some (some old) ∧ (s.insert key A k o).map Prod.fst = some none := by
  have hrep : (replaceFirst key k o next.entries).1 = none := by
    rw [replaceFirst_fst]; exact hk
  constructor
  · simp [KeySpace.get, hadv, hnext, hk, hcur]
  · rcases hr : replaceFirst key k o next.entries with ⟨_ | x, entries⟩
    · simp [KeySpace.insert, hadv, hnext, hr, RawTable.insertNoGrow_of_pos _ _ hgl]
    · simp [hr] at hrep

/-- An allocator giving the first table 152 slots and every later one exactly the request. -/
def firstTable152 : TableAlloc :=
  ⟨fun n => if n = minNumBuckets then 152 else n, fun n => by dsimp only; split_ifs <;> simp_all [minNumBuckets]⟩

/-- 131 inserts start a rehash that leaves `130` unmoved, so `insert(130, 0)` is `None`. -/
theorem insert_during_rehash_returns_none_afterFill :
    (KeySpace.new firstTable152 [] : KeySpace Nat).run id firstTable152
        ((List.range 131).map fun i => .insert i i) =
      some (List.replicate 131 none, ⟨⟨(List.range 131).drop 65, 86⟩, some ⟨List.range 65, 239⟩, []⟩) ∧
    (⟨⟨(List.range 131).drop 65, 86⟩, some ⟨List.range 65, 239⟩, []⟩ : KeySpace Nat).advanceRehash =
      some ⟨⟨[130], 151⟩, some ⟨List.range 130, 174⟩, []⟩ ∧
    (⟨⟨[130], 151⟩, some ⟨List.range 130, 174⟩, []⟩ : KeySpace Nat).nextSpace =
      some ⟨List.range 130, 174⟩ ∧
    (⟨List.range 130, 174⟩ : RawTable Nat).get id 130 = none ∧
    (⟨[130], 151⟩ : RawTable Nat).get id 130 = some 130 ∧ 0 < (⟨List.range 130, 174⟩ : RawTable Nat).growthLeft ∧
    ((⟨⟨(List.range 131).drop 65, 86⟩, some ⟨List.range 65, 239⟩, []⟩ : KeySpace Nat).get id 130).map
      Prod.fst = some (some 130) ∧
    ((⟨⟨(List.range 131).drop 65, 86⟩, some ⟨List.range 65, 239⟩, []⟩ : KeySpace Nat).insert id
      firstTable152 130 0).map Prod.fst = some none := by
  have hrun : (KeySpace.new firstTable152 [] : KeySpace Nat).run id firstTable152
      ((List.range 131).map fun i => .insert i i) =
      some (List.replicate 131 none, ⟨⟨(List.range 131).drop 65, 86⟩, some ⟨List.range 65, 239⟩, []⟩) := by
    set_option maxRecDepth 20000 in rfl
  have hadv : (⟨⟨(List.range 131).drop 65, 86⟩, some ⟨List.range 65, 239⟩, []⟩ : KeySpace Nat).advanceRehash =
      some ⟨⟨[130], 151⟩, some ⟨List.range 130, 174⟩, []⟩ := by decide
  have hk : (⟨List.range 130, 174⟩ : RawTable Nat).get id 130 = none := by decide
  exact ⟨hrun, hadv, rfl, hk, rfl, by decide,
    insert_during_rehash_returns_none id firstTable152 0 hadv rfl hk rfl (by decide)⟩

end Rehash

end Engula.Engine
