import Engula.Router.Ownership
import Engula.Router.CoShards

/-! `Router::find_shard`: the shard of a collection holding a key, with the view of its group.
A hash-partitioned collection picks the shard whose slot is `crc32(key) mod slots`; otherwise
the collection's shards are scanned for a range partition holding the key. `crc32` comes from
the `crc32fast` crate and is a parameter here. The range scan compares the key with a range's
end the wrong way round: it accepts a shard whose end lies below the key and skips a bounded
shard that holds the key. The other lookups of `Router` read one table each and report a
miss as `NotFound`, naming what they looked for. -/

namespace Engula.Router

inductive Error
  | notFound (msg : String)
  deriving DecidableEq, Repr

/-- The `find` of the hash branch; `none` is the `unwrap` panic, `some none` no shard. -/
def findSlot (slot : Nat) : List ShardDesc → Option (Option ShardDesc)
  | [] => some none
  | s :: shards =>
    match s.partition with
    | none => none
    | some (.hash slotId _) => if slotId = slot then some (some s) else findSlot slot shards
    | some (.range _ _) => findSlot slot shards

/-- The loop of the range branch over the collection's shards. -/
def findRangeShard (σ : State) (key : Bytes) :
    List ShardDesc → Except Error (RouterGroupState × ShardDesc)
  | [] => .error (.notFound s!"shard (key={key})")
  | shard :: shards =>
    match shard.partition with
    | some (.range start «end») =>
      if start > key then findRangeShard σ key shards
      else if «end» < key ∨ «end» = [] then
        match σ.findGroupByShard shard.id with
        | none => .error (.notFound s!"shard (key={key}) group")
        | some groupState => .ok (groupState, shard)
      else findRangeShard σ key shards
    | _ => findRangeShard σ key shards

/-- `Router::find_shard`; `none` is a panic: `crc % slots` with no slots, or an `unwrap`. -/
def findShard (crc32 : Bytes → UInt32) (σ : State) (desc : CollectionDesc) (key : Bytes) :
    Option (Except Error (RouterGroupState × ShardDesc)) :=
  match desc.partition with
  | some (.hash slots) =>
    if slots = 0 then none
    else
      let slot := (crc32 key).toNat % slots
      match σ.coShardsLookup desc.id with
      | none => some (.error (.notFound s!"shard (key={key})"))
      | some shards =>
        if slots ≠ shards.length % 2 ^ 32 then some (.error (.notFound "expired shard info"))
        else
          match findSlot slot shards with
          | some (some shard) =>
            match σ.findGroupByShard shard.id with
            | none => some (.error (.notFound s!"shard (key={key}) group"))
            | some groupState => some (.ok (groupState, shard))
          | _ => none
  | _ =>
    match σ.coShardsLookup desc.id with
    | none => some (.error (.notFound s!"shard (key={key})"))
    | some shards => some (findRangeShard σ key shards)

theorem findShard_of_not_hash (crc32 : Bytes → UInt32) (σ : State) (desc : CollectionDesc)
    (key : Bytes) (h : ∀ slots, desc.partition ≠ some (.hash slots)) :
    findShard crc32 σ desc key = some (match σ.coShardsLookup desc.id with
      | none => .error (.notFound s!"shard (key={key})")
      | some shards => findRangeShard σ key shards) := by
  unfold findShard
  split
  · exact absurd ‹_› (h _)
  · split <;> rfl

theorem findRangeShard_ok {σ : State} {key : Bytes} {shards : List ShardDesc}
    {g : RouterGroupState} {sd : ShardDesc} (h : findRangeShard σ key shards = .ok (g, sd)) :
    sd ∈ shards ∧ σ.findGroupByShard sd.id = some g ∧ ∃ start «end»,
      sd.partition = some (.range start «end») ∧ ¬ key < start ∧ («end» < key ∨ «end» = []) := by
  induction shards with
  | nil => cases h
  | cons s shards ih =>
    unfold findRangeShard at h
    split at h
    · rename_i start «end» hp
      split_ifs at h with h₁ h₂
      · exact (ih h).imp (List.mem_cons_of_mem s) id
      · split at h
        · cases h
        · cases h
          exact ⟨List.mem_cons_self _ _, ‹_›, start, «end», hp, h₁, h₂⟩
      · exact (ih h).imp (List.mem_cons_of_mem s) id
    · exact (ih h).imp (List.mem_cons_of_mem s) id

/-! ### The hash branch -/

def ShardDesc.slotId? (sd : ShardDesc) : Option Nat :=
  match sd.partition with
  | some (.hash slotId _) => some slotId
  | _ => none

theorem findSlot_eq_find? (slot : Nat) {shards : List ShardDesc} (h : ∀ s ∈ shards, s.slotId?.isSome) :
    findSlot slot shards = some (shards.find? (·.slotId? = some slot)) := by
  induction shards with
  | nil => rfl
  | cons s shards ih =>
    have ih := ih fun t ht => h t (List.mem_cons_of_mem s ht)
    have hs := h s (List.mem_cons_self s shards)
    rcases hp : s.partition with _ | ⟨k, n⟩ | ⟨start, «end»⟩ <;>
      simp only [ShardDesc.slotId?, hp, Option.isSome_none, Bool.false_eq_true] at hs
    by_cases hk : k = slot <;> simp [findSlot, hp, hk, ih, ShardDesc.slotId?]

section Slots

variable {shards : List ShardDesc} {slots : Nat}

theorem nodup_slotIds (hids : (shards.map ShardDesc.id).Nodup)
    (hdistinct : ∀ s ∈ shards, ∀ t ∈ shards, s.id ≠ t.id → s.slotId? ≠ t.slotId?) :
    (shards.map ShardDesc.slotId?).Nodup := by
  refine (hids.of_map _).map_on fun s hs t ht heq => ?_
  by_cases hid : s.id = t.id
  · exact List.inj_on_of_nodup_map hids hs ht hid
  · exact absurd heq (hdistinct s hs t ht hid)

theorem slotIds_subperm (hids : (shards.map ShardDesc.id).Nodup)
    (hslot : ∀ s ∈ shards, ∃ k, s.slotId? = some k ∧ k < slots)
    (hdistinct : ∀ s ∈ shards, ∀ t ∈ shards, s.id ≠ t.id → s.slotId? ≠ t.slotId?) :
    (shards.map ShardDesc.slotId?).Subperm ((List.range slots).map some) := by
  refine List.subperm_of_subset (nodup_slotIds hids hdistinct) fun x hx => ?_
  obtain ⟨s, hs, rfl⟩ := List.mem_map.1 hx
  obtain ⟨k, hk, hlt⟩ := hslot s hs
  simpa [hk] using hlt

theorem exists_slotId_of_length_eq (hids : (shards.map ShardDesc.id).Nodup)
    (hslot : ∀ s ∈ shards, ∃ k, s.slotId? = some k ∧ k < slots)
    (hdistinct : ∀ s ∈ shards, ∀ t ∈ shards, s.id ≠ t.id → s.slotId? ≠ t.slotId?)
    (hlen : shards.length = slots) {k : Nat} (hk : k < slots) : ∃ s ∈ shards, s.slotId? = some k := by
  have hperm := (slotIds_subperm hids hslot hdistinct).perm_of_length_le (by simp [hlen])
  simpa using hperm.symm.subset (List.mem_map_of_mem some (List.mem_range.2 hk))

end Slots

theorem findSlot_of_length_eq {shards : List ShardDesc} {slots slot : Nat}
    (hids : (shards.map ShardDesc.id).Nodup) (hslot : ∀ s ∈ shards, ∃ k, s.slotId? = some k ∧ k < slots)
    (hdistinct : ∀ s ∈ shards, ∀ t ∈ shards, s.id ≠ t.id → s.slotId? ≠ t.slotId?)
    (hlen : shards.length = slots) (hlt : slot < slots) :
    ∃ sd, findSlot slot shards = some (some sd) ∧ sd ∈ shards ∧ sd.slotId? = some slot ∧
      ∀ t ∈ shards, t.slotId? = some slot → t = sd := by
  obtain ⟨s₀, hs₀, hslot₀⟩ := exists_slotId_of_length_eq hids hslot hdistinct hlen hlt
  obtain ⟨sd, hfind⟩ : ∃ sd, shards.find? (·.slotId? = some slot) = some sd :=
    Option.isSome_iff_exists.1 (List.find?_isSome.2 ⟨s₀, hs₀, by simpa using hslot₀⟩)
  have hsd : sd ∈ shards := List.mem_of_find?_eq_some hfind
  have hsdslot : sd.slotId? = some slot := by simpa using List.find?_some hfind
  refine ⟨sd, ?_, hsd, hsdslot, fun t ht htslot =>
    List.inj_on_of_nodup_map (nodup_slotIds hids hdistinct) ht hsd (htslot.trans hsdslot.symm)⟩
  rw [findSlot_eq_find? slot fun s hs => by obtain ⟨k, hk, -⟩ := hslot s hs; simp [hk], hfind]

/-- Under lists free of repeated ids, the hash branch never panics and finds the key's slot. -/
theorem findShard_hash_of_nodup (crc32 : Bytes → UInt32) {σ : State} (hnodup : CoShardsNodup σ.coShardsLookup)
    {desc : CollectionDesc} {slots : Nat} (hpart : desc.partition = some (.hash slots))
    (hslots : 0 < slots) (hu32 : slots < 2 ^ 32)
    (hwell : ∀ shards, σ.coShardsLookup desc.id = some shards →
      (∀ s ∈ shards, ∃ k, s.slotId? = some k ∧ k < slots) ∧
        ∀ s ∈ shards, ∀ t ∈ shards, s.id ≠ t.id → s.slotId? ≠ t.slotId?)
    (key : Bytes) :
    ∃ r, findShard crc32 σ desc key = some r ∧
      ((∃ msg, r = .error (.notFound msg)) ↔
        σ.coShardsLookup desc.id = none ∨ ∃ shards, σ.coShardsLookup desc.id = some shards ∧
          (shards.length ≠ slots ∨ ∃ sd ∈ shards, sd.slotId? = some ((crc32 key).toNat % slots) ∧
            σ.findGroupByShard sd.id = none)) ∧
      ∀ g sd, r = .ok (g, sd) ↔ ∃ shards, σ.coShardsLookup desc.id = some shards ∧
        shards.length = slots ∧ sd ∈ shards ∧ sd.slotId? = some ((crc32 key).toNat % slots) ∧
        (∀ t ∈ shards, t.slotId? = some ((crc32 key).toNat % slots) → t = sd) ∧
        σ.findGroupByShard sd.id = some g := by
  set slot := (crc32 key).toNat % slots
  have hne : slots ≠ 0 := Nat.pos_iff_ne_zero.1 hslots
  rcases hl : σ.coShardsLookup desc.id with _ | shards
  · have hr : findShard crc32 σ desc key = some (.error (.notFound s!"shard (key={key})")) := by
      simp [findShard, hpart, hne, hl]
    exact ⟨_, hr, by simp, by simp⟩
  obtain ⟨hslot, hdistinct⟩ := hwell shards hl
  have hids := hnodup _ _ hl
  by_cases hlen : shards.length = slots
  swap
  · -- the list length disagrees with the slot count
    have hle : shards.length ≤ slots := by simpa using (slotIds_subperm hids hslot hdistinct).length_le
    have hmod : shards.length % 4294967296 = shards.length := Nat.mod_eq_of_lt (by omega)
    have hr : findShard crc32 σ desc key = some (.error (.notFound "expired shard info")) := by
      simp [findShard, hpart, hne, hl, hmod, Ne.symm hlen]
    exact ⟨_, hr, by simp [hlen], by simp [hlen]⟩
  have hslots32 : slots % 4294967296 = slots := Nat.mod_eq_of_lt hu32
  obtain ⟨sd, hfs, hsd, hsdslot, huniq⟩ :=
    findSlot_of_length_eq hids hslot hdistinct hlen (Nat.mod_lt (crc32 key).toNat hslots)
  rcases hg : σ.findGroupByShard sd.id with _ | g
  · have hr : findShard crc32 σ desc key = some (.error (.notFound s!"shard (key={key}) group")) := by
      simp [findShard, hpart, hne, hl, hlen, hslots32, hfs, hg]
    refine ⟨_, hr, by simpa using .inr ⟨sd, hsd, hsdslot, hg⟩, fun g' sd' => ?_⟩
    simp only [reduceCtorEq, false_iff, not_exists, not_and, Option.some.injEq]
    rintro _ rfl - hsd' hslot' - hg'
    rw [huniq sd' hsd' hslot', hg] at hg'
    cases hg'
  · have hr : findShard crc32 σ desc key = some (.ok (g, sd)) := by
      simp [findShard, hpart, hne, hl, hlen, hslots32, hfs, hg]
    refine ⟨_, hr, ?_, fun g' sd' => ?_⟩
    · simp only [reduceCtorEq, exists_false, Option.some.injEq, false_iff, not_or, not_exists,
        not_and, hlen, not_true_eq_false, false_or]
      rintro _ rfl
      refine ⟨fun h => h hlen, fun t ht htslot htg => ?_⟩
      rw [huniq t ht htslot, hg] at htg
      cases htg
    · simp only [Except.ok.injEq, Prod.mk.injEq, Option.some.injEq]
      constructor
      · rintro ⟨rfl, rfl⟩
        exact ⟨_, rfl, hlen, hsd, hsdslot, huniq, hg⟩
      · rintro ⟨_, rfl, -, hsd', hslot', -, hg'⟩
        obtain rfl := huniq sd' hsd' hslot'
        rw [hg] at hg'
        exact ⟨Option.some.inj hg', rfl⟩

/-- After any run, the hash branch never panics and finds the shard of the key's slot. -/
theorem findShard_hash_total (crc32 : Bytes → UInt32) (σ : State)
    (hreach : ∃ evs, σ = State.default.applyUpdates evs)
    (desc : CollectionDesc) (slots : Nat) (hpart : desc.partition = some (.hash slots))
    (hslots : 0 < slots) (hu32 : slots < 2 ^ 32)
    (hwell : ∀ shards, σ.coShardsLookup desc.id = some shards →
      (∀ s ∈ shards, ∃ k, s.slotId? = some k ∧ k < slots) ∧
        ∀ s ∈ shards, ∀ t ∈ shards, s.id ≠ t.id → s.slotId? ≠ t.slotId?)
    (key : Bytes) :
    ∃ r, findShard crc32 σ desc key = some r ∧
      ((∃ msg, r = .error (.notFound msg)) ↔
        σ.coShardsLookup desc.id = none ∨ ∃ shards, σ.coShardsLookup desc.id = some shards ∧
          (shards.length ≠ slots ∨ ∃ sd ∈ shards, sd.slotId? = some ((crc32 key).toNat % slots) ∧
            σ.findGroupByShard sd.id = none)) ∧
      ∀ g sd, r = .ok (g, sd) ↔ ∃ shards, σ.coShardsLookup desc.id = some shards ∧
        shards.length = slots ∧ sd ∈ shards ∧ sd.slotId? = some ((crc32 key).toNat % slots) ∧
        (∀ t ∈ shards, t.slotId? = some ((crc32 key).toNat % slots) → t = sd) ∧
        σ.findGroupByShard sd.id = some g := by
  obtain ⟨evs, rfl⟩ := hreach
  exact findShard_hash_of_nodup crc32 (coShardsNodup_applyUpdates evs) hpart hslots hu32 hwell key

/-- Group 1 takes shards 1 and 2 of collection 1, at hash slots 0 and 1 of 2. -/
def hashRouted : State :=
  State.default.applyUpdates [.group ⟨1, 1, [⟨1, 1, some (.hash 0 2)⟩, ⟨2, 1, some (.hash 1 2)⟩], []⟩]

/-- Collection 1, hash-partitioned into two slots. -/
def hashCollection : CollectionDesc := ⟨1, "c", 1, some (.hash 2)⟩

theorem findShard_hash_total_twoSlots :
    hashCollection.partition = some (.hash 2) ∧
      (∀ shards, hashRouted.coShardsLookup hashCollection.id = some shards →
        (∀ s ∈ shards, ∃ k, s.slotId? = some k ∧ k < 2) ∧
          ∀ s ∈ shards, ∀ t ∈ shards, s.id ≠ t.id → s.slotId? ≠ t.slotId?) ∧
      ∃ r, findShard (fun _ => 0) hashRouted hashCollection [] = some r ∧
        ∃ g, r = .ok (g, ⟨1, 1, some (.hash 0 2)⟩) := by
  have hlookup : hashRouted.coShardsLookup hashCollection.id =
      some [⟨1, 1, some (.hash 0 2)⟩, ⟨2, 1, some (.hash 1 2)⟩] := by decide
  have hwell : ∀ shards, hashRouted.coShardsLookup hashCollection.id = some shards →
      (∀ s ∈ shards, ∃ k, s.slotId? = some k ∧ k < 2) ∧
        ∀ s ∈ shards, ∀ t ∈ shards, s.id ≠ t.id → s.slotId? ≠ t.slotId? := by
    intro shards h
    rw [hlookup, Option.some.injEq] at h
    subst h
    simp [ShardDesc.slotId?]
  obtain ⟨r, hr, -, hok⟩ := findShard_hash_total (fun _ => 0) hashRouted ⟨_, rfl⟩ hashCollection 2 rfl
    (by decide) (by decide) hwell []
  obtain ⟨g, hg⟩ := Option.isSome_iff_exists.1 (show (hashRouted.findGroupByShard 1).isSome by decide)
  refine ⟨rfl, hwell, r, hr, g, (hok g _).2 ⟨_, hlookup, rfl, by simp, rfl, ?_, hg⟩⟩
  simp [ShardDesc.slotId?]

/-- Group 1 takes shard 1 of collection 1, with range `[[], [5])`. -/
def rangeRouted : State :=
  State.default.applyUpdates [.group ⟨1, 1, [⟨1, 1, some (.range [] [5])⟩], []⟩]

/-- Collection 1, not hash-partitioned. -/
def rangeCollection : CollectionDesc := ⟨1, "c", 1, some .range⟩

/-- The key `[7]`, past the end `[5]`, is routed to shard 1, and `[3]`, inside, is not. -/
theorem findShard_compares_end_backwards (crc32 : Bytes → UInt32) :
    (findShard crc32 rangeRouted rangeCollection [7]).bind (fun
      | .ok (_, sd) => some sd
      | .error _ => none) = some ⟨1, 1, some (.range [] [5])⟩ ∧
    (findShard crc32 rangeRouted rangeCollection [3]).bind (fun
      | .error e => some e
      | .ok _ => none) = some (.notFound "shard (key=[3])") := by
  simp only [findShard_of_not_hash crc32 rangeRouted rangeCollection _ (by simp [rangeCollection])]
  decide

/-! ### The other lookups -/

/-- A lookup under the state lock that reports a miss as `NotFound` with the given text. -/
def lookupOrNotFound {α : Type} (found : Option α) (msg : String) : Except Error α :=
  match found with
  | some a => .ok a
  | none => .error (.notFound msg)

def findGroupByShard (σ : State) (shard : Nat) : Except Error RouterGroupState :=
  lookupOrNotFound (σ.findGroupByShard shard) s!"group (shard={shard})"

def findGroup (σ : State) (id : Nat) : Except Error RouterGroupState :=
  lookupOrNotFound (σ.groupIdLookup id) s!"group (id={id})"

def findNodeAddr (σ : State) (id : Nat) : Except Error String :=
  lookupOrNotFound (σ.nodeIdLookup id) s!"node_addr (node_id={id})"

theorem lookupOrNotFound_eq {α : Type} (found : Option α) (msg : String) (r : Except Error α) :
    lookupOrNotFound found msg = r ↔
      (∃ a, found = some a ∧ r = .ok a) ∨ (found = none ∧ r = .error (.notFound msg)) := by
  cases found <;> simp [lookupOrNotFound, eq_comm]

example : findNodeAddr State.default 3 = .error (.notFound "node_addr (node_id=3)") := rfl

end Engula.Router
