import Engula.Bytes

/-! The client-side routing cache of `client/src/router.rs`: the descriptors streamed from the
root service, the `State` tables they fill, and the handlers `apply_update_event`,
`apply_group_descriptor` and `apply_delete_event` that `watch_events` applies one event at a
time. Each `HashMap` is a function to `Option`, updated with `Function.update`; ids and epochs
are `u64`, which only ever compare, so they are natural numbers here. The descriptor messages
come from the API crate, which is not in the source: they keep the fields the router reads. -/

namespace Engula.Router

/-! ### Descriptors -/

structure NodeDesc where
  id : Nat
  addr : String
  deriving DecidableEq, Repr

structure DatabaseDesc where
  id : Nat
  name : String
  deriving DecidableEq, Repr

/-- `collection_desc::Partition`: `find_shard` only looks for `Hash { slots }`. -/
inductive CollectionPartition
  | hash (slots : Nat)
  | range
  deriving DecidableEq, Repr

structure CollectionDesc where
  id : Nat
  name : String
  db : Nat
  partition : Option CollectionPartition
  deriving DecidableEq, Repr

/-- `shard_desc::Partition`; an empty `end` stands for +∞. -/
inductive ShardPartition
  | hash (slotId slots : Nat)
  | range (start «end» : Bytes)
  deriving DecidableEq, Repr

structure ShardDesc where
  id : Nat
  collectionId : Nat
  partition : Option ShardPartition
  deriving DecidableEq, Repr

structure ReplicaDesc where
  id : Nat
  deriving DecidableEq, Repr

structure GroupDesc where
  id : Nat
  epoch : Nat
  shards : List ShardDesc
  replicas : List ReplicaDesc
  deriving DecidableEq, Repr

/-- A replica's `role`; `leader_state` only asks whether it is `RaftRole::Leader`. -/
inductive RaftRole
  | leader
  | other
  deriving DecidableEq, Repr

structure ReplicaState where
  replicaId : Nat
  term : Nat
  role : RaftRole
  deriving DecidableEq, Repr

structure GroupState where
  groupId : Nat
  leaderId : Option Nat
  replicas : List ReplicaState
  deriving DecidableEq, Repr

/-- `update_event::Event`. -/
inductive UpdateEvent
  | node (desc : NodeDesc)
  | group (desc : GroupDesc)
  | groupState (state : GroupState)
  | database (desc : DatabaseDesc)
  | collection (desc : CollectionDesc)
  deriving DecidableEq, Repr

/-- `delete_event::Event`, each by id. -/
inductive DeleteEvent
  | node (id : Nat)
  | group (id : Nat)
  | groupState (id : Nat)
  | database (id : Nat)
  | collection (id : Nat)
  deriving DecidableEq, Repr

def GroupDesc.shardIds (d : GroupDesc) : List Nat := d.shards.map ShardDesc.id

/-! ### The state -/

/-- `RouterGroupState`: the router's view of a group. -/
structure RouterGroupState where
  id : Nat
  epoch : Nat
  leaderState : Option (Nat × Nat)
  replicas : Nat → Option ReplicaDesc

/-- `State`, the tables behind the router's mutex. -/
structure State where
  nodeIdLookup : Nat → Option String
  dbIdLookup : Nat → Option DatabaseDesc
  dbNameLookup : String → Option Nat
  coIdLookup : Nat → Option CollectionDesc
  coNameLookup : Nat × String → Option Nat
  coShardsLookup : Nat → Option (List ShardDesc)
  shardGroupLookup : Nat → Option (Nat × Nat)
  groupIdLookup : Nat → Option RouterGroupState
  cachedGroupStates : Nat → Option GroupState

def State.default : State :=
  ⟨fun _ => none, fun _ => none, fun _ => none, fun _ => none, fun _ => none, fun _ => none,
    fun _ => none, fun _ => none, fun _ => none⟩

open Function (update)

/-- `State::find_group_by_shard`: the shard's group, unless its view moved past that epoch. -/
def State.findGroupByShard (σ : State) (shardId : Nat) : Option RouterGroupState :=
  match σ.shardGroupLookup shardId with
  | none => none
  | some (groupId, epoch) =>
    match σ.groupIdLookup groupId with
    | none => none
    | some groupState => if groupState.epoch > epoch then none else some groupState

theorem State.findGroupByShard_eq_some {σ : State} {s : Nat} {v : RouterGroupState} :
    σ.findGroupByShard s = some v ↔
      ∃ g e, σ.shardGroupLookup s = some (g, e) ∧ σ.groupIdLookup g = some v ∧ v.epoch ≤ e := by
  constructor
  · intro hf
    unfold State.findGroupByShard at hf
    split at hf
    · contradiction
    rename_i g e hse
    split at hf
    · contradiction
    rename_i w hw
    split_ifs at hf with hle
    cases hf
    exact ⟨g, e, hse, hw, not_lt.1 hle⟩
  · rintro ⟨g, e, hse, hw, hle⟩
    simp [State.findGroupByShard, hse, hw, not_lt.2 hle]

/-- `leader_state`: the leader-role replica of highest term, the last among ties after the sort. -/
def leaderState (groupState : GroupState) : Option (Nat × Nat) :=
  match groupState.leaderId with
  | some _ =>
    let candidates := (groupState.replicas.filter (fun r => r.role = .leader)).map
      (fun r => (r.replicaId, r.term))
    (candidates.mergeSort (fun a b => a.2 ≤ b.2)).getLast?
  | none => none

/-! ### Applying a group descriptor -/

def GroupDesc.toView (d : GroupDesc) (leader : Option (Nat × Nat)) : RouterGroupState where
  id := d.id
  epoch := d.epoch
  leaderState := leader
  replicas := d.replicas.foldl (fun m r => update m r.id (some r)) (fun _ => none)

/-- The `shard_group_lookup` half of the shard loop: a shard moves only at a higher epoch. -/
def updateShardGroup (id epoch : Nat) (lookup : Nat → Option (Nat × Nat)) (shardId : Nat) :
    Nat → Option (Nat × Nat) :=
  match lookup shardId with
  | none => update lookup shardId (some (id, epoch))
  | some (_, entryEpoch) =>
    if entryEpoch < epoch then update lookup shardId (some (id, epoch)) else lookup

/-- The `co_shards_lookup` half: `retain` the other shards, then `push` this one. -/
def upsertCoShard (lookup : Nat → Option (List ShardDesc)) (shard : ShardDesc) :
    Nat → Option (List ShardDesc) :=
  match lookup shard.collectionId with
  | none => update lookup shard.collectionId (some [shard])
  | some shards => update lookup shard.collectionId (some (shards.filter (·.id ≠ shard.id) ++ [shard]))

def State.applyShard (id epoch : Nat) (σ : State) (shard : ShardDesc) : State :=
  { σ with
    shardGroupLookup := updateShardGroup id epoch σ.shardGroupLookup shard.id
    coShardsLookup := upsertCoShard σ.coShardsLookup shard }

/-- `State::apply_group_descriptor`: overwrite the view, keep the leader, run the shard loop. -/
def State.applyGroupDescriptor (σ : State) (groupDesc : GroupDesc) : State :=
  let σ' : State :=
    match σ.groupIdLookup groupDesc.id with
    | some oldState =>
      { σ with
        groupIdLookup := update σ.groupIdLookup groupDesc.id
          (some (groupDesc.toView oldState.leaderState)) }
    | none =>
      { σ with
        groupIdLookup := update σ.groupIdLookup groupDesc.id
          (some (groupDesc.toView ((σ.cachedGroupStates groupDesc.id).bind leaderState)))
        cachedGroupStates := update σ.cachedGroupStates groupDesc.id none }
  groupDesc.shards.foldl (State.applyShard groupDesc.id groupDesc.epoch) σ'

/-! ### Update and delete events -/

def State.applyUpdateEvent (σ : State) : UpdateEvent → State
  | .node desc => { σ with nodeIdLookup := update σ.nodeIdLookup desc.id (some desc.addr) }
  | .group desc => σ.applyGroupDescriptor desc
  | .groupState groupState =>
    match σ.groupIdLookup groupState.groupId with
    | some group =>
      { σ with
        groupIdLookup := update σ.groupIdLookup groupState.groupId
          (some { group with leaderState := leaderState groupState }) }
    | none =>
      { σ with cachedGroupStates := update σ.cachedGroupStates groupState.groupId (some groupState) }
  | .database desc =>
    let dbNameLookup :=
      (match σ.dbIdLookup desc.id with
      | some oldDesc => if oldDesc.name ≠ desc.name then update σ.dbNameLookup desc.name none
          else σ.dbNameLookup
      | none => σ.dbNameLookup)
    { σ with
      dbIdLookup := update σ.dbIdLookup desc.id (some desc)
      dbNameLookup := update dbNameLookup desc.name (some desc.id) }
  | .collection desc =>
    let coNameLookup :=
      (match σ.coIdLookup desc.id with
      | some oldDesc => if oldDesc.name ≠ desc.name then update σ.coNameLookup (desc.db, oldDesc.name) none
          else σ.coNameLookup
      | none => σ.coNameLookup)
    { σ with
      coIdLookup := update σ.coIdLookup desc.id (some desc)
      coNameLookup := update coNameLookup (desc.db, desc.name) (some desc.id) }

/-- `State::apply_delete_event`; deleting a group or a group state is `todo!()`, `none`. -/
def State.applyDeleteEvent (σ : State) : DeleteEvent → Option State
  | .node id => some { σ with nodeIdLookup := update σ.nodeIdLookup id none }
  | .group _ => none
  | .groupState _ => none
  | .database id =>
    match σ.dbIdLookup id with
    | some desc => some { σ with
        dbIdLookup := update σ.dbIdLookup id none
        dbNameLookup := update σ.dbNameLookup desc.name none }
    | none => some σ
  | .collection id =>
    match σ.coIdLookup id with
    | some desc => some { σ with
        coIdLookup := update σ.coIdLookup id none
        coNameLookup := update σ.coNameLookup (desc.db, desc.name) none }
    | none => some σ

def State.applyUpdates (σ : State) (evs : List UpdateEvent) : State :=
  evs.foldl State.applyUpdateEvent σ

@[simp] theorem State.applyUpdates_nil (σ : State) : σ.applyUpdates [] = σ := rfl

@[simp] theorem State.applyUpdates_append (σ : State) (evs : List UpdateEvent) (e : UpdateEvent) :
    σ.applyUpdates (evs ++ [e]) = (σ.applyUpdates evs).applyUpdateEvent e := by
  simp [State.applyUpdates]

/-! ### What one descriptor does to each table -/

/-- The entry the shard loop leaves for a shard that the descriptor lists. -/
def claimShard (id epoch : Nat) : Option (Nat × Nat) → Option (Nat × Nat)
  | none => some (id, epoch)
  | some (g, e) => if e < epoch then some (id, epoch) else some (g, e)

theorem claimShard_claimShard (id epoch : Nat) (o : Option (Nat × Nat)) :
    claimShard id epoch (claimShard id epoch o) = claimShard id epoch o := by
  rcases o with _ | ⟨g, e⟩
  · simp [claimShard]
  · by_cases h : e < epoch <;> simp [claimShard, h]

theorem updateShardGroup_apply (id epoch : Nat) (m : Nat → Option (Nat × Nat)) (shardId x : Nat) :
    updateShardGroup id epoch m shardId x = if x = shardId then claimShard id epoch (m x) else m x := by
  unfold updateShardGroup claimShard
  by_cases hx : x = shardId
  · subst hx
    rcases h : m x with _ | ⟨g, e⟩
    · simp [h]
    · by_cases he : e < epoch <;> simp [h, he]
  · rcases m shardId with _ | ⟨g, e⟩
    · simp [hx]
    · by_cases he : e < epoch <;> simp [hx, he]

/-- The shard loop settles each shard once: repeats change nothing more. -/
theorem foldl_updateShardGroup_apply (id epoch : Nat) (shards : List ShardDesc)
    (m : Nat → Option (Nat × Nat)) (x : Nat) :
    shards.foldl (fun m s => updateShardGroup id epoch m s.id) m x =
      if x ∈ shards.map ShardDesc.id then claimShard id epoch (m x) else m x := by
  induction shards generalizing m with
  | nil => simp
  | cons s shards ih =>
    simp only [List.foldl_cons, ih, updateShardGroup_apply, List.map_cons, List.mem_cons]
    by_cases hx : x = s.id <;> by_cases hm : x ∈ shards.map ShardDesc.id <;>
      simp [hx, hm, claimShard_claimShard]

theorem foldl_applyShard (id epoch : Nat) (shards : List ShardDesc) (σ : State) :
    shards.foldl (State.applyShard id epoch) σ =
      { σ with
        shardGroupLookup := shards.foldl (fun m s => updateShardGroup id epoch m s.id) σ.shardGroupLookup
        coShardsLookup := shards.foldl upsertCoShard σ.coShardsLookup } := by
  induction shards generalizing σ with
  | nil => rfl
  | cons s shards ih => exact ih _

/-- The leader `apply_group_descriptor` gives the new view of group `id`. -/
def State.keptLeader (σ : State) (id : Nat) : Option (Nat × Nat) :=
  match σ.groupIdLookup id with
  | some oldState => oldState.leaderState
  | none => (σ.cachedGroupStates id).bind leaderState

section GroupDescriptor

variable (σ : State) (d : GroupDesc)

@[simp] theorem applyGroupDescriptor_groupIdLookup :
    (σ.applyGroupDescriptor d).groupIdLookup =
      update σ.groupIdLookup d.id (some (d.toView (σ.keptLeader d.id))) := by
  unfold State.applyGroupDescriptor State.keptLeader
  split <;> simp [foldl_applyShard, *]

@[simp] theorem applyGroupDescriptor_cachedGroupStates (g : Nat) :
    (σ.applyGroupDescriptor d).cachedGroupStates g =
      if g = d.id ∧ (σ.groupIdLookup d.id).isNone then none else σ.cachedGroupStates g := by
  unfold State.applyGroupDescriptor
  split <;> by_cases hg : g = d.id <;> simp_all [foldl_applyShard, Function.update_apply]

@[simp] theorem applyGroupDescriptor_shardGroupLookup (x : Nat) :
    (σ.applyGroupDescriptor d).shardGroupLookup x =
      if x ∈ d.shardIds then claimShard d.id d.epoch (σ.shardGroupLookup x)
      else σ.shardGroupLookup x := by
  unfold State.applyGroupDescriptor
  split <;> simp [foldl_applyShard, foldl_updateShardGroup_apply, GroupDesc.shardIds]

@[simp] theorem applyGroupDescriptor_coShardsLookup :
    (σ.applyGroupDescriptor d).coShardsLookup = d.shards.foldl upsertCoShard σ.coShardsLookup := by
  unfold State.applyGroupDescriptor
  split <;> simp [foldl_applyShard]

@[simp] theorem applyGroupDescriptor_dbIdLookup :
    (σ.applyGroupDescriptor d).dbIdLookup = σ.dbIdLookup := by
  unfold State.applyGroupDescriptor; split <;> simp [foldl_applyShard]

@[simp] theorem applyGroupDescriptor_dbNameLookup :
    (σ.applyGroupDescriptor d).dbNameLookup = σ.dbNameLookup := by
  unfold State.applyGroupDescriptor; split <;> simp [foldl_applyShard]

@[simp] theorem applyGroupDescriptor_coIdLookup :
    (σ.applyGroupDescriptor d).coIdLookup = σ.coIdLookup := by
  unfold State.applyGroupDescriptor; split <;> simp [foldl_applyShard]

@[simp] theorem applyGroupDescriptor_coNameLookup :
    (σ.applyGroupDescriptor d).coNameLookup = σ.coNameLookup := by
  unfold State.applyGroupDescriptor; split <;> simp [foldl_applyShard]

end GroupDescriptor

end Engula.Router
