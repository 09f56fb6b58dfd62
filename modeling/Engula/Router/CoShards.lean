import Engula.Router.Ownership
import Engula.Router.Watch
import Mathlib.Data.List.Nodup

/-! `co_shards_lookup`, the shards the router knows of each collection. The shard loop of
`apply_group_descriptor` `retain`s the shards of other ids and then `push`es the descriptor's
copy of the shard; no other event touches the table. So after a run of update and delete events
the table is the shard loop over every shard the run's descriptors list, in order: no list holds
two shards of one id, and a collection's list holds exactly the ids of the shards of that
collection that some descriptor listed, including shards whose group has since let them go. -/

namespace Engula.Router

/-- No list of the table holds two shards of one id. -/
def CoShardsNodup (lookup : Nat → Option (List ShardDesc)) : Prop :=
  ∀ c shards, lookup c = some shards → (shards.map ShardDesc.id).Nodup

theorem upsertCoShard_apply (lookup : Nat → Option (List ShardDesc)) (shard : ShardDesc) (c : Nat) :
    upsertCoShard lookup shard c =
      if c = shard.collectionId then
        some ((lookup c).elim [shard] fun shards => shards.filter (·.id ≠ shard.id) ++ [shard])
      else lookup c := by
  unfold upsertCoShard
  rcases hl : lookup shard.collectionId with _ | shards <;>
    by_cases hc : c = shard.collectionId <;> simp [hl, hc, Function.update_apply]

theorem nodup_ids_filter_append {shards : List ShardDesc} (h : (shards.map ShardDesc.id).Nodup)
    (shard : ShardDesc) : ((shards.filter (·.id ≠ shard.id) ++ [shard]).map ShardDesc.id).Nodup := by
  rw [List.map_append, List.nodup_append]
  refine ⟨(((List.filter_sublist _).map _).nodup h), List.nodup_singleton _, ?_⟩
  simp only [List.Disjoint, List.mem_map, List.mem_filter, List.mem_singleton]
  rintro _ ⟨x, ⟨-, hx⟩, rfl⟩ ⟨_, rfl, hid⟩
  simp [hid] at hx

theorem CoShardsNodup.upsert {lookup : Nat → Option (List ShardDesc)} (h : CoShardsNodup lookup)
    (shard : ShardDesc) : CoShardsNodup (upsertCoShard lookup shard) := by
  intro c shards hc
  rw [upsertCoShard_apply] at hc
  split_ifs at hc
  · rcases hl : lookup c with _ | old <;> simp only [hl, Option.elim, Option.some.injEq] at hc <;> subst hc
    · simp
    · exact nodup_ids_filter_append (h c old hl) shard
  · exact h c shards hc

theorem CoShardsNodup.foldl {lookup : Nat → Option (List ShardDesc)} (h : CoShardsNodup lookup)
    (shards : List ShardDesc) : CoShardsNodup (shards.foldl upsertCoShard lookup) := by
  induction shards generalizing lookup with
  | nil => exact h
  | cons s shards ih => exact ih (h.upsert s)

theorem CoShardsNodup.applyUpdateEvent {σ : State} (h : CoShardsNodup σ.coShardsLookup)
    (e : UpdateEvent) : CoShardsNodup (σ.applyUpdateEvent e).coShardsLookup := by
  cases e with
  | group d => simpa [State.applyUpdateEvent] using h.foldl d.shards
  | groupState gs =>
    simp only [State.applyUpdateEvent]
    split <;> exact h
  | _ => exact h

theorem coShardsNodup_applyUpdates (evs : List UpdateEvent) :
    CoShardsNodup (State.default.applyUpdates evs).coShardsLookup := by
  induction evs using List.reverseRecOn with
  | nil => exact fun _ _ h => nomatch h
  | append_singleton evs e ih => simpa using ih.applyUpdateEvent e

/-! ### The ids of a collection's list -/

theorem mem_ids_upsertCoShard (lookup : Nat → Option (List ShardDesc)) (shard : ShardDesc) (c i : Nat) :
    i ∈ ((upsertCoShard lookup shard c).getD []).map ShardDesc.id ↔
      i ∈ ((lookup c).getD []).map ShardDesc.id ∨ (shard.collectionId = c ∧ shard.id = i) := by
  rw [upsertCoShard_apply]
  by_cases hc : c = shard.collectionId
  · subst hc
    by_cases hi : shard.id = i
    · rcases lookup shard.collectionId with _ | shards <;> simp [hi]
    · rcases lookup shard.collectionId with _ | shards <;> simp [hi, Ne.symm hi]
      exact ⟨fun ⟨a, ⟨ha, _⟩, hai⟩ => ⟨a, ha, hai⟩,
        fun ⟨a, ha, hai⟩ => ⟨a, ⟨ha, fun h => hi (h.symm.trans hai)⟩, hai⟩⟩
  · simp [hc, Ne.symm hc]

theorem mem_ids_foldl_upsertCoShard (shards : List ShardDesc) (lookup : Nat → Option (List ShardDesc))
    (c i : Nat) :
    i ∈ ((shards.foldl upsertCoShard lookup c).getD []).map ShardDesc.id ↔
      i ∈ ((lookup c).getD []).map ShardDesc.id ∨ ∃ s ∈ shards, s.collectionId = c ∧ s.id = i := by
  induction shards generalizing lookup with
  | nil => simp
  | cons s shards ih =>
    rw [List.foldl_cons, ih, mem_ids_upsertCoShard]
    simp [or_assoc]

/-! ### Runs of events -/

/-- The group descriptor an event carries. -/
def Event.groupDesc? : Event → Option GroupDesc
  | .update e => e.groupDesc?
  | .delete _ => none

/-- Only a group descriptor's shard loop touches the table. -/
theorem step_coShardsLookup {σ σ' : State} {e : Event} (h : σ.step e = some σ') :
    σ'.coShardsLookup = ((e.groupDesc?.map GroupDesc.shards).getD []).foldl upsertCoShard σ.coShardsLookup := by
  cases e with
  | update e =>
    cases h
    cases e with
    | group d => simp [State.applyUpdateEvent, Event.groupDesc?, UpdateEvent.groupDesc?]
    | groupState gs =>
      simp only [State.applyUpdateEvent]
      split <;> rfl
    | _ => rfl
  | delete e =>
    simp only [State.step] at h
    cases e with
    | group _ => cases h
    | groupState _ => cases h
    | node _ =>
      cases h
      rfl
    | _ =>
      simp only [State.applyDeleteEvent] at h
      split at h <;> cases h <;> rfl

/-- After a run the table is the shard loop over every shard of the run's descriptors. -/
theorem runEvents_coShardsLookup {σ σ' : State} {evs : List Event} (h : σ.runEvents evs = some σ') :
    σ'.coShardsLookup =
      ((evs.filterMap Event.groupDesc?).flatMap GroupDesc.shards).foldl upsertCoShard σ.coShardsLookup := by
  induction evs generalizing σ with
  | nil =>
    cases h
    rfl
  | cons e evs ih =>
    rw [State.runEvents_cons, Option.bind_eq_some] at h
    obtain ⟨σ₁, h₁, h⟩ := h
    rw [ih h, step_coShardsLookup h₁]
    rcases hd : e.groupDesc? with _ | d <;> simp [List.filterMap_cons, hd, List.foldl_append]

/-- After any run a list holds, once each, every shard id a descriptor of the run listed. -/
theorem coShardsLookup_ids_of_run {evs : List Event} {σ : State} (h : State.default.runEvents evs = some σ)
    (c : Nat) :
    (((σ.coShardsLookup c).getD []).map ShardDesc.id).Nodup ∧
      ∀ i, i ∈ ((σ.coShardsLookup c).getD []).map ShardDesc.id ↔
        ∃ d ∈ evs.filterMap Event.groupDesc?, ∃ s ∈ d.shards, s.collectionId = c ∧ s.id = i := by
  rw [runEvents_coShardsLookup h]
  refine ⟨?_, fun i => ?_⟩
  · rcases hl : List.foldl upsertCoShard State.default.coShardsLookup
        ((evs.filterMap Event.groupDesc?).flatMap GroupDesc.shards) c with _ | shards
    · simp
    · exact CoShardsNodup.foldl (show CoShardsNodup State.default.coShardsLookup from fun _ _ h => nomatch h)
        _ c shards hl
  · simp only [mem_ids_foldl_upsertCoShard, State.default, Option.getD_none, List.map_nil,
      List.not_mem_nil, false_or, List.mem_flatMap]
    constructor
    · rintro ⟨s, ⟨d, hd, hs⟩, hc, hi⟩
      exact ⟨d, hd, s, hs, hc, hi⟩
    · rintro ⟨d, hd, s, hs, hc, hi⟩
      exact ⟨s, ⟨d, hd, hs⟩, hc, hi⟩

/-- Shard 1 moves from group 1 to group 2, yet the collection's list keeps it, once. -/
theorem coShardsLookup_ids_of_run_migration :
    ∃ σ, State.default.runEvents (migration.map .update ++ [.delete (.node 3)]) = some σ ∧
      (((σ.coShardsLookup 1).getD []).map ShardDesc.id).Nodup ∧
      1 ∈ ((σ.coShardsLookup 1).getD []).map ShardDesc.id := by
  obtain ⟨σ, h⟩ : ∃ σ, State.default.runEvents
      (migration.map Event.update ++ [Event.delete (DeleteEvent.node 3)]) = some σ := ⟨_, rfl⟩
  exact ⟨σ, h, (coShardsLookup_ids_of_run h 1).1, ((coShardsLookup_ids_of_run h 1).2 1).2 (by decide)⟩

end Engula.Router
