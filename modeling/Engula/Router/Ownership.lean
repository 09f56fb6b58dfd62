import Engula.Router.State

/-! Which group a shard is routed to. After any run of update events from `State::default()`,
`shard_group_lookup` names, for each shard, the earliest of the descriptors listing it at the
highest epoch any of them has, and a group's view is built from its last descriptor. So the
table does not depend on the delivery order when no two groups list a shard at one epoch, and
`find_group_by_shard` routes a shard to a group whose newest descriptor lists it, provided each
group's own descriptors arrive in epoch order; a late, older descriptor of a group overwrites
its view and can route a shard back to it. -/

namespace Engula.Router

/-! ### Descriptors of a run -/

def UpdateEvent.groupDesc? : UpdateEvent → Option GroupDesc
  | .group d => some d
  | _ => none

def groupDescs (evs : List UpdateEvent) : List GroupDesc := evs.filterMap UpdateEvent.groupDesc?

@[simp] theorem groupDescs_nil : groupDescs [] = [] := rfl

@[simp] theorem groupDescs_append (evs : List UpdateEvent) (e : UpdateEvent) :
    groupDescs (evs ++ [e]) = groupDescs evs ++ e.groupDesc?.toList := by
  cases e <;> simp [groupDescs, UpdateEvent.groupDesc?]

def lastDesc (ds : List GroupDesc) (g : Nat) : Option GroupDesc :=
  ds.foldl (fun acc d => if d.id = g then some d else acc) none

@[simp] theorem lastDesc_nil (g : Nat) : lastDesc [] g = none := rfl

@[simp] theorem lastDesc_append (ds : List GroupDesc) (d : GroupDesc) (g : Nat) :
    lastDesc (ds ++ [d]) g = if d.id = g then some d else lastDesc ds g := by
  simp [lastDesc]

theorem lastDesc_mem {ds : List GroupDesc} {g : Nat} {D : GroupDesc} (h : lastDesc ds g = some D) :
    D ∈ ds ∧ D.id = g := by
  induction ds using List.reverseRecOn with
  | nil => simp at h
  | append_singleton ds d ih =>
    simp only [lastDesc_append] at h
    split at h
    · cases h; simp [*]
    · simp [ih h]

/-- Each group's descriptors arrive in non-decreasing epoch order. -/
def EpochsInOrder (ds : List GroupDesc) : Prop :=
  ds.Pairwise (fun d₁ d₂ => d₁.id = d₂.id → d₁.epoch ≤ d₂.epoch)

instance (ds : List GroupDesc) : Decidable (EpochsInOrder ds) :=
  inferInstanceAs (Decidable (ds.Pairwise _))

/-- Descriptors of one group with one epoch are one descriptor. -/
def SameEpochSame (ds : List GroupDesc) : Prop :=
  ∀ d₁ ∈ ds, ∀ d₂ ∈ ds, d₁.id = d₂.id → d₁.epoch = d₂.epoch → d₁ = d₂

instance (ds : List GroupDesc) : Decidable (SameEpochSame ds) :=
  inferInstanceAs (Decidable (∀ d₁ ∈ ds, ∀ d₂ ∈ ds, _))

theorem epoch_le_lastDesc {ds : List GroupDesc} {g : Nat} {D : GroupDesc} (hord : EpochsInOrder ds)
    (h : lastDesc ds g = some D) : ∀ d ∈ ds, d.id = g → d.epoch ≤ D.epoch := by
  induction ds using List.reverseRecOn with
  | nil => simp at h
  | append_singleton ds d ih =>
    simp only [EpochsInOrder, List.pairwise_append, List.pairwise_singleton, List.mem_singleton,
      forall_eq, true_and] at hord
    simp only [lastDesc_append] at h
    intro x hx hxg
    split at h <;> rename_i hdg
    · cases h
      rcases List.mem_append.1 hx with hx | hx
      · exact hord.2 x hx (hxg.trans hdg.symm)
      · rw [List.mem_singleton.1 hx]
    · rcases List.mem_append.1 hx with hx | hx
      · exact ih hord.1 h x hx hxg
      · exact absurd (List.mem_singleton.1 hx ▸ hxg) hdg

/-! ### Views -/

/-- Group `g`'s view is built from its last descriptor. -/
theorem groupIdLookup_applyUpdates (evs : List UpdateEvent) (g : Nat) :
    ∃ leader, (State.default.applyUpdates evs).groupIdLookup g =
      (lastDesc (groupDescs evs) g).map (·.toView leader) := by
  induction evs using List.reverseRecOn with
  | nil => exact ⟨none, rfl⟩
  | append_singleton evs e ih =>
    obtain ⟨leader, ih⟩ := ih
    cases e with
    | group d =>
      by_cases hg : d.id = g
      · subst hg
        exact ⟨(State.default.applyUpdates evs).keptLeader d.id,
          by simp [State.applyUpdateEvent, UpdateEvent.groupDesc?]⟩
      · exact ⟨leader, by simp [State.applyUpdateEvent, UpdateEvent.groupDesc?, hg, Function.update_apply,
          Ne.symm hg, ih]⟩
    | groupState gs =>
      simp only [State.applyUpdates_append, State.applyUpdateEvent, groupDescs_append,
        UpdateEvent.groupDesc?, Option.toList_none, List.append_nil]
      split
      · rename_i group hgroup
        by_cases hg : gs.groupId = g
        · subst hg
          rw [ih] at hgroup
          obtain ⟨D, hD, rfl⟩ := Option.map_eq_some'.1 hgroup
          exact ⟨leaderState gs, by simp [hD, GroupDesc.toView]⟩
        · exact ⟨leader, by simp [Function.update_apply, Ne.symm hg, ih]⟩
      · exact ⟨leader, ih⟩
    | _ => exact ⟨leader, by simpa [State.applyUpdateEvent, UpdateEvent.groupDesc?] using ih⟩

/-! ### The shard table -/

/-- What `shard_group_lookup` should hold for `s`: the earliest listing it at the top epoch. -/
def ShardOwner (ds : List GroupDesc) (s : Nat) : Option (Nat × Nat) → Prop
  | none => ∀ d ∈ ds, s ∉ d.shardIds
  | some (g, e) => ∃ pre d post, ds = pre ++ d :: post ∧ s ∈ d.shardIds ∧ d.id = g ∧ d.epoch = e ∧
      (∀ d' ∈ pre, s ∈ d'.shardIds → d'.epoch < e) ∧ (∀ d' ∈ post, s ∈ d'.shardIds → d'.epoch ≤ e)

section ShardOwner

variable {ds : List GroupDesc} {s g e : Nat}

theorem ShardOwner.exists_mem (h : ShardOwner ds s (some (g, e))) :
    ∃ d ∈ ds, s ∈ d.shardIds ∧ d.id = g ∧ d.epoch = e := by
  obtain ⟨pre, d, post, rfl, hs, hg, he, -⟩ := h
  exact ⟨d, by simp, hs, hg, he⟩

theorem ShardOwner.epoch_le (h : ShardOwner ds s (some (g, e))) :
    ∀ d ∈ ds, s ∈ d.shardIds → d.epoch ≤ e := by
  obtain ⟨pre, d, post, rfl, -, -, rfl, hpre, hpost⟩ := h
  intro x hx hs
  simp only [List.mem_append, List.mem_cons] at hx
  rcases hx with hx | rfl | hx
  · exact (hpre x hx hs).le
  · exact le_rfl
  · exact hpost x hx hs

theorem ShardOwner.isSome_iff {o : Option (Nat × Nat)} (h : ShardOwner ds s o) :
    o.isSome ↔ ∃ d ∈ ds, s ∈ d.shardIds := by
  rcases o with _ | ⟨g, e⟩
  · simpa using h
  · obtain ⟨d, hd, hs, -⟩ := h.exists_mem
    simpa using ⟨d, hd, hs⟩

/-- A descriptor appended to `ds` moves the owner of `s` as one turn of the shard loop does. -/
theorem ShardOwner.snoc {o : Option (Nat × Nat)} (h : ShardOwner ds s o) (d : GroupDesc) :
    ShardOwner (ds ++ [d]) s (if s ∈ d.shardIds then claimShard d.id d.epoch o else o) := by
  by_cases hs : s ∈ d.shardIds
  · rcases o with _ | ⟨g, e⟩
    · simp only [hs, if_true, claimShard]
      exact ⟨ds, d, [], rfl, hs, rfl, rfl, fun d' hd' hs' => absurd hs' (h d' hd'), by simp⟩
    · have hle := h.epoch_le
      obtain ⟨pre, x, post, rfl, hx, rfl, rfl, hpre, hpost⟩ := h
      by_cases he : x.epoch < d.epoch
      · simp only [hs, if_true, claimShard, he]
        exact ⟨pre ++ x :: post, d, [], by simp, hs, rfl, rfl,
          fun d' hd' hs' => lt_of_le_of_lt (hle d' hd' hs') he, by simp⟩
      · simp only [hs, if_true, claimShard, he, if_false]
        exact ⟨pre, x, post ++ [d], by simp, hx, rfl, rfl, hpre,
          List.forall_mem_append.2 ⟨hpost, List.forall_mem_singleton.2 fun _ => by omega⟩⟩
  · simp only [hs, if_false]
    rcases o with _ | ⟨g, e⟩
    · exact List.forall_mem_append.2 ⟨h, List.forall_mem_singleton.2 hs⟩
    · obtain ⟨pre, x, post, rfl, hx, rfl, rfl, hpre, hpost⟩ := h
      exact ⟨pre, x, post ++ [d], by simp, hx, rfl, rfl, hpre,
        List.forall_mem_append.2 ⟨hpost, List.forall_mem_singleton.2 fun hs' => absurd hs' hs⟩⟩

/-- No two groups list shard `s` at one epoch. -/
def NoEpochTie (ds : List GroupDesc) (s : Nat) : Prop :=
  ∀ d₁ ∈ ds, ∀ d₂ ∈ ds, s ∈ d₁.shardIds → s ∈ d₂.shardIds → d₁.epoch = d₂.epoch → d₁.id = d₂.id

theorem ShardOwner.eq_of_perm {ds' : List GroupDesc} {o o' : Option (Nat × Nat)}
    (h : ShardOwner ds s o) (h' : ShardOwner ds' s o') (hp : ds'.Perm ds) (ht : NoEpochTie ds s) :
    o' = o := by
  rcases o with _ | ⟨g, e⟩ <;> rcases o' with _ | ⟨g', e'⟩
  · rfl
  · obtain ⟨d, hd, hs, -⟩ := h'.exists_mem
    exact absurd hs (h d (hp.subset hd))
  · obtain ⟨d, hd, hs, -⟩ := h.exists_mem
    exact absurd hs (h' d (hp.symm.subset hd))
  · obtain ⟨d, hd, hs, rfl, rfl⟩ := h.exists_mem
    obtain ⟨d', hd', hs', rfl, rfl⟩ := h'.exists_mem
    have h₁ := h.epoch_le d' (hp.subset hd') hs'
    have h₂ := h'.epoch_le d (hp.symm.subset hd) hs
    have hid := ht d' (hp.subset hd') d hd hs' hs (le_antisymm h₁ h₂)
    simp [hid, le_antisymm h₁ h₂]

end ShardOwner

theorem shardOwner_applyUpdates (evs : List UpdateEvent) (s : Nat) :
    ShardOwner (groupDescs evs) s ((State.default.applyUpdates evs).shardGroupLookup s) := by
  induction evs using List.reverseRecOn with
  | nil => exact fun _ h => absurd h (List.not_mem_nil _)
  | append_singleton evs e ih =>
    cases e with
    | group d => simpa [State.applyUpdateEvent, UpdateEvent.groupDesc?] using ih.snoc d
    | groupState gs =>
      simp only [State.applyUpdates_append, State.applyUpdateEvent, groupDescs_append,
        UpdateEvent.groupDesc?, Option.toList_none, List.append_nil]
      split <;> exact ih
    | _ => simpa [State.applyUpdateEvent, UpdateEvent.groupDesc?] using ih

/-- After any run each shard's entry is its `ShardOwner`, the same in every order without ties. -/
theorem shardGroupLookup_applyUpdates (evs : List UpdateEvent) (s : Nat) :
    (((State.default.applyUpdates evs).shardGroupLookup s).isSome ↔
        ∃ d ∈ groupDescs evs, s ∈ d.shardIds) ∧
      ShardOwner (groupDescs evs) s ((State.default.applyUpdates evs).shardGroupLookup s) ∧
      (∀ evs' : List UpdateEvent, (groupDescs evs').Perm (groupDescs evs) →
        NoEpochTie (groupDescs evs) s →
        (State.default.applyUpdates evs').shardGroupLookup s =
          (State.default.applyUpdates evs).shardGroupLookup s) ∧
      (∀ g e, (State.default.applyUpdates evs).shardGroupLookup s = some (g, e) →
        (lastDesc (groupDescs evs) g).map GroupDesc.epoch = some e →
        (State.default.applyUpdates evs).findGroupByShard s =
            (State.default.applyUpdates evs).groupIdLookup g ∧
          ((State.default.applyUpdates evs).groupIdLookup g).isSome) := by
  have hown := shardOwner_applyUpdates evs s
  refine ⟨hown.isSome_iff, hown, fun evs' hp ht => hown.eq_of_perm (shardOwner_applyUpdates evs' s) hp ht,
    fun g e hse hlast => ?_⟩
  obtain ⟨leader, hv⟩ := groupIdLookup_applyUpdates evs g
  obtain ⟨D, hD, hDe⟩ := Option.map_eq_some'.1 hlast
  rw [hD, Option.map_some'] at hv
  simp [State.findGroupByShard, hse, hv, GroupDesc.toView, hDe]

/-! ### Routing to the newest descriptor -/

/-- A shard goes to a group only at its highest-epoch descriptor, when that lists the shard. -/
def RoutesToNewest (σ : State) (ds : List GroupDesc) : Prop :=
  ∀ s v, σ.findGroupByShard s = some v → ∃ d ∈ ds, d.id = v.id ∧
    (∀ d' ∈ ds, d'.id = v.id → d'.epoch ≤ d.epoch) ∧ s ∈ d.shardIds ∧ v.epoch = d.epoch

/-- With each group's epochs in order, shards go only to groups whose newest lists them. -/
theorem findGroupByShard_routes_to_newest (evs : List UpdateEvent)
    (hord : EpochsInOrder (groupDescs evs)) (hsame : SameEpochSame (groupDescs evs)) :
    RoutesToNewest (State.default.applyUpdates evs) (groupDescs evs) := by
  intro s v hf
  obtain ⟨g, e, hse, hw, hle⟩ := State.findGroupByShard_eq_some.1 hf
  obtain ⟨leader, hv⟩ := groupIdLookup_applyUpdates evs g
  rw [hw] at hv
  obtain ⟨D, hD, rfl⟩ := Option.map_eq_some'.1 hv.symm
  obtain ⟨hDmem, hDg⟩ := lastDesc_mem hD
  have hown := shardOwner_applyUpdates evs s
  rw [hse] at hown
  obtain ⟨x, hx, hsx, hxg, rfl⟩ := hown.exists_mem
  have hxD : x.epoch ≤ D.epoch := epoch_le_lastDesc hord hD x hx hxg
  have hDx : D = x := hsame D hDmem x hx (hDg.trans hxg.symm) (le_antisymm hle hxD)
  subst hDx
  exact ⟨D, hDmem, rfl, fun d' hd' hid => epoch_le_lastDesc hord hD d' hd' (hid.trans hDg), hsx, rfl⟩

/-- Case 2 of the test `update_shard_by_group_descriptor`: shard 1 moves to group 2. -/
def migration : List UpdateEvent :=
  [.group ⟨1, 1, [⟨1, 1, some (.hash 1 1)⟩], []⟩, .group ⟨2, 1, [], []⟩,
    .group ⟨2, 1 + 2 ^ 32, [⟨1, 1, some (.hash 1 1)⟩], []⟩, .group ⟨1, 1 + 2 ^ 32, [], []⟩]

theorem findGroupByShard_routes_to_newest_migration :
    EpochsInOrder (groupDescs migration) ∧ SameEpochSame (groupDescs migration) ∧
      RoutesToNewest (State.default.applyUpdates migration) (groupDescs migration) :=
  ⟨by decide, by decide, findGroupByShard_routes_to_newest migration (by decide) (by decide)⟩

/-- Group 1 takes shard 1 at epoch 1, drops it at epoch 5, and its epoch-1 descriptor returns. -/
def staleDelivery : List UpdateEvent :=
  [.group ⟨1, 1, [⟨1, 1, none⟩], []⟩, .group ⟨1, 5, [], []⟩, .group ⟨1, 1, [⟨1, 1, none⟩], []⟩]

/-- The late descriptor routes shard 1 back to group 1, whose epoch-5 descriptor drops it. -/
theorem stale_descriptor_routes_shard_back :
    SameEpochSame (groupDescs staleDelivery) ∧
      ¬ RoutesToNewest (State.default.applyUpdates staleDelivery) (groupDescs staleDelivery) := by
  refine ⟨by decide, fun h => ?_⟩
  have hv : ((State.default.applyUpdates staleDelivery).findGroupByShard 1).map
      (fun v => (v.id, v.epoch)) = some (1, 1) := by decide
  obtain ⟨v, hf, hv⟩ := Option.map_eq_some'.1 hv
  simp only [Prod.mk.injEq] at hv
  obtain ⟨d, -, -, hmax, -, hep⟩ := h 1 v hf
  have h5 : 5 ≤ d.epoch := hmax ⟨1, 5, [], []⟩ (by decide) hv.1.symm
  omega

end Engula.Router
