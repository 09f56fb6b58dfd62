import Engula.Router.State

/-! Leader bookkeeping. A leader report for a group the router has not materialised yet is
stashed in `cached_group_states`, and the group's first descriptor takes it from there;
afterwards reports go to the view, and later descriptors carry the view's leader forward.
Proved over every run of update events from `State::default()`: no group is both materialised
and cached, a materialised group carries `leader_state` of its last report, and an
unmaterialised group has its last report cached, so no report is lost. -/

namespace Engula.Router

open Function (update)

/-! ### `leader_state` -/

section StableSort

variable {β : Type} (f : β → Nat)

theorem exists_eq_append_of_getLast?_filter {p : β → Bool} {c : List β} {z : β}
    (h : (c.filter p).getLast? = some z) : ∃ pre post, c = pre ++ z :: post ∧ ∀ y ∈ post, p y = false := by
  induction c using List.reverseRecOn with
  | nil => cases h
  | append_singleton c a ih =>
    by_cases ha : p a
    · obtain rfl : a = z := by simpa [List.filter_append, ha] using h
      exact ⟨c, [], by simp, by simp⟩
    · obtain ⟨pre, post, rfl, hpost⟩ := ih (by simpa [List.filter_append, ha] using h)
      exact ⟨pre, post ++ [a], by simp, by simpa [or_imp, forall_and, ha] using hpost⟩

/-- `sort_by_key` then `pop`: the last element of the greatest key, in the original order. -/
theorem getLast?_mergeSort {c : List β} {z : β}
    (h : (c.mergeSort fun a b => f a ≤ f b).getLast? = some z) :
    (∀ y ∈ c, f y ≤ f z) ∧ (c.filter fun y => f y = f z).getLast? = some z := by
  have htrans : ∀ a b c : β, decide (f a ≤ f b) → decide (f b ≤ f c) → decide (f a ≤ f c) :=
    fun a b c => by simp only [decide_eq_true_eq]; omega
  have htotal : ∀ a b : β, (decide (f a ≤ f b) || decide (f b ≤ f a)) :=
    fun a b => by simp only [Bool.or_eq_true, decide_eq_true_eq]; omega
  set s := c.mergeSort fun a b => f a ≤ f b
  have hperm : s.Perm c := List.mergeSort_perm c _
  obtain ⟨s', hs⟩ : ∃ s', s = s' ++ [z] := ⟨s.dropLast, (List.dropLast_append_getLast? z h).symm⟩
  have hmax : ∀ y ∈ s, f y ≤ f z := by
    have hsorted : s.Pairwise fun a b => decide (f a ≤ f b) := List.sorted_mergeSort htrans htotal c
    rw [hs] at hsorted ⊢
    intro y hy
    rcases List.mem_append.1 hy with hy | hy
    · simpa using hsorted.rel_of_mem_append hy (List.mem_singleton_self z)
    · rw [List.mem_singleton.1 hy]
  refine ⟨fun y hy => hmax y (hperm.mem_iff.2 hy), ?_⟩
  -- the stable sort keeps the elements of the greatest key in their order
  have hkeep : List.Sublist (c.filter fun y => f y = f z) s :=
    List.sublist_mergeSort htrans htotal
      (List.pairwise_of_forall_mem_list fun a ha b hb => by simp_all) (List.filter_sublist c)
  have heq : c.filter (fun y => f y = f z) = s.filter (fun y => f y = f z) := by
    refine List.Sublist.eq_of_length ?_ (hperm.filter _).length_eq.symm
    simpa [List.filter_filter] using hkeep.filter (fun y => decide (f y = f z))
  simp [heq, hs, List.filter_append]

end StableSort

/-- `leader_state` gives the last leader-role replica of the greatest term, in report order. -/
theorem leaderState_last_of_max_term (gs : GroupState) :
    (gs.leaderId = none ∨ (∀ r ∈ gs.replicas, r.role ≠ .leader) → leaderState gs = none) ∧
      (gs.leaderId.isSome → (∃ r ∈ gs.replicas, r.role = .leader) →
        ∃ pre l post, gs.replicas = pre ++ l :: post ∧ l.role = .leader ∧
          (∀ r ∈ gs.replicas, r.role = .leader → r.term ≤ l.term) ∧
          (∀ r ∈ post, r.role = .leader → r.term ≠ l.term) ∧
          leaderState gs = some (l.replicaId, l.term)) := by
  refine ⟨fun h => ?_, fun hid ⟨r, hr, hrole⟩ => ?_⟩
  · rcases h with h | h
    · simp [leaderState, h]
    · have hnil : gs.replicas.filter (fun r => r.role = .leader) = [] :=
        List.filter_eq_nil_iff.2 fun r hr => by simpa using h r hr
      unfold leaderState
      split <;> simp [hnil]
  obtain ⟨x, hx⟩ := Option.isSome_iff_exists.1 hid
  set c := (gs.replicas.filter fun r => r.role = .leader).map fun r => (r.replicaId, r.term)
  obtain ⟨z, hz⟩ : ∃ z, (c.mergeSort fun a b => a.2 ≤ b.2).getLast? = some z :=
    Option.isSome_iff_exists.1 (by
      rw [List.getLast?_isSome, ne_eq, ← List.length_eq_zero, List.length_mergeSort, List.length_eq_zero]
      simpa [c, List.filter_eq_nil_iff] using ⟨r, hr, hrole⟩)
  obtain ⟨hmax, hlast⟩ := getLast?_mergeSort Prod.snd hz
  simp only [c, List.filter_map, List.filter_filter, List.getLast?_map, Option.map_eq_some',
    Function.comp_def] at hlast
  obtain ⟨l, hl, rfl⟩ := hlast
  have hlmem := List.mem_of_getLast?_eq_some hl
  simp only [List.mem_filter, Bool.and_eq_true, decide_eq_true_eq] at hlmem
  obtain ⟨pre, post, hsplit, hpost⟩ := exists_eq_append_of_getLast?_filter hl
  refine ⟨pre, l, post, hsplit, hlmem.2.2, fun r' hr' hrole' => ?_, fun r' hr' hrole' hterm => ?_, ?_⟩
  · exact hmax (r'.replicaId, r'.term) (List.mem_map_of_mem _ (List.mem_filter.2 ⟨hr', by simpa using hrole'⟩))
  · simpa [hrole', hterm] using hpost r' hr'
  · simpa [leaderState, hx] using hz

/-- Leader-role replicas of terms 3, 5, 5 and 2, with a follower of term 5 between the fives. -/
def tiedReport : GroupState :=
  ⟨1, some 4, [⟨1, 3, .leader⟩, ⟨2, 5, .leader⟩, ⟨3, 5, .other⟩, ⟨4, 5, .leader⟩, ⟨5, 2, .leader⟩]⟩

theorem leaderState_last_of_max_term_tied :
    tiedReport.leaderId.isSome ∧ (∃ r ∈ tiedReport.replicas, r.role = .leader) ∧
      ∃ pre l post, tiedReport.replicas = pre ++ l :: post ∧ l.role = .leader ∧
        leaderState tiedReport = some (l.replicaId, l.term) := by
  have hid : tiedReport.leaderId.isSome := rfl
  have hlead : ∃ r ∈ tiedReport.replicas, r.role = .leader := ⟨⟨1, 3, .leader⟩, by decide, rfl⟩
  obtain ⟨pre, l, post, hsplit, hrole, -, -, hls⟩ := (leaderState_last_of_max_term tiedReport).2 hid hlead
  exact ⟨hid, hlead, pre, l, post, hsplit, hrole, hls⟩

def UpdateEvent.groupState? : UpdateEvent → Option GroupState
  | .groupState gs => some gs
  | _ => none

/-- The last leader report for group `g` among the events. -/
def lastGroupState (evs : List UpdateEvent) (g : Nat) : Option GroupState :=
  evs.foldl (fun acc e => match e.groupState? with
    | some gs => if gs.groupId = g then some gs else acc
    | none => acc) none

@[simp] theorem lastGroupState_nil (g : Nat) : lastGroupState [] g = none := rfl

@[simp] theorem lastGroupState_append (evs : List UpdateEvent) (e : UpdateEvent) (g : Nat) :
    lastGroupState (evs ++ [e]) g = match e.groupState? with
      | some gs => if gs.groupId = g then some gs else lastGroupState evs g
      | none => lastGroupState evs g := by
  simp [lastGroupState]

/-- Group `g` after `evs`: materialised with its last report's leader, or that report cached. -/
def LeaderOk (σ : State) (evs : List UpdateEvent) (g : Nat) : Prop :=
  match σ.groupIdLookup g with
  | some v => σ.cachedGroupStates g = none ∧ v.leaderState = (lastGroupState evs g).bind leaderState
  | none => σ.cachedGroupStates g = lastGroupState evs g

theorem LeaderOk.of_eq {σ σ' : State} {evs evs' : List UpdateEvent} {g : Nat} (h : LeaderOk σ evs g)
    (hg : σ'.groupIdLookup g = σ.groupIdLookup g) (hc : σ'.cachedGroupStates g = σ.cachedGroupStates g)
    (hl : lastGroupState evs' g = lastGroupState evs g) : LeaderOk σ' evs' g := by
  unfold LeaderOk at *
  rw [hg, hc, hl]
  exact h

theorem leaderOk_applyGroupDescriptor {σ : State} {evs : List UpdateEvent} (d : GroupDesc)
    (h : ∀ g, LeaderOk σ evs g) (g : Nat) : LeaderOk (σ.applyGroupDescriptor d) evs g := by
  by_cases hg : g = d.id
  · subst hg
    have hd := h d.id
    unfold LeaderOk at hd ⊢
    rcases hv : σ.groupIdLookup d.id with _ | v <;> simp_all [State.keptLeader, GroupDesc.toView]
  · exact (h g).of_eq (by simp [Function.update_apply, hg]) (by simp [hg]) rfl

theorem leaderOk_groupState {σ : State} {evs : List UpdateEvent} (gs : GroupState)
    (h : ∀ g, LeaderOk σ evs g) (g : Nat) :
    LeaderOk (σ.applyUpdateEvent (.groupState gs)) (evs ++ [.groupState gs]) g := by
  have hg' := h g
  by_cases hg : gs.groupId = g
  · subst hg
    unfold LeaderOk at hg' ⊢
    rcases hv : σ.groupIdLookup gs.groupId with _ | v <;>
      simp_all [State.applyUpdateEvent, UpdateEvent.groupState?]
  · refine hg'.of_eq ?_ ?_ (by simp [UpdateEvent.groupState?, hg])
    all_goals rcases hv : σ.groupIdLookup gs.groupId with _ | v <;>
      simp [State.applyUpdateEvent, Function.update_apply, Ne.symm hg, hv]

theorem leaderOk_step {σ : State} {evs : List UpdateEvent} (h : ∀ g, LeaderOk σ evs g)
    (e : UpdateEvent) (g : Nat) : LeaderOk (σ.applyUpdateEvent e) (evs ++ [e]) g := by
  cases e with
  | group d => exact (leaderOk_applyGroupDescriptor d h g).of_eq rfl rfl (by simp [UpdateEvent.groupState?])
  | groupState gs => exact leaderOk_groupState gs h g
  | _ => exact (h g).of_eq rfl rfl (by simp [UpdateEvent.groupState?])

theorem leaderOk_applyUpdates (evs : List UpdateEvent) (g : Nat) :
    LeaderOk (State.default.applyUpdates evs) evs g := by
  induction evs using List.reverseRecOn generalizing g with
  | nil => rfl
  | append_singleton evs e ih => simpa using leaderOk_step ih e g

/-- After any run no report is lost: a group carries its last report's leader, or caches it. -/
theorem leaderState_applyUpdates (evs : List UpdateEvent) :
    (∀ g, (State.default.applyUpdates evs).groupIdLookup g = none ∨
        (State.default.applyUpdates evs).cachedGroupStates g = none) ∧
      (∀ g v, (State.default.applyUpdates evs).groupIdLookup g = some v →
        v.leaderState = (lastGroupState evs g).bind leaderState) ∧
      (∀ g, (State.default.applyUpdates evs).groupIdLookup g = none →
        (State.default.applyUpdates evs).cachedGroupStates g = lastGroupState evs g) ∧
      (∀ (σ : State) (d : GroupDesc) g v, σ.groupIdLookup g = some v →
        ((σ.applyGroupDescriptor d).groupIdLookup g).map RouterGroupState.leaderState =
          some v.leaderState) := by
  refine ⟨fun g => ?_, fun g v hv => ?_, fun g hg => ?_, fun σ d g v hv => ?_⟩
  · have h := leaderOk_applyUpdates evs g
    unfold LeaderOk at h
    split at h
    · exact .inr h.1
    · exact .inl ‹_›
  · have h := leaderOk_applyUpdates evs g
    simp only [LeaderOk, hv] at h
    exact h.2
  · simpa [LeaderOk, hg] using leaderOk_applyUpdates evs g
  · by_cases hg : g = d.id
    · subst hg
      simp [State.keptLeader, hv, GroupDesc.toView]
    · simp [Function.update_apply, hg, hv]

end Engula.Router
