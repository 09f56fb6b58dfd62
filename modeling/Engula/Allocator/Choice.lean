import Engula.Allocator.LeaderCount

/-! Which transfer `LeaderCountPolicy::compute_balance` picks, `root/allocator/policy_leader_cnt.rs`.
The policy walks the `Overfull` nodes in rank order, most leaders first; on each it walks the
voter replicas outside the root group that `replica_state` reports as leaders, and for each of
those the `Underfull` nodes from the end of the ranking, fewest leaders first, until one that one
more leader keeps from `Overfull` holds another replica of the group.

Proved, for every allocation source: `compute_balance` answers `Noop` exactly when the mean is
computed and no `Overfull` node has a leader that a schedulable node can take over, so the three
nested searches miss no transfer. And, for every `f64` model with the laws of IEEE comparisons,
a `Shed` leaves a node such that no `Overfull` node with more leaders has a transfer to make, and
goes to a node such that no node with fewer leaders can take the same leadership over. -/

namespace Engula.Allocator

open Engula.Router (RaftRole)

/-! ### Searches that find nothing, or find something first -/

theorem findSomeM?_eq_some_none {α β : Type} {f : α → Option (Option β)} :
    ∀ {l : List α}, l.findSomeM? f = some none ↔ ∀ a ∈ l, f a = some none
  | [] => by simp [List.findSomeM?]
  | a :: l => by
    simp only [List.findSomeM?, List.forall_mem_cons]
    rcases hfa : f a with _ | _ | b <;> simp [hfa, findSomeM?_eq_some_none]

theorem findSomeM?_eq_some_some {α β : Type} {f : α → Option (Option β)} {b : β} :
    ∀ {l : List α}, l.findSomeM? f = some (some b) →
      ∃ l₁ a l₂, l = l₁ ++ a :: l₂ ∧ f a = some (some b) ∧ ∀ x ∈ l₁, f x = some none
  | [], h => nomatch h
  | a :: l, h => by
    simp only [List.findSomeM?] at h
    rcases hfa : f a with _ | _ | b'
    · simp [hfa] at h
    · simp only [hfa, Option.pure_def, Option.some_bind] at h
      obtain ⟨l₁, a', l₂, rfl, ha', hl₁⟩ := findSomeM?_eq_some_some h
      exact ⟨a :: l₁, a', l₂, rfl, ha', List.forall_mem_cons.2 ⟨hfa, hl₁⟩⟩
    · simp only [hfa, Option.pure_def, Option.some_bind] at h
      exact ⟨[], a, l, rfl, hfa.trans h, nofun⟩

theorem mem_left_of_pairwise {α : Type} {R : α → α → Prop} {l₁ l₂ : List α} {a x : α}
    (hs : (l₁ ++ a :: l₂).Pairwise R) (hx : x ∈ l₁ ++ a :: l₂) (hxa : x ≠ a) (hR : ¬ R a x) : x ∈ l₁ := by
  rcases List.mem_append.1 hx with hx | hx
  · exact hx
  rcases List.mem_cons.1 hx with rfl | hx
  · exact absurd rfl hxa
  · exact absurd ((List.pairwise_cons.1 (List.pairwise_append.1 hs).2.1).1 x hx) hR

/-! ### The map of the group's other replicas -/

theorem foldl_update_nodeId_eq_none (l : List ReplicaDesc) (m : Nat → Option ReplicaDesc) (node : Nat) :
    l.foldl (fun acc (x : ReplicaDesc) => Function.update acc x.nodeId (some x)) m node = none ↔
      m node = none ∧ ∀ x ∈ l, x.nodeId ≠ node := by
  induction l generalizing m with
  | nil => simp
  | cons x l ih =>
    rw [List.foldl_cons, ih, List.forall_mem_cons]
    by_cases hx : x.nodeId = node
    · subst hx
      simp
    · simp [Function.update_noteq (Ne.symm hx), hx]

theorem existReplicaInNodes_eq_none {group : GroupDesc} {replicaId node : Nat} :
    existReplicaInNodes group replicaId node = none ↔
      ∀ r ∈ group.replicas, r.id ≠ replicaId → r.nodeId ≠ node := by
  simp only [existReplicaInNodes, foldl_update_nodeId_eq_none, List.mem_filter, true_and, and_imp, ne_eq,
    decide_eq_true_eq]

/-! ### What the searches look for -/

section Choice

variable {F : Type} (ops : F64Ops F)

/-- Node `u` is `Underfull`, stays below `Overfull` with one more leader, and holds a replica. -/
def CanTake (mean : F) (group : GroupDesc) (replicaId : Nat) (u : NodeDesc) : Prop :=
  nodeStatus ops mean u = .underfull ∧ leaderBalanceState ops (ops.ofU64 (u.leaderCount + 1)) mean ≠ .overfull ∧
    ∃ r ∈ group.replicas, r.id ≠ replicaId ∧ r.nodeId = u.id

/-- No leader on node `n` outside the root group can be handed to a schedulable node. -/
def NoTransferFrom (rootGroupId : Nat) (src : AllocSource) (mean : F) (n : NodeDesc) : Prop :=
  ∀ replica g, (replica, g) ∈ src.nodeReplicas n.id → g ≠ rootGroupId → replica.role = .voter →
    ∀ st, src.replicaState replica.id = some st → st.role = .leader →
      ∃ group, src.groups g = some group ∧ ∀ u ∈ src.nodes, ¬ CanTake ops mean group replica.id u

variable {ops}

section Ranked

variable {ns : List NodeDesc} {mean : F} {ranked : List (NodeDesc × BalanceStatus)}
  (hranked : ∀ p, p ∈ ranked ↔ p.1 ∈ ns ∧ p.2 = nodeStatus ops mean p.1)
include hranked

theorem mem_status_iff {l : List (NodeDesc × BalanceStatus)} (hl : ∀ p, p ∈ l ↔ p ∈ ranked)
    (s : BalanceStatus) (x : NodeDesc) :
    x ∈ (l.filter (·.2 = s)).map (·.1) ↔ x ∈ ns ∧ nodeStatus ops mean x = s := by
  simp only [List.mem_map, List.mem_filter, hl, hranked, decide_eq_true_eq]
  exact ⟨fun ⟨p, ⟨⟨hp, hps⟩, hs⟩, hx⟩ => hx ▸ ⟨hp, hps ▸ hs⟩, fun ⟨hx, hs⟩ => ⟨(x, s), ⟨⟨hx, hs.symm⟩, rfl⟩, rfl⟩⟩

/-- The target search finds nothing exactly when no node can take the leadership over. -/
theorem findTarget_eq_none {group : GroupDesc} {replicaId : Nat} :
    findTarget ops ranked mean (existReplicaInNodes group replicaId) = none ↔
      ∀ u ∈ ns, ¬ CanTake ops mean group replicaId u := by
  rw [findTarget, List.findSome?_eq_none_iff]
  refine forall_congr' fun u => ?_
  rw [mem_status_iff hranked (fun p => List.mem_reverse) .underfull u]
  by_cases hover : leaderBalanceState ops (ops.ofU64 (u.leaderCount + 1)) mean = .overfull
  · simp [CanTake, hover]
  · simp only [hover, if_false, existReplicaInNodes_eq_none, CanTake, ne_eq, not_false_eq_true, true_and,
      not_and, not_exists, and_imp]

theorem tryReplica_eq_some_none {src : AllocSource} {replica : ReplicaDesc} {g : Nat} :
    tryReplica ops src ranked mean replica g = some none ↔
      ∀ st, src.replicaState replica.id = some st → st.role = .leader →
        ∃ group, src.groups g = some group ∧ ∀ u ∈ ns, ¬ CanTake ops mean group replica.id u := by
  unfold tryReplica
  rcases hst : src.replicaState replica.id with _ | st
  · simp
  by_cases hrole : st.role = .leader
  · rcases hg : src.groups g with _ | group
    · simp [hrole]
    · simp [hrole, ← findTarget_eq_none hranked]
  · simp [hrole]

/-- A node is passed over exactly when it has no transfer to make. -/
theorem tryDescreaseNodeLeaderCount_eq_some_none (rootGroupId : Nat) (src : AllocSource)
    (hns : ns = src.nodes) (n : NodeDesc) :
    tryDescreaseNodeLeaderCount ops rootGroupId src n ranked mean = some none ↔
      NoTransferFrom ops rootGroupId src mean n := by
  subst hns
  rw [tryDescreaseNodeLeaderCount, findSomeM?_eq_some_none]
  constructor
  · intro h replica g hmem hg hv
    exact (tryReplica_eq_some_none hranked).1 (h (replica, g) (List.mem_filter.2 ⟨hmem, by simp [hg, hv]⟩))
  · rintro h ⟨replica, g⟩ hmem
    obtain ⟨hmem, hc⟩ := List.mem_filter.1 hmem
    simp only [ne_eq, decide_eq_true_eq] at hc
    exact (tryReplica_eq_some_none hranked).2 (h replica g hmem hc.1 hc.2)

end Ranked

/-! ### `Noop` -/

theorem rankNodesForLeader_of_meanLeaderCount {ns : List NodeDesc} {mean : F}
    (h : meanLeaderCount ops ns = some mean) : ∃ ranked, rankNodesForLeader ops ns mean = some ranked := by
  have hcap : ∀ n ∈ ns, n.capacity.isSome := by
    refine capacity_isSome_of_mapM NodeDesc.leaderCount? (fun n hn => by simpa [NodeDesc.leaderCount?] using hn) ?_
    obtain ⟨counts, hc, -⟩ := Option.bind_eq_some.1 h
    rw [hc]
    rfl
  exact ⟨_, by rw [rankNodesForLeader, withStatus_eq ops hcap, Option.map_some']⟩

/-- `compute_balance` is `Noop` exactly when no `Overfull` node has a leader to hand over. -/
theorem computeBalance_eq_noop_iff (rootGroupId : Nat) (src : AllocSource) :
    computeBalance ops rootGroupId src = some .noop ↔
      ∃ mean, meanLeaderCount ops src.nodes = some mean ∧
        ∀ n ∈ src.nodes, nodeStatus ops mean n = .overfull → NoTransferFrom ops rootGroupId src mean n := by
  simp only [computeBalance, Option.bind_eq_bind, Option.bind_eq_some, Option.pure_def, Option.some.injEq]
  constructor
  · rintro ⟨mean, hmean, ranked, hranked, d, hfind, hd⟩
    have hmem := mem_rankNodesForLeader_iff ops hranked
    rcases d with _ | t
    · refine ⟨mean, hmean, fun n hn hover => ?_⟩
      refine (tryDescreaseNodeLeaderCount_eq_some_none hmem rootGroupId src rfl n).1 ?_
      exact findSomeM?_eq_some_none.1 hfind n ((mem_status_iff hmem (fun _ => .rfl) .overfull n).2 ⟨hn, hover⟩)
    · cases hd
  · rintro ⟨mean, hmean, h⟩
    obtain ⟨ranked, hranked⟩ := rankNodesForLeader_of_meanLeaderCount hmean
    have hmem := mem_rankNodesForLeader_iff ops hranked
    refine ⟨mean, hmean, ranked, hranked, none, findSomeM?_eq_some_none.2 fun n hn => ?_, rfl⟩
    obtain ⟨hn, hover⟩ := (mem_status_iff hmem (fun _ => .rfl) .overfull n).1 hn
    exact (tryDescreaseNodeLeaderCount_eq_some_none hmem rootGroupId src rfl n).2 (h n hn hover)

/-! ### `Shed` -/

variable (hops : ops.Lawful)
include hops

/-- A `Shed` leaves the most loaded `Overfull` node with a transfer, for the least loaded taker. -/
theorem computeBalance_shed_choice (rootGroupId : Nat) (src : AllocSource) {t : TransferLeader}
    (h : computeBalance ops rootGroupId src = some (.shed t)) :
    ∃ mean, meanLeaderCount ops src.nodes = some mean ∧
      (∃ n ∈ src.nodes, nodeStatus ops mean n = .overfull ∧
        (∃ replica, (replica, t.group) ∈ src.nodeReplicas n.id ∧ replica.id = t.srcReplica) ∧
        ∀ n' ∈ src.nodes, nodeStatus ops mean n' = .overfull → n.leaderCount < n'.leaderCount →
          NoTransferFrom ops rootGroupId src mean n') ∧
      ∃ group, src.groups t.group = some group ∧ ∃ q ∈ src.nodes, q.id = t.targetNode ∧
        CanTake ops mean group t.srcReplica q ∧
        ∀ u ∈ src.nodes, u.leaderCount < q.leaderCount → ¬ CanTake ops mean group t.srcReplica u := by
  simp only [computeBalance, Option.bind_eq_bind, Option.bind_eq_some, Option.pure_def,
    Option.some.injEq] at h
  obtain ⟨mean, hmean, ranked, hranked, d, hfind, hd⟩ := h
  rcases d with _ | t'
  · cases hd
  cases hd
  have hmem := mem_rankNodesForLeader_iff ops hranked
  have hsorted := rankNodesForLeader_sorted hops mean hranked
  -- the source node: the first `Overfull` node with a transfer
  obtain ⟨L₁, n, L₂, hL, hn, hL₁⟩ := findSomeM?_eq_some_some hfind
  have hover := hL ▸ (mem_status_iff hmem (fun _ => .rfl) .overfull n)
  obtain ⟨hns, hnover⟩ := hover.1 (List.mem_append_right _ (.head _))
  -- the source replica: the first of `n`'s leaders with a target
  obtain ⟨R₁, ⟨replica, g⟩, R₂, hR, hr, -⟩ := findSomeM?_eq_some_some hn
  have hrmem : (replica, g) ∈ src.nodeReplicas n.id :=
    (List.mem_filter.1 (hR ▸ List.mem_append_right _ (.head _))).1
  obtain ⟨rfl, hsrc, -, -, group, hgroup, target, htarget, htr, htn⟩ := tryReplica_eq_some ops hr
  -- the target node: the first `Underfull` node, fewest leaders first, that can take it
  obtain ⟨U₁, q, U₂, hU, hq, hU₁⟩ := List.findSome?_eq_some_iff.1 htarget
  have hunder := hU ▸ (mem_status_iff hmem (fun p => List.mem_reverse) .underfull q)
  obtain ⟨hqs, hqunder⟩ := hunder.1 (List.mem_append_right _ (.head _))
  have hnext : leaderBalanceState ops (ops.ofU64 (q.leaderCount + 1)) mean ≠ .overfull := fun hov => by
    simp [hov] at hq
  rw [if_neg hnext] at hq
  obtain ⟨htm, htid, htnode⟩ := existReplicaInNodes_eq_some hq
  refine ⟨mean, hmean, ⟨n, hns, hnover, ⟨replica, hrmem, hsrc.symm⟩, fun n' hn' hn'over hlt => ?_⟩,
    group, hgroup, q, hqs, htn.trans htnode |>.symm, ⟨hqunder, hnext, target, htm, hsrc ▸ htid, htnode⟩,
    fun u hu hlt hcan => ?_⟩
  · -- a node with more leaders comes earlier in the ranking, and was passed over
    have hs : (L₁ ++ n :: L₂).Pairwise fun a b => b.leaderCount ≤ a.leaderCount :=
      hL ▸ List.pairwise_map.2 ((hsorted.filter _).imp id)
    have hn'mem := mem_left_of_pairwise hs (hL ▸ (mem_status_iff hmem (fun _ => .rfl) .overfull n').2
      ⟨hn', hn'over⟩) (fun h => UInt64.lt_irrefl _ (h ▸ hlt)) (UInt64.not_le.2 hlt)
    exact (tryDescreaseNodeLeaderCount_eq_some_none hmem rootGroupId src rfl n').1 (hL₁ n' hn'mem)
  · -- a node with fewer leaders comes earlier against the ranking, and was passed over
    have hs : (U₁ ++ q :: U₂).Pairwise fun a b => a.leaderCount ≤ b.leaderCount :=
      hU ▸ List.pairwise_map.2 ((List.pairwise_reverse.2 hsorted).filter _)
    have humem := mem_left_of_pairwise hs (hU ▸ (mem_status_iff hmem (fun p => List.mem_reverse) .underfull u).2
      ⟨hu, hcan.1⟩) (fun h => UInt64.lt_irrefl _ (h ▸ hlt)) (UInt64.not_le.2 hlt)
    have hnone := hU₁ u humem
    rw [if_neg hcan.2.1, existReplicaInNodes_eq_none] at hnone
    obtain ⟨r, hr, hid, hnode⟩ := hcan.2.2
    exact hnone r hr (hsrc ▸ hid) hnode

end Choice

theorem computeBalance_shed_choice_learnerTarget :
    halves.Lawful ∧ computeBalance halves 0 learnerTarget = some (.shed ⟨10, 1, 100, 2, 200⟩) ∧
      ∃ mean, meanLeaderCount halves learnerTarget.nodes = some mean ∧ ∃ group, learnerTarget.groups 10 = some group ∧
        ∃ q ∈ learnerTarget.nodes, q.id = 2 ∧ CanTake halves mean group 100 q := by
  have h := computeBalance_learnerTarget halves 0 (by decide) (by decide) (by decide) (by decide)
  obtain ⟨mean, hmean, -, group, hgroup, q, hq, hid, hcan, -⟩ := computeBalance_shed_choice halves_lawful 0 learnerTarget h
  exact ⟨halves_lawful, h, mean, hmean, group, hgroup, q, hq, hid, hcan⟩

end Engula.Allocator
