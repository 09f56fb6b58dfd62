import Engula.Allocator.Balance
import Engula.Router.State

/-! `LeaderCountPolicy::compute_balance`, `root/allocator/policy_leader_cnt.rs`. It ranks the
schedulable nodes against the mean leader count and walks the `Overfull` ones in rank order;
for each it walks the node's voter replicas outside the root group that `replica_state`
reports as leaders, and for each of those the `Underfull` nodes from the end of the ranking:
the first such node that one more leader keeps from `Overfull` and that holds another replica
of the group receives the leadership, as a `Shed` of a `TransferLeader`.

The target is any other replica of the group on that node: the role of the group's replicas
is never read, so the leadership can be handed to a learner. What the policy does guarantee of
a `Shed` is proved below, with every other part of the transfer. `AllocSource`, the descriptor
messages and `ROOT_GROUP_ID` are not in the source: the source is the answers of its four
methods, the messages keep the fields the policy reads, and the root group's id is a
parameter. -/

namespace Engula.Allocator

open Engula.Router (RaftRole ReplicaState)

/-! ### Replicas and the allocation source -/

inductive ReplicaRole
  | voter
  | learner
  deriving DecidableEq, Repr

structure ReplicaDesc where
  id : Nat
  nodeId : Nat
  role : ReplicaRole
  deriving DecidableEq, Repr

structure GroupDesc where
  replicas : List ReplicaDesc
  deriving DecidableEq, Repr

/-- The answers of `AllocSource`: nodes, replicas by node, group descriptors, replica states. -/
structure AllocSource where
  nodes : List NodeDesc
  nodeReplicas : Nat → List (ReplicaDesc × Nat)
  groups : Nat → Option GroupDesc
  replicaState : Nat → Option ReplicaState

/-- `TransferLeader`, whose fields `TransferDescision::TransferOnly` shares. -/
structure TransferLeader where
  group : Nat
  srcNode : Nat
  srcReplica : Nat
  targetNode : Nat
  targetReplica : Nat
  deriving DecidableEq, Repr

inductive LeaderAction
  | noop
  | shed (t : TransferLeader)
  deriving DecidableEq, Repr

/-! ### The policy -/

section Policy

variable {F : Type} (ops : F64Ops F)

/-- `mean_leader_count`: the wrapping `u64` sum over the node count; `none` is a panic. -/
def meanLeaderCount (nodes : List NodeDesc) : Option F := do
  let counts ← nodes.mapM NodeDesc.leaderCount?
  pure (ops.div (ops.ofU64 (counts.foldl UInt64.add 0)) (ops.ofU64 (UInt64.ofNat nodes.length)))

/-- `exist_replica_in_nodes`: a later replica on a node replaces an earlier one. -/
def existReplicaInNodes (group : GroupDesc) (replicaId : Nat) : Nat → Option ReplicaDesc :=
  (group.replicas.filter (·.id ≠ replicaId)).foldl (fun m r => Function.update m r.nodeId (some r))
    fun _ => none

/-- The loop over the `Underfull` nodes, from the end of the ranking. -/
def findTarget (rankedNodes : List (NodeDesc × BalanceStatus)) (mean : F)
    (existReplicaInNodes : Nat → Option ReplicaDesc) : Option ReplicaDesc :=
  ((rankedNodes.reverse.filter (·.2 = .underfull)).map (·.1)).findSome? fun targetNode =>
    if leaderBalanceState ops (ops.ofU64 (targetNode.leaderCount + 1)) mean = .overfull then none
    else existReplicaInNodes targetNode.id

/-- One replica of `try_descrease_node_leader_count`: `some none` passes it over. -/
def tryReplica (src : AllocSource) (rankedNodes : List (NodeDesc × BalanceStatus)) (mean : F)
    (replica : ReplicaDesc) (groupId : Nat) : Option (Option TransferLeader) :=
  match src.replicaState replica.id with
  | none => some none
  | some replicaState =>
    if replicaState.role ≠ .leader then some none
    else
      match src.groups groupId with
      | none => none
      | some group =>
        some ((findTarget ops rankedNodes mean (existReplicaInNodes group replica.id)).map fun targetReplica =>
          { group := groupId, srcNode := replica.nodeId, srcReplica := replica.id,
            targetNode := targetReplica.nodeId, targetReplica := targetReplica.id })

/-- `try_descrease_node_leader_count`: the first transfer among the node's voters. -/
def tryDescreaseNodeLeaderCount (rootGroupId : Nat) (src : AllocSource) (n : NodeDesc)
    (rankedNodes : List (NodeDesc × BalanceStatus)) (mean : F) : Option (Option TransferLeader) :=
  ((src.nodeReplicas n.id).filter fun (r, g) => g ≠ rootGroupId ∧ r.role = .voter).findSomeM?
    fun (replica, groupId) => tryReplica ops src rankedNodes mean replica groupId

/-- `compute_balance`: the first transfer among the `Overfull` nodes in rank order. -/
def computeBalance (rootGroupId : Nat) (src : AllocSource) : Option LeaderAction := do
  let mean ← meanLeaderCount ops src.nodes
  let rankedNodes ← rankNodesForLeader ops src.nodes mean
  let descision ← ((rankedNodes.filter (·.2 = .overfull)).map (·.1)).findSomeM? fun n =>
    tryDescreaseNodeLeaderCount ops rootGroupId src n rankedNodes mean
  pure (descision.elim .noop .shed)

/-! ### What a transfer is made of -/

theorem exists_of_findSomeM?_eq_some {α β : Type} {f : α → Option (Option β)} {b : β} :
    ∀ {l : List α}, l.findSomeM? f = some (some b) → ∃ a ∈ l, f a = some (some b)
  | [], h => nomatch h
  | a :: l, h => by
    simp only [List.findSomeM?] at h
    rcases hfa : f a with _ | _ | b'
    · simp [hfa] at h
    · simp only [hfa, Option.pure_def, Option.some_bind] at h
      obtain ⟨a', ha', h'⟩ := exists_of_findSomeM?_eq_some h
      exact ⟨a', .tail _ ha', h'⟩
    · simp only [hfa, Option.pure_def, Option.some_bind] at h
      exact ⟨a, .head _, hfa.trans h⟩

theorem foldl_update_nodeId (l : List ReplicaDesc) (m : Nat → Option ReplicaDesc) {node : Nat}
    {r : ReplicaDesc}
    (h : l.foldl (fun acc (x : ReplicaDesc) => Function.update acc x.nodeId (some x)) m node = some r) :
    m node = some r ∨ r ∈ l ∧ r.nodeId = node := by
  induction l generalizing m with
  | nil => exact .inl h
  | cons x l ih =>
    rcases ih _ h with h' | ⟨hr, hnode⟩
    · by_cases hx : node = x.nodeId
      · subst hx
        simp only [Function.update_same, Option.some.injEq] at h'
        exact .inr ⟨h' ▸ .head _, h' ▸ rfl⟩
      · exact .inl (by simpa [Function.update_noteq hx] using h')
    · exact .inr ⟨.tail _ hr, hnode⟩

theorem existReplicaInNodes_eq_some {group : GroupDesc} {replicaId node : Nat} {r : ReplicaDesc}
    (h : existReplicaInNodes group replicaId node = some r) :
    r ∈ group.replicas ∧ r.id ≠ replicaId ∧ r.nodeId = node := by
  rcases foldl_update_nodeId _ _ h with h | ⟨hr, hnode⟩
  · cases h
  · obtain ⟨hmem, hid⟩ := List.mem_filter.1 hr
    exact ⟨hmem, by simpa using hid, hnode⟩

theorem findTarget_eq_some {rankedNodes : List (NodeDesc × BalanceStatus)} {mean : F}
    {existReplicaInNodes : Nat → Option ReplicaDesc} {r : ReplicaDesc}
    (h : findTarget ops rankedNodes mean existReplicaInNodes = some r) :
    ∃ p ∈ rankedNodes, p.2 = .underfull ∧
      leaderBalanceState ops (ops.ofU64 (p.1.leaderCount + 1)) mean ≠ .overfull ∧
      existReplicaInNodes p.1.id = some r := by
  obtain ⟨n, hn, hr⟩ := List.exists_of_findSome?_eq_some h
  obtain ⟨p, hp, rfl⟩ := List.mem_map.1 hn
  obtain ⟨hp, hunder⟩ := List.mem_filter.1 hp
  split_ifs at hr with hover
  exact ⟨p, List.mem_reverse.1 hp, by simpa using hunder, hover, hr⟩

theorem tryReplica_eq_some {src : AllocSource} {rankedNodes : List (NodeDesc × BalanceStatus)} {mean : F}
    {replica : ReplicaDesc} {groupId : Nat} {t : TransferLeader}
    (h : tryReplica ops src rankedNodes mean replica groupId = some (some t)) :
    t.group = groupId ∧ t.srcReplica = replica.id ∧ t.srcNode = replica.nodeId ∧
      (∃ st, src.replicaState replica.id = some st ∧ st.role = .leader) ∧
      ∃ group, src.groups groupId = some group ∧ ∃ target,
        findTarget ops rankedNodes mean (existReplicaInNodes group replica.id) = some target ∧
        t.targetReplica = target.id ∧ t.targetNode = target.nodeId := by
  unfold tryReplica at h
  split at h
  · cases h
  rename_i st hst
  split_ifs at h with hrole
  · cases h
  split at h
  · cases h
  rename_i group hgroup
  obtain ⟨target, htarget, rfl⟩ := Option.map_eq_some'.1 (Option.some.inj h)
  exact ⟨rfl, rfl, rfl, ⟨st, hst, by simpa using hrole⟩, group, hgroup, target, htarget, rfl, rfl⟩

/-- A `Shed` moves a leadership from an `Overfull` node to another replica on an `Underfull` one. -/
theorem computeBalance_shed_spec (rootGroupId : Nat) (src : AllocSource) {t : TransferLeader}
    (h : computeBalance ops rootGroupId src = some (.shed t)) :
    ∃ mean, meanLeaderCount ops src.nodes = some mean ∧
      (∃ n ∈ src.nodes, nodeStatus ops mean n = .overfull ∧ ∃ replica,
        (replica, t.group) ∈ src.nodeReplicas n.id ∧ replica.id = t.srcReplica ∧
        replica.nodeId = t.srcNode ∧ replica.role = .voter ∧ t.group ≠ rootGroupId ∧
        ∃ st, src.replicaState replica.id = some st ∧ st.role = .leader) ∧
      (∃ group, src.groups t.group = some group ∧ ∃ target ∈ group.replicas,
        target.id = t.targetReplica ∧ target.nodeId = t.targetNode ∧ target.id ≠ t.srcReplica) ∧
      (∃ n ∈ src.nodes, n.id = t.targetNode ∧ nodeStatus ops mean n = .underfull ∧
        leaderBalanceState ops (ops.ofU64 (n.leaderCount + 1)) mean ≠ .overfull) := by
  simp only [computeBalance, Option.bind_eq_bind, Option.bind_eq_some, Option.pure_def,
    Option.some.injEq] at h
  obtain ⟨mean, hmean, ranked, hranked, descision, hfind, hd⟩ := h
  cases descision with
  | none => cases hd
  | some t' =>
  cases hd
  obtain ⟨n, hn, hnode⟩ := exists_of_findSomeM?_eq_some hfind
  obtain ⟨p, hp, rfl⟩ := List.mem_map.1 hn
  obtain ⟨hp, hover⟩ := List.mem_filter.1 hp
  obtain ⟨hpn, hps⟩ := mem_rankNodesForLeader ops hranked hp
  obtain ⟨⟨replica, g⟩, hr, hstep⟩ := exists_of_findSomeM?_eq_some hnode
  obtain ⟨hr, hg⟩ := List.mem_filter.1 hr
  obtain ⟨rfl, hsrc, hsrcNode, hst, group, hgroup, target, htarget, htr, htn⟩ := tryReplica_eq_some ops hstep
  obtain ⟨q, hq, hunder, hnext, hq'⟩ := findTarget_eq_some ops htarget
  obtain ⟨hqn, hqs⟩ := mem_rankNodesForLeader ops hranked hq
  obtain ⟨htm, htid, htnode⟩ := existReplicaInNodes_eq_some hq'
  simp only [ne_eq, decide_eq_true_eq] at hg
  refine ⟨mean, hmean, ⟨p.1, hpn, by simpa [hps] using hover, replica, hr, hsrc.symm, hsrcNode.symm,
    hg.2, hg.1, hst⟩, ⟨group, hgroup, target, htm, htr.symm, htn.symm, hsrc ▸ htid⟩,
    ⟨q.1, hqn, htn.trans htnode |>.symm, hqs ▸ hunder, hnext⟩⟩

/-! ### A transfer to a learner -/

/-- Node 1 has three leaders, node 2 none; group 10 has a leading voter on 1, a learner on 2. -/
def learnerTarget : AllocSource where
  nodes := [⟨1, some ⟨3⟩⟩, ⟨2, some ⟨0⟩⟩]
  nodeReplicas n := if n = 1 then [(⟨100, 1, .voter⟩, 10)] else if n = 2 then [(⟨200, 2, .learner⟩, 10)] else []
  groups g := if g = 10 then some ⟨[⟨100, 1, .voter⟩, ⟨200, 2, .learner⟩]⟩ else none
  replicaState r := if r = 100 then some ⟨100, 1, .leader⟩ else if r = 200 then some ⟨200, 1, .other⟩ else none

/-- For any `f64` model with the mean between 0 and 3, group 10's leadership moves to node 2. -/
theorem computeBalance_learnerTarget (rootGroupId : Nat) (hroot : rootGroupId ≠ 10)
    (hover : leaderBalanceState ops (ops.ofU64 3) (ops.div (ops.ofU64 3) (ops.ofU64 2)) = .overfull)
    (hunder : leaderBalanceState ops (ops.ofU64 0) (ops.div (ops.ofU64 3) (ops.ofU64 2)) = .underfull)
    (hnext : leaderBalanceState ops (ops.ofU64 1) (ops.div (ops.ofU64 3) (ops.ofU64 2)) ≠ .overfull) :
    computeBalance ops rootGroupId learnerTarget = some (.shed ⟨10, 1, 100, 2, 200⟩) := by
  have hmean : meanLeaderCount ops learnerTarget.nodes = some (ops.div (ops.ofU64 3) (ops.ofU64 2)) := rfl
  have hranked : rankNodesForLeader ops learnerTarget.nodes (ops.div (ops.ofU64 3) (ops.ofU64 2)) =
      some [(⟨1, some ⟨3⟩⟩, .overfull), (⟨2, some ⟨0⟩⟩, .underfull)] := by
    rw [rankNodesForLeader, withStatus_eq ops (by decide)]
    simp only [learnerTarget, List.map_cons, List.map_nil, nodeStatus, NodeDesc.leaderCount,
      NodeDesc.leaderCount?, Option.map_some', Option.getD_some, hover, hunder]
    exact congrArg some (List.mergeSort_of_sorted (by decide))
  have htarget : findTarget ops [(⟨1, some ⟨3⟩⟩, .overfull), (⟨2, some ⟨0⟩⟩, .underfull)]
      (ops.div (ops.ofU64 3) (ops.ofU64 2)) (existReplicaInNodes ⟨[⟨100, 1, .voter⟩, ⟨200, 2, .learner⟩]⟩ 100) =
        some ⟨200, 2, .learner⟩ := by
    simp [findTarget, List.findSome?, NodeDesc.leaderCount, NodeDesc.leaderCount?, hnext]
    rfl
  simp only [computeBalance, Option.bind_eq_bind, hmean, Option.some_bind, hranked]
  simp [tryDescreaseNodeLeaderCount, learnerTarget, hroot.symm, tryReplica, htarget, List.findSomeM?]

/-- That transfer hands the leadership to replica 200, a learner. -/
theorem computeBalance_sheds_to_learner (rootGroupId : Nat) (hroot : rootGroupId ≠ 10)
    (hover : leaderBalanceState ops (ops.ofU64 3) (ops.div (ops.ofU64 3) (ops.ofU64 2)) = .overfull)
    (hunder : leaderBalanceState ops (ops.ofU64 0) (ops.div (ops.ofU64 3) (ops.ofU64 2)) = .underfull)
    (hnext : leaderBalanceState ops (ops.ofU64 1) (ops.div (ops.ofU64 3) (ops.ofU64 2)) ≠ .overfull) :
    computeBalance ops rootGroupId learnerTarget = some (.shed ⟨10, 1, 100, 2, 200⟩) ∧
      learnerTarget.groups 10 = some ⟨[⟨100, 1, .voter⟩, ⟨200, 2, .learner⟩]⟩ :=
  ⟨computeBalance_learnerTarget ops rootGroupId hroot hover hunder hnext, rfl⟩

end Policy

theorem computeBalance_shed_spec_learnerTarget :
    computeBalance halves 0 learnerTarget = some (.shed ⟨10, 1, 100, 2, 200⟩) ∧
      ∃ mean, meanLeaderCount halves learnerTarget.nodes = some mean ∧
        ∃ n ∈ learnerTarget.nodes, n.id = 2 ∧ nodeStatus halves mean n = .underfull := by
  have h := computeBalance_learnerTarget halves 0 (by decide) (by decide) (by decide) (by decide)
  obtain ⟨mean, hmean, -, -, n, hn, hid, hst, -⟩ := computeBalance_shed_spec halves 0 learnerTarget h
  exact ⟨h, mean, hmean, n, hn, hid, hst⟩

theorem computeBalance_sheds_to_learner_halves :
    leaderBalanceState halves (halves.ofU64 3) (halves.div (halves.ofU64 3) (halves.ofU64 2)) = .overfull ∧
      leaderBalanceState halves (halves.ofU64 0) (halves.div (halves.ofU64 3) (halves.ofU64 2)) = .underfull ∧
      leaderBalanceState halves (halves.ofU64 1) (halves.div (halves.ofU64 3) (halves.ofU64 2)) ≠ .overfull ∧
      computeBalance halves 0 learnerTarget = some (.shed ⟨10, 1, 100, 2, 200⟩) :=
  ⟨by decide, by decide, by decide,
    (computeBalance_sheds_to_learner halves 0 (by decide) (by decide) (by decide) (by decide)).1⟩

end Engula.Allocator
