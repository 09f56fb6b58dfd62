import Engula.Bytes
import Mathlib.Data.List.Perm.Basic

/-! Ranking nodes by their leader count, `root/allocator/policy_leader_cnt.rs`. A node whose
leader count is above `mean + 0.5` is `Overfull`, one below `mean - 0.5` is `Underfull`, and
the others are `Balanced`; `rank_nodes_for_leader` sorts the nodes with a comparator that puts
`Overfull` nodes first, `Underfull` nodes last, and otherwise larger leader counts first.

The comparisons are of `f64` values: a `u64` count converted `as f64`, the mean, and
`mean ± 0.5`. `f64` is modelled by the operations the policy uses and two laws of its
comparisons, which IEEE 754 doubles satisfy for every double, NaN and the infinities included:
converting a larger count never gives a smaller double, so a comparison of a converted count
with a fixed double changes at most once as the count grows (a NaN fails every comparison).
Under these laws the status of a node rises with its leader count, so for every mean the
comparator agrees with comparing leader counts in descending order. It is then a total
preorder, every stable sort gives the same list, and `sort_by` is core's stable `mergeSort`.
The node and capacity messages and `BalanceStatus` are not in the source; they keep the fields
the policy reads. -/

namespace Engula.Allocator

/-! ### `f64` -/

/-- The `f64` operations of the policy, over a type `F` of doubles. -/
structure F64Ops (F : Type) where
  /-- `n as f64` for a count `n` (a `usize` is 64 bits wide). -/
  ofU64 : UInt64 → F
  add : F → F → F
  sub : F → F → F
  div : F → F → F
  /-- The literal `0.5`. -/
  half : F
  /-- `<`; `a > b` is `lt b a`. -/
  lt : F → F → Bool

/-- The laws of `f64` comparisons the policy relies on: a growing count only rises past doubles. -/
structure F64Ops.Lawful {F : Type} (ops : F64Ops F) : Prop where
  lt_ofU64_of_le : ∀ h n m, n ≤ m → ops.lt h (ops.ofU64 n) → ops.lt h (ops.ofU64 m)
  ofU64_lt_of_le : ∀ h n m, n ≤ m → ops.lt (ops.ofU64 m) h → ops.lt (ops.ofU64 n) h

/-- Halves as integers (`some k` is `k / 2`) with a NaN (`none`), to evaluate the policy on. -/
def halves : F64Ops (Option Int) where
  ofU64 n := some (2 * n.toNat)
  add a b := do pure ((← a) + (← b))
  sub a b := do pure ((← a) - (← b))
  div a b := do
    let a ← a
    let b ← b
    if b = 0 then none else pure (2 * a / b)
  half := some 1
  lt
    | some a, some b => decide (a < b)
    | _, _ => false

theorem halves_lawful : halves.Lawful where
  lt_ofU64_of_le h n m (hnm : n.toNat ≤ m.toNat) := by
    rcases h with _ | x <;> simp [halves]
    omega
  ofU64_lt_of_le h n m (hnm : n.toNat ≤ m.toNat) := by
    rcases h with _ | x <;> simp [halves]
    omega

/-! ### Balance status -/

inductive BalanceStatus
  | overfull
  | balanced
  | underfull
  deriving DecidableEq, Repr

def BalanceStatus.rank : BalanceStatus → Nat
  | .underfull => 0
  | .balanced => 1
  | .overfull => 2

theorem BalanceStatus.rank_lt_overfull {s : BalanceStatus} (h : s ≠ .overfull) :
    s.rank < BalanceStatus.overfull.rank := by
  cases s <;> simp_all [rank]

theorem BalanceStatus.underfull_rank_lt {s : BalanceStatus} (h : s ≠ .underfull) :
    BalanceStatus.underfull.rank < s.rank := by
  cases s <;> simp_all [rank]

section Status

variable {F : Type} (ops : F64Ops F)

/-- `leader_balance_state`, with `delta = 0.5`. -/
def leaderBalanceState (replicaNum mean : F) : BalanceStatus :=
  if ops.lt (ops.add mean ops.half) replicaNum then .overfull
  else if ops.lt replicaNum (ops.sub mean ops.half) then .underfull
  else .balanced

variable {ops} (hops : ops.Lawful) (mean : F)
include hops

theorem rank_leaderBalanceState_le {n m : UInt64} (h : n ≤ m) :
    (leaderBalanceState ops (ops.ofU64 n) mean).rank ≤ (leaderBalanceState ops (ops.ofU64 m) mean).rank := by
  unfold leaderBalanceState
  by_cases hn : ops.lt (ops.add mean ops.half) (ops.ofU64 n)
  · simp [hn, hops.lt_ofU64_of_le _ n m h hn]
  by_cases hm : ops.lt (ops.ofU64 m) (ops.sub mean ops.half)
  · simp [hn, hops.ofU64_lt_of_le _ n m h hm]
    split_ifs <;> simp [BalanceStatus.rank]
  · simp only [hn, hm, Bool.false_eq_true, if_false]
    split_ifs <;> simp [BalanceStatus.rank]

theorem lt_of_rank_leaderBalanceState_lt {n m : UInt64}
    (h : (leaderBalanceState ops (ops.ofU64 n) mean).rank < (leaderBalanceState ops (ops.ofU64 m) mean).rank) :
    n < m :=
  UInt64.not_le.1 fun hle => absurd h (Nat.not_lt.2 (rank_leaderBalanceState_le hops mean hle))

end Status

/-! ### Ranking -/

structure NodeCapacity where
  leaderCount : UInt64
  deriving DecidableEq, Repr

structure NodeDesc where
  id : Nat
  capacity : Option NodeCapacity
  deriving DecidableEq, Repr

/-- `n.capacity.as_ref().unwrap().leader_count`; `none` is the panic of `unwrap`. -/
def NodeDesc.leaderCount? (n : NodeDesc) : Option UInt64 := n.capacity.map (·.leaderCount)

/-- The leader count as the comparator reads it, once `rank_nodes_for_leader` has unwrapped it. -/
def NodeDesc.leaderCount (n : NodeDesc) : UInt64 := n.leaderCount?.getD 0

/-- The comparator of the `sort_by` of `rank_nodes_for_leader`. -/
def rankCmp (n1 n2 : NodeDesc × BalanceStatus) : Ordering :=
  if n2.2 = .overfull ∧ n1.2 ≠ .overfull then .gt
  else if n2.2 = .underfull ∧ n1.2 ≠ .underfull then .lt
  else compare n2.1.leaderCount n1.1.leaderCount

section Rank

variable {F : Type} (ops : F64Ops F)

def withStatus (ns : List NodeDesc) (meanCnt : F) : Option (List (NodeDesc × BalanceStatus)) :=
  ns.mapM fun n => n.leaderCount?.map fun leaderNum => (n, leaderBalanceState ops (ops.ofU64 leaderNum) meanCnt)

/-- `rank_nodes_for_leader`; `sort_by` keeps `n1` first unless the comparator says `Greater`. -/
def rankNodesForLeader (ns : List NodeDesc) (meanCnt : F) : Option (List (NodeDesc × BalanceStatus)) :=
  (withStatus ops ns meanCnt).map fun l => l.mergeSort fun n1 n2 => decide (rankCmp n1 n2 ≠ .gt)

def nodeStatus (meanCnt : F) (n : NodeDesc) : BalanceStatus :=
  leaderBalanceState ops (ops.ofU64 n.leaderCount) meanCnt

theorem withStatus_eq {ns : List NodeDesc} (hcap : ∀ n ∈ ns, n.capacity.isSome) (meanCnt : F) :
    withStatus ops ns meanCnt = some (ns.map fun n => (n, nodeStatus ops meanCnt n)) := by
  induction ns with
  | nil => rfl
  | cons n ns ih =>
    obtain ⟨c, hc⟩ := Option.isSome_iff_exists.1 (hcap n (.head _))
    have ih' := ih fun m hm => hcap m (.tail _ hm)
    simp only [withStatus] at ih' ⊢
    rw [List.mapM_cons, ih']
    simp [NodeDesc.leaderCount?, NodeDesc.leaderCount, nodeStatus, hc]

theorem capacity_isSome_of_mapM {β : Type} (g : NodeDesc → Option β) (hg : ∀ n, (g n).isSome → n.capacity.isSome) :
    ∀ {ns : List NodeDesc}, (ns.mapM g).isSome → ∀ n ∈ ns, n.capacity.isSome
  | [], _ => by simp
  | n :: ns, h => by
    rw [List.mapM_cons] at h
    rcases hn : g n with _ | b
    · rw [hn] at h
      exact absurd h Bool.false_ne_true
    rcases hs : ns.mapM g with _ | bs
    · rw [hn, hs] at h
      exact absurd h Bool.false_ne_true
    intro m hm
    rcases List.mem_cons.1 hm with rfl | hm
    · exact hg _ (by rw [hn]; rfl)
    · exact capacity_isSome_of_mapM g hg (by rw [hs]; rfl) m hm

theorem capacity_isSome_of_withStatus {ns : List NodeDesc} {meanCnt : F}
    (h : (withStatus ops ns meanCnt).isSome) : ∀ n ∈ ns, n.capacity.isSome :=
  capacity_isSome_of_mapM _ (fun n hn => by simpa [NodeDesc.leaderCount?] using hn) h

theorem mem_rankNodesForLeader {ns : List NodeDesc} {meanCnt : F} {r : List (NodeDesc × BalanceStatus)}
    (h : rankNodesForLeader ops ns meanCnt = some r) {p : NodeDesc × BalanceStatus} (hp : p ∈ r) :
    p.1 ∈ ns ∧ p.2 = nodeStatus ops meanCnt p.1 := by
  obtain ⟨l, hl, rfl⟩ := Option.map_eq_some'.1 h
  have hcap := capacity_isSome_of_withStatus ops (by rw [hl]; rfl)
  rw [withStatus_eq ops hcap, Option.some.injEq] at hl
  subst hl
  obtain ⟨n, hn, rfl⟩ := List.mem_map.1 (List.mem_mergeSort.1 hp)
  exact ⟨hn, rfl⟩

theorem mem_rankNodesForLeader_iff {ns : List NodeDesc} {meanCnt : F} {r : List (NodeDesc × BalanceStatus)}
    (h : rankNodesForLeader ops ns meanCnt = some r) (p : NodeDesc × BalanceStatus) :
    p ∈ r ↔ p.1 ∈ ns ∧ p.2 = nodeStatus ops meanCnt p.1 := by
  refine ⟨mem_rankNodesForLeader ops h, fun ⟨hn, hs⟩ => ?_⟩
  obtain ⟨l, hl, rfl⟩ := Option.map_eq_some'.1 h
  rw [withStatus_eq ops (capacity_isSome_of_withStatus ops (by rw [hl]; rfl)), Option.some.injEq] at hl
  subst hl
  exact List.mem_mergeSort.2 (List.mem_map.2 ⟨p.1, hn, by rw [← hs]⟩)

variable {ops} (hops : ops.Lawful) (mean : F)
include hops

/-- On nodes with their statuses, the comparator compares leader counts, descending. -/
theorem rankCmp_eq_compare {a b : NodeDesc × BalanceStatus} (ha : a.2 = nodeStatus ops mean a.1)
    (hb : b.2 = nodeStatus ops mean b.1) : rankCmp a b = compare b.1.leaderCount a.1.leaderCount := by
  unfold rankCmp
  rw [compare_uInt64]
  split_ifs with hover hunder
  · have : a.1.leaderCount < b.1.leaderCount := lt_of_rank_leaderBalanceState_lt hops mean (by
      rw [← nodeStatus, ← nodeStatus, ← ha, ← hb, hover.1]
      exact BalanceStatus.rank_lt_overfull hover.2)
    exact (Nat.compare_eq_gt.2 this).symm
  · have : b.1.leaderCount < a.1.leaderCount := lt_of_rank_leaderBalanceState_lt hops mean (by
      rw [← nodeStatus, ← nodeStatus, ← ha, ← hb, hunder.1]
      exact BalanceStatus.underfull_rank_lt hunder.2)
    exact (Nat.compare_eq_lt.2 this).symm
  · rfl

theorem rankCmp_ne_gt_iff {a b : NodeDesc × BalanceStatus} (ha : a.2 = nodeStatus ops mean a.1)
    (hb : b.2 = nodeStatus ops mean b.1) : rankCmp a b ≠ .gt ↔ b.1.leaderCount ≤ a.1.leaderCount := by
  rw [rankCmp_eq_compare hops mean ha hb, compare_uInt64, Nat.compare_ne_gt, uInt64_le_iff]

/-- On nodes with their statuses the sort is the stable sort by leader count, descending. -/
theorem mergeSort_rankCmp {L : List (NodeDesc × BalanceStatus)} (hL : ∀ p ∈ L, p.2 = nodeStatus ops mean p.1) :
    L.mergeSort (fun n1 n2 => decide (rankCmp n1 n2 ≠ .gt)) =
      L.mergeSort fun a b => decide (b.1.leaderCount ≤ a.1.leaderCount) := by
  have h := @List.map_mergeSort _ _ (fun n1 n2 => decide (rankCmp n1 n2 ≠ .gt))
    (fun a b => decide (b.1.leaderCount ≤ a.1.leaderCount)) id L fun a ha b hb =>
      decide_eq_decide.2 (rankCmp_ne_gt_iff hops mean (hL a ha) (hL b hb))
  simpa using h

theorem rankNodesForLeader_sorted {ns : List NodeDesc} {r : List (NodeDesc × BalanceStatus)}
    (h : rankNodesForLeader ops ns mean = some r) : r.Pairwise fun a b => b.1.leaderCount ≤ a.1.leaderCount := by
  obtain ⟨l, hl, rfl⟩ := Option.map_eq_some'.1 h
  have hL : ∀ p ∈ l, p.2 = nodeStatus ops mean p.1 := by
    rw [withStatus_eq ops (capacity_isSome_of_withStatus ops (by rw [hl]; rfl)), Option.some.injEq] at hl
    simp [← hl]
  rw [mergeSort_rankCmp hops mean hL]
  refine (List.sorted_mergeSort (fun a b c hab hbc => ?_) (fun a b => ?_) l).imp (by simp)
  · simp only [decide_eq_true_eq] at hab hbc ⊢
    exact UInt64.le_trans hbc hab
  · simpa using UInt64.le_total b.1.leaderCount a.1.leaderCount

/-- `rank_nodes_for_leader` sorts by leader count, most first, so `Overfull` nodes lead. -/
theorem rankNodesForLeader_by_leaderCount (ns : List NodeDesc) (hcap : ∀ n ∈ ns, n.capacity.isSome) :
    ∃ l r, withStatus ops ns mean = some l ∧ rankNodesForLeader ops ns mean = some r ∧
      (∀ a ∈ l, ∀ b ∈ l, rankCmp a b = compare b.1.leaderCount a.1.leaderCount) ∧
      (∀ a ∈ l, ∀ b ∈ l, ∀ c ∈ l, rankCmp a b ≠ .gt → rankCmp b c ≠ .gt → rankCmp a c ≠ .gt) ∧
      (∀ a ∈ l, ∀ b ∈ l, rankCmp a b ≠ .gt ∨ rankCmp b a ≠ .gt) ∧
      (r.map Prod.fst).Perm ns ∧
      (∀ p ∈ r, p.2 = leaderBalanceState ops (ops.ofU64 p.1.leaderCount) mean) ∧
      r.Pairwise (fun a b => b.1.leaderCount ≤ a.1.leaderCount) ∧
      r.Pairwise (fun a b => b.2.rank ≤ a.2.rank) := by
  set L := ns.map fun n => (n, nodeStatus ops mean n)
  have hL : ∀ p ∈ L, p.2 = nodeStatus ops mean p.1 := by simp [L]
  have hle := fun a ha b hb => rankCmp_ne_gt_iff hops mean (hL a ha) (hL b hb)
  have hsorted : (L.mergeSort fun a b => decide (b.1.leaderCount ≤ a.1.leaderCount)).Pairwise
      fun a b => b.1.leaderCount ≤ a.1.leaderCount := by
    refine (List.sorted_mergeSort (fun a b c hab hbc => ?_) (fun a b => ?_) L).imp (by simp)
    · simp only [decide_eq_true_eq] at hab hbc ⊢
      exact UInt64.le_trans hbc hab
    · simpa using UInt64.le_total b.1.leaderCount a.1.leaderCount
  have hmem : ∀ p ∈ L.mergeSort fun a b => decide (b.1.leaderCount ≤ a.1.leaderCount), p ∈ L :=
    fun p hp => List.mem_mergeSort.1 hp
  refine ⟨L, _, withStatus_eq ops hcap mean, by rw [rankNodesForLeader, withStatus_eq ops hcap mean,
    Option.map_some', mergeSort_rankCmp hops mean hL], fun a ha b hb => rankCmp_eq_compare hops mean (hL a ha) (hL b hb),
    fun a ha b hb c hc hab hbc => (hle a ha c hc).2 (UInt64.le_trans ((hle b hb c hc).1 hbc) ((hle a ha b hb).1 hab)),
    fun a ha b hb => (UInt64.le_total b.1.leaderCount a.1.leaderCount).imp (hle a ha b hb).2 (hle b hb a ha).2,
    ?_, fun p hp => hL p (hmem p hp), hsorted, hsorted.imp_of_mem fun ha hb h => ?_⟩
  · have hfst : L.map Prod.fst = ns := by simp [L, Function.comp_def]
    exact hfst ▸ (List.mergeSort_perm L _).map Prod.fst
  · rw [hL _ (hmem _ ha), hL _ (hmem _ hb)]
    exact rank_leaderBalanceState_le hops mean h

end Rank

def threeNodes : List NodeDesc := [⟨1, some ⟨3⟩⟩, ⟨2, some ⟨0⟩⟩, ⟨3, some ⟨1⟩⟩]

theorem rankNodesForLeader_by_leaderCount_threeNodes :
    halves.Lawful ∧ (∀ n ∈ threeNodes, n.capacity.isSome) ∧
      ∃ r, rankNodesForLeader halves threeNodes (some 3) = some r ∧
        r.Pairwise (fun a b => b.2.rank ≤ a.2.rank) := by
  obtain ⟨-, r, -, hr, -, -, -, -, -, -, hrank⟩ :=
    rankNodesForLeader_by_leaderCount halves_lawful (some 3) threeNodes (by decide)
  exact ⟨halves_lawful, by decide, r, hr, hrank⟩

end Engula.Allocator
