import Mathlib.Data.List.Basic

/-! `QuorumFuture` of `journal/quorum_journal.rs`. `QuorumJournal::append` sends the record to
every journal and waits on a `QuorumFuture` over the flights. Each `poll` polls every inner future,
counts those that return `Ready` at this poll, and is `Ready` when that count exceeds half of
them. An inner future is known by the poll, counted from one, at which it first returns `Ready`,
if any. Polling it again after that breaks the `Future` contract (the future of an `async fn`,
such as the client's `append`, panics); that is `none` here.

The count is of one poll's `Ready`s only and every future is polled at every poll. So the first
poll at which any future completes decides everything: `Ready` if more than half complete at it,
and otherwise `Pending`, after which the next poll polls a completed future again. -/

namespace Engula.Journal

inductive Poll
  | ready
  | pending
  deriving DecidableEq, Repr

/-- An inner future: the poll at which it first returns `Ready`, if ever, and its polls so far. -/
structure Flight where
  readyAt : Option Nat
  polls : Nat
  deriving DecidableEq, Repr

/-- `Future::poll` of an inner future: whether it is `Ready`; `none` when it already was. -/
def Flight.poll (f : Flight) : Option (Bool × Flight) :=
  match f.readyAt with
  | none => some (false, ⟨f.readyAt, f.polls + 1⟩)
  | some k => if k ≤ f.polls then none else some (f.polls + 1 = k, ⟨f.readyAt, f.polls + 1⟩)

/-- The `for` loop of `QuorumFuture::poll`, counting the `Ready`s. -/
def pollAll : List Flight → Option (Nat × List Flight)
  | [] => some (0, [])
  | f :: fs => do
    let (ready, f) ← f.poll
    let (count, fs) ← pollAll fs
    pure (if ready then count + 1 else count, f :: fs)

structure QuorumFuture where
  futures : List Flight

/-- `QuorumFuture::new` over inner futures that first return `Ready` at the given polls. -/
def QuorumFuture.new (ks : List (Option Nat)) : QuorumFuture := ⟨ks.map (⟨·, 0⟩)⟩

def QuorumFuture.poll (q : QuorumFuture) : Option (Poll × QuorumFuture) := do
  let (count, futures) ← pollAll q.futures
  pure (if count > q.futures.length / 2 then .ready else .pending, ⟨futures⟩)

/-- The executor: poll until `Ready`, at most `fuel` times, and give the results. -/
def QuorumFuture.drive : Nat → QuorumFuture → Option (List Poll)
  | 0, _ => some []
  | fuel + 1, q => do
    let (p, q) ← q.poll
    match p with
    | .ready => pure [.ready]
    | .pending => (.pending :: ·) <$> drive fuel q

/-- The quorum after `j` polls, none of which reached a completion. -/
def QuorumFuture.after (ks : List (Option Nat)) (j : Nat) : QuorumFuture := ⟨ks.map (⟨·, j⟩)⟩

/-! ### One poll -/

section Poll

variable {ks : List (Option Nat)} {j : Nat}

theorem Flight.poll_of_lt {k : Option Nat} (h : ∀ k', k = some k' → j < k') :
    Flight.poll ⟨k, j⟩ = some (decide (k = some (j + 1)), ⟨k, j + 1⟩) := by
  cases k with
  | none => simp [Flight.poll]
  | some k' => simp [Flight.poll, Nat.not_le.2 (h k' rfl), eq_comm]

theorem pollAll_after (h : ∀ k', some k' ∈ ks → j < k') :
    pollAll (ks.map (⟨·, j⟩)) = some (ks.count (some (j + 1)), ks.map (⟨·, j + 1⟩)) := by
  induction ks with
  | nil => rfl
  | cons k ks ih =>
    rw [List.map_cons, pollAll, Flight.poll_of_lt fun k' hk => h k' (hk ▸ List.mem_cons_self _ _),
      ih fun k' hk => h k' (List.mem_cons_of_mem _ hk)]
    by_cases hk : k = some (j + 1) <;> simp [hk, List.count_cons]

theorem pollAll_after_eq_none {k : Nat} (hk : some k ∈ ks) (hkj : k ≤ j) :
    pollAll (ks.map (⟨·, j⟩)) = none := by
  induction ks with
  | nil => cases hk
  | cons k₀ ks ih =>
    rcases List.mem_cons.1 hk with rfl | hk
    · simp [pollAll, Flight.poll, hkj]
    · simp [pollAll, ih hk]

theorem poll_after (h : ∀ k', some k' ∈ ks → j < k') :
    (QuorumFuture.after ks j).poll =
      some (if ks.count (some (j + 1)) > ks.length / 2 then .ready else .pending,
        QuorumFuture.after ks (j + 1)) := by
  simp [QuorumFuture.poll, QuorumFuture.after, pollAll_after h]

theorem drive_succ_of_poll_pending {q q' : QuorumFuture} (fuel : Nat) (h : q.poll = some (.pending, q')) :
    q.drive (fuel + 1) = (.pending :: ·) <$> q'.drive fuel := by
  simp [QuorumFuture.drive, h]

end Poll

/-! ### Whole runs -/

section Drive

variable {ks : List (Option Nat)}

theorem poll_after_eq_none {j k : Nat} (hk : some k ∈ ks) (hkj : k ≤ j) :
    (QuorumFuture.after ks j).poll = none := by
  simp [QuorumFuture.poll, QuorumFuture.after, pollAll_after_eq_none hk hkj]

theorem drive_after_succ_of_quiet (j fuel : Nat) (h : ∀ k', some k' ∈ ks → j + 1 < k') :
    (QuorumFuture.after ks j).drive (fuel + 1) =
      (.pending :: ·) <$> (QuorumFuture.after ks (j + 1)).drive fuel := by
  have hzero : ks.count (some (j + 1)) = 0 := List.count_eq_zero.2 fun hm => by have := h _ hm; omega
  have hpoll := poll_after fun k' hk => Nat.lt_of_succ_lt (h k' hk)
  rw [hzero, if_neg (Nat.not_lt_zero _)] at hpoll
  exact drive_succ_of_poll_pending fuel hpoll

/-- The first poll at which a future may complete decides: `Ready` if over half complete at it. -/
theorem drive_after_first (d j : Nat) (h : ∀ k', some k' ∈ ks → j + d < k') :
    (QuorumFuture.after ks j).drive (d + 1) = some (List.replicate d .pending ++
      [if ks.count (some (j + d + 1)) > ks.length / 2 then .ready else .pending]) := by
  induction d generalizing j with
  | zero =>
    have hpoll : (QuorumFuture.after ks j).poll = some (if ks.count (some (j + 1)) > ks.length / 2
        then .ready else .pending, QuorumFuture.after ks (j + 1)) := poll_after fun k' hk => h k' hk
    by_cases hq : ks.count (some (j + 1)) > ks.length / 2 <;>
      simp [QuorumFuture.drive, hpoll, hq]
  | succ d ih =>
    rw [drive_after_succ_of_quiet j (d + 1) fun k' hk => by have := h k' hk; omega,
      ih (j + 1) fun k' hk => by have := h k' hk; omega, Nat.add_right_comm j 1 d]
    rfl

theorem drive_after_repoll (d j : Nat) (h : ∀ k', some k' ∈ ks → j + d < k')
    (hdone : some (j + d + 1) ∈ ks) (hfew : ks.count (some (j + d + 1)) ≤ ks.length / 2) :
    (QuorumFuture.after ks j).drive (d + 2) = none := by
  induction d generalizing j with
  | zero =>
    simp only [Nat.add_zero] at h hdone hfew
    have hpoll : (QuorumFuture.after ks j).poll = some (.pending, QuorumFuture.after ks (j + 1)) := by
      rw [poll_after h, if_neg (Nat.not_lt.2 hfew)]
    rw [drive_succ_of_poll_pending 1 hpoll]
    simp [QuorumFuture.drive, poll_after_eq_none hdone le_rfl]
  | succ d ih =>
    rw [drive_after_succ_of_quiet j (d + 2) fun k' hk => by have := h k' hk; omega,
      ih (j + 1) (fun k' hk => by have := h k' hk; omega) (by rwa [Nat.add_right_comm j 1 d])
        (by rwa [Nat.add_right_comm j 1 d])]
    rfl

end Drive

/-! ### The quorum is never seen across polls -/

/-- When at most half complete first, at poll `m + 1`, the next poll repolls a `Ready` future. -/
theorem quorum_repolls_ready_future {ks : List (Option Nat)} {m : Nat}
    (hmin : ∀ k, some k ∈ ks → m < k) (hdone : some (m + 1) ∈ ks)
    (hfew : ks.count (some (m + 1)) ≤ ks.length / 2) :
    (QuorumFuture.new ks).drive (m + 1) = some (List.replicate (m + 1) .pending) ∧
      (QuorumFuture.new ks).drive (m + 2) = none := by
  have h : ∀ k', some k' ∈ ks → 0 + m < k' := fun k' hk => by have := hmin k' hk; omega
  constructor
  · rw [QuorumFuture.new, ← QuorumFuture.after, drive_after_first m 0 h, Nat.zero_add,
      if_neg (Nat.not_lt.2 hfew), List.replicate_succ']
  · exact drive_after_repoll m 0 h (by rwa [Nat.zero_add]) (by rwa [Nat.zero_add])

/-- Journals acknowledging at polls 1, 2 and never: poll 1 is `Pending`, poll 2 repolls. -/
theorem quorum_repolls_ready_future_three :
    (∀ k, some k ∈ [some 1, some 2, none] → 0 < k) ∧ some (0 + 1) ∈ [some 1, some 2, none] ∧
      [some 1, some 2, none].count (some (0 + 1)) ≤ [some 1, some 2, none].length / 2 ∧
      (QuorumFuture.new [some 1, some 2, none]).drive (0 + 1) = some (List.replicate (0 + 1) .pending) ∧
      (QuorumFuture.new [some 1, some 2, none]).drive (0 + 2) = none := by
  have hmin : ∀ k, some k ∈ [some 1, some 2, none] → 0 < k := by
    intro k hk
    simp at hk
    omega
  exact ⟨hmin, by decide, by decide, quorum_repolls_ready_future hmin (by decide) (by decide)⟩

end Engula.Journal
