import Engula.Router.State

/-! The event stream of `watch_events`. Each stream item carries a list of updates and a list
of deletes; the router applies the updates and then the deletes, one event at a time, skipping
entries without an event and items that are errors. Proved: a stream run is the run of its
events in that order, so the router's invariants can be stated over plain event runs.

`state_main` calls `watch` again and again: after an error it sleeps and doubles its backoff
interval up to one second, and after a stream it resets the interval and runs `watch_events`.
The group epochs it sends with each call are left out; the answers of the calls are the input
of the model. Proved: the loop leaves the state of the streamed events in order, and after `k`
failed calls since the last stream the interval is `min(2^k, 1000)` milliseconds. -/

namespace Engula.Router

inductive Event
  | update (e : UpdateEvent)
  | delete (e : DeleteEvent)
  deriving DecidableEq, Repr

/-- One event under the state lock; `none` is a panic. -/
def State.step (σ : State) : Event → Option State
  | .update e => some (σ.applyUpdateEvent e)
  | .delete e => σ.applyDeleteEvent e

def State.runEvents (σ : State) (evs : List Event) : Option State := evs.foldlM State.step σ

@[simp] theorem State.runEvents_nil (σ : State) : σ.runEvents [] = some σ := rfl

@[simp] theorem State.runEvents_cons (σ : State) (e : Event) (evs : List Event) :
    σ.runEvents (e :: evs) = (σ.step e).bind (·.runEvents evs) := rfl

theorem State.runEvents_append (σ : State) (evs evs' : List Event) :
    σ.runEvents (evs ++ evs') = (σ.runEvents evs).bind (·.runEvents evs') := by
  induction evs generalizing σ with
  | nil => rfl
  | cons e evs ih => cases h : σ.step e <;> simp [h, ih]

/-- `WatchResponse { updates, deletes }`; an entry's `event` is optional. -/
structure WatchResponse where
  updates : List (Option UpdateEvent)
  deletes : List (Option DeleteEvent)
  deriving DecidableEq, Repr

/-- The two loops of `watch_events` over one stream item. -/
def State.applyResponse (σ : State) (resp : WatchResponse) : Option State :=
  let σ := resp.updates.foldl (fun σ u => match u with
    | some e => σ.applyUpdateEvent e
    | none => σ) σ
  resp.deletes.foldlM (fun σ d => match d with
    | some e => σ.applyDeleteEvent e
    | none => some σ) σ

/-- `watch_events`: stream items in order; an error item is logged and skipped. -/
def State.watchEvents (σ : State) (items : List (Except String WatchResponse)) : Option State :=
  items.foldlM (fun σ item => match item with
    | .ok resp => σ.applyResponse resp
    | .error _ => some σ) σ

/-- The events of a stream item, in the order `watch_events` applies them. -/
def itemEvents : Except String WatchResponse → List Event
  | .ok resp => resp.updates.filterMap (·.map .update) ++ resp.deletes.filterMap (·.map .delete)
  | .error _ => []

theorem foldl_updates_eq_runEvents (σ : State) (us : List (Option UpdateEvent)) :
    some (us.foldl (fun σ u => match u with
      | some e => σ.applyUpdateEvent e
      | none => σ) σ) = σ.runEvents (us.filterMap (·.map .update)) := by
  induction us generalizing σ with
  | nil => rfl
  | cons u us ih => cases u <;> simp [ih, State.step]

theorem foldlM_deletes_eq_runEvents (σ : State) (ds : List (Option DeleteEvent)) :
    ds.foldlM (fun σ d => match d with
      | some e => σ.applyDeleteEvent e
      | none => some σ) σ = σ.runEvents (ds.filterMap (·.map .delete)) := by
  induction ds generalizing σ with
  | nil => rfl
  | cons d ds ih =>
    cases d with
    | none => exact ih σ
    | some e =>
      simp only [List.foldlM_cons, List.filterMap_cons, Option.map_some', State.runEvents_cons,
        State.step, Option.bind_eq_bind]
      exact congrArg _ (funext ih)

theorem State.applyResponse_eq (σ : State) (resp : WatchResponse) :
    σ.applyResponse resp = σ.runEvents (itemEvents (.ok resp)) := by
  rw [itemEvents, State.runEvents_append, ← foldl_updates_eq_runEvents, Option.some_bind,
    ← foldlM_deletes_eq_runEvents]
  rfl

/-- A stream run is the run of the stream's events. -/
theorem State.watchEvents_eq (σ : State) (items : List (Except String WatchResponse)) :
    σ.watchEvents items = σ.runEvents (items.flatMap itemEvents) := by
  induction items generalizing σ with
  | nil => rfl
  | cons item items ih =>
    rcases item with _ | resp
    · exact ih σ
    · rw [List.flatMap_cons, State.runEvents_append, ← State.applyResponse_eq]
      simp only [State.watchEvents, List.foldlM_cons] at ih ⊢
      cases σ.applyResponse resp <;> simp [ih]

/-! ### The loop of `state_main` -/

/-- What a call of `root_client.watch` returns: an error, or a stream of items. -/
inductive WatchResult
  | err
  | ok (items : List (Except String WatchResponse))

def WatchResult.isErr : WatchResult → Bool
  | .err => true
  | .ok _ => false

def WatchResult.events : WatchResult → List Event
  | .err => []
  | .ok items => items.flatMap itemEvents

/-- One iteration of `state_main`: on an error, sleep and double the interval up to 1000 ms. -/
def stateMainStep (σ : State) (interval : UInt64) : WatchResult → Option (State × UInt64 × List UInt64)
  | .err => some (σ, if interval * 2 ≤ 1000 then interval * 2 else 1000, [interval])
  | .ok items => (σ.watchEvents items).map fun σ' => (σ', 1, [])

/-- The loop of `state_main` over successive `watch` answers, with every sleep. -/
def stateMainLoop (σ : State) (interval : UInt64) :
    List WatchResult → Option (State × UInt64 × List UInt64)
  | [] => some (σ, interval, [])
  | r :: rs =>
    match stateMainStep σ interval r with
    | some (σ', interval', slept) =>
      (stateMainLoop σ' interval' rs).map fun (σ'', interval'', sleeps) => (σ'', interval'', slept ++ sleeps)
    | none => none

/-- The number of failed calls since the last stream, counting on from `k`. -/
def failedCalls (k : Nat) : List WatchResult → Nat
  | [] => k
  | .err :: rs => failedCalls (k + 1) rs
  | .ok _ :: rs => failedCalls 0 rs

theorem stateMainLoop_state (σ : State) (interval : UInt64) (rs : List WatchResult) :
    (stateMainLoop σ interval rs).map (·.1) = σ.runEvents (rs.flatMap WatchResult.events) := by
  induction rs generalizing σ interval with
  | nil => rfl
  | cons r rs ih =>
    cases r with
    | err => simpa [stateMainLoop, stateMainStep, WatchResult.events, Option.map_map] using ih σ _
    | ok items =>
      rw [List.flatMap_cons, State.runEvents_append, WatchResult.events, ← State.watchEvents_eq]
      simp only [stateMainLoop, stateMainStep]
      cases σ.watchEvents items with
      | none => rfl
      | some σ₁ => simpa [Option.map_map] using ih σ₁ 1

theorem toNat_doubleInterval {interval : UInt64} {k : Nat} (hk : interval.toNat = min (2 ^ k) 1000) :
    (if interval * 2 ≤ 1000 then interval * 2 else 1000 : UInt64).toNat = min (2 ^ (k + 1)) 1000 := by
  have hmul : (interval * 2).toNat = interval.toNat * 2 := by
    have : interval.toBitVec.toNat * 2 < 2 ^ 64 := by
      show interval.toNat * 2 < 2 ^ 64
      omega
    simp only [UInt64.toNat, UInt64.mul_def, BitVec.toNat_mul]
    exact Nat.mod_eq_of_lt this
  have h1000 : (1000 : UInt64).toNat = 1000 := rfl
  rw [pow_succ]
  split_ifs with h <;> rw [uInt64_le_iff, hmul, h1000] at h
  · omega
  · rw [h1000]
    omega

/-- The run lemma of the backoff: the interval follows the failed calls, one sleep each. -/
theorem stateMainLoop_interval :
    ∀ (rs : List WatchResult) (σ : State) (k : Nat) (interval : UInt64), interval.toNat = min (2 ^ k) 1000 →
      ∀ σ' interval' sleeps, stateMainLoop σ interval rs = some (σ', interval', sleeps) →
        interval'.toNat = min (2 ^ failedCalls k rs) 1000 ∧ sleeps.length = rs.countP WatchResult.isErr ∧
          ∀ s ∈ sleeps, ∃ j, s.toNat = min (2 ^ j) 1000
  | [], _, _, _, hk, _, _, _, h => by
    cases h
    exact ⟨hk, rfl, nofun⟩
  | .err :: rs, σ, k, interval, hk, _, _, _, h => by
    simp only [stateMainLoop, stateMainStep, Option.map_eq_some'] at h
    obtain ⟨⟨σ₁, interval₁, sleeps⟩, hrun, heq⟩ := h
    cases heq
    obtain ⟨hi, hlen, hs⟩ := stateMainLoop_interval rs σ (k + 1) _ (toNat_doubleInterval hk) _ _ _ hrun
    refine ⟨hi, by simp [hlen, WatchResult.isErr], ?_⟩
    rintro s (_ | ⟨_, hmem⟩)
    · exact ⟨k, hk⟩
    · exact hs s hmem
  | .ok items :: rs, σ, _, _, _, _, _, _, h => by
    simp only [stateMainLoop, stateMainStep] at h
    cases hw : σ.watchEvents items with
    | none => simp [hw] at h
    | some σ₁ =>
      simp only [hw, Option.map_some', Option.map_eq_some'] at h
      obtain ⟨⟨σ₂, interval₂, sleeps⟩, hrun, heq⟩ := h
      cases heq
      obtain ⟨hi, hlen, hs⟩ := stateMainLoop_interval rs σ₁ 0 1 rfl _ _ _ hrun
      exact ⟨hi, by simp [hlen, WatchResult.isErr], hs⟩

/-- `state_main` leaves the events' state; after `k` failures it waits `min(2^k, 1000)` ms. -/
theorem stateMain_backoff (σ : State) (rs : List WatchResult) :
    (stateMainLoop σ 1 rs).map (·.1) = σ.runEvents (rs.flatMap WatchResult.events) ∧
      ∀ σ' interval sleeps, stateMainLoop σ 1 rs = some (σ', interval, sleeps) →
        interval.toNat = min (2 ^ failedCalls 0 rs) 1000 ∧ sleeps.length = rs.countP WatchResult.isErr ∧
          ∀ s ∈ sleeps, ∃ j, s.toNat = min (2 ^ j) 1000 :=
  ⟨stateMainLoop_state σ 1 rs, stateMainLoop_interval rs σ 0 1 rfl⟩

/-- Twelve failed calls, an empty stream, and a failed call. -/
def rootOutage : List WatchResult := List.replicate 12 .err ++ [.ok [], .err]

theorem stateMain_backoff_rootOutage :
    ∃ σ' interval sleeps, stateMainLoop State.default 1 rootOutage = some (σ', interval, sleeps) ∧
      interval.toNat = min (2 ^ failedCalls 0 rootOutage) 1000 ∧
      sleeps.length = rootOutage.countP WatchResult.isErr ∧ ∀ s ∈ sleeps, ∃ j, s.toNat = min (2 ^ j) 1000 :=
  ⟨_, _, _, rfl, (stateMain_backoff State.default rootOutage).2 _ _ _ rfl⟩

end Engula.Router
