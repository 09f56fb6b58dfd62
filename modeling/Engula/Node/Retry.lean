import Engula.Router.State

/-! The retry loop of a replica's request handler, `node/replica/retry.rs`. `execute_internal`
hands the request to `Replica::execute` again and again: after `ServiceIsBusy` or
`GroupNotReady` it tries again as it was; after `EpochNotMatch(desc)` it tries again at the
epoch of `desc` when `is_executable` finds every key of the request in a shard that `desc` lists,
and remembers `desc`. A success is returned marked with `EpochNotMatch` of the last descriptor
so remembered, which tells the client to refresh its view of the group; a forwarded request is
handed to the migration controller.

`Replica`, `ExecCtx`, `MigrateController`, `is_change_meta_request` and `shard::belong_to` are
not in the source. The replica is known by its answers: the result of `execute` at each attempt,
for the context and request it is given, and its descriptor; the controller by the answers of
`forward`. `ExecCtx::reset` clears what one execution leaves behind and keeps the two fields the
loop reads, the epoch and `forward_shard_id`. The sleep before a retry and the metrics are left
out, and so is `debug_assert_ne!`, as in a release build. The loop can retry forever, so it runs
on fuel.

Proved: along every run of the loop, each attempt is made with the context `attemptCtx` reads
off the replica's earlier answers, at the epoch of the last descriptor retried on or at the
request's own epoch when there is none, and every descriptor retried on is one the replica
answered an attempt with, at that attempt's own epoch, and under which the request is
executable. So a success comes back unmarked exactly when nothing but busy answers came before
it, and otherwise marked `EpochNotMatch(d)` for the last such `d`. -/

namespace Engula.Node

open Engula.Router (GroupDesc ShardDesc)

/-! ### Requests, contexts and errors -/

/-- A shard `Get`, `Put` or `Delete`: the shard id and the optional inner request's key. -/
structure ShardKeyRequest where
  shardId : Nat
  key : Option Bytes
  deriving DecidableEq, Repr

/-- `group_request_union::Request`: the five data requests, and the rest by kind. -/
inductive Request
  | get (req : ShardKeyRequest)
  | put (req : ShardKeyRequest)
  | delete (req : ShardKeyRequest)
  | prefixList (shardId : Nat) (keyPrefix : Bytes)
  | batchWrite (deletes puts : List ShardKeyRequest)
  | other (kind : Nat)
  deriving DecidableEq, Repr

structure GroupRequestUnion where
  request : Option Request
  deriving DecidableEq, Repr

structure GroupRequest where
  epoch : Nat
  request : Option GroupRequestUnion
  deriving DecidableEq, Repr

structure ExecCtx where
  forwardShardId : Option Nat
  epoch : Nat
  deriving DecidableEq, Repr

structure ForwardCtx where
  shardId : Nat
  deriving DecidableEq, Repr

/-- `crate::Error`: the variants the loop tells apart, and `other` for the rest. -/
inductive Error
  | invalidArgument (msg : String)
  | forward (ctx : ForwardCtx)
  | serviceIsBusy
  | groupNotReady
  | epochNotMatch (desc : GroupDesc)
  | shardNotFound (shardId : Nat)
  | other (code : Nat)
  deriving DecidableEq, Repr

structure GroupResponse (Resp : Type) where
  response : Resp
  error : Option Error

def GroupResponse.new {Resp : Type} (resp : Resp) : GroupResponse Resp := ⟨resp, none⟩

def GroupResponse.withError {Resp : Type} (resp : Resp) (err : Error) : GroupResponse Resp := ⟨resp, some err⟩

/-- A replica, known by its answers to `execute` and `descriptor()` at each attempt. -/
structure Replica (Resp : Type) where
  execute : Nat → ExecCtx → Request → Except Error Resp
  descriptor : Nat → GroupDesc

structure MigrateController (Resp : Type) where
  forward : ForwardCtx → Request → Except Error Resp

inductive Outcome (Resp : Type)
  | ret (r : Except Error (GroupResponse Resp))
  | panic

inductive Turn (Resp : Type)
  | retry (epoch : Nat) (freshedDescriptor : Option GroupDesc)
  | finish (o : Outcome Resp)

/-! ### `is_executable` -/

section Executable

variable (isChangeMetaRequest : Request → Bool) (belongTo : ShardDesc → Bytes → Bool)

/-- `is_target_shard_exists`: the first shard with this id holds the key. -/
def isTargetShardExists (desc : GroupDesc) (shardId : Nat) (key : Bytes) : Bool :=
  ((desc.shards.find? (·.id == shardId)).map (belongTo · key)).getD false

/-- The `BatchWrite` loop of `is_executable`; `none` is a missing inner request. -/
def allTargetsExist (desc : GroupDesc) : List ShardKeyRequest → Option Bool
  | [] => some true
  | r :: rs =>
    match r.key with
    | none => none
    | some key => if isTargetShardExists belongTo desc r.shardId key then allTargetsExist desc rs else some false

/-- `is_executable`; `none` is an `unwrap` or the `unreachable!()`. -/
def isExecutable (descriptor : GroupDesc) (request : Request) : Option Bool :=
  if !isChangeMetaRequest request then
    match request with
    | .get req | .put req | .delete req => req.key.map (isTargetShardExists belongTo descriptor req.shardId)
    | .prefixList shardId keyPrefix => some (isTargetShardExists belongTo descriptor shardId keyPrefix)
    | .batchWrite deletes puts =>
      match allTargetsExist belongTo descriptor deletes with
      | some true => allTargetsExist belongTo descriptor puts
      | r => r
    | .other _ => none
  else some false

/-- The shard requests of a data request, in the order `is_executable` checks them. -/
def Request.targets : Request → Option (List ShardKeyRequest)
  | .get req | .put req | .delete req => some [req]
  | .prefixList shardId keyPrefix => some [⟨shardId, some keyPrefix⟩]
  | .batchWrite deletes puts => some (deletes ++ puts)
  | .other _ => none

/-- Every shard request carries its key, and the key lies in the shard of `desc` it names. -/
def Executable (desc : GroupDesc) (request : Request) : Prop :=
  ∃ rs, request.targets = some rs ∧
    ∀ r ∈ rs, ∃ key, r.key = some key ∧ isTargetShardExists belongTo desc r.shardId key = true

theorem allTargetsExist_eq_some_true {desc : GroupDesc} {rs : List ShardKeyRequest} :
    allTargetsExist belongTo desc rs = some true ↔
      ∀ r ∈ rs, ∃ key, r.key = some key ∧ isTargetShardExists belongTo desc r.shardId key = true := by
  induction rs with
  | nil => simp [allTargetsExist]
  | cons r rs ih =>
    rw [List.forall_mem_cons, ← ih]
    rcases hk : r.key with _ | key
    · simp [allTargetsExist, hk]
    · by_cases hx : isTargetShardExists belongTo desc r.shardId key <;> simp [allTargetsExist, hk, hx]

theorem isExecutable_eq_some_true {desc : GroupDesc} {request : Request} :
    isExecutable isChangeMetaRequest belongTo desc request = some true ↔
      isChangeMetaRequest request = false ∧ Executable belongTo desc request := by
  unfold isExecutable Executable
  by_cases hmeta : isChangeMetaRequest request
  · simp [hmeta]
  simp only [hmeta, Bool.not_false, if_true, true_and]
  cases request with
  | get req | put req | delete req => rcases req.key with _ | key <;> simp [Request.targets, *]
  | prefixList shardId keyPrefix => simp [Request.targets]
  | batchWrite deletes puts =>
    have hthen : ∀ a b : Option Bool, (match a with | some true => b | r => r) = some true ↔
        a = some true ∧ b = some true := by
      rintro (_ | _ | _) b <;> simp
    simp [hthen, allTargetsExist_eq_some_true, Request.targets, or_imp, forall_and]
  | other kind => simp [Request.targets]

end Executable

/-! ### The loop -/

section Loop

variable {Resp : Type} (isChangeMetaRequest : Request → Bool) (belongTo : ShardDesc → Bytes → Bool)
  (migrateCtrl : Option (MigrateController Resp)) (replica : Replica Resp)

/-- The body of the loop once `replica.execute` has answered attempt `attempt`. -/
def onAnswer (request : Request) (attempt : Nat) (ctx : ExecCtx) (freshedDescriptor : Option GroupDesc) :
    Except Error Resp → Turn Resp
  | .ok resp =>
    .finish (.ret (.ok (match freshedDescriptor with
      | some descriptor => GroupResponse.withError resp (.epochNotMatch descriptor)
      | none => GroupResponse.new resp)))
  | .error (.forward forwardCtx) =>
    match migrateCtrl with
    | some ctrl => .finish (.ret ((ctrl.forward forwardCtx request).map GroupResponse.new))
    | none => .finish .panic
  | .error .serviceIsBusy | .error .groupNotReady => .retry ctx.epoch freshedDescriptor
  | .error (.epochNotMatch desc) =>
    match isExecutable isChangeMetaRequest belongTo desc request with
    | some true => .retry desc.epoch (some desc)
    | some false => .finish (.ret (.error (.epochNotMatch desc)))
    | none => .finish .panic
  | .error (.shardNotFound _) =>
    if ctx.forwardShardId.isNone then .finish .panic
    else .finish (.ret (.error (.epochNotMatch (replica.descriptor attempt))))
  | .error e => .finish (.ret (.error e))

/-- The `loop` of `execute_internal` on `fuel` attempts. -/
def executeLoop (request : Request) : Nat → Nat → ExecCtx → Option GroupDesc → Option (Outcome Resp)
  | 0, _, _, _ => none
  | fuel + 1, attempt, ctx, freshedDescriptor =>
    match onAnswer isChangeMetaRequest belongTo migrateCtrl replica request attempt ctx freshedDescriptor
        (replica.execute attempt ctx request) with
    | .retry epoch freshed => executeLoop request fuel (attempt + 1) { ctx with epoch } freshed
    | .finish o => some o

def executeInternal (execCtx : ExecCtx) (request : GroupRequest) (fuel : Nat) : Option (Outcome Resp) :=
  match request.request.bind GroupRequestUnion.request with
  | none => some (.ret (.error (.invalidArgument "GroupRequest::request is None")))
  | some req =>
    executeLoop isChangeMetaRequest belongTo migrateCtrl replica req fuel 0 { execCtx with epoch := request.epoch } none

def execute (execCtx : ExecCtx) (request : GroupRequest) (fuel : Nat) : Option (Outcome Resp) :=
  executeInternal isChangeMetaRequest belongTo none replica execCtx request fuel

def forwardableExecute (ctrl : MigrateController Resp) (execCtx : ExecCtx) (request : GroupRequest)
    (fuel : Nat) : Option (Outcome Resp) :=
  executeInternal isChangeMetaRequest belongTo (some ctrl) replica execCtx request fuel

/-! ### One turn of the loop -/

/-- An answer the loop waits out: `ServiceIsBusy` or `GroupNotReady`. -/
def Waits (answer : Except Error Resp) : Prop :=
  answer = .error .serviceIsBusy ∨ answer = .error .groupNotReady

/-- The loop goes round again only after an answer it waits out or a usable `EpochNotMatch`. -/
theorem onAnswer_eq_retry {request : Request} {attempt : Nat} {ctx : ExecCtx} {fr fr' : Option GroupDesc}
    {answer : Except Error Resp} {epoch : Nat}
    (h : onAnswer isChangeMetaRequest belongTo migrateCtrl replica request attempt ctx fr answer = .retry epoch fr') :
    (Waits answer ∧ epoch = ctx.epoch ∧ fr' = fr) ∨
      ∃ d, answer = .error (.epochNotMatch d) ∧ isExecutable isChangeMetaRequest belongTo d request = some true ∧
        epoch = d.epoch ∧ fr' = some d := by
  rcases answer with (_ | _ | _ | _ | d | _ | _) | _ <;> simp only [onAnswer] at h
  · cases h
  · split at h <;> cases h
  · cases h
    exact .inl ⟨.inl rfl, rfl, rfl⟩
  · cases h
    exact .inl ⟨.inr rfl, rfl, rfl⟩
  · split at h <;> cases h
    exact .inr ⟨d, rfl, ‹_›, rfl, rfl⟩
  · split at h <;> cases h
  · cases h
  · cases h

theorem onAnswer_eq_ok {request : Request} {attempt : Nat} {ctx : ExecCtx} {fr : Option GroupDesc}
    {answer : Except Error Resp} {gr : GroupResponse Resp}
    (h : onAnswer isChangeMetaRequest belongTo migrateCtrl replica request attempt ctx fr answer = .finish (.ret (.ok gr))) :
    (answer = .ok gr.response ∧ gr.error = fr.map Error.epochNotMatch) ∨
      gr.error = none ∧ ∃ ctrl forwardCtx, migrateCtrl = some ctrl ∧ answer = .error (.forward forwardCtx) ∧
        ctrl.forward forwardCtx request = .ok gr.response := by
  rcases answer with (_ | fctx | _ | _ | d | _ | _) | resp <;> simp only [onAnswer] at h
  · cases h
  · rcases migrateCtrl with _ | ctrl
    · cases h
    · dsimp only at h
      rcases hf : ctrl.forward fctx request with _ | resp <;> simp only [hf, Except.map] at h <;> cases h
      exact .inr ⟨rfl, ctrl, fctx, rfl, rfl, hf⟩
  · cases h
  · cases h
  · split at h <;> cases h
  · split at h <;> cases h
  · cases h
  · split at h <;> cases h <;> exact .inl ⟨rfl, rfl⟩

/-! ### Runs of the loop -/

/-- The context of attempt `i`: `d`'s epoch after each `EpochNotMatch(d)` answered before it. -/
def attemptCtx (request : Request) (f₀ : Option Nat) (e₀ : Nat) : Nat → ExecCtx
  | 0 => ⟨f₀, e₀⟩
  | i + 1 =>
    match replica.execute i (attemptCtx request f₀ e₀ i) request with
    | .error (.epochNotMatch d) => ⟨f₀, d.epoch⟩
    | _ => attemptCtx request f₀ e₀ i

/-- The loop before attempt `attempt`: its context is `attemptCtx`, and `fr` has a history. -/
structure RetryInv (request : Request) (f₀ : Option Nat) (e₀ attempt : Nat) (ctx : ExecCtx)
    (freshedDescriptor : Option GroupDesc) : Prop where
  ctx_eq : ctx = attemptCtx replica request f₀ e₀ attempt
  unmarked : freshedDescriptor = none →
    ∀ i < attempt, Waits (replica.execute i (attemptCtx replica request f₀ e₀ i) request)
  marked : ∀ d, freshedDescriptor = some d → isExecutable isChangeMetaRequest belongTo d request = some true ∧
    ∃ j < attempt, replica.execute j (attemptCtx replica request f₀ e₀ j) request = .error (.epochNotMatch d) ∧
      ∀ i, j < i → i < attempt → Waits (replica.execute i (attemptCtx replica request f₀ e₀ i) request)

variable {isChangeMetaRequest belongTo migrateCtrl replica}

section AttemptCtx

variable {request : Request} {f₀ : Option Nat} {e₀ : Nat}

theorem attemptCtx_forwardShardId : ∀ i, (attemptCtx replica request f₀ e₀ i).forwardShardId = f₀
  | 0 => rfl
  | i + 1 => by
    unfold attemptCtx
    split
    · rfl
    · exact attemptCtx_forwardShardId i

theorem attemptCtx_succ_of_waits {i : Nat} (hw : Waits (replica.execute i (attemptCtx replica request f₀ e₀ i) request)) :
    attemptCtx replica request f₀ e₀ (i + 1) = attemptCtx replica request f₀ e₀ i := by
  rcases hw with hw | hw <;> rw [attemptCtx, hw]

theorem attemptCtx_succ_of_epochNotMatch {i : Nat} {d : GroupDesc}
    (he : replica.execute i (attemptCtx replica request f₀ e₀ i) request = .error (.epochNotMatch d)) :
    attemptCtx replica request f₀ e₀ (i + 1) = ⟨f₀, d.epoch⟩ := by
  rw [attemptCtx, he]

theorem attemptCtx_eq_of_waits {m n : Nat} (hmn : m ≤ n)
    (h : ∀ i, m ≤ i → i < n → Waits (replica.execute i (attemptCtx replica request f₀ e₀ i) request)) :
    attemptCtx replica request f₀ e₀ n = attemptCtx replica request f₀ e₀ m := by
  induction hmn with
  | refl => rfl
  | step hle ih =>
    rw [attemptCtx_succ_of_waits (h _ hle (Nat.lt_succ_self _)),
      ih fun i hi hin => h i hi (Nat.lt_succ_of_lt hin)]

end AttemptCtx

theorem RetryInv.retry {request : Request} {f₀ : Option Nat} {e₀ attempt : Nat} {ctx : ExecCtx}
    {fr fr' : Option GroupDesc} {epoch : Nat}
    (hinv : RetryInv isChangeMetaRequest belongTo replica request f₀ e₀ attempt ctx fr)
    (h : onAnswer isChangeMetaRequest belongTo migrateCtrl replica request attempt ctx fr
      (replica.execute attempt ctx request) = .retry epoch fr') :
    RetryInv isChangeMetaRequest belongTo replica request f₀ e₀ (attempt + 1) { ctx with epoch } fr' := by
  obtain rfl := hinv.ctx_eq
  rcases onAnswer_eq_retry isChangeMetaRequest belongTo migrateCtrl replica h with
    ⟨hw, rfl, rfl⟩ | ⟨d, hd, hx, rfl, rfl⟩
  · -- an answer waited out: the same context and descriptor, one more answer waited out
    refine ⟨(attemptCtx_succ_of_waits hw).symm, fun hfr => Nat.forall_lt_succ.2 ⟨hinv.unmarked hfr, hw⟩,
      fun d hfr => ?_⟩
    obtain ⟨hx, j, hj, hans, hall⟩ := hinv.marked d hfr
    exact ⟨hx, j, Nat.lt_succ_of_lt hj, hans, fun i hji hi =>
      Nat.forall_lt_succ.2 ⟨fun i hi hji => hall i hji hi, fun _ => hw⟩ i hi hji⟩
  · -- `EpochNotMatch(d)`: `d` is remembered, with its epoch
    refine ⟨?_, nofun, fun d' hd' => ?_⟩
    · rw [attemptCtx_succ_of_epochNotMatch hd, attemptCtx_forwardShardId]
    · cases hd'
      exact ⟨hx, attempt, Nat.lt_succ_self _, hd, fun i hi hi' => absurd hi' (by omega)⟩

/-- A run that ends does so at an attempt reached with the invariant kept. -/
theorem RetryInv.run {request : Request} {f₀ : Option Nat} {e₀ : Nat} {o : Outcome Resp} :
    ∀ fuel attempt ctx fr, RetryInv isChangeMetaRequest belongTo replica request f₀ e₀ attempt ctx fr →
      executeLoop isChangeMetaRequest belongTo migrateCtrl replica request fuel attempt ctx fr = some o →
      ∃ attempt' ctx' fr', RetryInv isChangeMetaRequest belongTo replica request f₀ e₀ attempt' ctx' fr' ∧
        onAnswer isChangeMetaRequest belongTo migrateCtrl replica request attempt' ctx' fr'
          (replica.execute attempt' ctx' request) = .finish o
  | 0, _, _, _, _, h => nomatch h
  | fuel + 1, attempt, ctx, fr, hinv, h => by
    rw [executeLoop] at h
    split at h
    · exact RetryInv.run fuel _ _ _ (hinv.retry ‹_›) h
    · cases h
      exact ⟨attempt, ctx, fr, hinv, ‹_›⟩

/-- Every success is an `Ok` to an attempt at its `attemptCtx`, or a forward. -/
theorem executeInternal_ok_spec {execCtx : ExecCtx} {request : GroupRequest} {fuel : Nat}
    {gr : GroupResponse Resp}
    (h : executeInternal isChangeMetaRequest belongTo migrateCtrl replica execCtx request fuel = some (.ret (.ok gr))) :
    ∃ req, request.request.bind GroupRequestUnion.request = some req ∧ ∃ attempt,
      (replica.execute attempt (attemptCtx replica req execCtx.forwardShardId request.epoch attempt) req =
          .ok gr.response ∧
        (gr.error = none ↔ (attemptCtx replica req execCtx.forwardShardId request.epoch attempt).epoch =
            request.epoch ∧
          ∀ i < attempt, Waits (replica.execute i (attemptCtx replica req execCtx.forwardShardId request.epoch i) req)) ∧
        ∀ err, gr.error = some err → ∃ d, err = .epochNotMatch d ∧
          (attemptCtx replica req execCtx.forwardShardId request.epoch attempt).epoch = d.epoch ∧
          isChangeMetaRequest req = false ∧ Executable belongTo d req ∧
          ∃ j < attempt, replica.execute j (attemptCtx replica req execCtx.forwardShardId request.epoch j) req =
              .error (.epochNotMatch d) ∧
            ∀ i, j < i → i < attempt →
              Waits (replica.execute i (attemptCtx replica req execCtx.forwardShardId request.epoch i) req)) ∨
      (gr.error = none ∧ ∃ ctrl forwardCtx, migrateCtrl = some ctrl ∧
        replica.execute attempt (attemptCtx replica req execCtx.forwardShardId request.epoch attempt) req =
          .error (.forward forwardCtx) ∧
        ctrl.forward forwardCtx req = .ok gr.response) := by
  unfold executeInternal at h
  split at h
  · cases h
  rename_i req hreq
  have hinit : RetryInv isChangeMetaRequest belongTo replica req execCtx.forwardShardId request.epoch 0
      { execCtx with epoch := request.epoch } none :=
    ⟨rfl, fun _ i hi => absurd hi (Nat.not_lt_zero i), nofun⟩
  obtain ⟨attempt, ctx, fr, hinv, hfin⟩ := RetryInv.run fuel 0 _ none hinit h
  obtain rfl := hinv.ctx_eq
  refine ⟨req, hreq, attempt, ?_⟩
  rcases onAnswer_eq_ok isChangeMetaRequest belongTo migrateCtrl replica hfin with
    ⟨hok, herr⟩ | ⟨hnone, ctrl, fctx, hctrl, hfwd, hres⟩
  · refine .inl ⟨hok, ⟨fun hn => ?_, fun hall => ?_⟩, fun err he => ?_⟩
    · -- unmarked: nothing but waits, so the context is still the first one
      have hw := hinv.unmarked (by cases fr <;> simp_all)
      exact ⟨by rw [attemptCtx_eq_of_waits (Nat.zero_le _) fun i _ hi => hw i hi]; rfl, hw⟩
    · -- a remembered descriptor was answered once, which is not waited out
      rcases fr with _ | d
      · simp [herr]
      obtain ⟨-, j, hj, hans, -⟩ := hinv.marked d rfl
      rcases hall.2 j hj with hw | hw <;> rw [hw] at hans <;> cases hans
    · rcases fr with _ | d
      · simp [herr] at he
      obtain ⟨hx, j, hj, hans, hall⟩ := hinv.marked d rfl
      obtain ⟨hmeta, hexec⟩ := (isExecutable_eq_some_true isChangeMetaRequest belongTo).1 hx
      have hctx : attemptCtx replica req execCtx.forwardShardId request.epoch attempt =
          ⟨execCtx.forwardShardId, d.epoch⟩ := by
        rw [attemptCtx_eq_of_waits hj fun i hi hia => hall i hi hia, attemptCtx_succ_of_epochNotMatch hans]
      exact ⟨d, by simpa [herr] using he.symm, by rw [hctx], hmeta, hexec, j, hj, hans, hall⟩
  · exact .inr ⟨hnone, ctrl, fctx, hctrl, hfwd, hres⟩

end Loop

def refreshedDesc : GroupDesc := ⟨1, 5, [⟨1, 1, none⟩], []⟩

/-- Answers `EpochNotMatch` off epoch 5; at epoch 5, busy at attempt 1 and `7` otherwise. -/
def refreshedReplica : Replica Nat where
  execute attempt ctx _ :=
    if ctx.epoch ≠ 5 then .error (.epochNotMatch refreshedDesc)
    else if attempt = 1 then .error .serviceIsBusy else .ok 7
  descriptor _ := refreshedDesc

/-- A `Get` sent at epoch 3 is refreshed to epoch 5, waits once, and is answered marked. -/
theorem executeInternal_ok_spec_refreshed :
    executeInternal (fun _ => false) (fun _ _ => true) none refreshedReplica ⟨none, 0⟩
        ⟨3, some ⟨some (.get ⟨1, some [1]⟩)⟩⟩ 3 =
        some (.ret (.ok ⟨7, some (.epochNotMatch refreshedDesc)⟩)) ∧
      ∃ attempt, (attemptCtx refreshedReplica (.get ⟨1, some [1]⟩) none 3 attempt).epoch = 5 ∧
        ∃ j < attempt, refreshedReplica.execute j (attemptCtx refreshedReplica (.get ⟨1, some [1]⟩) none 3 j)
          (.get ⟨1, some [1]⟩) = .error (.epochNotMatch refreshedDesc) := by
  have h : executeInternal (fun _ => false) (fun _ _ => true) none refreshedReplica ⟨none, 0⟩
      ⟨3, some ⟨some (.get ⟨1, some [1]⟩)⟩⟩ 3 = some (.ret (.ok ⟨7, some (.epochNotMatch refreshedDesc)⟩)) := rfl
  obtain ⟨req, hreq, attempt, ⟨-, -, hmark⟩ | ⟨hnone, -⟩⟩ := executeInternal_ok_spec h
  · obtain ⟨d, hd, hepoch, -, -, j, hj, hans, -⟩ := hmark _ rfl
    cases hd
    cases hreq
    exact ⟨h, attempt, hepoch, j, hj, hans⟩
  · cases hnone

end Engula.Node
