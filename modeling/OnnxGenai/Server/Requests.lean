import OnnxGenai.Lib.Runs
import OnnxGenai.Lib.Holdings
import OnnxGenai.Server.Session
import OnnxGenai.Server.Worker

/-!
# Session requests

The routes that create, fork and delete sessions and that take a turn in one, with the driver
commands they send to the engine workers. A request is a small machine (`Stage`) that makes one
step each time it takes the lock of the session registry, of the model registry or of a worker's
counters, or calls an engine; the steps of different requests interleave in any order. Its
stage holds all it has in hand: the handle of the model it resolved, the lease guards, the
reservation of a session, the session it opened and has not bound yet.

A command that was queued belongs to the driver. If the request is dropped while it waits for
the answer, the machine goes on without it: the driver takes a session back whose opening nobody
waits for, and finishes a close or a turn all the same. Commands may be executed in any order.

Two things are recorded that the source does not keep: in `log` what the engines did, and for
which client id; and in a guard the client id its lease was taken for. Nothing reads them.
-/

namespace OnnxGenai.Server

open Lib

set_option linter.unusedSectionVars false

variable {Client Model : Type} [DecidableEq Client] [DecidableEq Model]

abbrev TaskId := ℕ

/-- A conversation: an engine instance and the placement inside it. -/
structure Conversation where
  engine : EngineId
  placement : SessionPlacement
  deriving DecidableEq

/-- What a request holds of a model: the engine instance, and the id it was loaded as. -/
structure ModelHandle (Model : Type) where
  engine : EngineId
  model : Model
  deriving DecidableEq

namespace ModelHandle

/-- A conversation in this engine, as the key the session registry uses. -/
def binding (h : ModelHandle Model) (placement : SessionPlacement) : ModelSessionPlacement Model :=
  ⟨h.model, placement⟩

/-- The conversation a command with this binding reaches. -/
def conversation (h : ModelHandle Model) (b : ModelSessionPlacement Model) : Conversation := ⟨h.engine, b.placement⟩

end ModelHandle

/-! ### Requests and their stages -/

/-- What a client asks for. The id of a new session is drawn by the server. -/
inductive Request (Client Model : Type) where
  | create (client : Client)
  | complete (model : Model) (client : Client)
  /-- A completion without a session id. -/
  | stateless (model : Model)
  | fork (source child : Client)
  | delete (client : Client)

/-- What a new session is opened for. -/
inductive Purpose (Client : Type) where
  | insert (client : Client)
  | claim (client : Client)

/-- What a request does after a close. -/
inductive After (Client Model : Type) where
  | done
  /-- Take the lease of the binding that was there first. -/
  | existing (h : ModelHandle Model) (client : Client) (binding : ModelSessionPlacement Model)
  /-- Take the turn whose lease is held. -/
  | turn (h : ModelHandle Model) (guard : SessionLeaseGuard Client Model)

/-- How far a request is: what it does next. -/
inductive Stage (Client Model : Type) where
  | arrived (request : Request Client Model)
  /-- A completion looks its session up. -/
  | resolved (h : ModelHandle Model) (client : Client)
  /-- It takes the lease. -/
  | found (h : ModelHandle Model) (client : Client) (binding : ModelSessionPlacement Model)
  /-- There was no session: after admission it looks once more. -/
  | missed (h : ModelHandle Model) (client : Client)
  /-- The lease is held and nothing is submitted yet. -/
  | leased (h : ModelHandle Model) (guard : SessionLeaseGuard Client Model)
  /-- Reserve a placement for a new session. -/
  | opening (h : ModelHandle Model) (purpose : Purpose Client)
  /-- Wait for room in the command channel. -/
  | creating (h : ModelHandle Model) (worker : ℕ) (purpose : Purpose Client)
  /-- The command is queued; `none` when nobody waits for the answer. -/
  | createQueued (h : ModelHandle Model) (worker : ℕ) (purpose : Option (Purpose Client))
  /-- The session is open; the driver waits for the acknowledgement. -/
  | created (h : ModelHandle Model) (placement : SessionPlacement) (purpose : Option (Purpose Client))
  /-- The session is acknowledged. -/
  | publishing (h : ModelHandle Model) (binding : ModelSessionPlacement Model) (purpose : Purpose Client)
  /-- A completion holds the lease of its new session. -/
  | claiming (h : ModelHandle Model) (guard : SessionLeaseGuard Client Model)
  /-- The registry refused the new session. -/
  | refused (h : ModelHandle Model) (client : Client) (binding : ModelSessionPlacement Model)
  /-- Find the engine to close the session of a guard. -/
  | closing (guard : SessionLeaseGuard Client Model) (after : After Client Model)
  | closeSending (h : ModelHandle Model) (guard : SessionLeaseGuard Client Model) (after : After Client Model)
  | closeQueued (h : ModelHandle Model) (guard : SessionLeaseGuard Client Model) (after : After Client Model)
  | forkFound (source : Client) (binding : ModelSessionPlacement Model) (child : Client)
  | forkLeased (guard : SessionLeaseGuard Client Model) (child : Client)
  | forkSending (h : ModelHandle Model) (guard : SessionLeaseGuard Client Model) (child : Client)
  | forkQueued (h : ModelHandle Model) (guard : SessionLeaseGuard Client Model) (child : Option Client)
  | stateless (h : ModelHandle Model)
  | turnSending (h : ModelHandle Model) (worker : ℕ) (guard : Option (SessionLeaseGuard Client Model)) (tensors : Bool)
  | turnQueued (h : ModelHandle Model) (worker : ℕ) (guard : Option (SessionLeaseGuard Client Model)) (tensors : Bool)
  | turnRunning (h : ModelHandle Model) (worker : ℕ) (guard : Option (SessionLeaseGuard Client Model))

/-- What happens to conversations. -/
inductive Event (Client : Type) where
  /-- The request opened the conversation, or forked it off. -/
  | opened (request : TaskId) (k : Conversation)
  /-- The request bound a client id to it. -/
  | bound (request : TaskId) (client : Client) (k : Conversation)
  /-- The request is to close it: the client id was unbound, or never bound to it. -/
  | closeRequested (request : TaskId) (client : Client) (k : Conversation)
  | turn (request : TaskId) (client : Client) (k : Conversation)
  | forked (request : TaskId) (client : Client) (k : Conversation)
  | closed (request : TaskId) (client : Client) (k : Conversation)
  deriving DecidableEq

/-- The conversation a client id was last bound to. The newest event comes first. -/
def lastBound (log : List (Event Client)) (client : Client) : Option Conversation :=
  log.findSome? fun
    | .bound _ c k => if c = client then some k else none
    | _ => none

/-- The server: the two registries, the engines, and the requests under way. -/
structure AppState (Client Model : Type) where
  defaultModel : Model
  registry : SessionRegistry Client Model
  loaded : FiniteMap Model EngineId
  engines : Engines Model
  nextEngine : EngineId
  tasks : FiniteMap TaskId (Stage Client Model)
  nextTask : TaskId
  log : List (Event Client)

/-- What one step of a request leads to. -/
structure Outcome (Client Model : Type) where
  registry : SessionRegistry Client Model
  engines : Engines Model
  events : List (Event Client)
  next : Option (Stage Client Model)

namespace AppState

/-- A server with no model loaded. -/
def new (maxSessions : ℕ) (defaultModel : Model) : AppState Client Model where
  defaultModel := defaultModel
  registry := .new maxSessions
  loaded := ∅
  engines := ∅
  nextEngine := 0
  tasks := ∅
  nextTask := 0
  log := []

/-- The handle of a loaded model. -/
def resolve (s : AppState Client Model) (model : Model) : Option (ModelHandle Model) :=
  (s.loaded.lookup model).map (⟨·, model⟩)

/-- Nothing happens, but the request is at its next stage. -/
def go (s : AppState Client Model) (next : Option (Stage Client Model)) : Outcome Client Model :=
  ⟨s.registry, s.engines, [], next⟩

/-- The close of a client's conversation is requested. -/
def requested (s : AppState Client Model) (t : TaskId) (guard : SessionLeaseGuard Client Model) : List (Event Client) :=
  ((lastBound s.log guard.session).map (Event.closeRequested t guard.session)).toList

end AppState

namespace After

/-- The lease the request holds for what it does after the close. -/
def lease : After Client Model → Option (ModelSessionPlacement Model)
  | .turn _ guard => some guard.binding
  | _ => none

/-- The stage after the close. -/
def next : After Client Model → Option (Stage Client Model)
  | .done => none
  | .existing h client binding => if binding.model = h.model then some (.found h client binding) else none
  | .turn h guard => some (.leased h guard)

end After

/-- Give a lease back, if there is one. -/
def SessionRegistry.releaseAll (r : SessionRegistry Client Model) (binding : Option (ModelSessionPlacement Model)) :
    SessionRegistry Client Model :=
  match binding with
  | some b => r.release b
  | none => r

namespace AppState

/-- A completion looks its session up: `missing` is what it does when there is none. -/
def lookUp (s : AppState Client Model) (h : ModelHandle Model) (client : Client) (missing : Stage Client Model) :
    Outcome Client Model :=
  match s.registry.get client with
  | none => s.go (some missing)
  | some (binding, registry) =>
    ⟨registry, s.engines, [], if binding.model = h.model then some (.found h client binding) else none⟩

/-- Take a lease, or end with the refusal. -/
def takeLease (s : AppState Client Model) (binding : ModelSessionPlacement Model) (client : Client)
    (events : List (Event Client)) (next : Stage Client Model) : Outcome Client Model :=
  match s.registry.acquire binding client with
  | .ok registry => ⟨registry, s.engines, events, some next⟩
  | .error _ => s.go none

/-- After a new binding: close the conversation that was evicted for it, if any. -/
def afterBinding (s : AppState Client Model) (t : TaskId) (registry : SessionRegistry Client Model)
    (event : Event Client) (evicted : Option (SessionLeaseGuard Client Model)) (after : After Client Model) :
    Outcome Client Model :=
  match evicted with
  | none => ⟨registry, s.engines, [event], after.next⟩
  | some guard => ⟨registry, s.engines, s.requested t guard ++ [event], some (.closing guard after)⟩

/-- The next step of a request, or of the driver with its command. -/
def advance (s : AppState Client Model) (t : TaskId) : Stage Client Model → Outcome Client Model
  | .arrived (.create client) => s.go ((s.resolve s.defaultModel).map (.opening · (.insert client)))
  | .arrived (.complete model client) => s.go ((s.resolve model).map (.resolved · client))
  | .arrived (.stateless model) => s.go ((s.resolve model).map .stateless)
  | .arrived (.fork source child) =>
    match s.registry.get source with
    | none => s.go none
    | some (binding, registry) => ⟨registry, s.engines, [], some (.forkFound source binding child)⟩
  | .arrived (.delete client) =>
    match s.registry.takeForClose client with
    | .error _ => s.go none
    | .ok (guard, registry) => ⟨registry, s.engines, s.requested t guard, some (.closing guard .done)⟩
  -- `lease_bound_session`
  | .resolved h client => s.lookUp h client (.missed h client)
  | .found h client binding => s.takeLease binding client [] (.leased h ⟨client, binding⟩)
  -- `get_or_create_session`
  | .missed h client => s.lookUp h client (.opening h (.claim client))
  -- The request decides when to submit its turn.
  | .leased h guard => s.go (some (.leased h guard))
  | .opening h purpose =>
    match s.engines.placeSession h.engine with
    | none => s.go none
    | some w => ⟨s.registry, s.engines.update h.engine w .reserveSession, [], some (.creating h w purpose)⟩
  | .creating h w purpose => s.go (some (.createQueued h w (some purpose)))
  | .createQueued h w purpose =>
    match s.engines.worker? h.engine w with
    | none => s.go none
    | some worker =>
      ⟨s.registry, s.engines.update h.engine w (·.openSession.commitSession),
        [.opened t ⟨h.engine, w, worker.nextSessionId⟩],
        some (.created h ⟨w, worker.nextSessionId⟩ purpose)⟩
  -- Nobody acknowledges: the driver takes the session back.
  | .created h placement none =>
    ⟨s.registry, s.engines.update h.engine placement.worker (·.takeBack placement.engineSessionId), [], none⟩
  | .created h placement (some purpose) => s.go (some (.publishing h (h.binding placement) purpose))
  | .publishing h binding (.insert client) =>
    match s.registry.insert client binding with
    | .ok (evicted, registry) =>
      s.afterBinding t registry (.bound t client (h.conversation binding)) evicted .done
    | .error _ => s.go (some (.refused h client binding))
  | .publishing h binding (.claim client) => s.takeLease binding client [] (.claiming h ⟨client, binding⟩)
  | .claiming h guard =>
    match s.registry.claim guard.session guard.binding with
    | .ok (.claimed evicted, registry) =>
      s.afterBinding t registry (.bound t guard.session (h.conversation guard.binding)) evicted (.turn h guard)
    | .ok (.existing existing, registry) =>
      ⟨registry, s.engines, [.closeRequested t guard.session (h.conversation guard.binding)],
        some (.closing guard (.existing h guard.session existing))⟩
    | .error _ =>
      ⟨s.registry, s.engines, [.closeRequested t guard.session (h.conversation guard.binding)],
        some (.closing guard .done)⟩
  | .refused h client binding =>
    s.takeLease binding client [.closeRequested t client (h.conversation binding)] (.closing ⟨client, binding⟩ .done)
  -- `close_leased_session`
  | .closing guard after =>
    match s.resolve guard.binding.model with
    | none => ⟨s.registry.release guard.binding, s.engines, [], after.next⟩
    | some h =>
      match s.engines.worker? h.engine guard.binding.placement.worker with
      | none => ⟨(s.registry.release guard.binding).releaseAll after.lease, s.engines, [], none⟩
      | some _ => s.go (some (.closeSending h guard after))
  | .closeSending h guard after => s.go (some (.closeQueued h guard after))
  | .closeQueued h guard after =>
    match (s.engines.worker? h.engine guard.binding.placement.worker).bind
        (·.close guard.binding.placement.engineSessionId) with
    | none => ⟨(s.registry.release guard.binding).releaseAll after.lease, s.engines, [], none⟩
    | some worker =>
      ⟨s.registry.release guard.binding,
        s.engines.update h.engine guard.binding.placement.worker fun _ => worker,
        [.closed t guard.session (h.conversation guard.binding)], after.next⟩
  | .forkFound source binding child => s.takeLease binding source [] (.forkLeased ⟨source, binding⟩ child)
  | .forkLeased guard child =>
    match s.resolve guard.binding.model with
    | none => ⟨s.registry.release guard.binding, s.engines, [], none⟩
    | some h =>
      match s.engines.worker? h.engine guard.binding.placement.worker with
      | none => ⟨s.registry.release guard.binding, s.engines, [], none⟩
      | some _ =>
        ⟨s.registry, s.engines.update h.engine guard.binding.placement.worker .reserveSession, [],
          some (.forkSending h guard child)⟩
  | .forkSending h guard child => s.go (some (.forkQueued h guard (some child)))
  | .forkQueued h guard child =>
    let w := guard.binding.placement.worker
    match s.engines.worker? h.engine w with
    | none => ⟨s.registry.release guard.binding, s.engines, [], none⟩
    | some worker =>
      if guard.binding.placement.engineSessionId ∈ worker.sessions then
        ⟨s.registry.release guard.binding, s.engines.update h.engine w (·.openSession.commitSession),
          [.opened t ⟨h.engine, w, worker.nextSessionId⟩, .forked t guard.session (h.conversation guard.binding)],
          some (.created h ⟨w, worker.nextSessionId⟩ (child.map .insert))⟩
      else
        ⟨s.registry.release guard.binding, s.engines.update h.engine w .releasePendingSession, [], none⟩
  | .stateless h =>
    match s.engines.placeTurn h.engine with
    | none => s.go none
    | some w => ⟨s.registry, s.engines.update h.engine w .reserveTurn, [], some (.turnSending h w none false)⟩
  | .turnSending h w guard tensors => s.go (some (.turnQueued h w guard tensors))
  | .turnQueued h w none _ => s.go (some (.turnRunning h w none))
  | .turnQueued h w (some guard) tensors =>
    -- A turn that binds tensors runs the workflow under the session number, open or not.
    if tensors ∨ ∃ worker ∈ s.engines.worker? h.engine w, guard.binding.placement.engineSessionId ∈ worker.sessions then
      ⟨s.registry, s.engines, [.turn t guard.session (h.conversation guard.binding)], some (.turnRunning h w (some guard))⟩
    else
      ⟨s.registry.release guard.binding, s.engines.update h.engine w .releaseTurn, [], none⟩
  | .turnRunning h w guard =>
    ⟨s.registry.releaseAll (guard.map (·.binding)), s.engines.update h.engine w .releaseTurn, [], none⟩

/-- A completion that holds its lease submits its turn. -/
def submit (s : AppState Client Model) (tensors : Bool) : Stage Client Model → Option (Outcome Client Model)
  | .leased h guard =>
    match s.engines.worker? h.engine guard.binding.placement.worker with
    | none => some ⟨s.registry.release guard.binding, s.engines, [], none⟩
    | some _ =>
      some ⟨s.registry, s.engines.update h.engine guard.binding.placement.worker .reserveTurn, [],
        some (.turnSending h guard.binding.placement.worker (some guard) tensors)⟩
  | _ => none

/-- The future of a request is dropped at an await: what it holds is dropped with it. -/
def abandon (s : AppState Client Model) : Stage Client Model → Option (Outcome Client Model)
  | .missed _ _ => some (s.go none)
  | .leased _ guard => some ⟨s.registry.release guard.binding, s.engines, [], none⟩
  | .creating h w _ => some ⟨s.registry, s.engines.update h.engine w .releasePendingSession, [], none⟩
  | .createQueued h w _ => some (s.go (some (.createQueued h w none)))
  | .created h placement _ => some (s.go (some (.created h placement none)))
  | .closeSending _ guard after =>
    some ⟨(s.registry.release guard.binding).releaseAll after.lease, s.engines, [], none⟩
  | .closeQueued h guard after =>
    some ⟨s.registry.releaseAll after.lease, s.engines, [], some (.closeQueued h guard .done)⟩
  | .forkSending h guard _ =>
    some ⟨s.registry.release guard.binding,
      s.engines.update h.engine guard.binding.placement.worker .releasePendingSession, [], none⟩
  | .forkQueued h guard _ => some (s.go (some (.forkQueued h guard none)))
  | .turnSending h w guard _ =>
    some ⟨s.registry.releaseAll (guard.map (·.binding)), s.engines.update h.engine w .releaseTurn, [], none⟩
  | _ => none

/-- The engine refuses a command for reasons of its own. -/
def fail (s : AppState Client Model) : Stage Client Model → Option (Outcome Client Model)
  | .createQueued h w _ => some ⟨s.registry, s.engines.update h.engine w .releasePendingSession, [], none⟩
  | .forkQueued h guard _ =>
    some ⟨s.registry.release guard.binding,
      s.engines.update h.engine guard.binding.placement.worker .releasePendingSession, [], none⟩
  | .closeQueued _ guard after =>
    some ⟨(s.registry.release guard.binding).releaseAll after.lease, s.engines, [], none⟩
  | _ => none

/-- A request ends its step. -/
def apply (s : AppState Client Model) (t : TaskId) (o : Outcome Client Model) : AppState Client Model :=
  { s with
    registry := o.registry
    engines := o.engines
    log := o.events ++ s.log
    tasks := settle s.tasks t o.next }

/-- Load a model that is not loaded: a new engine instance, and the least recently used models
are evicted to make room for it. Nothing is assumed about which these are. -/
def load (s : AppState Client Model) (model : Model) (workers : ℕ) (victims : List Model) : AppState Client Model :=
  { s with
    loaded := victims.foldl (fun loaded m => loaded.erase m) (s.loaded.insert model s.nextEngine)
    engines := s.engines.insert s.nextEngine ⟨model, List.replicate workers .new⟩
    nextEngine := s.nextEngine + 1 }

/-- Unload a model. -/
def unload (s : AppState Client Model) (model : Model) : AppState Client Model :=
  { s with loaded := s.loaded.erase model }

end AppState

/-- What can happen next. -/
inductive Action (Client Model : Type) where
  | load (model : Model) (workers : ℕ) (victims : List Model)
  | unload (model : Model)
  | arrive (request : Request Client Model)
  | step (t : TaskId)
  | submit (t : TaskId) (tensors : Bool)
  | abandon (t : TaskId)
  | fail (t : TaskId)

namespace AppState

/-- What a request may do in this step, if it may do anything. -/
def outcome (s : AppState Client Model) : Action Client Model → Option (TaskId × Outcome Client Model)
  | .step t => (s.tasks.lookup t).map fun stage => (t, s.advance t stage)
  | .submit t tensors => (s.tasks.lookup t).bind fun stage => (s.submit tensors stage).map (t, ·)
  | .abandon t => (s.tasks.lookup t).bind fun stage => (s.abandon stage).map (t, ·)
  | .fail t => (s.tasks.lookup t).bind fun stage => (s.fail stage).map (t, ·)
  | _ => none

/-- One step of the server. -/
def act (s : AppState Client Model) : Action Client Model → AppState Client Model
  | .load model workers victims =>
    if (s.loaded.lookup model).isSome ∨ model ∈ victims then s else s.load model workers victims
  | .unload model => s.unload model
  | .arrive request =>
    { s with tasks := s.tasks.insert s.nextTask (.arrived request), nextTask := s.nextTask + 1 }
  | a =>
    match s.outcome a with
    | some (t, o) => s.apply t o
    | none => s

end AppState

end OnnxGenai.Server
