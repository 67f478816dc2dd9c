import OnnxGenai.Server.Requests

/-!
# What a step can do

A step of the server loads or unloads a model, lets a request arrive, or is a step of one request
(`act_cases`). What a step of a request can lead to is said once (`Effect`), and everything that is
proved of requests is proved by cases of it. For instance it changes at most one worker
(`EngineStep`), and in the session registry it reads, moves leases, or binds or frees one client id
(`RegistryStep`).
-/

namespace OnnxGenai.Server

open Lib Option

set_option linter.unusedSectionVars false

variable {Client Model : Type} [DecidableEq Client] [DecidableEq Model]

/-- Give leases back. -/
def SessionRegistry.releases (r : SessionRegistry Client Model) (bs : List (ModelSessionPlacement Model)) :
    SessionRegistry Client Model :=
  { r with leases := bs.foldl SessionLeases.release r.leases }

namespace AppState

/-- What kind of step a request makes. -/
inductive Makes (s : AppState Client Model) (t : TaskId) (stage : Stage Client Model) :
    Action Client Model → Outcome Client Model → Prop where
  | step : Makes s t stage (.step t) (s.advance t stage)
  | submit {tensors : Bool} {o : Outcome Client Model} (h : s.submit tensors stage = some o) :
      Makes s t stage (.submit t tensors) o
  | abandon {o : Outcome Client Model} (h : s.abandon stage = some o) : Makes s t stage (.abandon t) o
  | fail {o : Outcome Client Model} (h : s.fail stage = some o) : Makes s t stage (.fail t) o

/-! ### What a request can do -/

/-- A request goes to its next stage, and nothing else changes. -/
inductive Goes (s : AppState Client Model) : Stage Client Model → Stage Client Model → Prop where
  | create {client handle} (h : s.resolve s.defaultModel = some handle) :
      Goes s (.arrived (.create client)) (.opening handle (.insert client))
  | complete {model client handle} (h : s.resolve model = some handle) :
      Goes s (.arrived (.complete model client)) (.resolved handle client)
  | stateless {model handle} (h : s.resolve model = some handle) :
      Goes s (.arrived (.stateless model)) (.stateless handle)
  | missed {handle client} : Goes s (.resolved handle client) (.missed handle client)
  | opening {handle client} : Goes s (.missed handle client) (.opening handle (.claim client))
  | leased {handle guard} : Goes s (.leased handle guard) (.leased handle guard)
  | createQueued {handle w purpose} : Goes s (.creating handle w purpose) (.createQueued handle w (some purpose))
  | createUnwatched {handle w purpose} : Goes s (.createQueued handle w purpose) (.createQueued handle w none)
  | publishing {handle placement purpose} :
      Goes s (.created handle placement (some purpose)) (.publishing handle (handle.binding placement) purpose)
  | createdUnwatched {handle placement purpose} :
      Goes s (.created handle placement purpose) (.created handle placement none)
  | refused {handle binding client} : Goes s (.publishing handle binding (.insert client)) (.refused handle client binding)
  | closeSending {guard after handle} (h : s.resolve guard.binding.model = some handle) :
      Goes s (.closing guard after) (.closeSending handle guard after)
  | closeQueued {handle guard after} : Goes s (.closeSending handle guard after) (.closeQueued handle guard after)
  | forkQueued {handle guard child} : Goes s (.forkSending handle guard child) (.forkQueued handle guard (some child))
  | forkUnwatched {handle guard child} : Goes s (.forkQueued handle guard child) (.forkQueued handle guard none)
  | turnQueued {handle w guard tensors} :
      Goes s (.turnSending handle w guard tensors) (.turnQueued handle w guard tensors)
  | turnRunning {handle w tensors} : Goes s (.turnQueued handle w none tensors) (.turnRunning handle w none)

/-- A request ends, and nothing else changes. -/
inductive Ends (s : AppState Client Model) : Stage Client Model → Prop where
  | arrived {request} : Ends s (.arrived request)
  | found {handle client binding} : Ends s (.found handle client binding)
  | missed {handle client} : Ends s (.missed handle client)
  | opening {handle purpose} : Ends s (.opening handle purpose)
  | createQueued {handle w purpose} (h : s.engines.worker? handle.engine w = none) :
      Ends s (.createQueued handle w purpose)
  | publishing {handle binding client} (h : binding ∈ s.registry.leases) :
      Ends s (.publishing handle binding (.claim client))
  | refused {handle client binding} (h : binding ∈ s.registry.leases) : Ends s (.refused handle client binding)
  | forkFound {source binding child} : Ends s (.forkFound source binding child)
  | stateless {handle} : Ends s (.stateless handle)

/-- A request has read the binding of a client id. -/
inductive Reads (client : Client) (b : ModelSessionPlacement Model) :
    Stage Client Model → Option (Stage Client Model) → Prop where
  | found {handle} (h : b.model = handle.model) : Reads client b (.resolved handle client) (some (.found handle client b))
  | foundAgain {handle} (h : b.model = handle.model) :
      Reads client b (.missed handle client) (some (.found handle client b))
  | resolved {handle} : Reads client b (.resolved handle client) none
  | missed {handle} : Reads client b (.missed handle client) none
  | forkFound {child} : Reads client b (.arrived (.fork client child)) (some (.forkFound client b child))

/-- A request takes the lease of a binding. -/
inductive Leases (t : TaskId) (a : Action Client Model) (client : Client) (b : ModelSessionPlacement Model) :
    Stage Client Model → List (Event Client) → Stage Client Model → Prop where
  | leased {handle} (ha : a = .step t) : Leases t a client b (.found handle client b) [] (.leased handle ⟨client, b⟩)
  | claiming {handle} : Leases t a client b (.publishing handle b (.claim client)) [] (.claiming handle ⟨client, b⟩)
  | closing {handle} : Leases t a client b (.refused handle client b)
      [.closeRequested t client (handle.conversation b)] (.closing ⟨client, b⟩ .done)
  | forkLeased {child} (ha : a = .step t) :
      Leases t a client b (.forkFound client b child) [] (.forkLeased ⟨client, b⟩ child)

/-- A request gives leases back. -/
inductive Releases (s : AppState Client Model) (t : TaskId) (a : Action Client Model) :
    Stage Client Model → List (ModelSessionPlacement Model) → Option (Stage Client Model) → Prop where
  | unloaded {guard after} (h : s.resolve guard.binding.model = none) :
      Releases s t a (.closing guard after) [guard.binding] after.next
  | closing {guard after handle} (h : s.resolve guard.binding.model = some handle)
      (hw : s.engines.worker? handle.engine guard.binding.placement.worker = none) :
      Releases s t a (.closing guard after) (guard.binding :: after.lease.toList) none
  | closeSending {handle guard after} (ha : a = .abandon t) :
      Releases s t a (.closeSending handle guard after) (guard.binding :: after.lease.toList) none
  | closeQueued {handle guard after} (h : a = .fail t ∨
      (s.engines.worker? handle.engine guard.binding.placement.worker).bind
        (·.close guard.binding.placement.engineSessionId) = none) :
      Releases s t a (.closeQueued handle guard after) (guard.binding :: after.lease.toList) none
  | unwatched {handle guard after} :
      Releases s t a (.closeQueued handle guard after) after.lease.toList (some (.closeQueued handle guard .done))
  | forkLeased {guard child} : Releases s t a (.forkLeased guard child) [guard.binding] none
  | forkQueued {handle guard child} (h : s.engines.worker? handle.engine guard.binding.placement.worker = none) :
      Releases s t a (.forkQueued handle guard child) [guard.binding] none
  | leased {handle guard} : Releases s t a (.leased handle guard) [guard.binding] none

/-- The reservation of a session is given back, and leases with it. -/
inductive Unreserves : Stage Client Model → EngineId → ℕ → List (ModelSessionPlacement Model) → Prop where
  | creating {handle w purpose} : Unreserves (.creating handle w purpose) handle.engine w []
  | createQueued {handle w purpose} : Unreserves (.createQueued handle w purpose) handle.engine w []
  | forkSending {handle guard child} :
      Unreserves (.forkSending handle guard child) handle.engine guard.binding.placement.worker [guard.binding]
  | forkQueued {handle guard child} :
      Unreserves (.forkQueued handle guard child) handle.engine guard.binding.placement.worker [guard.binding]

/-- A turn is over, and its lease is given back. -/
inductive EndsTurn : Stage Client Model → EngineId → ℕ → List (ModelSessionPlacement Model) → Prop where
  | sending {handle w guard tensors} :
      EndsTurn (.turnSending handle w guard tensors) handle.engine w (guard.map (·.binding)).toList
  | queued {handle w guard tensors} :
      EndsTurn (.turnQueued handle w guard tensors) handle.engine w (guard.map (·.binding)).toList
  | running {handle w guard} : EndsTurn (.turnRunning handle w guard) handle.engine w (guard.map (·.binding)).toList

/-- **What a step of a request leads to.** -/
inductive Effect (s : AppState Client Model) (t : TaskId) (a : Action Client Model) :
    Stage Client Model → Outcome Client Model → Prop where
  | goes {stage next} (h : Goes s stage next) : Effect s t a stage (s.go (some next))
  | ends {stage} (h : Ends s stage) : Effect s t a stage (s.go none)
  | reads {client b registry stage next} (hget : s.registry.get client = some (b, registry))
      (h : Reads client b stage next) : Effect s t a stage ⟨registry, s.engines, [], next⟩
  | leases {client b stage events next} (hfree : b ∉ s.registry.leases) (h : Leases t a client b stage events next) :
      Effect s t a stage ⟨{ s.registry with leases := insert b s.registry.leases }, s.engines, events, some next⟩
  | frees {client guard registry} (h : s.registry.takeForClose client = .ok (guard, registry)) :
      Effect s t a (.arrived (.delete client)) ⟨registry, s.engines, s.requested t guard, some (.closing guard .done)⟩
  | inserts {handle b client evicted registry} (h : s.registry.insert client b = .ok (evicted, registry)) :
      Effect s t a (.publishing handle b (.insert client))
        (s.afterBinding t registry (.bound t client (handle.conversation b)) evicted .done)
  | claims {handle guard evicted registry}
      (h : s.registry.claim guard.session guard.binding = .ok (.claimed evicted, registry)) :
      Effect s t a (.claiming handle guard)
        (s.afterBinding t registry (.bound t guard.session (handle.conversation guard.binding)) evicted (.turn handle guard))
  /-- Somebody else has bound the client id by now. -/
  | yields {handle guard b registry} (h : s.registry.claim guard.session guard.binding = .ok (.existing b, registry)) :
      Effect s t a (.claiming handle guard)
        ⟨registry, s.engines, [.closeRequested t guard.session (handle.conversation guard.binding)],
          some (.closing guard (.existing handle guard.session b))⟩
  | gives {handle guard} : Effect s t a (.claiming handle guard)
      ⟨s.registry, s.engines, [.closeRequested t guard.session (handle.conversation guard.binding)],
        some (.closing guard .done)⟩
  | places {handle purpose w} (h : s.engines.placeSession handle.engine = some w) : Effect s t a (.opening handle purpose)
      ⟨s.registry, s.engines.update handle.engine w .reserveSession, [], some (.creating handle w purpose)⟩
  | placesFork {guard child handle worker} (h : s.resolve guard.binding.model = some handle)
      (hw : s.engines.worker? handle.engine guard.binding.placement.worker = some worker) :
      Effect s t a (.forkLeased guard child)
        ⟨s.registry, s.engines.update handle.engine guard.binding.placement.worker .reserveSession, [],
          some (.forkSending handle guard child)⟩
  | placesTurn {handle w} (h : s.engines.placeTurn handle.engine = some w) : Effect s t a (.stateless handle)
      ⟨s.registry, s.engines.update handle.engine w .reserveTurn, [], some (.turnSending handle w none false)⟩
  | submits {handle guard worker tensors}
      (hw : s.engines.worker? handle.engine guard.binding.placement.worker = some worker) :
      Effect s t a (.leased handle guard)
        ⟨s.registry, s.engines.update handle.engine guard.binding.placement.worker .reserveTurn, [],
          some (.turnSending handle guard.binding.placement.worker (some guard) tensors)⟩
  | opens {handle w purpose x} (hx : s.engines.worker? handle.engine w = some x) :
      Effect s t a (.createQueued handle w purpose)
        ⟨s.registry, s.engines.update handle.engine w (·.openSession.commitSession),
          [.opened t ⟨handle.engine, w, x.nextSessionId⟩], some (.created handle ⟨w, x.nextSessionId⟩ purpose)⟩
  | forks {handle guard child x} (hx : s.engines.worker? handle.engine guard.binding.placement.worker = some x) :
      Effect s t a (.forkQueued handle guard child)
        ⟨s.registry.releases [guard.binding],
          s.engines.update handle.engine guard.binding.placement.worker (·.openSession.commitSession),
          [.opened t ⟨handle.engine, guard.binding.placement.worker, x.nextSessionId⟩,
            .forked t guard.session (handle.conversation guard.binding)],
          some (.created handle ⟨guard.binding.placement.worker, x.nextSessionId⟩ (child.map .insert))⟩
  | takesBack {handle placement} : Effect s t a (.created handle placement none)
      ⟨s.registry, s.engines.update handle.engine placement.worker (·.takeBack placement.engineSessionId), [], none⟩
  | closes {handle guard after x x'} (hx : s.engines.worker? handle.engine guard.binding.placement.worker = some x)
      (hclose : x.close guard.binding.placement.engineSessionId = some x') :
      Effect s t a (.closeQueued handle guard after)
        ⟨s.registry.releases [guard.binding],
          s.engines.update handle.engine guard.binding.placement.worker fun _ => x',
          [.closed t guard.session (handle.conversation guard.binding)], after.next⟩
  | turns {handle w guard tensors} : Effect s t a (.turnQueued handle w (some guard) tensors)
      ⟨s.registry, s.engines, [.turn t guard.session (handle.conversation guard.binding)],
        some (.turnRunning handle w (some guard))⟩
  | releases {stage bs next} (h : Releases s t a stage bs next) :
      Effect s t a stage ⟨s.registry.releases bs, s.engines, [], next⟩
  | unreserves {stage e w bs} (h : Unreserves stage e w bs) :
      Effect s t a stage ⟨s.registry.releases bs, s.engines.update e w .releasePendingSession, [], none⟩
  | endsTurn {stage e w bs} (h : EndsTurn stage e w bs) :
      Effect s t a stage ⟨s.registry.releases bs, s.engines.update e w .releaseTurn, [], none⟩

/-! ### A step of the server -/

variable {s : AppState Client Model} {stage : Stage Client Model} {t : TaskId} {b : ModelSessionPlacement Model}
  {a : Action Client Model} {o : Outcome Client Model} {client : Client}

theorem outcome_eq_some {t : TaskId} (h : s.outcome a = some (t, o)) :
    ∃ stage, s.tasks.lookup t = some stage ∧ Makes s t stage a o := by
  cases a with
  | load | unload | arrive => cases h
  | step u =>
    obtain ⟨stage, hstage, hpair⟩ := map_eq_some_iff.mp h
    cases hpair
    exact ⟨stage, hstage, .step⟩
  | submit | abandon | fail =>
    obtain ⟨stage, hstage, h⟩ := bind_eq_some_iff.mp h
    obtain ⟨o', ho, hpair⟩ := map_eq_some_iff.mp h
    cases hpair
    exact ⟨stage, hstage, by constructor; exact ho⟩

/-- **What a step of the server is**: a model comes or goes, a request arrives, a request makes a
step, or nothing happens. -/
theorem act_cases (s : AppState Client Model) (a : Action Client Model) {P : AppState Client Model → Prop} (hsame : P s)
    (hload : ∀ model workers victims, a = .load model workers victims → s.loaded.lookup model = none →
      model ∉ victims → P (s.load model workers victims))
    (hunload : ∀ model, a = .unload model → P (s.unload model))
    (harrive : ∀ request, a = .arrive request →
      P { s with tasks := s.tasks.insert s.nextTask (.arrived request), nextTask := s.nextTask + 1 })
    (hmakes : ∀ t stage o, s.tasks.lookup t = some stage → Makes s t stage a o → P (s.apply t o)) : P (s.act a) := by
  cases a with
  | load model workers victims =>
    simp only [act]
    split
    · exact hsame
    case isFalse h =>
      have hnot := not_or.mp h
      exact hload model workers victims rfl (by simpa using hnot.1) hnot.2
  | unload model => exact hunload model rfl
  | arrive request => exact harrive request rfl
  | step | submit | abandon | fail =>
    simp only [act]
    split
    case h_1 t o ho =>
      obtain ⟨stage, hstage, hm⟩ := outcome_eq_some ho
      exact hmakes t stage o hstage hm
    case h_2 => exact hsame

/-! ### A step of a request -/

/-- A lease that is free is taken. -/
theorem takeLease_of_free {events : List (Event Client)} {next : Stage Client Model} (h : b ∉ s.registry.leases) :
    s.takeLease b client events next =
      ⟨{ s.registry with leases := insert b s.registry.leases }, s.engines, events, some next⟩ := by
  have hacq : s.registry.leases.acquire b client = .ok (insert b s.registry.leases) :=
    SessionLeases.acquire_eq_ok.mpr ⟨h, rfl⟩
  simp only [takeLease, SessionRegistry.acquire, hacq]
  rfl

/-- A lease that is held is refused. -/
theorem takeLease_of_leased {events : List (Event Client)} {next : Stage Client Model} (h : b ∈ s.registry.leases) :
    s.takeLease b client events next = s.go none := by
  have hacq : s.registry.leases.acquire b client = .error (.exclusiveLeaseConflict client) :=
    SessionLeases.acquire_eq_error.mpr ⟨h, rfl⟩
  simp only [takeLease, SessionRegistry.acquire, hacq]
  rfl

variable {handle : ModelHandle Model} {next : Stage Client Model} {events : List (Event Client)}

theorem effect_lookUp (hmissed : Goes s stage next)
    (hfound : ∀ b, b.model = handle.model → Reads client b stage (some (.found handle client b)))
    (hother : ∀ b, Reads client b stage none) : Effect s t a stage (s.lookUp handle client next) := by
  unfold lookUp
  split
  · exact .goes hmissed
  case h_2 b registry hget =>
    split
    case isTrue hmodel => exact .reads hget (hfound b hmodel)
    case isFalse => exact .reads hget (hother b)

theorem effect_takeLease (hlease : Leases t a client b stage events next) (hends : b ∈ s.registry.leases → Ends s stage) :
    Effect s t a stage (s.takeLease b client events next) := by
  by_cases hb : b ∈ s.registry.leases
  · rw [takeLease_of_leased hb]
    exact .ends (hends hb)
  · rw [takeLease_of_free hb]
    exact .leases hb hlease

theorem effect_resolve {handle : Option (ModelHandle Model)} {f : ModelHandle Model → Stage Client Model}
    (hends : Ends s stage) (hgoes : ∀ h, handle = some h → Goes s stage (f h)) : Effect s t a stage (s.go (handle.map f)) := by
  cases handle with
  | none => exact .ends hends
  | some h => exact .goes (hgoes h rfl)

theorem effect_releaseAll {o : Option (ModelSessionPlacement Model)} (bs : List (ModelSessionPlacement Model))
    {next : Option (Stage Client Model)} (h : Releases s t a stage (bs ++ o.toList) next) :
    Effect s t a stage ⟨(s.registry.releases bs).releaseAll o, s.engines, [], next⟩ := by
  have heq : (s.registry.releases bs).releaseAll o = s.registry.releases (bs ++ o.toList) := by
    cases o with
    | none => simp [SessionRegistry.releaseAll, SessionRegistry.releases]
    | some b => simp [SessionRegistry.releaseAll, SessionRegistry.releases, SessionRegistry.release]
  rw [heq]
  exact .releases h

theorem effect_endsTurn {e : EngineId} {w : ℕ} {o : Option (ModelSessionPlacement Model)} (h : EndsTurn stage e w o.toList) :
    Effect s t a stage ⟨s.registry.releaseAll o, s.engines.update e w .releaseTurn, [], none⟩ := by
  cases o with
  | none | some => exact .endsTurn h

theorem effect_advance (stage : Stage Client Model) : Effect s t (.step t) stage (s.advance t stage) := by
  cases stage with
  | arrived request =>
    cases request with
    | create client => exact effect_resolve .arrived fun _ => .create
    | complete model client => exact effect_resolve .arrived fun _ => .complete
    | stateless model => exact effect_resolve .arrived fun _ => .stateless
    | fork source child =>
      simp only [advance]
      split
      · exact .ends .arrived
      case h_2 hget => exact .reads hget .forkFound
    | delete client =>
      simp only [advance]
      split
      · exact .ends .arrived
      case h_2 htake => exact .frees htake
  | resolved handle client => exact effect_lookUp .missed (fun _ => .found) fun _ => .resolved
  | found handle client binding => exact effect_takeLease (.leased rfl) fun _ => .found
  | missed handle client => exact effect_lookUp .opening (fun _ => .foundAgain) fun _ => .missed
  | leased handle guard => exact .goes .leased
  | opening handle purpose =>
    simp only [advance]
    split
    · exact .ends .opening
    case h_2 hplace => exact .places hplace
  | creating handle w purpose => exact .goes .createQueued
  | createQueued handle w purpose =>
    simp only [advance]
    split
    case h_1 hnone => exact .ends (.createQueued hnone)
    case h_2 hx => exact .opens hx
  | created handle placement purpose =>
    cases purpose with
    | none => exact .takesBack
    | some purpose => exact .goes .publishing
  | publishing handle binding purpose =>
    cases purpose with
    | insert client =>
      simp only [advance]
      split
      case h_1 hinsert => exact .inserts hinsert
      case h_2 => exact .goes .refused
    | claim client => exact effect_takeLease .claiming .publishing
  | claiming handle guard =>
    simp only [advance]
    split
    case h_1 hclaim => exact .claims hclaim
    case h_2 hclaim => exact .yields hclaim
    case h_3 => exact .gives
  | refused handle client binding => exact effect_takeLease .closing .refused
  | closing guard after =>
    simp only [advance]
    split
    case h_1 hnone => exact .releases (.unloaded hnone)
    case h_2 handle hhandle =>
      split
      case h_1 hw => exact effect_releaseAll [guard.binding] (.closing hhandle hw)
      case h_2 => exact .goes (.closeSending hhandle)
  | closeSending handle guard after => exact .goes .closeQueued
  | closeQueued handle guard after =>
    simp only [advance]
    split
    case h_1 hnone => exact effect_releaseAll [guard.binding] (.closeQueued (.inr hnone))
    case h_2 hbind =>
      obtain ⟨x, hx, hclose⟩ := bind_eq_some_iff.mp hbind
      exact .closes hx hclose
  | forkFound source binding child => exact effect_takeLease (.forkLeased rfl) fun _ => .forkFound
  | forkLeased guard child =>
    simp only [advance]
    split
    · exact .releases .forkLeased
    case h_2 hhandle =>
      split
      · exact .releases .forkLeased
      case h_2 hw => exact .placesFork hhandle hw
  | forkSending handle guard child => exact .goes .forkQueued
  | forkQueued handle guard child =>
    simp only [advance]
    split
    case h_1 hnone => exact .releases (.forkQueued hnone)
    case h_2 hx =>
      split
      · exact .forks hx
      · exact .unreserves .forkQueued
  | stateless handle =>
    simp only [advance]
    split
    · exact .ends .stateless
    case h_2 hplace => exact .placesTurn hplace
  | turnSending handle w guard tensors => exact .goes .turnQueued
  | turnQueued handle w guard tensors =>
    cases guard with
    | none => exact .goes .turnRunning
    | some guard =>
      simp only [advance]
      split
      · exact .turns
      · exact .endsTurn .queued
  | turnRunning handle w guard => exact effect_endsTurn .running

theorem effect_of_makes (hm : Makes s t stage a o) : Effect s t a stage o := by
  cases hm with
  | step => exact effect_advance stage
  | submit h =>
    unfold submit at h
    split at h
    · split at h
      · cases h
        exact .releases .leased
      case h_2 hw =>
        cases h
        exact .submits hw
    · cases h
  | abandon h =>
    unfold abandon at h
    split at h
    case h_11 => cases h
    all_goals obtain rfl := some.inj h
    case h_1 => exact .ends .missed
    case h_2 => exact .releases .leased
    case h_3 => exact .unreserves .creating
    case h_4 => exact .goes .createUnwatched
    case h_5 => exact .goes .createdUnwatched
    case h_6 guard after => exact effect_releaseAll [guard.binding] (.closeSending rfl)
    case h_7 => exact effect_releaseAll [] .unwatched
    case h_8 => exact .unreserves .forkSending
    case h_9 => exact .goes .forkUnwatched
    case h_10 => exact effect_endsTurn .sending
  | fail h =>
    unfold fail at h
    split at h
    case h_4 => cases h
    all_goals obtain rfl := some.inj h
    case h_1 => exact .unreserves .createQueued
    case h_2 => exact .unreserves .forkQueued
    case h_3 guard after => exact effect_releaseAll [guard.binding] (.closeQueued (.inl rfl))

/-! ### Engines -/

/-- How a step of a request changes the engines. -/
inductive EngineStep (s : AppState Client Model) (stage : Stage Client Model) : Engines Model → Prop where
  | same : EngineStep s stage s.engines
  /-- Only counters of guards move. -/
  | counts (e : EngineId) (w : ℕ) {f : Worker → Worker}
      (hf : ∀ x, (f x).sessions = x.sessions ∧ (f x).nextSessionId = x.nextSessionId ∧ (f x).liveSessions = x.liveSessions) :
      EngineStep s stage (s.engines.update e w f)
  | opened (e : EngineId) (w : ℕ) : EngineStep s stage (s.engines.update e w (·.openSession.commitSession))
  /-- The driver takes a session back. -/
  | tookBack (h : ModelHandle Model) (placement : SessionPlacement) (hstage : stage = .created h placement none) :
      EngineStep s stage (s.engines.update h.engine placement.worker (·.takeBack placement.engineSessionId))
  | closed {h : ModelHandle Model} {guard : SessionLeaseGuard Client Model} {after : After Client Model} {x x' : Worker}
      (hstage : stage = .closeQueued h guard after)
      (hx : s.engines.worker? h.engine guard.binding.placement.worker = some x)
      (hclose : x.close guard.binding.placement.engineSessionId = some x') :
      EngineStep s stage (s.engines.update h.engine guard.binding.placement.worker fun _ => x')

theorem engines_afterBinding (t : TaskId) (registry : SessionRegistry Client Model) (event : Event Client)
    (evicted : Option (SessionLeaseGuard Client Model)) (after : After Client Model) :
    (s.afterBinding t registry event evicted after).engines = s.engines := by
  unfold afterBinding
  split <;> rfl

/-- A step of a request changes at most one worker. -/
theorem engineStep_of_makes {t : TaskId} (hm : Makes s t stage a o) : EngineStep s stage o.engines := by
  cases effect_of_makes hm with
  | goes | ends | reads | leases | frees | yields | gives | turns | releases => exact .same
  | inserts | claims =>
    rw [engines_afterBinding]
    exact .same
  | places | placesFork | placesTurn | submits | unreserves | endsTurn => exact .counts _ _ fun x => ⟨rfl, rfl, rfl⟩
  | opens | forks => exact .opened _ _
  | takesBack => exact .tookBack _ _ rfl
  | closes hx hclose => exact .closed rfl hx hclose

theorem EngineStep.eq_update {engines : Engines Model} (h : EngineStep s stage engines) :
    engines = s.engines ∨ ∃ e w f, engines = s.engines.update e w f := by
  cases h with
  | same => exact .inl rfl
  | counts | opened | tookBack | closed => exact .inr ⟨_, _, _, rfl⟩

theorem lookup_engines_of_makes {t : TaskId} (hm : Makes s t stage a o) (e : EngineId) :
    o.engines.lookup e = none ↔ s.engines.lookup e = none := by
  obtain h | ⟨e', w, f, h⟩ := (engineStep_of_makes hm).eq_update
  · rw [h]
  · rw [h, Engines.lookup_update_eq_none]

theorem model?_of_makes {t : TaskId} (hm : Makes s t stage a o) (e : EngineId) :
    o.engines.model? e = s.engines.model? e := by
  obtain h | ⟨e', w, f, h⟩ := (engineStep_of_makes hm).eq_update
  · rw [h]
  · rw [h, Engines.model?_update]

/-! ### The registry -/

/-- How a step of a request changes the registry. -/
inductive RegistryStep (r : SessionRegistry Client Model) : SessionRegistry Client Model → Prop where
  /-- Only leases change. -/
  | leases {r' : SessionRegistry Client Model} (hsessions : r'.sessions = r.sessions)
      (hmax : r'.maxSessions = r.maxSessions) : RegistryStep r r'
  | read {r' : SessionRegistry Client Model} (h : SessionRegistry.Same r r') : RegistryStep r r'
  | frees {guard : SessionLeaseGuard Client Model} {r' : SessionRegistry Client Model}
      (h : SessionRegistry.Frees r guard r') : RegistryStep r r'
  | binds {client : Client} {b : ModelSessionPlacement Model} {evicted : Option (SessionLeaseGuard Client Model)}
      {r' : SessionRegistry Client Model} (h : SessionRegistry.Binds r client b evicted r') : RegistryStep r r'

theorem registryStep_afterBinding {registry : SessionRegistry Client Model} {event : Event Client}
    {evicted : Option (SessionLeaseGuard Client Model)} {after : After Client Model}
    (hbinds : SessionRegistry.Binds s.registry client b evicted registry) :
    RegistryStep s.registry (s.afterBinding t registry event evicted after).registry := by
  cases evicted with
  | none | some => exact .binds hbinds

/-- A step of a request reads the registry, moves leases, or binds or frees one client id. -/
theorem registryStep_of_makes (hm : Makes s t stage a o) : RegistryStep s.registry o.registry := by
  cases effect_of_makes hm with
  | reads hget => exact .read (SessionRegistry.touch_eq_some hget).2
  | frees h => exact .frees (SessionRegistry.takeForClose_ok h).2
  | inserts h => exact registryStep_afterBinding (SessionRegistry.insert_ok h)
  | claims h => exact registryStep_afterBinding (SessionRegistry.claim_ok h)
  | yields h => exact .read (SessionRegistry.claim_existing h).2
  | _ => exact .leases rfl rfl

theorem RegistryStep.length_le {r r' : SessionRegistry Client Model} (h : RegistryStep r r')
    (hle : r.sessions.entries.length ≤ r.maxSessions) : r'.sessions.entries.length ≤ r'.maxSessions := by
  cases h with
  | leases hsessions hmax =>
    rw [hsessions, hmax]
    exact hle
  | read h =>
    rw [h.length, h.maxSessions]
    exact hle
  | frees h =>
    have hlength := h.length
    rw [h.maxSessions]
    omega
  | binds h => exact h.length_le hle

/-- A client id loses its binding only while nobody holds the lease. -/
theorem RegistryStep.free_of_unbound {r r' : SessionRegistry Client Model} (h : RegistryStep r r') {c : Client}
    (hb : r.bindingOf c = some b) (hb' : r'.bindingOf c ≠ some b) : b ∉ r.leases := by
  have hfrees : ∀ {guard : SessionLeaseGuard Client Model} {mid : SessionRegistry Client Model},
      SessionRegistry.Frees r guard mid → mid.bindingOf c ≠ some b → b ∉ r.leases := by
    intro guard mid hfree hmid
    rw [hfree.bindingOf] at hmid
    split at hmid
    case isTrue hc =>
      subst hc
      cases hfree.was.symm.trans hb
      exact hfree.free
    case isFalse => exact absurd hb hmid
  cases h with
  | leases hsessions hmax =>
    rw [SessionRegistry.bindingOf, hsessions] at hb'
    exact absurd hb hb'
  | read h =>
    rw [h.bindingOf] at hb'
    exact absurd hb hb'
  | frees h => exact hfrees h hb'
  | binds h =>
    obtain ⟨mid, hmid, -, hbinding, -⟩ := h.room
    rw [hbinding] at hb'
    split at hb'
    case isTrue hc =>
      subst hc
      cases h.unbound.symm.trans hb
    case isFalse =>
      rename Option (SessionLeaseGuard Client Model) => evicted
      cases evicted with
      | none =>
        obtain ⟨rfl, -⟩ := hmid
        exact absurd hb hb'
      | some guard => exact hfrees hmid.1 hb'

end AppState

end OnnxGenai.Server
