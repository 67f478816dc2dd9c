import OnnxGenai.Server.Handles

/-!
# Open sessions

While models stay loaded and engine calls succeed, every open engine session is accounted for: it
is bound to one client id, or one request owns it, because it opened the session and has not
bound it yet, or because it unbound the session and has not closed it yet. So when no request and
no command is left, the open sessions are the bindings. Here are the invariant (`Tidy`) and what a
step of a request does to its parts.
-/

namespace OnnxGenai.Server

open Lib List Nat

set_option linter.unusedSectionVars false

variable {Client Model : Type} [DecidableEq Client] [DecidableEq Model]

/-! ### Open sessions -/

/-- The open sessions of a model on one of its workers. -/
def sessionsOf (loaded : FiniteMap Model EngineId) (engines : Engines Model) (m : Model) (w : ℕ) : Finset ℕ :=
  (((loaded.lookup m).bind fun e => engines.worker? e w).map (·.sessions)).getD ∅

/-- Whether the session of a binding is open, counted. -/
def shelf (loaded : FiniteMap Model EngineId) (engines : Engines Model) (b : ModelSessionPlacement Model) : ℕ :=
  if b.placement.engineSessionId ∈ sessionsOf loaded engines b.model b.placement.worker then 1 else 0

/-- The first number the model's worker has not handed out. -/
def nextOf (loaded : FiniteMap Model EngineId) (engines : Engines Model) (m : Model) (w : ℕ) : ℕ :=
  (((loaded.lookup m).bind fun e => engines.worker? e w).map (·.nextSessionId)).getD 0

variable {b : ModelSessionPlacement Model} {stage : Stage Client Model}

section Shelf

variable {loaded : FiniteMap Model EngineId} {engines : Engines Model} {m : Model} {e : EngineId} {w : ℕ}
  {f : Worker → Worker}

variable {x : Worker}

theorem sessionsOf_of_worker (hm : loaded.lookup m = some e) (hx : engines.worker? e w = some x) :
    sessionsOf loaded engines m w = x.sessions := by
  simp [sessionsOf, hm, hx]

theorem nextOf_of_worker (hm : loaded.lookup m = some e) (hx : engines.worker? e w = some x) :
    nextOf loaded engines m w = x.nextSessionId := by
  simp [nextOf, hm, hx]

theorem worker_of_mem_sessionsOf {n : ℕ} (h : n ∈ sessionsOf loaded engines m w) :
    ∃ e x, loaded.lookup m = some e ∧ engines.worker? e w = some x ∧ n ∈ x.sessions := by
  unfold sessionsOf at h
  cases hm : loaded.lookup m with
  | none => simp [hm] at h
  | some e =>
    cases hx : engines.worker? e w with
    | none => simp [hm, hx] at h
    | some x => exact ⟨e, x, rfl, hx, by simpa [hm, hx] using h⟩

/-- An update of one worker is an update of one worker of one model. -/
theorem sessionsOf_update (hinj : ∀ m', loaded.lookup m' = some e → m' = m) (hm : loaded.lookup m = some e)
    (m' : Model) (w' : ℕ) :
    sessionsOf loaded (engines.update e w f) m' w' =
      if m' = m ∧ w' = w then ((engines.worker? e w).map fun x => (f x).sessions).getD ∅
      else sessionsOf loaded engines m' w' := by
  unfold sessionsOf
  by_cases hm' : m' = m
  · subst hm'
    rw [hm, Option.bind_some, Option.bind_some, Engines.worker?_update]
    by_cases hw : w' = w
    · rw [if_pos ⟨rfl, hw⟩, if_pos ⟨rfl, hw⟩, Option.map_map]
      rfl
    · rw [if_neg fun h => hw h.2, if_neg fun h => hw h.2]
  · rw [if_neg fun h => hm' h.1]
    cases hl : loaded.lookup m' with
    | none => rfl
    | some e' =>
      have hne : e' ≠ e := by
        rintro rfl
        exact hm' (hinj m' hl)
      rw [Option.bind_some, Option.bind_some, Engines.worker?_update, if_neg fun h => hne h.1]

theorem shelf_keep (hf : ∀ x : Worker, (f x).sessions = x.sessions) (b : ModelSessionPlacement Model) :
    shelf loaded (engines.update e w f) b = shelf loaded engines b := by
  have hsame : sessionsOf loaded (engines.update e w f) b.model b.placement.worker =
      sessionsOf loaded engines b.model b.placement.worker := by
    unfold sessionsOf
    cases hl : loaded.lookup b.model with
    | none => rfl
    | some e' =>
      rw [Option.bind_some, Option.bind_some, Engines.worker?_update]
      split
      case isTrue h =>
        rw [h.1, h.2, Option.map_map]
        congr 2
        exact funext hf
      case isFalse => rfl
  rw [shelf, shelf, hsame]

/-- A worker that closes nothing. -/
theorem shelf_mono (hf : ∀ x : Worker, x.sessions ⊆ (f x).sessions) (b : ModelSessionPlacement Model) :
    shelf loaded engines b ≤ shelf loaded (engines.update e w f) b := by
  have hsub : sessionsOf loaded engines b.model b.placement.worker ⊆
      sessionsOf loaded (engines.update e w f) b.model b.placement.worker := by
    intro n hn
    obtain ⟨e', x, hl, hx, hmem⟩ := worker_of_mem_sessionsOf hn
    have hx' := Engines.worker?_update engines e e' w b.placement.worker f
    split at hx'
    case isTrue h =>
      obtain ⟨rfl, rfl⟩ := h
      rw [hx, Option.map_some] at hx'
      rw [sessionsOf_of_worker hl hx']
      exact hf x hmem
    case isFalse =>
      rw [hx] at hx'
      rw [sessionsOf_of_worker hl hx']
      exact hmem
  unfold shelf
  split
  case isTrue h => rw [if_pos (hsub h)]
  case isFalse => exact zero_le _

/-- A binding of another worker, or with another number, is not touched. -/
theorem binding_eq_iff {n : ℕ} :
    (⟨m, w, n⟩ : ModelSessionPlacement Model) = b ↔
      (b.model = m ∧ b.placement.worker = w) ∧ b.placement.engineSessionId = n := by
  obtain ⟨m', w', n'⟩ := b
  constructor
  · rintro ⟨⟩
    exact ⟨⟨rfl, rfl⟩, rfl⟩
  · rintro ⟨⟨rfl, rfl⟩, rfl⟩
    rfl

/-- A session is opened. -/
theorem shelf_open (hinj : ∀ m', loaded.lookup m' = some e → m' = m) (hm : loaded.lookup m = some e)
    (hx : engines.worker? e w = some x) (hsound : x.Sound) (b : ModelSessionPlacement Model) :
    shelf loaded (engines.update e w (·.openSession.commitSession)) b =
      shelf loaded engines b + if (⟨m, w, x.nextSessionId⟩ : ModelSessionPlacement Model) = b then 1 else 0 := by
  unfold shelf
  rw [sessionsOf_update hinj hm]
  by_cases hb : b.model = m ∧ b.placement.worker = w
  · rw [if_pos hb, hx, hb.1, hb.2, sessionsOf_of_worker hm hx]
    simp only [Option.map_some, Option.getD_some, Worker.openSession, Worker.commitSession, Finset.mem_insert,
      binding_eq_iff, hb, true_and]
    by_cases hn : b.placement.engineSessionId = x.nextSessionId
    · simp [hn, hsound.next_not_mem]
    · simp [hn]
  · rw [if_neg hb, if_neg fun h => hb (binding_eq_iff.mp h).1, add_zero]

/-- A session is closed. -/
theorem shelf_close {b₀ : ModelSessionPlacement Model} (hinj : ∀ m', loaded.lookup m' = some e → m' = b₀.model)
    (hm : loaded.lookup b₀.model = some e) (hx : engines.worker? e b₀.placement.worker = some x)
    (hn : b₀.placement.engineSessionId ∈ x.sessions)
    (hf : (f x).sessions = x.sessions.erase b₀.placement.engineSessionId) (b : ModelSessionPlacement Model) :
    shelf loaded (engines.update e b₀.placement.worker f) b + (if b₀ = b then 1 else 0) = shelf loaded engines b := by
  have heq : b₀ = b ↔ (b.model = b₀.model ∧ b.placement.worker = b₀.placement.worker) ∧
      b.placement.engineSessionId = b₀.placement.engineSessionId := binding_eq_iff
  unfold shelf
  rw [sessionsOf_update hinj hm]
  by_cases hb : b.model = b₀.model ∧ b.placement.worker = b₀.placement.worker
  · rw [if_pos hb, hx, hb.1, hb.2, sessionsOf_of_worker hm hx]
    simp only [Option.map_some, Option.getD_some, hf, Finset.mem_erase, heq, hb, true_and]
    by_cases hbn : b.placement.engineSessionId = b₀.placement.engineSessionId
    · simp [hbn, hn]
    · simp [hbn]
  · rw [if_neg hb, if_neg fun h => hb (heq.mp h).1, add_zero]

end Shelf

/-! ### Who owns a session that is not bound -/

namespace Stage

/-- The session a request opened and has not bound, or unbound and has not closed. -/
def owns : Stage Client Model → List (ModelSessionPlacement Model)
  | .created h placement _ => [h.binding placement]
  | .publishing _ b _ => [b]
  | .claiming _ guard => [guard.binding]
  | .refused _ _ b => [b]
  | .closing guard _ => [guard.binding]
  | .closeSending _ guard _ => [guard.binding]
  | .closeQueued _ guard _ => [guard.binding]
  | _ => []

/-- The session a request opened, and nobody else knows. -/
def fresh : Stage Client Model → List (ModelSessionPlacement Model)
  | .created h placement _ => [h.binding placement]
  | .publishing _ b _ => [b]
  | .refused _ _ b => [b]
  | _ => []

end Stage

theorem Stage.fresh_subset_owns : stage.fresh ⊆ stage.owns := by
  cases stage <;> simp [Stage.fresh, Stage.owns]

/-- The request waits for room in the channel to send a close. -/
def Stage.sendsClose : Stage Client Model → Bool
  | .closeSending _ _ _ => true
  | _ => false

/-- The bindings a request goes on with after a close. -/
def After.names : After Client Model → List (ModelSessionPlacement Model)
  | .done => []
  | .existing _ _ b => [b]
  | .turn _ guard => [guard.binding]

/-- The bindings a request has read in the registry or leased. -/
def Stage.names : Stage Client Model → List (ModelSessionPlacement Model)
  | .found _ _ b => [b]
  | .leased _ guard => [guard.binding]
  | .claiming _ guard => [guard.binding]
  | .closing guard after => guard.binding :: after.names
  | .closeSending _ guard after => guard.binding :: after.names
  | .closeQueued _ guard after => guard.binding :: after.names
  | .forkFound _ b _ => [b]
  | .forkLeased guard _ => [guard.binding]
  | .forkSending _ guard _ => [guard.binding]
  | .forkQueued _ guard _ => [guard.binding]
  | .turnSending _ _ guard _ => (guard.map (·.binding)).toList
  | .turnQueued _ _ guard _ => (guard.map (·.binding)).toList
  | .turnRunning _ _ guard => (guard.map (·.binding)).toList
  | _ => []

theorem Stage.names_of_fresh (h : b ∈ stage.fresh) : b ∉ stage.names := by
  cases stage <;> simp_all [Stage.fresh, Stage.names]

/-- What is leased is named. -/
theorem Stage.mem_names_of_holds (h : .lease b ∈ stage.holds) : b ∈ stage.names := by
  have hafter : ∀ after : After Client Model, .lease b ∈ after.holds → b ∈ after.names := by
    intro after hb
    cases after with
    | done | existing => simp [After.holds, After.lease] at hb
    | turn h guard => simpa [After.holds, After.lease, After.names] using hb
  cases stage with
  | closing _ after | closeSending _ _ after | closeQueued _ _ after =>
    rcases mem_cons.mp h with h | h
    · cases h
      exact mem_cons_self
    · exact mem_cons_of_mem _ (hafter after h)
  | turnSending _ _ guard | turnQueued _ _ guard | turnRunning _ _ guard =>
    cases guard <;> simp_all [Stage.holds, Stage.names]
  | _ => simp_all [Stage.holds, Stage.names]

/-! ### The runs -/

namespace AppState

/-- Models stay loaded, and the engines refuse nothing. -/
def Steady : Action Client Model → Prop
  | .load _ _ victims => victims = []
  | .unload _ => False
  | .fail _ => False
  | _ => True

/-- No request is dropped that waits to send its close. -/
def Patient (s : AppState Client Model) : Action Client Model → Prop
  | .abandon t => ∀ stage ∈ s.tasks.lookup t, stage.sendsClose = false
  | _ => True

/-- Every open session is bound or owned, and a session nobody was told of is named by nobody. -/
structure Tidy (s : AppState Client Model) : Prop where
  books : Books s
  handles : Handles s
  /-- No engine instance was replaced. -/
  current : ∀ e m, s.engines.model? e = some m → s.loaded.lookup m = some e
  sound : ∀ e w x, s.engines.worker? e w = some x → x.Sound
  sessions : ∀ b, shelf s.loaded s.engines b = s.registry.bound b + held Stage.owns s.tasks b
  known : ∀ t st b, s.tasks.lookup t = some st → b ∈ st.names →
    b.placement.engineSessionId < nextOf s.loaded s.engines b.model b.placement.worker
  apart : ∀ t st b, s.tasks.lookup t = some st → b ∈ st.fresh → ∀ u st', s.tasks.lookup u = some st' → b ∉ st'.names
  size : s.registry.sessions.entries.length ≤ s.registry.maxSessions

variable {s : AppState Client Model} {stage : Stage Client Model} {t : TaskId} {b : ModelSessionPlacement Model}

variable {e : EngineId} {handle : ModelHandle Model} {w : ℕ} {o : Outcome Client Model}
  {registry : SessionRegistry Client Model} {events : List (Event Client)} {client : Client}
  {next missing : Stage Client Model} {event : Event Client} {evicted : Option (SessionLeaseGuard Client Model)}
  {after : After Client Model} {a : Action Client Model} {engines : Engines Model}

namespace Tidy

section

variable (h : Tidy s)

include h

theorem model_unique {m m' : Model} (hm : s.loaded.lookup m = some e)
    (hm' : s.loaded.lookup m' = some e) : m' = m :=
  Option.some.inj ((h.handles.loaded m' e hm').symm.trans (h.handles.loaded m e hm))

/-- A request's handle is the one the model registry gives. -/
theorem loaded_of_valid (hv : handle.Valid s.engines) :
    s.loaded.lookup handle.model = some handle.engine := h.current _ _ hv

/-- A session that is bound or owned is open. -/
theorem open_of_pos (hpos : 0 < s.registry.bound b + held Stage.owns s.tasks b) :
    b.placement.engineSessionId ∈ sessionsOf s.loaded s.engines b.model b.placement.worker := by
  rw [← h.sessions] at hpos
  by_contra hnot
  rw [shelf, if_neg hnot] at hpos
  exact lt_irrefl 0 hpos

theorem open_of_owns (hst : s.tasks.lookup t = some stage) (hb : b ∈ stage.owns) :
    b.placement.engineSessionId ∈ sessionsOf s.loaded s.engines b.model b.placement.worker :=
  h.open_of_pos (Nat.add_pos_right _ (held_pos Stage.owns hst hb))

theorem open_of_bound {c : Client} (hb : s.registry.bindingOf c = some b) :
    b.placement.engineSessionId ∈ sessionsOf s.loaded s.engines b.model b.placement.worker :=
  h.open_of_pos (Nat.add_pos_left (SessionRegistry.bound_pos hb) _)

theorem bound_add_owned_le (b : ModelSessionPlacement Model) :
    s.registry.bound b + held Stage.owns s.tasks b ≤ 1 := by
  rw [← h.sessions]
  unfold shelf
  split <;> omega

/-- The number of an open session was handed out. -/
theorem lt_nextOf {m : Model} {n : ℕ} (hn : n ∈ sessionsOf s.loaded s.engines m w) :
    n < nextOf s.loaded s.engines m w := by
  obtain ⟨e, x, hm, hx, hmem⟩ := worker_of_mem_sessionsOf hn
  rw [nextOf_of_worker hm hx]
  exact (h.sound e w x hx).below n hmem

/-- A session nobody was told of is leased by nobody. -/
theorem fresh_not_leased (hst : s.tasks.lookup t = some stage) (hb : b ∈ stage.fresh) : b ∉ s.registry.leases := by
  intro hleased
  have hpos : 0 < held Stage.holds s.tasks (.lease b) := by
    rw [← h.books.balance]
    simp [out, supply, hleased]
  obtain ⟨u, st', hu, hholds⟩ := exists_holder Stage.holds hpos
  exact h.apart t stage b hst hb u st' hu (Stage.mem_names_of_holds hholds)

end

end Tidy

/-! ### Sessions change hands -/

/-- A step of a request opens what it comes to own, and closes or binds what it gives up. -/
def HandsOver (s : AppState Client Model) (stage : Stage Client Model) (o : Outcome Client Model) : Prop :=
  ∀ b, shelf s.loaded o.engines b + s.registry.bound b + stage.owns.count b =
    shelf s.loaded s.engines b + o.registry.bound b + ((o.next.map Stage.owns).getD []).count b

/-- Nothing is opened, bound or closed. -/
theorem handsOver_quiet (hbound : ∀ b, o.registry.bound b = s.registry.bound b)
    (hshelf : ∀ b, shelf s.loaded o.engines b = shelf s.loaded s.engines b)
    (howns : (o.next.map Stage.owns).getD [] = stage.owns) : HandsOver s stage o := by
  intro b
  rw [hbound, hshelf, howns]

theorem handsOver_go {next : Option (Stage Client Model)} (h : (next.map Stage.owns).getD [] = stage.owns) :
    HandsOver s stage (s.go next) :=
  handsOver_quiet (fun _ => rfl) (fun _ => rfl) h

/-- The registry loses no binding and no worker opens or closes a session. -/
theorem handsOver_update {f : Worker → Worker} {next : Option (Stage Client Model)}
    (hreg : registry.sessions = s.registry.sessions) (hf : ∀ x : Worker, (f x).sessions = x.sessions)
    (h : (next.map Stage.owns).getD [] = stage.owns) :
    HandsOver s stage ⟨registry, s.engines.update e w f, events, next⟩ :=
  handsOver_quiet (fun b => by unfold SessionRegistry.bound; rw [hreg]) (shelf_keep hf) h

theorem handsOver_registry {next : Option (Stage Client Model)} (hreg : registry.sessions = s.registry.sessions)
    (h : (next.map Stage.owns).getD [] = stage.owns) : HandsOver s stage ⟨registry, s.engines, events, next⟩ :=
  handsOver_quiet (fun b => by unfold SessionRegistry.bound; rw [hreg]) (fun _ => rfl) h

/-- A binding takes the place of another, or an empty one. -/
theorem handsOver_afterBinding (hbinds : SessionRegistry.Binds s.registry client b evicted registry)
    (hstage : stage.owns = [b]) (hafter : (after.next.map Stage.owns).getD [] = []) :
    HandsOver s stage (s.afterBinding t registry event evicted after) := by
  obtain ⟨mid, hmid, -, -, hbound, -⟩ := hbinds.room
  intro x
  rw [hstage]
  unfold afterBinding
  cases evicted with
  | none =>
    obtain ⟨rfl, -⟩ := hmid
    simp only [hafter, hbound, count_cons, count_nil, beq_iff_eq]
    omega
  | some guard =>
    have hfree := hmid.1.bound x
    simp only [hbound, Option.map_some, Option.getD_some, Stage.owns, count_cons, count_nil, beq_iff_eq]
    omega

theorem After.owns_next (after : After Client Model) : (after.next.map Stage.owns).getD [] = [] := by
  cases after with
  | done | turn => rfl
  | existing h client binding =>
    simp only [After.next]
    split <;> rfl

/-- A session is opened for the request. -/
theorem Tidy.handsOver_opened (h : Tidy s) {x : Worker} {purpose : Option (Purpose Client)} (hv : handle.Valid s.engines)
    (hx : s.engines.worker? handle.engine w = some x) (hreg : registry.sessions = s.registry.sessions)
    (howns : stage.owns = []) :
    HandsOver s stage ⟨registry, s.engines.update handle.engine w (·.openSession.commitSession), events,
      some (.created handle ⟨w, x.nextSessionId⟩ purpose)⟩ := by
  have hload := h.loaded_of_valid hv
  intro b
  have hopen := shelf_open (fun m' hm' => h.model_unique hload hm') hload hx (h.sound _ _ _ hx) b
  have hbound : registry.bound b = s.registry.bound b := by rw [SessionRegistry.bound, hreg]; rfl
  rw [howns]
  simp only [hopen, hbound, Option.map_some, Option.getD_some, Stage.owns, count_cons, count_nil,
    beq_iff_eq, ModelHandle.binding]
  omega

/-- The session a request owns is open, on a worker the request's handle reaches. -/
theorem Tidy.open_on_worker (h : Tidy s) (hst : s.tasks.lookup t = some stage) (hb : b ∈ stage.owns)
    (hreach : handle.Reaches s.engines b) : s.loaded.lookup b.model = some handle.engine ∧
      ∃ x, s.engines.worker? handle.engine b.placement.worker = some x ∧ b.placement.engineSessionId ∈ x.sessions := by
  obtain ⟨e, x, hload, hx, hmem⟩ := worker_of_mem_sessionsOf (h.open_of_owns hst hb)
  have hloaded := h.loaded_of_valid hreach.1
  rw [← hreach.2] at hloaded
  cases hloaded.symm.trans hload
  exact ⟨hload, x, hx, hmem⟩

/-- The session the request owns is closed. -/
theorem Tidy.handsOver_closed (h : Tidy s) {x : Worker} {f : Worker → Worker} {next : Option (Stage Client Model)}
    (hload : s.loaded.lookup b.model = some e) (hx : s.engines.worker? e b.placement.worker = some x)
    (hmem : b.placement.engineSessionId ∈ x.sessions) (hf : (f x).sessions = x.sessions.erase b.placement.engineSessionId)
    (hreg : registry.sessions = s.registry.sessions) (howns : stage.owns = [b])
    (hnext : (next.map Stage.owns).getD [] = []) :
    HandsOver s stage ⟨registry, s.engines.update e b.placement.worker f, events, next⟩ := by
  intro c
  have hshelf := shelf_close (fun m' hm' => h.model_unique hload hm') hload hx hmem hf c
  have hbound : registry.bound c = s.registry.bound c := by rw [SessionRegistry.bound, hreg]; rfl
  simp only [howns, hnext, hbound, count_cons, count_nil, beq_iff_eq]
  omega

/-- Leases are given back by requests that own no session, in these runs. -/
theorem Tidy.handsOver_released (h : Tidy s) {bs : List (ModelSessionPlacement Model)}
    {next : Option (Stage Client Model)} (hst : s.tasks.lookup t = some stage) (hr : Releases s t a stage bs next)
    (hsteady : Steady a) (hpatient : Patient s a) :
    HandsOver s stage ⟨s.registry.releases bs, s.engines, events, next⟩ := by
  have hvalid := h.handles.valid t stage hst
  cases hr with
  | unloaded hnone =>
    obtain ⟨e, x, hload, -⟩ := worker_of_mem_sessionsOf (h.open_of_owns hst mem_cons_self)
    simp [resolve, hload] at hnone
  | closing hh hw =>
    obtain ⟨e, x, hload, hx, -⟩ := worker_of_mem_sessionsOf (h.open_of_owns hst mem_cons_self)
    obtain ⟨e', he', rfl⟩ := Option.map_eq_some_iff.mp hh
    cases hload.symm.trans he'
    cases hx.symm.trans hw
  | closeSending ha =>
    subst ha
    exact absurd (hpatient _ hst) (by simp [Stage.sendsClose])
  | closeQueued hfailed =>
    rcases hfailed with rfl | hnone
    · exact hsteady.elim
    · obtain ⟨-, x, hx, hmem⟩ := h.open_on_worker hst mem_cons_self hvalid.1
      rw [hx, Option.bind_some, Worker.close_eq_some.mpr ⟨hmem, rfl⟩] at hnone
      cases hnone
  | unwatched | forkLeased | forkQueued | leased => exact handsOver_registry rfl rfl

/-- **A step of a request hands sessions over**: in these runs it gives no session up without
closing or binding it. -/
theorem Tidy.handsOver (h : Tidy s) (hst : s.tasks.lookup t = some stage) (hm : Makes s t stage a o)
    (hsteady : Steady a) (hpatient : Patient s a) : HandsOver s stage o := by
  have hvalid := h.handles.valid t stage hst
  cases effect_of_makes hm with
  | goes hg => exact handsOver_go (by cases hg <;> rfl)
  | ends he =>
    cases he with
    | publishing hleased | refused hleased => exact absurd hleased (h.fresh_not_leased hst mem_cons_self)
    | _ => exact handsOver_go rfl
  | reads hget hr =>
    exact handsOver_quiet (SessionRegistry.touch_eq_some hget).2.bound (fun _ => rfl) (by cases hr <;> rfl)
  | leases hfree hl => exact handsOver_registry rfl (by cases hl <;> rfl)
  | frees htake =>
    intro b
    have hbound := (SessionRegistry.takeForClose_ok htake).2.bound b
    simp only [Option.map_some, Option.getD_some, Stage.owns, count_cons, count_nil, beq_iff_eq]
    omega
  | inserts hins => exact handsOver_afterBinding (SessionRegistry.insert_ok hins) rfl rfl
  | claims hclaim => exact handsOver_afterBinding (SessionRegistry.claim_ok hclaim) rfl rfl
  | yields hclaim => exact handsOver_quiet (SessionRegistry.claim_existing hclaim).2.bound (fun _ => rfl) rfl
  | gives | turns => exact handsOver_registry rfl rfl
  | places | placesFork | placesTurn | submits => exact handsOver_update rfl (fun _ => rfl) rfl
  | opens hx => exact h.handsOver_opened hvalid hx rfl rfl
  | forks hx => exact h.handsOver_opened hvalid.1 hx rfl rfl
  | @takesBack handle placement =>
    have hreach : handle.Reaches s.engines (handle.binding placement) := ⟨hvalid, rfl⟩
    obtain ⟨hload, x, hx, hmem⟩ := h.open_on_worker hst mem_cons_self hreach
    have htake := Worker.takeBack_eq (Worker.close_eq_some.mpr ⟨hmem, rfl⟩)
    exact h.handsOver_closed (b := handle.binding placement) (f := (·.takeBack placement.engineSessionId)) hload hx hmem
      (congrArg Worker.sessions htake) rfl rfl rfl
  | @closes handle guard after x x' hx hclose =>
    obtain ⟨hload, -⟩ := h.open_on_worker hst mem_cons_self hvalid.1
    exact h.handsOver_closed hload hx (Worker.close_eq_some.mp hclose).1 (Worker.sessions_of_close hclose) rfl rfl
      (After.owns_next after)
  | releases hr => exact h.handsOver_released hst hr hsteady hpatient
  | unreserves hu | endsTurn hu => exact handsOver_update rfl (fun _ => rfl) (by cases hu <;> rfl)

/-! ### Names -/

/-- What the next stage names was named or fresh before, or is bound. -/
def NamesFrom (s : AppState Client Model) (stage : Stage Client Model) (o : Outcome Client Model) : Prop :=
  ∀ st ∈ o.next, ∀ b ∈ st.names, b ∈ stage.names ∨ b ∈ stage.fresh ∨ ∃ c, s.registry.bindingOf c = some b

theorem namesFrom_none : NamesFrom s stage ⟨registry, engines, events, none⟩ := by
  intro st hst
  cases hst

theorem namesFrom_some
    (h : ∀ b ∈ next.names, b ∈ stage.names ∨ b ∈ stage.fresh ∨ ∃ c, s.registry.bindingOf c = some b) :
    NamesFrom s stage ⟨registry, engines, events, some next⟩ := by
  intro st hst
  cases hst
  exact h

/-- The next stage names no more than this one. -/
theorem namesFrom_subset (h : next.names ⊆ stage.names) : NamesFrom s stage ⟨registry, engines, events, some next⟩ :=
  namesFrom_some fun _ hb => .inl (h hb)

theorem namesFrom_after (h : after.names ⊆ stage.names) :
    NamesFrom s stage ⟨registry, engines, events, after.next⟩ := by
  cases after with
  | done => exact namesFrom_none
  | existing handle client binding =>
    simp only [After.next]
    split
    · exact namesFrom_subset h
    · exact namesFrom_none
  | turn handle guard => exact namesFrom_subset h

theorem namesFrom_afterBinding (hbinds : SessionRegistry.Binds s.registry client b evicted registry)
    (hafter : after.names ⊆ stage.names) : NamesFrom s stage (s.afterBinding t registry event evicted after) := by
  obtain ⟨mid, hmid, -⟩ := hbinds.room
  cases evicted with
  | none => exact namesFrom_after hafter
  | some guard =>
    apply namesFrom_some
    intro x hx
    rcases mem_cons.mp hx with rfl | hx
    · exact .inr (.inr ⟨guard.session, hmid.1.was⟩)
    · exact .inl (hafter hx)

theorem namesFrom_of_makes (hm : Makes s t stage a o) : NamesFrom s stage o := by
  cases effect_of_makes hm with
  | goes h => exact namesFrom_subset (by cases h <;> simp [Stage.names])
  | ends | takesBack | unreserves | endsTurn => exact namesFrom_none
  | reads hget h =>
    have hbinding := (SessionRegistry.touch_eq_some hget).1
    cases h with
    | found | foundAgain | forkFound => exact namesFrom_some fun _ hb => .inr (.inr ⟨_, mem_singleton.mp hb ▸ hbinding⟩)
    | resolved | missed => exact namesFrom_none
  | leases hfree h =>
    cases h with
    | leased | forkLeased => exact namesFrom_subset (List.Subset.refl _)
    | claiming | closing => exact namesFrom_some fun _ hb => .inr (.inl hb)
  | frees h =>
    have hwas := (SessionRegistry.takeForClose_ok h).2.was
    exact namesFrom_some fun _ hb => .inr (.inr ⟨_, mem_singleton.mp hb ▸ hwas⟩)
  | inserts h => exact namesFrom_afterBinding (SessionRegistry.insert_ok h) (List.Subset.refl _)
  | claims h => exact namesFrom_afterBinding (SessionRegistry.claim_ok h) (List.Subset.refl _)
  | yields h =>
    apply namesFrom_some
    intro b hb
    rcases mem_cons.mp hb with rfl | hb
    · exact .inl mem_cons_self
    · obtain rfl := mem_singleton.mp hb
      exact .inr (.inr ⟨_, (SessionRegistry.claim_existing h).1⟩)
  | gives | places | placesFork | placesTurn | submits | opens | turns => exact namesFrom_subset (List.Subset.refl _)
  | forks => exact namesFrom_subset (nil_subset _)
  | closes => exact namesFrom_after (subset_cons_self _ _)
  | releases h =>
    cases h with
    | unloaded => exact namesFrom_after (subset_cons_self _ _)
    | unwatched => exact namesFrom_subset (by simp [Stage.names, After.names])
    | _ => exact namesFrom_none

/-! ### New sessions -/

/-- A fresh session was fresh before, or has a number that was not handed out. -/
def FreshFrom (s : AppState Client Model) (stage : Stage Client Model) (o : Outcome Client Model) : Prop :=
  ∀ st ∈ o.next, ∀ b ∈ st.fresh,
    b ∈ stage.fresh ∨ nextOf s.loaded s.engines b.model b.placement.worker ≤ b.placement.engineSessionId

theorem freshFrom_none : FreshFrom s stage ⟨registry, engines, events, none⟩ := by
  intro st hst
  cases hst

theorem freshFrom_subset (h : next.fresh ⊆ stage.fresh) :
    FreshFrom s stage ⟨registry, engines, events, some next⟩ := by
  intro st hst b hb
  cases hst
  exact .inl (h hb)

/-- A stage that has no fresh session. -/
theorem freshFrom_nil (h : ∀ st ∈ o.next, st.fresh = []) : FreshFrom s stage o := by
  intro st hst b hb
  rw [h st hst] at hb
  cases hb

theorem fresh_after (after : After Client Model) : ∀ st ∈ after.next, st.fresh = [] := by
  cases after with
  | done => simp [After.next]
  | existing handle client binding =>
    intro st hst
    simp only [After.next] at hst
    split at hst
    · cases hst
      rfl
    · cases hst
  | turn handle guard => simp [After.next, Stage.fresh]

/-- The worker hands out its next number. -/
theorem freshFrom_opened {x : Worker} {purpose : Option (Purpose Client)}
    (hload : s.loaded.lookup handle.model = some handle.engine) (hx : s.engines.worker? handle.engine w = some x) :
    FreshFrom s stage ⟨registry, engines, events, some (.created handle ⟨w, x.nextSessionId⟩ purpose)⟩ := by
  intro st hst b hb
  cases hst
  obtain rfl := mem_singleton.mp hb
  exact .inr (nextOf_of_worker hload hx).le

theorem freshFrom_afterBinding : FreshFrom s stage (s.afterBinding t registry event evicted after) := by
  apply freshFrom_nil
  unfold afterBinding
  split
  · exact fresh_after after
  · simp [Stage.fresh]

theorem Tidy.freshFrom (h : Tidy s) (hst : s.tasks.lookup t = some stage) (hm : Makes s t stage a o) :
    FreshFrom s stage o := by
  have hvalid := h.handles.valid t stage hst
  cases effect_of_makes hm with
  | goes hg => exact freshFrom_subset (by cases hg <;> simp [Stage.fresh])
  | ends | takesBack | unreserves | endsTurn => exact freshFrom_none
  | reads _ hr | leases _ hr => exact freshFrom_nil (by cases hr <;> simp [Stage.fresh])
  | inserts | claims => exact freshFrom_afterBinding
  | frees | yields | gives | places | placesFork | placesTurn | submits | turns => exact freshFrom_nil (by simp [Stage.fresh])
  | opens hx => exact freshFrom_opened (h.loaded_of_valid hvalid) hx
  | forks hx => exact freshFrom_opened (h.loaded_of_valid hvalid.1) hx
  | closes => exact freshFrom_nil (fresh_after _)
  | releases hr =>
    cases hr with
    | unloaded => exact freshFrom_nil (fresh_after _)
    | unwatched => exact freshFrom_nil (by simp [Stage.fresh])
    | _ => exact freshFrom_none

/-! ### The workers -/

/-- What a step does to one worker: it handed out no number twice, and counts its sessions. -/
theorem Tidy.worker_of_makes (h : Tidy s) (hst : s.tasks.lookup t = some stage) (hm : Makes s t stage a o)
    {x' : Worker} (hx' : o.engines.worker? e w = some x') :
    ∃ x, s.engines.worker? e w = some x ∧ x.nextSessionId ≤ x'.nextSessionId ∧ x'.Sound := by
  have hupdate : ∀ {e₀ : EngineId} {w₀ : ℕ} {f : Worker → Worker},
      (∀ x ∈ s.engines.worker? e₀ w₀, x.nextSessionId ≤ (f x).nextSessionId ∧ (f x).Sound) →
      (s.engines.update e₀ w₀ f).worker? e w = some x' →
      ∃ x, s.engines.worker? e w = some x ∧ x.nextSessionId ≤ x'.nextSessionId ∧ x'.Sound := by
    intro e₀ w₀ f hf hx'
    rw [Engines.worker?_update] at hx'
    split at hx'
    case isTrue heq =>
      obtain ⟨rfl, rfl⟩ := heq
      obtain ⟨x, hx, rfl⟩ := Option.map_eq_some_iff.mp hx'
      exact ⟨x, hx, hf x hx⟩
    case isFalse => exact ⟨x', hx', le_rfl, h.sound _ _ _ hx'⟩
  have hengines := engineStep_of_makes hm
  generalize o.engines = engines at hengines hx'
  cases hengines with
  | same => exact ⟨x', hx', le_rfl, h.sound _ _ _ hx'⟩
  | counts e₀ w₀ hf =>
    apply hupdate _ hx'
    intro x hx
    obtain ⟨hsessions, hnext, hlive⟩ := hf x
    have hsound := h.sound _ _ _ hx
    exact ⟨hnext.ge, ⟨by rw [hlive, hsessions]; exact hsound.live, by rw [hsessions, hnext]; exact hsound.below⟩⟩
  | opened e₀ w₀ =>
    apply hupdate _ hx'
    intro x hx
    exact ⟨le_succ _, (h.sound _ _ _ hx).openSession⟩
  | tookBack handle placement hstage =>
    apply hupdate _ hx'
    intro x hx
    subst hstage
    obtain ⟨e₁, x₁, hload, hx₁, hmem⟩ := worker_of_mem_sessionsOf (h.open_of_owns hst mem_cons_self)
    cases (h.loaded_of_valid (h.handles.valid t _ hst)).symm.trans hload
    cases hx.symm.trans hx₁
    have hclose := Worker.close_eq_some.mpr ⟨hmem, rfl⟩
    have htake : x.takeBack placement.engineSessionId = _ := Worker.takeBack_eq hclose
    rw [htake]
    exact ⟨le_rfl, (h.sound _ _ _ hx).close hclose⟩
  | closed _ hx₀ hclose =>
    apply hupdate _ hx'
    intro x hx
    cases hx.symm.trans hx₀
    refine ⟨?_, (h.sound _ _ _ hx).close hclose⟩
    obtain ⟨-, rfl⟩ := Worker.close_eq_some.mp hclose
    exact le_rfl

/-- Numbers that were handed out stay handed out. -/
theorem Tidy.nextOf_le (h : Tidy s) (hst : s.tasks.lookup t = some stage) (hm : Makes s t stage a o) (m : Model)
    (w : ℕ) : nextOf s.loaded s.engines m w ≤ nextOf s.loaded o.engines m w := by
  cases hload : s.loaded.lookup m with
  | none => simp [nextOf, hload]
  | some e =>
    cases hx : s.engines.worker? e w with
    | none => simp [nextOf, hload, hx]
    | some x =>
      have hsome : (o.engines.worker? e w).isSome := by
        obtain heq | ⟨e', w', f, heq⟩ := (engineStep_of_makes hm).eq_update
        · rw [heq, hx]
          rfl
        · rw [heq, Engines.isSome_worker?_update, hx]
          rfl
      obtain ⟨x', hx'⟩ := Option.isSome_iff_exists.mp hsome
      obtain ⟨x₀, hx₀, hle, -⟩ := h.worker_of_makes hst hm hx'
      cases hx.symm.trans hx₀
      rw [nextOf_of_worker hload hx, nextOf_of_worker hload hx']
      exact hle

end AppState

end OnnxGenai.Server
