import OnnxGenai.Server.Steps

/-!
# Who holds what

Leases, reservations of sessions and turns are handed out one by one, and each is held by a
request or by its queued command until it is given back. The books balance in every state of
every run, whatever models are loaded and unloaded and wherever requests are dropped: a binding is
leased just when one request holds its lease, and the counters of a worker are the reservations
and turns held on it.
-/

namespace OnnxGenai.Server

open Lib List FiniteMap Nat

set_option linter.unusedSectionVars false

variable {Client Model : Type} [DecidableEq Client] [DecidableEq Model]

/-- The counters of a worker that guards move. -/
inductive Counter where
  | pendingSessions
  | activeTurns
  deriving DecidableEq

def Counter.read : Counter → Worker → ℕ
  | .pendingSessions, w => w.pendingSessions
  | .activeTurns, w => w.activeTurns

/-- What is handed out one unit at a time. -/
inductive Resource (Model : Type) where
  | lease (binding : ModelSessionPlacement Model)
  | counter (kind : Counter) (engine : EngineId) (worker : ℕ)
  deriving DecidableEq

/-- The units that are out. -/
def supply (leases : SessionLeases Model) (engines : Engines Model) : Resource Model → ℕ
  | .lease b => if b ∈ leases then 1 else 0
  | .counter kind e w => ((engines.worker? e w).map kind.read).getD 0

/-- A resource, counted once. -/
def unit (a r : Resource Model) : ℕ := if a = r then 1 else 0

@[simp] theorem count_cons_resource (a r : Resource Model) (l : List (Resource Model)) :
    (a :: l).count r = l.count r + unit a r := by
  simp [count_cons, unit]

@[simp] theorem unit_self (a : Resource Model) : unit a a = 1 := if_pos rfl

/-! ### How the operations change what is out -/

section Supply

variable {leases : SessionLeases Model} {engines : Engines Model}

theorem supply_acquire {b : ModelSessionPlacement Model} (h : b ∉ leases) (r : Resource Model) :
    supply (insert b leases) engines r = supply leases engines r + unit (.lease b) r := by
  cases r with
  | lease x =>
    by_cases hx : b = x
    · subst hx
      simp [supply, h]
    · simp [supply, unit, hx, Ne.symm hx]
  | counter kind e w => simp [supply, unit]

theorem supply_release {b : ModelSessionPlacement Model} (h : 1 ≤ supply leases engines (.lease b)) (r : Resource Model) :
    supply (leases.release b) engines r + unit (.lease b) r = supply leases engines r := by
  have hmem : b ∈ leases := by
    by_contra hnot
    simp [supply, hnot] at h
  cases r with
  | lease x =>
    by_cases hx : b = x
    · subst hx
      simp [supply, SessionLeases.release, hmem]
    · simp [supply, unit, SessionLeases.release, hx, Ne.symm hx]
  | counter kind e w => simp [supply, unit]

/-- Several leases are given back. -/
theorem supply_releases (bs : List (ModelSessionPlacement Model))
    (h : ∀ r, (bs.map Resource.lease).count r ≤ supply leases engines r) (r : Resource Model) :
    supply (bs.foldl SessionLeases.release leases) engines r + (bs.map Resource.lease).count r = supply leases engines r := by
  induction bs generalizing leases with
  | nil => rfl
  | cons b bs ih =>
    simp only [map_cons, count_cons_resource] at h ⊢
    have hb : 1 ≤ supply leases engines (.lease b) := by
      have := h (.lease b)
      rw [unit_self] at this
      omega
    have hrest : ∀ x, (bs.map Resource.lease).count x ≤ supply (leases.release b) engines x := by
      intro x
      have h1 := h x
      have h2 := supply_release hb x
      omega
    have h1 := ih hrest
    have h2 := supply_release hb r
    rw [foldl_cons]
    omega

/-- An update of one worker moves the counters of that worker only. -/
theorem supply_update_counter (e e' : EngineId) (w w' : ℕ) (f : Worker → Worker) (kind : Counter) :
    supply leases (engines.update e w f) (.counter kind e' w') =
      if e' = e ∧ w' = w then ((engines.worker? e w).map fun x => kind.read (f x)).getD 0
      else supply leases engines (.counter kind e' w') := by
  simp only [supply]
  rw [Engines.worker?_update]
  split
  · rw [Option.map_map]
    rfl
  · rfl

variable {kind : Counter} {e : EngineId} {w : ℕ} {f : Worker → Worker}

theorem unit_counter_ne {kind' : Counter} {e' : EngineId} {w' : ℕ} (h : ¬ (e' = e ∧ w' = w)) :
    unit (.counter kind e w) (.counter kind' e' w' : Resource Model) = 0 := by
  apply if_neg
  rintro ⟨⟩
  exact h ⟨rfl, rfl⟩

theorem unit_counter (kind kind' : Counter) (e : EngineId) (w : ℕ) :
    unit (.counter kind e w) (.counter kind' e w : Resource Model) = if kind' = kind then 1 else 0 := by
  simp [unit, eq_comm]

/-- An update that counts one of `kind` more. -/
theorem supply_add (hf : ∀ x j, Counter.read j (f x) = j.read x + if j = kind then 1 else 0)
    (h : (engines.worker? e w).isSome) (r : Resource Model) :
    supply leases (engines.update e w f) r = supply leases engines r + unit (.counter kind e w) r := by
  obtain ⟨worker, hworker⟩ := Option.isSome_iff_exists.mp h
  cases r with
  | lease x => simp [supply, unit]
  | counter j e' w' =>
    rw [supply_update_counter]
    split
    case isTrue heq =>
      obtain ⟨rfl, rfl⟩ := heq
      rw [unit_counter]
      simp [supply, hworker, hf]
    case isFalse hne => rw [unit_counter_ne hne, add_zero]

/-- An update that counts one of `kind` less. -/
theorem supply_sub (hf : ∀ x j, Counter.read j (f x) = j.read x - if j = kind then 1 else 0)
    (h : 1 ≤ supply leases engines (.counter kind e w)) (r : Resource Model) :
    supply leases (engines.update e w f) r + unit (.counter kind e w) r = supply leases engines r := by
  cases r with
  | lease x => simp [supply, unit]
  | counter j e' w' =>
    rw [supply_update_counter]
    split
    case isTrue heq =>
      obtain ⟨rfl, rfl⟩ := heq
      rw [unit_counter]
      cases hworker : engines.worker? e' w' with
      | none => simp [supply, hworker] at h
      | some worker =>
        simp only [supply, hworker, Option.map_some, Option.getD_some, hf] at h ⊢
        split
        case isTrue heq =>
          rw [heq]
          omega
        case isFalse => rfl
    case isFalse hne => rw [unit_counter_ne hne, add_zero]

theorem worker_of_supply_pos (h : 1 ≤ supply leases engines (.counter kind e w)) :
    ∃ worker, engines.worker? e w = some worker := by
  cases hworker : engines.worker? e w with
  | none => simp [supply, hworker] at h
  | some worker => exact ⟨worker, rfl⟩

/-- An update that leaves both counters alone. -/
theorem supply_keep (hf : ∀ x ∈ engines.worker? e w, ∀ j, Counter.read j (f x) = j.read x) (r : Resource Model) :
    supply leases (engines.update e w f) r = supply leases engines r := by
  cases r with
  | lease x => rfl
  | counter j e' w' =>
    rw [supply_update_counter]
    split
    case isTrue heq =>
      obtain ⟨rfl, rfl⟩ := heq
      cases hworker : engines.worker? e' w' with
      | none => simp [supply, hworker]
      | some worker => simp [supply, hworker, hf worker hworker]
    case isFalse => rfl

end Supply

section

variable (x : Worker) (j : Counter)

include x j

theorem read_reserveSession : j.read x.reserveSession = j.read x + if j = .pendingSessions then 1 else 0 := by
  cases j <;> rfl

theorem read_releasePendingSession :
    j.read x.releasePendingSession = j.read x - if j = .pendingSessions then 1 else 0 := by
  cases j <;> rfl

theorem read_openSession :
    j.read x.openSession.commitSession = j.read x - if j = .pendingSessions then 1 else 0 := by
  cases j <;> rfl

theorem read_reserveTurn : j.read x.reserveTurn = j.read x + if j = .activeTurns then 1 else 0 := by
  cases j <;> rfl

theorem read_releaseTurn : j.read x.releaseTurn = j.read x - if j = .activeTurns then 1 else 0 := by
  cases j <;> rfl

end

theorem read_takeBack (x : Worker) (n : ℕ) (j : Counter) : j.read (x.takeBack n) = j.read x := by
  unfold Worker.takeBack Worker.closeSession
  split <;> cases j <;> rfl

theorem read_close {x x' : Worker} {n : ℕ} (h : x.close n = some x') (j : Counter) : j.read x' = j.read x := by
  obtain ⟨-, rfl⟩ := Worker.close_eq_some.mp h
  cases j <;> rfl

/-! ### What a request holds -/

namespace After

/-- What a request holds for what it does after a close. -/
def holds (after : After Client Model) : List (Resource Model) := after.lease.toList.map .lease

end After

namespace Stage

/-- What a request holds at each stage. -/
def holds : Stage Client Model → List (Resource Model)
  | .leased _ guard => [.lease guard.binding]
  | .creating h w _ => [.counter .pendingSessions h.engine w]
  | .createQueued h w _ => [.counter .pendingSessions h.engine w]
  | .claiming _ guard => [.lease guard.binding]
  | .closing guard after => .lease guard.binding :: after.holds
  | .closeSending _ guard after => .lease guard.binding :: after.holds
  | .closeQueued _ guard after => .lease guard.binding :: after.holds
  | .forkLeased guard _ => [.lease guard.binding]
  | .forkSending h guard _ =>
    [.lease guard.binding, .counter .pendingSessions h.engine guard.binding.placement.worker]
  | .forkQueued h guard _ =>
    [.lease guard.binding, .counter .pendingSessions h.engine guard.binding.placement.worker]
  | .turnSending h w guard _ => .counter .activeTurns h.engine w :: (guard.map (·.binding)).toList.map .lease
  | .turnQueued h w guard _ => .counter .activeTurns h.engine w :: (guard.map (·.binding)).toList.map .lease
  | .turnRunning h w guard => .counter .activeTurns h.engine w :: (guard.map (·.binding)).toList.map .lease
  | _ => []

end Stage

/-- What a request holds after a step. -/
def Outcome.holds (o : Outcome Client Model) : List (Resource Model) := (o.next.map Stage.holds).getD []

theorem After.holds_next (after : After Client Model) : (after.next.map Stage.holds).getD [] = after.holds := by
  cases after with
  | done | turn => rfl
  | existing h client binding =>
    simp only [After.next]
    split <;> rfl

/-- What is out after a step of a request. -/
def Outcome.out (o : Outcome Client Model) : Resource Model → ℕ := supply o.registry.leases o.engines

namespace AppState

/-- What is out in this state. -/
def out (s : AppState Client Model) : Resource Model → ℕ := supply s.registry.leases s.engines

/-- A step of a request gives out what the request takes, and takes back what it gives. -/
def Settles (s : AppState Client Model) (stage : Stage Client Model) (o : Outcome Client Model) : Prop :=
  ∀ r, o.out r + stage.holds.count r = s.out r + o.holds.count r

variable {s : AppState Client Model} {stage : Stage Client Model}

/-! ### The steps of a request -/

variable {next : Option (Stage Client Model)} {registry : SessionRegistry Client Model}
  {events : List (Event Client)} {client : Client} {b : ModelSessionPlacement Model} {t : TaskId}
  {f : Worker → Worker} {kind : Counter} {e : EngineId} {w : ℕ} {o : Outcome Client Model} {a : Action Client Model}
  {bs : List (ModelSessionPlacement Model)}

theorem settles_go (h : stage.holds = (next.map Stage.holds).getD []) : Settles s stage (s.go next) := by
  intro r
  show s.out r + _ = s.out r + ((next.map Stage.holds).getD []).count r
  rw [h]

/-- The request only reads the registry. -/
theorem settles_same (hsame : registry.leases = s.registry.leases)
    (h : stage.holds = (next.map Stage.holds).getD []) : Settles s stage ⟨registry, s.engines, events, next⟩ := by
  intro r
  show supply registry.leases s.engines r + _ = s.out r + ((next.map Stage.holds).getD []).count r
  rw [hsame, h]
  rfl

/-- A lease is taken. -/
theorem settles_acquired (hfree : b ∉ s.registry.leases) (hleases : registry.leases = insert b s.registry.leases)
    (h : ((next.map Stage.holds).getD [] : List (Resource Model)) = .lease b :: stage.holds) :
    Settles s stage ⟨registry, s.engines, events, next⟩ := by
  intro r
  show supply registry.leases s.engines r + _ = s.out r + ((next.map Stage.holds).getD []).count r
  rw [hleases, supply_acquire hfree, h, count_cons_resource]
  show s.out r + _ + _ = _
  omega

theorem settles_afterBinding {event : Event Client} {evicted : Option (SessionLeaseGuard Client Model)}
    {after : After Client Model} (hbinds : SessionRegistry.Binds s.registry client b evicted registry)
    (hstage : stage.holds = after.holds) : Settles s stage (s.afterBinding t registry event evicted after) := by
  obtain ⟨mid, hmid, hleases, -⟩ := hbinds.room
  cases evicted with
  | none =>
    obtain ⟨rfl, -⟩ := hmid
    apply settles_same hleases
    rw [hstage, after.holds_next]
  | some guard =>
    apply settles_acquired hmid.1.free (hleases.trans hmid.1.leases)
    rw [hstage]
    rfl

/-- A worker counts one more of a kind for the request. -/
theorem settles_reserved (hf : ∀ x j, Counter.read j (f x) = j.read x + if j = kind then 1 else 0)
    (hw : (s.engines.worker? e w).isSome)
    (hnext : ∀ r, ((next.map Stage.holds).getD []).count r = stage.holds.count r + unit (.counter kind e w) r) :
    Settles s stage ⟨s.registry, s.engines.update e w f, events, next⟩ := by
  intro r
  show supply s.registry.leases (s.engines.update e w f) r + _ = s.out r + ((next.map Stage.holds).getD []).count r
  rw [supply_add hf hw, hnext]
  show s.out r + _ + _ = _
  omega

section

variable (bs : List (ModelSessionPlacement Model)) (hst : ∀ r, stage.holds.count r ≤ s.out r)
  (hleases : registry.leases = bs.foldl SessionLeases.release s.registry.leases)

include hst hleases

/-- Leases are given back, and a worker may take back what is `given`. -/
theorem settles_back {engines : Engines Model} (given : Resource Model → ℕ)
    (hengines : ∀ r, supply s.registry.leases engines r + given r = s.out r)
    (hnext : ∀ r, stage.holds.count r = ((next.map Stage.holds).getD []).count r + given r + (bs.map .lease).count r) :
    Settles s stage ⟨registry, engines, events, next⟩ := by
  have hback : ∀ r, (bs.map Resource.lease).count r ≤ supply s.registry.leases engines r := by
    intro r
    have h1 := hst r
    have h2 := hnext r
    have h3 := hengines r
    omega
  intro r
  show supply registry.leases engines r + _ = s.out r + ((next.map Stage.holds).getD []).count r
  have hreleased := supply_releases bs hback r
  have h1 := hnext r
  have h2 := hengines r
  rw [hleases]
  omega

/-- Only leases are given back. -/
theorem settles_released
    (hnext : ∀ r, stage.holds.count r = ((next.map Stage.holds).getD []).count r + (bs.map .lease).count r) :
    Settles s stage ⟨registry, s.engines, events, next⟩ :=
  settles_back bs hst hleases (fun _ => 0) (fun _ => rfl) hnext

/-- A worker keeps its counters, and leases may be given back. -/
theorem settles_kept (hf : ∀ x ∈ s.engines.worker? e w, ∀ j, Counter.read j (f x) = j.read x)
    (hnext : ∀ r, stage.holds.count r = ((next.map Stage.holds).getD []).count r + (bs.map .lease).count r) :
    Settles s stage ⟨registry, s.engines.update e w f, events, next⟩ :=
  settles_back bs hst hleases (fun _ => 0) (fun r => supply_keep hf r) hnext

/-- A worker counts one less of a kind, and leases may be given back. -/
theorem settles_returned (hf : ∀ x j, Counter.read j (f x) = j.read x - if j = kind then 1 else 0) (hnext : ∀ r, stage.holds.count r =
      ((next.map Stage.holds).getD []).count r + unit (.counter kind e w) r + (bs.map .lease).count r) :
    Settles s stage ⟨registry, s.engines.update e w f, events, next⟩ := by
  apply settles_back bs hst hleases _ _ hnext
  apply supply_sub hf
  have h1 := hst (.counter kind e w)
  have h2 := hnext (.counter kind e w)
  rw [unit_self] at h2
  show 1 ≤ s.out _
  omega

end

/-- A request that holds a unit of a worker's counter knows a worker. -/
theorem worker_of_held (hst : ∀ r, stage.holds.count r ≤ s.out r) (h : .counter kind e w ∈ stage.holds) :
    ∃ worker, s.engines.worker? e w = some worker :=
  worker_of_supply_pos ((succ_le_of_lt (count_pos_iff.mpr h)).trans (hst _))

theorem settles_released_of (h : Releases s t a stage bs next) (hst : ∀ r, stage.holds.count r ≤ s.out r) :
    Settles s stage ⟨s.registry.releases bs, s.engines, events, next⟩ := by
  apply settles_released bs hst rfl
  intro r
  cases h with
  | unloaded => simp [Stage.holds, After.holds_next]
  | unwatched =>
    simp [Stage.holds, After.holds, After.lease]
    omega
  | forkQueued hnone =>
    obtain ⟨x, hx⟩ := worker_of_held hst (mem_cons_of_mem _ mem_cons_self)
    rw [hnone] at hx
    cases hx
  | closing | closeSending | closeQueued | forkLeased | leased => simp [Stage.holds, After.holds]

/-- **A step of a request settles what it takes and gives.** -/
theorem settles_of_makes (hst : ∀ r, stage.holds.count r ≤ s.out r) (hm : Makes s t stage a o) : Settles s stage o := by
  cases effect_of_makes hm with
  | goes h => exact settles_go (by cases h <;> rfl)
  | ends h =>
    cases h with
    | createQueued hnone =>
      obtain ⟨x, hx⟩ := worker_of_held hst mem_cons_self
      rw [hnone] at hx
      cases hx
    | _ => exact settles_go rfl
  | reads hget h => exact settles_same (SessionRegistry.touch_eq_some hget).2.leases (by cases h <;> rfl)
  | leases hfree h => exact settles_acquired hfree rfl (by cases h <;> rfl)
  | frees h =>
    have hfrees := (SessionRegistry.takeForClose_ok h).2
    exact settles_acquired hfrees.free hfrees.leases rfl
  | inserts h => exact settles_afterBinding (SessionRegistry.insert_ok h) rfl
  | claims h => exact settles_afterBinding (SessionRegistry.claim_ok h) rfl
  | yields h => exact settles_same (SessionRegistry.claim_existing h).2.leases rfl
  | gives | turns => exact settles_same rfl rfl
  | places h => exact settles_reserved read_reserveSession (Engines.placeSession_some h) (by simp [Stage.holds])
  | placesFork _ hw =>
    apply settles_reserved read_reserveSession (Option.isSome_iff_exists.mpr ⟨_, hw⟩)
    intro r
    simp [Stage.holds]
    omega
  | placesTurn h => exact settles_reserved read_reserveTurn (Engines.placeTurn_some h) (by simp [Stage.holds])
  | submits hw =>
    exact settles_reserved read_reserveTurn (Option.isSome_iff_exists.mpr ⟨_, hw⟩) (by simp [Stage.holds])
  | opens hx => exact settles_returned [] hst rfl read_openSession (by simp [Stage.holds])
  | forks hx => exact settles_returned [_] hst rfl read_openSession (by simp [Stage.holds])
  | takesBack => exact settles_kept [] hst rfl (fun x _ => read_takeBack x _) (by simp [Stage.holds])
  | closes hx hclose =>
    apply settles_kept [_] hst rfl
    · intro x hx' j
      cases hx.symm.trans hx'
      exact read_close hclose j
    · simp [Stage.holds, After.holds_next]
  | releases h => exact settles_released_of h hst
  | unreserves h => exact settles_returned _ hst rfl read_releasePendingSession (by cases h <;> simp [Stage.holds])
  | endsTurn h =>
    apply settles_returned _ hst rfl read_releaseTurn
    intro r
    cases h <;> simp [Stage.holds] <;> omega

/-! ### Every step of the server -/

/-- The books balance. -/
structure Books (s : AppState Client Model) : Prop where
  newTask : ∀ t, s.nextTask ≤ t → s.tasks.lookup t = none
  newEngine : ∀ e, s.nextEngine ≤ e → s.engines.lookup e = none
  balance : ∀ r, s.out r = held Stage.holds s.tasks r

theorem Books.count_le (h : Books s) (hstage : s.tasks.lookup t = some stage) (r : Resource Model) :
    stage.holds.count r ≤ s.out r := by
  rw [h.balance]
  exact le_total (fun st : Stage Client Model => st.holds.count r) hstage

/-! ### Loading a model -/

theorem worker?_load (model : Model) (n : ℕ) (victims : List Model) (e : EngineId) (w : ℕ) :
    (s.load model n victims).engines.worker? e w =
      if e = s.nextEngine then (if w < n then some .new else none) else s.engines.worker? e w := by
  show ((s.engines.insert s.nextEngine ⟨model, replicate n .new⟩).lookup e).bind (fun d => d.workers[w]?) = _
  rw [lookup_insert']
  split
  · exact getElem?_replicate
  · rfl

theorem worker?_eq_none (h : Books s) (he : s.nextEngine ≤ e) (w : ℕ) : s.engines.worker? e w = none := by
  rw [Engines.worker?, h.newEngine e he, Option.bind_none]

/-- A new engine has nothing out. -/
theorem out_load (h : Books s) (model : Model) (n : ℕ) (victims : List Model) (r : Resource Model) :
    (s.load model n victims).out r = s.out r := by
  cases r with
  | lease b => rfl
  | counter kind e w =>
    show (((s.load model n victims).engines.worker? e w).map kind.read).getD 0 = ((s.engines.worker? e w).map kind.read).getD 0
    rw [worker?_load]
    split
    case isTrue he =>
      rw [worker?_eq_none h (ge_of_eq he)]
      split
      · cases kind <;> rfl
      · rfl
    case isFalse => rfl

theorem books_new (maxSessions : ℕ) (defaultModel : Model) : Books (new maxSessions defaultModel : AppState Client Model) := by
  refine ⟨fun _ _ => rfl, fun _ _ => rfl, fun r => ?_⟩
  cases r <;> rfl

/-- **The books balance after every step.** -/
theorem Books.act (h : Books s) (a : Action Client Model) : Books (s.act a) := by
  apply act_cases s a h
  case hload =>
    intro model n victims _ _ _
    refine ⟨h.newTask, fun e he => ?_, fun r => (out_load h model n victims r).trans (h.balance r)⟩
    have hne : e ≠ s.nextEngine := (lt_of_succ_le he).ne'
    show (s.engines.insert s.nextEngine _).lookup e = none
    rw [lookup_insert', if_neg hne]
    exact h.newEngine e (le_of_succ_le he)
  case hunload =>
    intro model _
    exact ⟨h.newTask, h.newEngine, h.balance⟩
  case harrive =>
    intro request _
    refine ⟨fun t ht => ?_, h.newEngine, fun r => ?_⟩
    · rw [lookup_insert', if_neg (lt_of_succ_le ht).ne']
      exact h.newTask t (le_of_succ_le ht)
    · rw [held_insert _ (h.newTask _ le_rfl), ← h.balance]
      rfl
  case hmakes =>
    intro t stage o hstage hm
    refine ⟨fun u hu => ?_, fun e he => (lookup_engines_of_makes hm e).mpr (h.newEngine e he), fun r => ?_⟩
    · show (settle s.tasks t o.next).lookup u = none
      have hne : u ≠ t := by
        rintro rfl
        cases (h.newTask u hu).symm.trans hstage
      rw [lookup_settle, if_neg hne]
      exact h.newTask u hu
    · have hsettles := settles_of_makes (h.count_le hstage) hm r
      have hheld := held_settle Stage.holds hstage o.next r
      have hbalance := h.balance r
      show o.out r = held Stage.holds (settle s.tasks t o.next) r
      have hnext : o.holds.count r = ((o.next.map Stage.holds).getD []).count r := rfl
      omega

/-- Two requests do not hold one lease. -/
theorem Books.lease_unique (h : Books s) {u : TaskId} {st st' : Stage Client Model}
    (ht : s.tasks.lookup t = some st) (hb : .lease b ∈ st.holds) (hu : s.tasks.lookup u = some st')
    (hb' : .lease b ∈ st'.holds) : t = u := by
  apply holder_unique Stage.holds _ ht hb hu hb'
  rw [← h.balance]
  show (if b ∈ s.registry.leases then 1 else 0) ≤ 1
  split <;> omega

/-- A lease that is free is held by nobody. -/
theorem Books.not_held (h : Books s) (hfree : b ∉ s.registry.leases) (ht : s.tasks.lookup t = some stage) :
    .lease b ∉ stage.holds := by
  intro hb
  have hpos := held_pos Stage.holds ht hb
  rw [← h.balance] at hpos
  simp [out, supply, hfree] at hpos

/-- **What is out is held by requests in flight**, whenever models are unloaded, engine calls fail and
requests are dropped. A binding is leased just when one request holds its lease, and a counter of
a worker of a loaded model counts the units that requests hold. -/
theorem balanced_of_actions (maxSessions : ℕ) (defaultModel : Model) (actions : List (Action Client Model)) :
    let s := actions.foldl act (new maxSessions defaultModel)
    (∀ b, b ∈ s.registry.leases ↔ ∃! t, ∃ st, s.tasks.lookup t = some st ∧ .lease b ∈ st.holds) ∧
      ∀ k m e w x, s.loaded.lookup m = some e → s.engines.worker? e w = some x →
        k.read x = held Stage.holds s.tasks (.counter k e w) := by
  intro s
  have h : Books s := foldlRecOn actions act (books_new maxSessions defaultModel) fun _ h a _ => h.act a
  refine ⟨fun b => ⟨fun hb => ?_, ?_⟩, fun k m e w x _ hx => by simp [← h.balance, out, supply, hx]⟩
  · have hpos : 0 < held Stage.holds s.tasks (.lease b) := by simp [← h.balance, out, supply, hb]
    obtain ⟨t, st, ht, hst⟩ := exists_holder Stage.holds hpos
    refine ⟨t, ⟨st, ht, hst⟩, ?_⟩
    rintro u ⟨st', hu, hst'⟩
    exact h.lease_unique hu hst' ht hst
  · rintro ⟨t, ⟨st, ht, hst⟩, -⟩
    by_contra hfree
    exact h.not_held hfree ht hst

end AppState

end OnnxGenai.Server
