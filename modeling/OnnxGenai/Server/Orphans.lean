import OnnxGenai.Server.OpenSessions

/-!
# No orphaned session

In every run in which models stay loaded and engine calls succeed, and in which no request is
dropped while it waits to send a close, the registry keeps its bound, no two client ids share a
binding, a conversation is evicted or closed only while no turn holds its lease, and what is left
when nothing is under way are the bindings and their open sessions.

The exception is a request that is dropped after it took a binding for a close and while it
waits for room in the command channel: the close was never queued, the lease is given back with
the guard, and nobody knows the session any more (`session_orphaned`).
-/

namespace OnnxGenai.Server

open Lib FiniteMap

set_option linter.unusedSectionVars false

variable {Client Model : Type} [DecidableEq Client] [DecidableEq Model]

namespace AppState

variable {s : AppState Client Model} {stage : Stage Client Model} {t : TaskId} {b : ModelSessionPlacement Model}

theorem tidy_new (maxSessions : ℕ) (defaultModel : Model) : Tidy (new maxSessions defaultModel : AppState Client Model) := by
  refine ⟨books_new _ _, handles_new _ _, ?_, ?_, fun _ => rfl, ?_, ?_, Nat.zero_le _⟩
  · intro e m h
    cases h
  · intro e w x h
    cases h
  · intro t st b h
    cases h
  · intro t st b h
    cases h

/-! ### A model is loaded -/

variable {model : Model} {a : Action Client Model}

section

variable (h : Tidy s) (n : ℕ) (hnew : s.loaded.lookup model = none)

include h n hnew

/-- The workers of the other models stay, those of the new one are empty. -/
theorem Tidy.worker_load (m : Model) (w : ℕ) :
    (((s.load model n []).loaded.lookup m).bind fun e => (s.load model n []).engines.worker? e w) =
      if m = model then (if w < n then some .new else none)
      else (s.loaded.lookup m).bind fun e => s.engines.worker? e w := by
  rw [lookup_load, if_neg List.not_mem_nil]
  split
  case isTrue hm => rw [Option.bind_some, worker?_load, if_pos rfl]
  case isFalse hm =>
    cases hl : s.loaded.lookup m with
    | none => rfl
    | some e =>
      have hne : e ≠ s.nextEngine := by
        rintro rfl
        have hmodel := h.handles.loaded m _ hl
        rw [Engines.model?, h.books.newEngine _ le_rfl] at hmodel
        cases hmodel
      rw [Option.bind_some, Option.bind_some, worker?_load, if_neg hne]

theorem Tidy.sessionsOf_load (m : Model) (w : ℕ) :
    sessionsOf (s.load model n []).loaded (s.load model n []).engines m w = sessionsOf s.loaded s.engines m w := by
  unfold sessionsOf
  rw [h.worker_load n hnew]
  split
  case isTrue hm =>
    rw [hm, hnew]
    split <;> rfl
  case isFalse => rfl

theorem Tidy.nextOf_load (m : Model) (w : ℕ) :
    nextOf (s.load model n []).loaded (s.load model n []).engines m w = nextOf s.loaded s.engines m w := by
  unfold nextOf
  rw [h.worker_load n hnew]
  split
  case isTrue hm =>
    rw [hm, hnew]
    split <;> rfl
  case isFalse => rfl

theorem Tidy.load (hbooks : Books (s.load model n []))
    (hhandles : Handles (s.load model n [])) : Tidy (s.load model n []) := by
  refine ⟨hbooks, hhandles, ?_, ?_, ?_, ?_, h.apart, h.size⟩
  · intro e m he
    rw [model?_load] at he
    rw [lookup_load, if_neg List.not_mem_nil]
    split at he
    case isTrue heq => rw [if_pos (Option.some.inj he).symm, heq]
    case isFalse =>
      have hm := h.current e m he
      have hne : m ≠ model := by
        rintro rfl
        cases hnew.symm.trans hm
      rw [if_neg hne, hm]
  · intro e w x hx
    rw [worker?_load] at hx
    split at hx
    · split at hx
      · cases hx
        exact Worker.sound_new
      · cases hx
    · exact h.sound e w x hx
  · intro b
    have hshelf : shelf (s.load model n []).loaded (s.load model n []).engines b = shelf s.loaded s.engines b := by
      unfold shelf
      rw [h.sessionsOf_load n hnew]
    rw [hshelf]
    exact h.sessions b
  · intro t st b hst hb
    rw [h.nextOf_load n hnew]
    exact h.known t st b hst hb

end

/-! ### A request makes a step -/

theorem Tidy.apply (h : Tidy s) {o : Outcome Client Model} (hst : s.tasks.lookup t = some stage)
    (hm : Makes s t stage a o) (hsteady : Steady a) (hpatient : Patient s a) (hbooks : Books (s.apply t o))
    (hhandles : Handles (s.apply t o)) : Tidy (s.apply t o) := by
  -- what the next stage names has a number that was handed out, and is not fresh elsewhere
  have hnames := namesFrom_of_makes hm
  have hfresh := h.freshFrom hst hm
  have hlt : ∀ {c : ModelSessionPlacement Model}, c ∈ stage.fresh ∨ (∃ d, s.registry.bindingOf d = some c) →
      c.placement.engineSessionId < nextOf s.loaded s.engines c.model c.placement.worker := by
    rintro c (hc | ⟨d, hd⟩)
    · exact h.lt_nextOf (h.open_of_owns hst (Stage.fresh_subset_owns hc))
    · exact h.lt_nextOf (h.open_of_bound hd)
  have hknown : ∀ st ∈ o.next, ∀ c ∈ st.names,
      c.placement.engineSessionId < nextOf s.loaded s.engines c.model c.placement.worker := by
    intro st hnext c hc
    rcases hnames st hnext c hc with hc | hc
    · exact h.known t stage c hst hc
    · exact hlt hc
  refine ⟨hbooks, hhandles, ?_, ?_, ?_, ?_, ?_, ?_⟩
  · intro e m he
    have he : o.engines.model? e = some m := he
    rw [model?_of_makes hm] at he
    exact h.current e m he
  · intro e w x hx
    obtain ⟨_, _, _, hsound⟩ := h.worker_of_makes hst hm hx
    exact hsound
  · intro b
    have hover := h.handsOver hst hm hsteady hpatient b
    have hheld := held_settle Stage.owns hst o.next b
    have hsessions := h.sessions b
    show shelf s.loaded o.engines b = o.registry.bound b + held Stage.owns (settle s.tasks t o.next) b
    omega
  · intro u st c hu hc
    have hu : (settle s.tasks t o.next).lookup u = some st := hu
    rw [lookup_settle] at hu
    apply lt_of_lt_of_le _ (h.nextOf_le hst hm _ _)
    split at hu
    · exact hknown st hu c hc
    · exact h.known u st c hu hc
  · intro u st c hu hc v st' hv hc'
    have hu : (settle s.tasks t o.next).lookup u = some st := hu
    have hv : (settle s.tasks t o.next).lookup v = some st' := hv
    rw [lookup_settle] at hu hv
    split at hu
    case isTrue =>
      rcases hfresh st hu c hc with hold | hnew
      · split at hv
        · cases hu.symm.trans hv
          exact Stage.names_of_fresh hc hc'
        · exact h.apart t stage c hst hold v st' hv hc'
      · -- a new number is not among those handed out before
        split at hv
        · exact absurd (hknown st' hv c hc') (not_lt.mpr hnew)
        · exact absurd (h.known v st' c hv hc') (not_lt.mpr hnew)
    case isFalse hut =>
      split at hv
      case isTrue =>
        have hone := h.bound_add_owned_le c
        have hpos := held_pos Stage.owns hu (Stage.fresh_subset_owns hc)
        rcases hnames st' hv c hc' with hold | hold | ⟨d, hd⟩
        · exact h.apart u st c hu hc t stage hst hold
        · exact hut (holder_unique Stage.owns (le_of_add_le_right hone) hu (Stage.fresh_subset_owns hc) hst
            (Stage.fresh_subset_owns hold))
        · have := SessionRegistry.bound_pos hd
          omega
      case isFalse => exact h.apart u st c hu hc v st' hv hc'
  · exact (registryStep_of_makes hm).length_le h.size

/-- **Every step keeps the sessions accounted for.** -/
theorem Tidy.act (h : Tidy s) (hsteady : Steady a) (hpatient : Patient s a) : Tidy (s.act a) := by
  have hbooks := h.books.act a
  have hhandles := h.handles.act h.books a
  revert hbooks hhandles
  apply act_cases s a (P := fun s' => Books s' → Handles s' → Tidy s')
  case hsame => exact fun _ _ => h
  case hload =>
    intro model n victims ha hnew _ hbooks hhandles
    subst ha
    obtain rfl : victims = [] := hsteady
    exact h.load n hnew hbooks hhandles
  case hunload =>
    intro model ha
    subst ha
    exact hsteady.elim
  case harrive =>
    intro request _ hbooks hhandles
    refine ⟨hbooks, hhandles, h.current, h.sound, fun b => ?_, ?_, ?_, h.size⟩
    · rw [held_insert _ (h.books.newTask _ le_rfl)]
      exact h.sessions b
    · intro t st b hst hb
      rw [lookup_insert'] at hst
      split at hst
      · cases hst
        cases hb
      · exact h.known t st b hst hb
    · intro t st b hst hb u st' hu hb'
      rw [lookup_insert'] at hst hu
      split at hst
      · cases hst
        cases hb
      · split at hu
        · cases hu
          cases hb'
        · exact h.apart t st b hst hb u st' hu hb'
  case hmakes =>
    intro t stage o hst hm hbooks hhandles
    exact h.apply hst hm hsteady hpatient hbooks hhandles

/-! ### Sessions are evicted and closed under their lease -/

theorem Tidy.free_of_unbound (h : Tidy s) {c : Client} (hb : s.registry.bindingOf c = some b) :
    (s.act a).registry.bindingOf c ≠ some b → b ∉ s.registry.leases := by
  apply act_cases s a (P := fun s' => s'.registry.bindingOf c ≠ some b → b ∉ s.registry.leases)
  case hsame => exact fun hb' => absurd hb hb'
  case hload => exact fun _ _ _ _ _ _ hb' => absurd hb hb'
  case hunload => exact fun _ _ hb' => absurd hb hb'
  case harrive => exact fun _ _ hb' => absurd hb hb'
  case hmakes => exact fun t stage o _ hm hb' => (registryStep_of_makes hm).free_of_unbound hb hb'

/-- A request that closes a session: the driver with the command, or taking a session back. -/
theorem Tidy.closer (h : Tidy s) {o : Outcome Client Model} (hst : s.tasks.lookup t = some stage)
    (hm : Makes s t stage a o) (hopen : shelf s.loaded s.engines b = 1) (hclosed : shelf s.loaded o.engines b = 0) :
    (∃ handle guard after, stage = .closeQueued handle guard after ∧ guard.binding = b) ∨ b ∈ stage.fresh := by
  have hvalid := h.handles.valid t stage hst
  have hengines := engineStep_of_makes hm
  generalize o.engines = engines at hengines hclosed
  cases hengines with
  | same => omega
  | counts e w hf =>
    rw [shelf_keep fun x => (hf x).1] at hclosed
    omega
  | opened e w =>
    have hle : shelf s.loaded s.engines b ≤ shelf s.loaded (s.engines.update e w (·.openSession.commitSession)) b :=
      shelf_mono (fun x => Finset.subset_insert _ _) b
    omega
  | tookBack handle placement hstage =>
    subst hstage
    obtain ⟨e, x, hload, hx, hmem⟩ := worker_of_mem_sessionsOf (h.open_of_owns hst List.mem_cons_self)
    cases (h.loaded_of_valid hvalid).symm.trans hload
    have htake := Worker.takeBack_eq (Worker.close_eq_some.mpr ⟨hmem, rfl⟩)
    have hshelf := shelf_close (f := (·.takeBack (handle.binding placement).placement.engineSessionId))
      (fun m' hm' => h.model_unique hload hm') hload hx hmem (congrArg Worker.sessions htake) b
    have hclosed : shelf s.loaded (s.engines.update handle.engine (handle.binding placement).placement.worker
      (·.takeBack (handle.binding placement).placement.engineSessionId)) b = 0 := hclosed
    split at hshelf
    case isTrue heq => exact .inr (heq ▸ List.mem_cons_self)
    case isFalse => omega
  | closed hstage hx hclose =>
    subst hstage
    have hload := h.loaded_of_valid hvalid.1.1
    rw [← hvalid.1.2] at hload
    have hshelf := shelf_close (f := fun _ => _) (fun m' hm' => h.model_unique hload hm') hload hx
      (Worker.close_eq_some.mp hclose).1 (Worker.sessions_of_close hclose) b
    split at hshelf
    case isTrue heq => exact .inl ⟨_, _, _, rfl, heq⟩
    case isFalse => omega

/-- A session is closed only while nobody else holds its lease. -/
theorem Tidy.holder_of_closed (h : Tidy s) (hsteady : Steady a) (hopen : shelf s.loaded s.engines b = 1) :
    shelf (s.act a).loaded (s.act a).engines b = 0 → ∀ u st, s.tasks.lookup u = some st → .lease b ∈ st.holds →
      ∃ handle guard after, st = .closeQueued handle guard after := by
  apply act_cases s a (P := fun s' => shelf s'.loaded s'.engines b = 0 → ∀ u st, s.tasks.lookup u = some st →
    .lease b ∈ st.holds → ∃ handle guard after, st = .closeQueued handle guard after)
  case hsame =>
    intro hclosed
    omega
  case hload =>
    intro model n victims ha hnew _ hclosed
    subst ha
    obtain rfl : victims = [] := hsteady
    unfold shelf at hclosed hopen
    rw [h.sessionsOf_load n hnew] at hclosed
    omega
  case hunload =>
    intro model ha
    subst ha
    exact hsteady.elim
  case harrive =>
    intro request _ hclosed
    have hclosed : shelf s.loaded s.engines b = 0 := hclosed
    omega
  case hmakes =>
    intro t stage o hst hm hclosed u st hu hholds
    rcases h.closer hst hm hopen hclosed with ⟨handle, guard, after, rfl, rfl⟩ | hfresh
    · obtain rfl := h.books.lease_unique hu hholds hst List.mem_cons_self
      cases hst.symm.trans hu
      exact ⟨handle, guard, after, rfl⟩
    · exact absurd hholds (h.books.not_held (h.fresh_not_leased hst hfresh) hu)

/-! ### Runs -/

/-- What is true of the sessions in a state of a run. -/
structure Accounted (s : AppState Client Model) : Prop where
  /-- The registry keeps its bound. -/
  capacity : s.registry.sessions.entries.length ≤ s.registry.maxSessions
  /-- No two client ids share a binding. -/
  unshared : ∀ c d b, s.registry.bindingOf c = some b → s.registry.bindingOf d = some b → c = d
  /-- A binding is taken from its client id only while no request holds its lease. -/
  evicted : ∀ a c b, s.registry.bindingOf c = some b → (s.act a).registry.bindingOf c ≠ some b → b ∉ s.registry.leases
  /-- A session is closed only by the request that holds its lease, if any does. -/
  closed : ∀ a b, Steady a → shelf s.loaded s.engines b = 1 → shelf (s.act a).loaded (s.act a).engines b = 0 →
    ∀ u st, s.tasks.lookup u = some st → .lease b ∈ st.holds → ∃ handle guard after, st = .closeQueued handle guard after
  /-- A request is refused for want of room only if every binding is leased. -/
  refused : ∀ c b n, s.registry.insert c b = .error (.atCapacity n) ∨ s.registry.claim c b = .error (.atCapacity n) →
    ∀ d b', s.registry.bindingOf d = some b' → b' ∈ s.registry.leases
  /-- When nothing is under way, the open sessions of a loaded model are its bindings. -/
  bound : (∀ t, s.tasks.lookup t = none) → ∀ m w n,
    n ∈ sessionsOf s.loaded s.engines m w ↔ ∃ c, s.registry.bindingOf c = some ⟨m, w, n⟩
  /-- Then the live counter of each worker is the number of its open sessions, and nothing is
  pending or active. -/
  counted : (∀ t, s.tasks.lookup t = none) → ∀ e w x, s.engines.worker? e w = some x →
    x.liveSessions = x.sessions.card ∧ x.pendingSessions = 0 ∧ x.activeTurns = 0
  /-- Then no lease is held. -/
  unleased : (∀ t, s.tasks.lookup t = none) → s.registry.leases = ∅

theorem held_eq_zero {ρ : Type} [DecidableEq ρ] (holds : Stage Client Model → List ρ) (h : ∀ t, s.tasks.lookup t = none)
    (r : ρ) : held holds s.tasks r = 0 := by
  by_contra hne
  obtain ⟨t, st, hst, -⟩ := exists_holder holds (Nat.pos_of_ne_zero hne)
  cases (h t).symm.trans hst

theorem Tidy.accounted (h : Tidy s) : Accounted s where
  capacity := h.size
  unshared c d b hc hd := SessionRegistry.client_unique (le_of_add_le_left (h.bound_add_owned_le b)) hc hd
  evicted a c b hb := h.free_of_unbound hb
  closed a b hsteady hopen := h.holder_of_closed hsteady hopen
  refused c b n hrefused := hrefused.elim SessionRegistry.insert_atCapacity SessionRegistry.claim_error
  bound hquiet m w n := by
    have hsessions := h.sessions ⟨m, w, n⟩
    rw [held_eq_zero Stage.owns hquiet, Nat.add_zero] at hsessions
    constructor
    · intro hn
      apply SessionRegistry.exists_of_bound_pos
      rw [← hsessions, shelf, if_pos hn]
      exact Nat.one_pos
    · rintro ⟨c, hc⟩
      exact h.open_of_bound hc
  counted hquiet e w x hx := by
    have hcounter : ∀ kind : Counter, kind.read x = 0 := by
      intro kind
      have hbalance := h.books.balance (.counter kind e w)
      rw [held_eq_zero Stage.holds hquiet] at hbalance
      simpa [out, supply, hx] using hbalance
    exact ⟨(h.sound e w x hx).live, hcounter .pendingSessions, hcounter .activeTurns⟩
  unleased hquiet := by
    apply Finset.eq_empty_of_forall_notMem
    intro b hb
    have hbalance := h.books.balance (.lease b)
    rw [held_eq_zero Stage.holds hquiet] at hbalance
    simp [out, supply, hb] at hbalance

/-- The runs from an empty server in which models stay loaded and engine calls succeed, and every
step satisfies `allowed`. -/
abbrev SteadyRun (allowed : AppState Client Model → Action Client Model → Prop) (s : AppState Client Model) : Prop :=
  Reachable (fun s₀ => ∃ maxSessions defaultModel, s₀ = new maxSessions defaultModel)
    (fun s a => Steady a ∧ allowed s a) act s

/-- **Sessions are neither orphaned nor over the bound**, in every run in which no request is
dropped while it waits to send a close. -/
theorem accounted_of_patient (h : SteadyRun Patient s) : Accounted s := by
  apply Tidy.accounted
  induction h with
  | start h =>
    obtain ⟨maxSessions, defaultModel, rfl⟩ := h
    exact tidy_new maxSessions defaultModel
  | next _ ha ih => exact ih.act ha.1 ha.2

instance decidableSteady : DecidablePred (Steady : Action Client Model → Prop)
  | .load _ _ victims => decidable_of_iff (victims.isEmpty) List.isEmpty_iff
  | .unload _ => .isFalse id
  | .fail _ => .isFalse id
  | .arrive _ => .isTrue trivial
  | .step _ => .isTrue trivial
  | .submit _ _ => .isTrue trivial
  | .abandon _ => .isTrue trivial

instance decidablePatient (s : AppState Client Model) : DecidablePred (Patient s)
  | .abandon t => inferInstanceAs (Decidable (∀ stage ∈ s.tasks.lookup t, stage.sendsClose = false))
  | .load _ _ _ => .isTrue trivial
  | .unload _ => .isTrue trivial
  | .fail _ => .isTrue trivial
  | .arrive _ => .isTrue trivial
  | .step _ => .isTrue trivial
  | .submit _ _ => .isTrue trivial

/-- A model is loaded, and a session is created in it. -/
def oneSession : List (Action ℕ ℕ) :=
  [.load 0 1 [], .arrive (.create 7), .step 0, .step 0, .step 0, .step 0, .step 0, .step 0]

theorem accounted_of_patient_one :
    ∃ s : AppState ℕ ℕ, SteadyRun Patient s ∧ s.registry.bindingOf 7 = some ⟨0, 0, 0⟩ ∧ s.tasks.lookup 0 = none ∧
      Accounted s := by
  have hrun : SteadyRun Patient (oneSession.foldl act (new 1 0)) :=
    Reachable.foldl oneSession (.start ⟨1, 0, rfl⟩) (by decide)
  exact ⟨_, hrun, by decide, by decide, accounted_of_patient hrun⟩

/-- A session is deleted, and the request is dropped while it waits to send the close. -/
def droppedClose : List (Action ℕ ℕ) :=
  oneSession ++ [.arrive (.delete 7), .step 1, .step 1, .abandon 1]

/-- **A session can be orphaned**: nothing is under way, no client id is bound and no lease is
held, but the session is open. -/
theorem session_orphaned :
    ∃ s : AppState ℕ ℕ, SteadyRun (fun _ _ => True) s ∧ (∀ t, s.tasks.lookup t = none) ∧
      (∀ c, s.registry.bindingOf c = none) ∧ s.registry.leases = ∅ ∧ 0 ∈ sessionsOf s.loaded s.engines 0 0 := by
  have hrun : SteadyRun (fun _ _ => True) (droppedClose.foldl act (new 1 0)) :=
    Reachable.foldl droppedClose (.start ⟨1, 0, rfl⟩) (by decide)
  refine ⟨_, hrun, lookup_of_entries_nil (by decide), fun c => ?_, by decide, by decide⟩
  rw [SessionRegistry.bindingOf, lookup_of_entries_nil (by decide), Option.map_none]

end AppState

end OnnxGenai.Server
