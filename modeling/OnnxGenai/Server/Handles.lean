import OnnxGenai.Server.Ledger

/-!
# Handles and engines

A request keeps the handle of the model it resolved, and with it the engine instance, also after
the model was unloaded. In every run the handle in a request's hands names an instance of its
model, and the bindings the request uses with it are bindings of that model: this is what
`ensure_session_belongs_to_model` and the model in a lease guard are for. Which instance of the
model issued the binding is another matter.
-/

namespace OnnxGenai.Server

open Lib FiniteMap

set_option linter.unusedSectionVars false

variable {Client Model : Type} [DecidableEq Client] [DecidableEq Model]

/-- The handle names an engine instance of its model. -/
def ModelHandle.Valid (engines : Engines Model) (h : ModelHandle Model) : Prop :=
  engines.model? h.engine = some h.model

/-- The handle is valid, and the binding is of its model. -/
def ModelHandle.Reaches (engines : Engines Model) (h : ModelHandle Model) (b : ModelSessionPlacement Model) : Prop :=
  h.Valid engines ∧ b.model = h.model

/-- What a request does after a close has a valid handle. -/
def After.Valid (engines : Engines Model) : After Client Model → Prop
  | .done => True
  | .existing h _ _ => h.Valid engines
  | .turn h guard => h.Reaches engines guard.binding

/-- A stage has valid handles, with bindings of their models. -/
def Stage.Valid (engines : Engines Model) : Stage Client Model → Prop
  | .arrived _ => True
  | .resolved h _ => h.Valid engines
  | .missed h _ => h.Valid engines
  | .opening h _ => h.Valid engines
  | .creating h _ _ => h.Valid engines
  | .createQueued h _ _ => h.Valid engines
  | .created h _ _ => h.Valid engines
  | .stateless h => h.Valid engines
  | .found h _ b => h.Reaches engines b
  | .leased h guard => h.Reaches engines guard.binding
  | .publishing h b _ => h.Reaches engines b
  | .claiming h guard => h.Reaches engines guard.binding
  | .refused h _ b => h.Reaches engines b
  | .closing _ after => after.Valid engines
  | .closeSending h guard after => h.Reaches engines guard.binding ∧ after.Valid engines
  | .closeQueued h guard after => h.Reaches engines guard.binding ∧ after.Valid engines
  | .forkFound _ _ _ => True
  | .forkLeased _ _ => True
  | .forkSending h guard _ => h.Reaches engines guard.binding
  | .forkQueued h guard _ => h.Reaches engines guard.binding
  | .turnSending h _ guard _ => h.Valid engines ∧ ∀ g ∈ guard, h.Reaches engines g.binding
  | .turnQueued h _ guard _ => h.Valid engines ∧ ∀ g ∈ guard, h.Reaches engines g.binding
  | .turnRunning h _ guard => h.Valid engines ∧ ∀ g ∈ guard, h.Reaches engines g.binding

variable {engines engines' : Engines Model} {h : ModelHandle Model} {after : After Client Model}

theorem After.Valid.mono (hv : after.Valid engines)
    (hmodel : ∀ e m, engines.model? e = some m → engines'.model? e = some m) : after.Valid engines' := by
  cases after with
  | done => trivial
  | existing h client b => exact hmodel _ _ hv
  | turn h guard => exact ⟨hmodel _ _ hv.1, hv.2⟩

theorem Stage.Valid.mono {stage : Stage Client Model} (hv : stage.Valid engines)
    (hmodel : ∀ e m, engines.model? e = some m → engines'.model? e = some m) : stage.Valid engines' := by
  have hreach : ∀ {h : ModelHandle Model} {b : ModelSessionPlacement Model}, h.Reaches engines b → h.Reaches engines' b :=
    fun hr => ⟨hmodel _ _ hr.1, hr.2⟩
  cases stage with
  | arrived | forkFound | forkLeased => trivial
  | closing guard after => exact After.Valid.mono hv hmodel
  | closeSending | closeQueued => exact ⟨hreach hv.1, After.Valid.mono hv.2 hmodel⟩
  | turnSending | turnQueued | turnRunning => exact ⟨hmodel _ _ hv.1, fun g hg => hreach (hv.2 g hg)⟩
  | resolved | missed | opening | creating | createQueued | created | stateless => exact hmodel _ _ hv
  | found | leased | publishing | claiming | refused | forkSending | forkQueued => exact hreach hv

theorem After.valid_next (h : after.Valid engines) : ∀ st ∈ after.next, st.Valid engines := by
  cases after with
  | done => simp [After.next]
  | existing handle client binding =>
    intro st hst
    simp only [After.next] at hst
    split at hst
    case isTrue heq =>
      cases hst
      exact ⟨h, heq⟩
    case isFalse => cases hst
  | turn handle guard =>
    intro st hst
    cases hst
    exact h

namespace AppState

variable {s : AppState Client Model} {stage : Stage Client Model}

/-- The model registry names engines of its models. -/
def Loaded (s : AppState Client Model) : Prop := ∀ m e, s.loaded.lookup m = some e → s.engines.model? e = some m

theorem Loaded.resolve (hloaded : s.Loaded) {model : Model} (hh : s.resolve model = some h) :
    h.Valid s.engines ∧ h.model = model := by
  obtain ⟨e, he, rfl⟩ := Option.map_eq_some_iff.mp hh
  exact ⟨hloaded _ _ he, rfl⟩

theorem valid_some {next : Stage Client Model} (h : next.Valid s.engines) :
    ∀ st ∈ (some next : Option (Stage Client Model)), st.Valid s.engines := by
  intro st hst
  cases hst
  exact h

theorem valid_none : ∀ st ∈ (none : Option (Stage Client Model)), st.Valid s.engines := by
  intro st hst
  cases hst

theorem valid_afterBinding {t : TaskId} {registry : SessionRegistry Client Model} {event : Event Client}
    {evicted : Option (SessionLeaseGuard Client Model)} (h : after.Valid s.engines) :
    ∀ st ∈ (s.afterBinding t registry event evicted after).next, st.Valid s.engines := by
  unfold afterBinding
  split
  · exact After.valid_next h
  · exact valid_some h

theorem Goes.valid {next : Stage Client Model} (h : Goes s stage next) (hloaded : s.Loaded)
    (hst : stage.Valid s.engines) : next.Valid s.engines := by
  cases h with
  | create hh | complete hh | stateless hh => exact (hloaded.resolve hh).1
  | publishing => exact ⟨hst, rfl⟩
  | closeSending hh => exact ⟨⟨(hloaded.resolve hh).1, (hloaded.resolve hh).2.symm⟩, hst⟩
  | _ => exact hst

/-- **The next stage of a request is valid.** -/
theorem valid_of_makes {t : TaskId} {a : Action Client Model} {o : Outcome Client Model} (hloaded : s.Loaded)
    (hst : stage.Valid s.engines) (hm : Makes s t stage a o) : ∀ st ∈ o.next, st.Valid s.engines := by
  cases effect_of_makes hm with
  | goes h => exact valid_some (h.valid hloaded hst)
  | ends | takesBack | unreserves | endsTurn => exact valid_none
  | reads hget h =>
    cases h with
    | found heq | foundAgain heq => exact valid_some ⟨hst, heq⟩
    | resolved | missed => exact valid_none
    | forkFound => exact valid_some trivial
  | leases hfree h =>
    cases h with
    | leased | claiming => exact valid_some hst
    | closing | forkLeased => exact valid_some trivial
  | frees | gives => exact valid_some trivial
  | inserts => exact valid_afterBinding trivial
  | claims => exact valid_afterBinding hst
  | yields | forks => exact valid_some hst.1
  | places | opens | turns => exact valid_some hst
  | placesFork hh => exact valid_some ⟨(hloaded.resolve hh).1, (hloaded.resolve hh).2.symm⟩
  | placesTurn => exact valid_some ⟨hst, by simp⟩
  | submits =>
    have hreach : ModelHandle.Reaches s.engines _ _ := hst
    exact valid_some ⟨hst.1, by simpa using hreach⟩
  | closes => exact After.valid_next hst.2
  | releases h =>
    cases h with
    | unloaded => exact After.valid_next hst
    | unwatched => exact valid_some ⟨hst.1, trivial⟩
    | _ => exact valid_none

/-- Every request has valid handles. -/
structure Handles (s : AppState Client Model) : Prop where
  loaded : s.Loaded
  valid : ∀ t st, s.tasks.lookup t = some st → st.Valid s.engines

theorem handles_new (maxSessions : ℕ) (defaultModel : Model) : Handles (new maxSessions defaultModel : AppState Client Model) :=
  ⟨fun _ _ h => (nomatch h), fun _ _ h => (nomatch h)⟩

theorem model?_load (model : Model) (n : ℕ) (victims : List Model) (e : EngineId) :
    (s.load model n victims).engines.model? e = if e = s.nextEngine then some model else s.engines.model? e := by
  show ((s.engines.insert s.nextEngine ⟨model, List.replicate n .new⟩).lookup e).map (·.model) = _
  rw [lookup_insert']
  split <;> rfl

theorem model?_load_of_some (h : Books s) (model : Model) (n : ℕ) (victims : List Model) {e : EngineId} {m : Model}
    (he : s.engines.model? e = some m) : (s.load model n victims).engines.model? e = some m := by
  rw [model?_load, if_neg]
  · exact he
  · rintro rfl
    rw [Engines.model?, h.newEngine _ le_rfl] at he
    cases he

theorem lookup_foldl_erase (loaded : FiniteMap Model EngineId) (victims : List Model) (m : Model) :
    (victims.foldl (fun loaded m => loaded.erase m) loaded).lookup m = if m ∈ victims then none else loaded.lookup m := by
  induction victims generalizing loaded with
  | nil => simp
  | cons v victims ih =>
    rw [List.foldl_cons, ih, lookup_erase']
    by_cases hm : m ∈ victims
    · simp [hm]
    · by_cases hv : m = v
      · simp [hv]
      · simp [hm, hv]

theorem lookup_load (model : Model) (n : ℕ) (victims : List Model) (m : Model) :
    (s.load model n victims).loaded.lookup m =
      if m ∈ victims then none else if m = model then some s.nextEngine else s.loaded.lookup m := by
  show (victims.foldl _ (s.loaded.insert model s.nextEngine)).lookup m = _
  rw [lookup_foldl_erase, lookup_insert']

/-- **Every step keeps the handles valid.** -/
theorem Handles.act (h : Handles s) (hbooks : Books s) (a : Action Client Model) : Handles (s.act a) := by
  apply act_cases s a h
  case hload =>
    intro model n victims _ _ _
    constructor
    · intro m e hm
      rw [lookup_load] at hm
      split at hm
      · cases hm
      · split at hm
        case isTrue heq =>
          cases hm
          rw [model?_load, if_pos rfl, heq]
        case isFalse => exact model?_load_of_some hbooks model n victims (h.loaded m e hm)
    · intro t st hst
      exact (h.valid t st hst).mono fun e m he => model?_load_of_some hbooks model n victims he
  case hunload =>
    intro model _
    refine ⟨fun m e hm => h.loaded m e ?_, h.valid⟩
    have hm : (s.loaded.erase model).lookup m = some e := hm
    rw [lookup_erase'] at hm
    split at hm
    · cases hm
    · exact hm
  case harrive =>
    intro request _
    exact ⟨h.loaded, forall_insert trivial fun t st _ hst => h.valid t st hst⟩
  case hmakes =>
    intro t stage o hstage hm
    have hmodel : ∀ e m, s.engines.model? e = some m → o.engines.model? e = some m := by
      intro e m he
      rw [model?_of_makes hm]
      exact he
    constructor
    · intro m e hme
      exact hmodel e m (h.loaded m e hme)
    · apply forall_settle
      · intro st hst
        exact (valid_of_makes h.loaded (h.valid t stage hstage) hm st hst).mono hmodel
      · intro u st _ hst
        exact (h.valid u st hst).mono hmodel

end AppState

end OnnxGenai.Server
