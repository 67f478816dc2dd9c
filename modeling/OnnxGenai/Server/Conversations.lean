import OnnxGenai.Server.Handles
import OnnxGenai.Server.EventLog

/-!
# A session id reaches its own conversation

A binding names a model, a worker and a number, not the engine instance that issued the number. As
long as a model id stands for one instance, this is the same: in every run in which no model id is
loaded twice, and in which a request takes the lease of a binding only while its client id is still
bound to it, every turn, fork and close an engine carries out acts on the conversation of its own
client id, whose close nobody else has requested, and at most one of them is under way for a
conversation at a time. Requests may be dropped and engine calls may fail at any point.

Without the first condition a client id reaches the conversation another client opened under the
same number in the next instance of the model; without the second a turn can take a lease after the
conversation was closed (`another_conversation`).
-/

namespace OnnxGenai.Server

open Lib List

set_option linter.unusedSectionVars false

variable {Client Model : Type} [DecidableEq Client] [DecidableEq Model]

/-- The conversation is one of the binding's model, at its placement. -/
def Names (engines : Engines Model) (b : ModelSessionPlacement Model) (k : Conversation) : Prop :=
  k.placement = b.placement ∧ engines.model? k.engine = some b.model

/-- The client id a lease was taken for is bound to what is leased. -/
def Kept (registry : SessionRegistry Client Model) (guard : SessionLeaseGuard Client Model) : Prop :=
  registry.bindingOf guard.session = some guard.binding

def After.Told (registry : SessionRegistry Client Model) : After Client Model → Prop
  | .turn _ guard => Kept registry guard
  | _ => True

/-- What a request knows of the conversation it has in hand. -/
def Stage.Told (log : List (Event Client)) (registry : SessionRegistry Client Model) (engines : Engines Model) (t : TaskId) :
    Stage Client Model → Prop
  | .created h placement _ => Unbound log t ⟨h.engine, placement⟩
  | .publishing h b _ => Unbound log t (h.conversation b)
  | .refused h _ b => Unbound log t (h.conversation b)
  | .claiming h guard => Unbound log t (h.conversation guard.binding)
  | .closing guard after =>
    (∃ k, Names engines guard.binding k ∧ Closing log t guard.session k) ∧ after.Told registry
  | .closeSending h guard after => Closing log t guard.session (h.conversation guard.binding) ∧ after.Told registry
  | .closeQueued h guard after => Closing log t guard.session (h.conversation guard.binding) ∧ after.Told registry
  | .leased _ guard => Kept registry guard
  | .forkLeased guard _ => Kept registry guard
  | .forkSending _ guard _ => Kept registry guard
  | .forkQueued _ guard _ => Kept registry guard
  | .turnSending _ _ guard _ => ∀ g ∈ guard, Kept registry g
  | .turnQueued _ _ guard _ => ∀ g ∈ guard, Kept registry g
  | .turnRunning _ _ guard => ∀ g ∈ guard, Kept registry g
  | _ => True

variable {log : List (Event Client)} {registry : SessionRegistry Client Model} {engines : Engines Model}

/-- What a request knows stays true while others act: they do not bind or close its
conversation, and do not unbind what it has leased. -/
theorem Stage.Told.mono {log' : List (Event Client)} {registry' : SessionRegistry Client Model}
    {engines' : Engines Model} {t : TaskId} {stage : Stage Client Model} (h : stage.Told log registry engines t)
    (hunbound : ∀ k, Unbound log t k → Unbound log' t k) (hclosing : ∀ c k, Closing log t c k → Closing log' t c k)
    (hkept : ∀ guard, .lease guard.binding ∈ stage.holds → Kept registry guard → Kept registry' guard)
    (hmodel : ∀ e m, engines.model? e = some m → engines'.model? e = some m) :
    stage.Told log' registry' engines' t := by
  have hafter : ∀ after : After Client Model, (∀ r, r ∈ after.holds → r ∈ stage.holds) → after.Told registry →
      after.Told registry' := by
    intro after hsub htold
    cases after with
    | turn handle guard => exact hkept guard (hsub _ (mem_cons_self)) htold
    | done | existing => trivial
  cases stage with
  | created | publishing | refused | claiming => exact hunbound _ h
  | closing guard after =>
    obtain ⟨⟨k, hnames, hk⟩, htold⟩ := h
    exact ⟨⟨k, ⟨hnames.1, hmodel _ _ hnames.2⟩, hclosing _ _ hk⟩, hafter after (fun r hr => mem_cons_of_mem _ hr) htold⟩
  | closeSending | closeQueued => exact ⟨hclosing _ _ h.1, hafter _ (fun _ => mem_cons_of_mem _) h.2⟩
  | leased | forkLeased | forkSending | forkQueued => exact hkept _ mem_cons_self h
  | turnSending | turnQueued | turnRunning =>
    intro g hg
    obtain rfl := Option.mem_def.mp hg
    exact hkept g (by simp [Stage.holds]) (h g hg)
  | arrived | resolved | found | missed | opening | creating | createQueued | forkFound | stateless => trivial

/-- The binding a request is about to lease for a client id. -/
def Stage.leasing : Stage Client Model → Option (Client × ModelSessionPlacement Model)
  | .found _ client binding => some (client, binding)
  | .forkFound source binding _ => some (source, binding)
  | _ => none

namespace AppState

variable {s : AppState Client Model} {stage : Stage Client Model} {t : TaskId} {b : ModelSessionPlacement Model}

/-- A model id is loaded for the first time only, and a request takes a lease only while its client
id is bound to the binding. -/
def Careful (s : AppState Client Model) : Action Client Model → Prop
  | .load model _ _ => ∀ e < s.nextEngine, s.engines.model? e ≠ some model
  | .step t => ∀ stage ∈ s.tasks.lookup t, ∀ p ∈ stage.leasing, s.registry.bindingOf p.1 = some p.2
  | _ => True

/-! ### The invariant -/

/-- Every client id, and every request, knows its own conversation. -/
structure Faithful (s : AppState Client Model) : Prop where
  books : Books s
  handles : Handles s
  /-- A model id stands for one engine instance. -/
  single : ∀ m e e', s.engines.model? e = some m → s.engines.model? e' = some m → e = e'
  proper : Proper s.log
  /-- A worker hands out no number twice. -/
  numbered : ∀ u k, .opened u k ∈ s.log →
    ∃ x, s.engines.worker? k.engine k.placement.worker = some x ∧ k.placement.engineSessionId < x.nextSessionId
  registry : ∀ c b, s.registry.bindingOf c = some b → ∃ k, Names s.engines b k ∧ Current s.log c k
  told : ∀ t st, s.tasks.lookup t = some st → st.Told s.log s.registry s.engines t

variable {handle : ModelHandle Model} {guard : SessionLeaseGuard Client Model} {o : Outcome Client Model}
  {r : SessionRegistry Client Model} {after : After Client Model} {client : Client} {e : EngineId} {w : ℕ}
  {x : Worker} {a : Action Client Model}

theorem Faithful.eq_conversation (h : Faithful s) {k : Conversation} (hreach : handle.Reaches s.engines b)
    (hk : Names s.engines b k) : k = handle.conversation b := by
  have hvalid : s.engines.model? handle.engine = some b.model := by
    rw [hreach.2]
    exact hreach.1
  have hengine := h.single _ _ _ hk.2 hvalid
  cases k with
  | mk engine placement =>
    obtain ⟨rfl, -⟩ := hk
    obtain rfl := hengine
    rfl

theorem names_conversation (hreach : handle.Reaches engines b) : Names engines b (handle.conversation b) :=
  ⟨rfl, by rw [hreach.2]; exact hreach.1⟩

/-- A client id that is bound to what the request has leased is bound to its conversation. -/
theorem Faithful.current (h : Faithful s) (hreach : handle.Reaches s.engines guard.binding)
    (hkept : Kept s.registry guard) : Current s.log guard.session (handle.conversation guard.binding) := by
  obtain ⟨k, hnames, hcur⟩ := h.registry _ _ hkept
  rw [← h.eq_conversation hreach hnames]
  exact hcur

/-- What a step of a request adds to the log, and leaves the registry and the request with. -/
structure Reports (s : AppState Client Model) (t : TaskId) (o : Outcome Client Model) : Prop where
  proper : Proper (o.events ++ s.log)
  own : ∀ e ∈ o.events, e.request = t
  numbered : ∀ u k, .opened u k ∈ o.events →
    ∃ x, o.engines.worker? k.engine k.placement.worker = some x ∧ k.placement.engineSessionId < x.nextSessionId
  registry : ∀ c b, o.registry.bindingOf c = some b → ∃ k, Names s.engines b k ∧ Current (o.events ++ s.log) c k
  told : ∀ st ∈ o.next, st.Told (o.events ++ s.log) o.registry s.engines t

/-! ### Steps without events -/

theorem Faithful.silent (h : Faithful s) (hevents : o.events = [])
    (hbinding : ∀ c, o.registry.bindingOf c = s.registry.bindingOf c)
    (htold : ∀ st ∈ o.next, st.Told s.log s.registry s.engines t) : Reports s t o := by
  have hkept : ∀ guard, Kept s.registry guard → Kept o.registry guard := by
    intro guard hk
    rw [Kept, hbinding]
    exact hk
  constructor
  · rw [hevents]
    exact h.proper
  · simp [hevents]
  · simp [hevents]
  · intro c b hb
    rw [hevents]
    exact h.registry c b ((hbinding c).symm.trans hb)
  · intro st hst
    rw [hevents]
    exact (htold st hst).mono (fun _ hk => hk) (fun _ _ hk => hk) (fun guard _ hk => hkept guard hk) fun _ _ he => he

theorem told_next (h : after.Told registry) : ∀ st ∈ after.next, st.Told log registry engines t := by
  cases after with
  | done => simp [After.next]
  | existing handle client binding =>
    intro st hst
    simp only [After.next] at hst
    split at hst
    · cases hst
      trivial
    · cases hst
  | turn handle guard =>
    intro st hst
    cases hst
    exact h

theorem told_some {next : Stage Client Model} (h : next.Told log registry engines t) :
    ∀ st ∈ (some next : Option (Stage Client Model)), st.Told log registry engines t := by
  intro st hst
  cases hst
  exact h

theorem told_none : ∀ st ∈ (none : Option (Stage Client Model)), st.Told log registry engines t := by
  intro st hst
  cases hst

theorem Faithful.go (h : Faithful s) {next : Option (Stage Client Model)}
    (htold : ∀ st ∈ next, st.Told s.log s.registry s.engines t) : Reports s t (s.go next) :=
  h.silent rfl (fun _ => rfl) htold

/-! ### Steps with events -/

section

variable (h : Faithful s)

include h

/-- One event that binds nobody and frees nobody. -/
theorem Faithful.event {e : Event Client} (hevents : o.events = [e]) (he : e.Proper s.log)
    (hown : e.request = t) (hbinding : ∀ c, o.registry.bindingOf c = s.registry.bindingOf c)
    (hopened : ∀ u k, e ≠ .opened u k) (hbound : ∀ u c k, e ≠ .bound u c k)
    (hrequest : ∀ u c k, e = .closeRequested u c k → Unbound s.log u k)
    (htold : ∀ st ∈ o.next, st.Told (e :: s.log) s.registry s.engines t) : Reports s t o := by
  have hkept : ∀ guard, Kept s.registry guard → Kept o.registry guard := by
    intro guard hk
    rw [Kept, hbinding]
    exact hk
  constructor
  · rw [hevents]
    exact ⟨he, h.proper⟩
  · simp [hevents, hown]
  · intro u k hk
    rw [hevents] at hk
    exact absurd (mem_singleton.mp hk).symm (hopened u k)
  · intro c b hb
    obtain ⟨k, hnames, hcur⟩ := h.registry c b ((hbinding c).symm.trans hb)
    rw [hevents]
    exact ⟨k, hnames, hcur.cons h.proper he (fun u k' => hbound u c k') fun u k' => hrequest u c k'⟩
  · intro st hst
    rw [hevents]
    exact (htold st hst).mono (fun _ hk => hk) (fun _ _ hk => hk) (fun guard _ hk => hkept guard hk) fun _ _ he => he

/-- A number that was not handed out is new. -/
theorem Faithful.not_opened (hx : s.engines.worker? e w = some x) (u : TaskId) :
    .opened u ⟨e, w, x.nextSessionId⟩ ∉ s.log := by
  intro hk
  obtain ⟨x', hx', hlt⟩ := h.numbered u _ hk
  cases hx.symm.trans hx'
  exact lt_irrefl _ hlt

/-- A conversation is opened, after at most one other event. -/
theorem Faithful.opens {next : Option (Stage Client Model)} (hx : s.engines.worker? e w = some x)
    (past : List (Event Client)) (hproper : Proper (past ++ s.log)) (hown : ∀ e ∈ past, e.request = t)
    (hopened : ∀ u k, .opened u k ∉ past) (hbinding : ∀ c, registry.bindingOf c = s.registry.bindingOf c)
    (hcurrent : ∀ c k, Current s.log c k → Current (past ++ s.log) c k)
    (htold : Unbound (.opened t ⟨e, w, x.nextSessionId⟩ :: (past ++ s.log)) t ⟨e, w, x.nextSessionId⟩ →
      ∀ st ∈ next, st.Told (.opened t ⟨e, w, x.nextSessionId⟩ :: (past ++ s.log)) registry s.engines t) :
    Reports s t ⟨registry, s.engines.update e w (·.openSession.commitSession),
      .opened t ⟨e, w, x.nextSessionId⟩ :: past, next⟩ := by
  have hnew : ∀ u, .opened u ⟨e, w, x.nextSessionId⟩ ∉ past ++ s.log := by
    intro u hk
    rcases mem_append.mp hk with hk | hk
    · exact hopened u _ hk
    · exact h.not_opened hx u hk
  constructor
  · exact ⟨hnew, hproper⟩
  · intro e' he'
    rcases mem_cons.mp he' with rfl | he'
    · rfl
    · exact hown e' he'
  · intro u k hk
    rcases mem_cons.mp hk with heq | hk
    · cases heq
      refine ⟨x.openSession.commitSession, ?_, Nat.lt_succ_self _⟩
      rw [Engines.worker?_update_self, hx]
      rfl
    · exact absurd hk (hopened u k)
  · intro c b hb
    obtain ⟨k, hnames, hcur⟩ := h.registry c b ((hbinding c).symm.trans hb)
    refine ⟨k, hnames, (hcurrent c k hcur).cons hproper hnew ?_ ?_⟩
    · intro u k' heq
      cases heq
    · intro u k' heq
      cases heq
  · exact htold (hproper.unbound_of_new hnew)

/-- The close of the conversation of a client id that lost its binding. -/
theorem Faithful.requested_eq (hfrees : SessionRegistry.Frees s.registry guard r) :
    ∃ k, Names s.engines guard.binding k ∧ Current s.log guard.session k ∧
      s.requested t guard = [.closeRequested t guard.session k] := by
  obtain ⟨k, hnames, hcur⟩ := h.registry _ _ hfrees.was
  exact ⟨k, hnames, hcur, by simp [requested, hcur.bound]⟩

/-- A client id is freed, and its conversation is to be closed. -/
theorem Faithful.frees (hfrees : SessionRegistry.Frees s.registry guard r) :
    Reports s t ⟨r, s.engines, s.requested t guard, some (.closing guard .done)⟩ := by
  obtain ⟨k, hnames, hcur, hreq⟩ := h.requested_eq (t := t) hfrees
  rw [hreq]
  constructor
  · exact ⟨.inl hcur, h.proper⟩
  · simp [Event.request]
  · simp
  · intro c b hb
    rw [hfrees.bindingOf] at hb
    split at hb
    · cases hb
    case isFalse hne =>
      obtain ⟨k', hnames', hcur'⟩ := h.registry c b hb
      refine ⟨k', hnames', hcur'.cons h.proper (.inl hcur) ?_ ?_⟩
      · intro u k₁ heq
        cases heq
      · intro u k₁ heq
        cases heq
        exact absurd rfl hne
  · exact told_some ⟨⟨k, hnames, h.proper.closing hcur.not_requested⟩, trivial⟩

/-- A client id is bound to a conversation nobody was told of; the conversation of whoever was
evicted for it is to be closed. -/
theorem Faithful.binds {evicted : Option (SessionLeaseGuard Client Model)}
    (hbinds : SessionRegistry.Binds s.registry client b evicted r) (hreach : handle.Reaches s.engines b)
    (hunbound : Unbound s.log t (handle.conversation b)) (hafter : r.bindingOf client = some b → after.Told r) :
    Reports s t (s.afterBinding t r (.bound t client (handle.conversation b)) evicted after) := by
  have hbound : Proper (.bound t client (handle.conversation b) :: s.log) := ⟨hunbound, h.proper⟩
  have hnew := hunbound.current client
  have hold : ∀ c k, c ≠ client → Current s.log c k →
      Current (.bound t client (handle.conversation b) :: s.log) c k := by
    intro c k hne hcur
    apply hcur.cons (e := .bound t client (handle.conversation b)) h.proper hunbound
    · intro u k' heq
      cases heq
      exact hne rfl
    · intro u k' heq
      cases heq
  obtain ⟨mid, hmid, -, hbinding, -⟩ := hbinds.room
  have hclient : r.bindingOf client = some b := by
    rw [hbinding, if_pos rfl]
  cases evicted with
  | none =>
    obtain ⟨rfl, -⟩ := hmid
    constructor
    · exact hbound
    · simp [afterBinding, Event.request]
    · simp [afterBinding]
    · intro c b' hb'
      have hb' : r.bindingOf c = some b' := hb'
      rw [hbinding] at hb'
      split at hb'
      case isTrue hc =>
        cases hb'
        exact ⟨_, names_conversation hreach, hc ▸ hnew⟩
      case isFalse hne =>
        obtain ⟨k, hnames, hcur⟩ := h.registry c b' hb'
        exact ⟨k, hnames, hold c k hne hcur⟩
    · exact told_next (hafter hclient)
  | some guard =>
    have hfrees := hmid.1
    obtain ⟨k, hnames, hcur, hreq⟩ := h.requested_eq (t := t) hfrees
    have hne : guard.session ≠ client := by
      intro heq
      have hwas := hfrees.was
      rw [heq, hbinds.unbound] at hwas
      cases hwas
    have hcur' := hold _ k hne hcur
    have hrequest : Proper (.closeRequested t guard.session k :: .bound t client (handle.conversation b) :: s.log) :=
      ⟨.inl hcur', hbound⟩
    have hkeep : ∀ c k', c ≠ guard.session → Current (.bound t client (handle.conversation b) :: s.log) c k' →
        Current (.closeRequested t guard.session k :: .bound t client (handle.conversation b) :: s.log) c k' := by
      intro c k' hc hcur₁
      apply hcur₁.cons hbound hrequest.1
      · intro u k₁ heq
        cases heq
      · intro u k₁ heq
        cases heq
        exact absurd rfl hc
    have hout : s.afterBinding t r (.bound t client (handle.conversation b)) (some guard) after =
        ⟨r, s.engines, [.closeRequested t guard.session k, .bound t client (handle.conversation b)],
          some (.closing guard after)⟩ := by
      rw [afterBinding, hreq]
      rfl
    rw [hout]
    constructor
    · exact hrequest
    · simp [Event.request]
    · simp
    · intro c b' hb'
      rw [hbinding] at hb'
      split at hb'
      case isTrue hc =>
        cases hb'
        subst hc
        exact ⟨_, names_conversation hreach, hkeep _ _ hne.symm hnew⟩
      case isFalse hc =>
        rw [hfrees.bindingOf] at hb'
        split at hb'
        · cases hb'
        case isFalse hguard =>
          obtain ⟨k', hnames', hcur₁⟩ := h.registry c b' hb'
          exact ⟨k', hnames', hkeep c k' hguard (hold c k' hc hcur₁)⟩
    · exact told_some ⟨⟨k, hnames, hbound.closing hcur'.not_requested⟩, hafter hclient⟩

/-- The request is to close a conversation nobody was told of. -/
theorem Faithful.gives (guard : SessionLeaseGuard Client Model) (hreach : handle.Reaches s.engines guard.binding)
    (hunbound : Unbound s.log t (handle.conversation guard.binding))
    (hbinding : ∀ c, registry.bindingOf c = s.registry.bindingOf c) (hafter : after.Told s.registry) :
    Reports s t ⟨registry, s.engines, [.closeRequested t guard.session (handle.conversation guard.binding)],
      some (.closing guard after)⟩ := by
  apply h.event (e := .closeRequested t guard.session (handle.conversation guard.binding)) rfl (.inr hunbound) rfl hbinding
  · intro u k heq
    cases heq
  · intro u c k heq
    cases heq
  · intro u c k heq
    cases heq
    exact hunbound
  · exact told_some ⟨⟨_, names_conversation hreach, h.proper.closing hunbound.not_requested⟩, hafter⟩

theorem Faithful.told_goes (hst : s.tasks.lookup t = some stage) {next : Stage Client Model}
    (hg : Goes s stage next) : next.Told s.log s.registry s.engines t := by
  have htold := h.told t stage hst
  cases hg with
  | closeSending hhandle =>
    obtain ⟨⟨k, hnames, hclosing⟩, hafter⟩ := htold
    have hreach := h.handles.loaded.resolve hhandle
    obtain rfl := h.eq_conversation ⟨hreach.1, hreach.2.symm⟩ hnames
    exact ⟨hclosing, hafter⟩
  | turnRunning => exact fun g => nofun
  | publishing | createdUnwatched | refused | leased | closeQueued | forkQueued | forkUnwatched | turnQueued => exact htold
  | _ => trivial

/-- A lease is taken, while the client id is bound or for a conversation nobody was told of. -/
theorem Faithful.reports_leases (hst : s.tasks.lookup t = some stage) (ha : Careful s a)
    {events : List (Event Client)} {next : Stage Client Model} (hl : Leases t a client b stage events next) :
    Reports s t ⟨{ s.registry with leases := insert b s.registry.leases }, s.engines, events, some next⟩ := by
  have htold := h.told t stage hst
  cases hl with
  | leased hstep | forkLeased hstep =>
    subst hstep
    exact h.silent rfl (fun _ => rfl) (told_some (ha _ hst _ rfl))
  | claiming => exact h.silent rfl (fun _ => rfl) (told_some htold)
  | closing => exact h.gives ⟨client, b⟩ (h.handles.valid t _ hst) htold (fun _ => rfl) trivial

/-- Every step of a request reports what it does, under the conditions. -/
theorem Faithful.reports (hst : s.tasks.lookup t = some stage) (hm : Makes s t stage a o)
    (ha : Careful s a) : Reports s t o := by
  have hvalid := h.handles.valid t stage hst
  have htold := h.told t stage hst
  cases effect_of_makes hm with
  | goes hg => exact h.go (told_some (h.told_goes hst hg))
  | ends => exact h.go told_none
  | reads hget hr =>
    apply h.silent rfl (SessionRegistry.touch_eq_some hget).2.bindingOf
    cases hr with
    | found | foundAgain | forkFound => exact told_some trivial
    | resolved | missed => exact told_none
  | leases hfree hl => exact h.reports_leases hst ha hl
  | frees htake => exact h.frees (SessionRegistry.takeForClose_ok htake).2
  | inserts hins => exact h.binds (SessionRegistry.insert_ok hins) hvalid htold fun _ => trivial
  | claims hclaim => exact h.binds (SessionRegistry.claim_ok hclaim) hvalid htold fun hkept => hkept
  | yields hclaim => exact h.gives _ hvalid htold (SessionRegistry.claim_existing hclaim).2.bindingOf trivial
  | gives => exact h.gives _ hvalid htold (fun _ => rfl) trivial
  | places => exact h.silent rfl (fun _ => rfl) (told_some trivial)
  | placesFork => exact h.silent rfl (fun _ => rfl) (told_some htold)
  | placesTurn => exact h.silent rfl (fun _ => rfl) (told_some fun g => nofun)
  | @submits handle guard =>
    have hkept : Kept s.registry guard := htold
    exact h.silent rfl (fun _ => rfl) (told_some (by simpa [Stage.Told] using hkept))
  | opens hx =>
    apply h.opens hx [] h.proper (by simp) (by simp) (fun _ => rfl) (fun _ _ hk => hk)
    exact fun hk => told_some hk
  | @forks handle guard child x hx =>
    have hcur := h.current hvalid htold
    apply h.opens hx [.forked t guard.session (handle.conversation guard.binding)] ⟨hcur, h.proper⟩
    · simp [Event.request]
    · simp
    · exact fun _ => rfl
    · intro c k hk
      exact hk.cons (e := .forked t guard.session (handle.conversation guard.binding)) h.proper hcur
        (fun _ _ => nofun) fun _ _ => nofun
    · exact fun hk => told_some hk
  | @closes handle guard =>
    apply h.event (e := .closed t guard.session (handle.conversation guard.binding)) rfl htold.1 rfl fun _ => rfl
    · exact fun _ _ => nofun
    · exact fun _ _ _ => nofun
    · exact fun _ _ _ => nofun
    · exact told_next htold.2
  | @turns handle w guard =>
    have hcur := h.current (hvalid.2 guard rfl) (htold guard rfl)
    apply h.event (e := .turn t guard.session (handle.conversation guard.binding)) rfl hcur rfl fun _ => rfl
    · exact fun _ _ => nofun
    · exact fun _ _ _ => nofun
    · exact fun _ _ _ => nofun
    · exact told_some htold
  | releases hr =>
    apply h.silent rfl fun _ => rfl
    cases hr with
    | unloaded => exact told_next htold.2
    | unwatched => exact told_some ⟨htold.1, trivial⟩
    | _ => exact told_none
  | takesBack | unreserves | endsTurn => exact h.silent rfl (fun _ => rfl) told_none

end

/-! ### Every step -/

/-- A worker never goes back in its numbers. -/
theorem EngineStep.next_le (h : EngineStep s stage engines) (hx : s.engines.worker? e w = some x) :
    ∃ x', engines.worker? e w = some x' ∧ x.nextSessionId ≤ x'.nextSessionId := by
  have hupdate : ∀ (e' : EngineId) (w' : ℕ) (f : Worker → Worker),
      (∀ y ∈ s.engines.worker? e' w', y.nextSessionId ≤ (f y).nextSessionId) →
      ∃ x', (s.engines.update e' w' f).worker? e w = some x' ∧ x.nextSessionId ≤ x'.nextSessionId := by
    intro e' w' f hf
    rw [Engines.worker?_update]
    split
    case isTrue heq =>
      obtain ⟨rfl, rfl⟩ := heq
      exact ⟨f x, by rw [hx]; rfl, hf x hx⟩
    case isFalse => exact ⟨x, hx, le_rfl⟩
  cases h with
  | same => exact ⟨x, hx, le_rfl⟩
  | counts e' w' hf => exact hupdate e' w' _ fun y _ => (hf y).2.1.ge
  | opened e' w' => exact hupdate e' w' _ fun y _ => Nat.le_succ _
  | tookBack handle placement hstage =>
    apply hupdate
    intro y _
    unfold Worker.takeBack Worker.closeSession
    split <;> exact le_rfl
  | closed hstage hx₀ hclose =>
    apply hupdate
    intro y hy
    cases hx₀.symm.trans hy
    obtain ⟨-, rfl⟩ := Worker.close_eq_some.mp hclose
    exact le_rfl

theorem Faithful.load (h : Faithful s) (model : Model) (n : ℕ) (victims : List Model)
    (hnew : ∀ e < s.nextEngine, s.engines.model? e ≠ some model) (hbooks : Books (s.load model n victims))
    (hhandles : Handles (s.load model n victims)) : Faithful (s.load model n victims) := by
  have hmodel : ∀ e m, s.engines.model? e = some m → (s.load model n victims).engines.model? e = some m :=
    fun e m he => model?_load_of_some h.books model n victims he
  have hnone : ∀ e, s.engines.model? e ≠ some model := by
    intro e he
    rcases lt_or_ge e s.nextEngine with hlt | hge
    · exact hnew e hlt he
    · rw [Engines.model?, h.books.newEngine e hge] at he
      cases he
  refine ⟨hbooks, hhandles, ?_, h.proper, ?_, ?_, ?_⟩
  · intro m e e' he he'
    rw [model?_load] at he he'
    split at he
    case isTrue heq =>
      cases he
      split at he'
      case isTrue heq' => exact heq.trans heq'.symm
      case isFalse => exact absurd he' (hnone e')
    case isFalse =>
      split at he'
      case isTrue =>
        cases he'
        exact absurd he (hnone e)
      case isFalse => exact h.single m e e' he he'
  · intro u k hk
    obtain ⟨x, hx, hlt⟩ := h.numbered u k hk
    refine ⟨x, ?_, hlt⟩
    rw [worker?_load, if_neg]
    · exact hx
    · intro heq
      rw [heq, worker?_eq_none h.books le_rfl] at hx
      cases hx
  · intro c b hb
    obtain ⟨k, hnames, hcur⟩ := h.registry c b hb
    exact ⟨k, ⟨hnames.1, hmodel _ _ hnames.2⟩, hcur⟩
  · intro t st hst
    exact (h.told t st hst).mono (fun _ hk => hk) (fun _ _ hk => hk) (fun _ _ hk => hk) hmodel

theorem Faithful.apply (h : Faithful s) (hst : s.tasks.lookup t = some stage) (hm : Makes s t stage a o)
    (ha : Careful s a) (hbooks : Books (s.apply t o)) (hhandles : Handles (s.apply t o)) :
    Faithful (s.apply t o) := by
  have hr := h.reports hst hm ha
  have hmodel : ∀ e, o.engines.model? e = s.engines.model? e := model?_of_makes hm
  have hnames : ∀ b k, Names s.engines b k → Names o.engines b k := by
    intro b k hk
    exact ⟨hk.1, (hmodel _).trans hk.2⟩
  refine ⟨hbooks, hhandles, ?_, hr.proper, ?_, ?_, ?_⟩
  · intro m e e' he he'
    exact h.single m e e' ((hmodel e).symm.trans he) ((hmodel e').symm.trans he')
  · intro u k hk
    rcases mem_append.mp hk with hk | hk
    · exact hr.numbered u k hk
    · obtain ⟨x, hx, hlt⟩ := h.numbered u k hk
      obtain ⟨x', hx', hle⟩ := (engineStep_of_makes hm).next_le hx
      exact ⟨x', hx', hlt.trans_le hle⟩
  · intro c b hb
    obtain ⟨k, hk, hcur⟩ := hr.registry c b hb
    exact ⟨k, hnames b k hk, hcur⟩
  · apply forall_settle
    · intro st hnext
      exact (hr.told st hnext).mono (fun _ hk => hk) (fun _ _ hk => hk) (fun _ _ hk => hk)
        fun e m he => (hmodel e).trans he
    · intro u st hne hu
      have hother : ∀ e ∈ o.events, e.request ≠ u := by
        intro e he
        rw [hr.own e he]
        exact hne.symm
      refine (h.told u st hu).mono (fun k hk => hk.append o.events hr.proper hother)
        (fun c k hk => hk.append o.events hr.proper hother) ?_ fun e m he => (hmodel e).trans he
      -- What another request has leased is not unbound.
      intro guard hlease hkept
      by_contra hlost
      have hfree := (registryStep_of_makes hm).free_of_unbound hkept hlost
      exact h.books.not_held hfree hu hlease

/-- **Every step that meets the conditions keeps the invariant.** -/
theorem Faithful.act (h : Faithful s) (ha : Careful s a) : Faithful (s.act a) := by
  have hbooks := h.books.act a
  have hhandles := h.handles.act h.books a
  revert hbooks hhandles
  apply act_cases s a (P := fun s' => Books s' → Handles s' → Faithful s')
  case hsame => exact fun _ _ => h
  case hload =>
    intro model n victims heq _ _ hbooks hhandles
    subst heq
    exact h.load model n victims ha hbooks hhandles
  case hunload =>
    intro model _ hbooks hhandles
    exact ⟨hbooks, hhandles, h.single, h.proper, h.numbered, h.registry, h.told⟩
  case harrive =>
    intro request _ hbooks hhandles
    refine ⟨hbooks, hhandles, h.single, h.proper, h.numbered, h.registry, ?_⟩
    exact FiniteMap.forall_insert trivial fun t st _ hst => h.told t st hst
  case hmakes =>
    intro t stage o hst hm hbooks hhandles
    exact h.apply hst hm ha hbooks hhandles

/-! ### Runs -/

instance decidableCareful (s : AppState Client Model) : DecidablePred (Careful s)
  | .load model _ _ => inferInstanceAs (Decidable (∀ e < s.nextEngine, s.engines.model? e ≠ some model))
  | .step t => inferInstanceAs
      (Decidable (∀ stage ∈ s.tasks.lookup t, ∀ p ∈ stage.leasing, s.registry.bindingOf p.1 = some p.2))
  | .unload _ => .isTrue trivial
  | .fail _ => .isTrue trivial
  | .arrive _ => .isTrue trivial
  | .abandon _ => .isTrue trivial
  | .submit _ _ => .isTrue trivial

end AppState

end OnnxGenai.Server
