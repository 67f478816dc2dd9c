import OnnxGenai.Server.Requests

/-!
# Logs of conversations

What a log must look like for every client id to reach its own conversation only. An event is
proper after a past if it acts on the right conversation: a request binds what it opened itself,
a turn or a fork acts on the conversation its client id was last bound to, whose close nobody has
requested, and a close is carried out for the one request that asked for it (`Event.Proper`).

In a proper log a conversation has one opener, is bound at most once, and its close is requested at
most once. What a request knows of its own conversation is therefore not changed by the events of
other requests.
-/

namespace OnnxGenai.Server

open List

variable {Client : Type} [DecidableEq Client]

/-- The close of the conversation was requested. -/
def CloseRequested (log : List (Event Client)) (k : Conversation) : Prop := ∃ t c, .closeRequested t c k ∈ log

/-- Somebody was bound to the conversation. -/
def EverBound (log : List (Event Client)) (k : Conversation) : Prop := ∃ t c, .bound t c k ∈ log

/-- The request opened the conversation, and nobody was told of it. -/
structure Unbound (log : List (Event Client)) (t : TaskId) (k : Conversation) : Prop where
  opened : .opened t k ∈ log
  not_bound : ¬ EverBound log k
  not_requested : ¬ CloseRequested log k

/-- The request is to close the conversation, and nobody has closed it. -/
structure Closing (log : List (Event Client)) (t : TaskId) (client : Client) (k : Conversation) : Prop where
  requested : .closeRequested t client k ∈ log
  not_closed : ∀ u c, .closed u c k ∉ log

/-- The client id was last bound to the conversation, and nobody is to close it. -/
structure Current (log : List (Event Client)) (client : Client) (k : Conversation) : Prop where
  bound : lastBound log client = some k
  not_requested : ¬ CloseRequested log k

/-- The event acts on the right conversation. -/
def Event.Proper (past : List (Event Client)) : Event Client → Prop
  | .opened _ k => ∀ t, .opened t k ∉ past
  | .bound t _ k => Unbound past t k
  | .closeRequested t client k => Current past client k ∨ Unbound past t k
  | .turn _ client k => Current past client k
  | .forked _ client k => Current past client k
  | .closed t client k => Closing past t client k

/-- Every event of the log acts on the right conversation. The newest event comes first. -/
def Proper : List (Event Client) → Prop
  | [] => True
  | e :: past => e.Proper past ∧ Proper past

/-! ### What follows -/

variable {log : List (Event Client)} {t u : TaskId} {c d : Client} {k k' : Conversation} {e : Event Client}

theorem lastBound_mem (h : lastBound log c = some k) : ∃ t, .bound t c k ∈ log := by
  obtain ⟨e, he, hk⟩ := exists_of_findSome?_eq_some h
  cases e with
  | bound t c' k' =>
    simp only at hk
    split at hk
    case isTrue hc =>
      cases hk
      exact ⟨t, hc ▸ he⟩
    case isFalse => cases hk
  | _ => cases hk

theorem lastBound_bound (t : TaskId) (c : Client) (k : Conversation) (log : List (Event Client)) :
    lastBound (.bound t c k :: log) c = some k := by
  simp [lastBound, findSome?_cons]

/-- A client id that is not bound anew keeps its conversation. -/
theorem lastBound_cons (h : ∀ t k, e ≠ .bound t c k) : lastBound (e :: log) c = lastBound log c := by
  cases e with
  | bound t c' k =>
    have hne : c' ≠ c := by
      rintro rfl
      exact h t k rfl
    simp [lastBound, findSome?_cons, hne]
  | _ => simp [lastBound, findSome?_cons]

theorem Current.everBound (h : Current log c k) : ∃ t, .bound t c k ∈ log := lastBound_mem h.bound

namespace Proper

/-- A request binds only what it opened. -/
theorem opened_of_bound (h : Proper log) (hb : .bound t c k ∈ log) : .opened t k ∈ log := by
  induction log with
  | nil => cases hb
  | cons e past ih =>
    rcases mem_cons.mp hb with rfl | hb
    · exact mem_cons_of_mem _ h.1.opened
    · exact mem_cons_of_mem _ (ih h.2 hb)

/-- A conversation has one opener. -/
theorem opened_unique (h : Proper log) (ht : .opened t k ∈ log) (hu : .opened u k ∈ log) : t = u := by
  induction log with
  | nil => cases ht
  | cons e past ih =>
    rcases mem_cons.mp ht with rfl | ht'
    · rcases mem_cons.mp hu with heq | hu
      · cases heq
        rfl
      · exact absurd hu (h.1 u)
    · rcases mem_cons.mp hu with rfl | hu
      · exact absurd ht' (h.1 t)
      · exact ih h.2 ht' hu

/-- A conversation is bound once. -/
theorem bound_unique (h : Proper log) (ht : .bound t c k ∈ log) (hu : .bound u d k ∈ log) : c = d := by
  induction log with
  | nil => cases ht
  | cons e past ih =>
    rcases mem_cons.mp ht with rfl | ht'
    · rcases mem_cons.mp hu with heq | hu
      · cases heq
        rfl
      · exact absurd ⟨u, d, hu⟩ h.1.not_bound
    · rcases mem_cons.mp hu with rfl | hu
      · exact absurd ⟨t, c, ht'⟩ h.1.not_bound
      · exact ih h.2 ht' hu

/-- What a close request is about was open. -/
theorem opened_of_requested (h : Proper log) (hr : CloseRequested log k) : ∃ t, .opened t k ∈ log := by
  obtain ⟨t, c, hr⟩ := hr
  induction log with
  | nil => cases hr
  | cons e past ih =>
    rcases mem_cons.mp hr with rfl | hr
    · rcases h.1 with hcur | hunb
      · obtain ⟨u, hu⟩ := hcur.everBound
        exact ⟨u, mem_cons_of_mem _ (h.2.opened_of_bound hu)⟩
      · exact ⟨t, mem_cons_of_mem _ hunb.opened⟩
    · obtain ⟨u, hu⟩ := ih h.2 hr
      exact ⟨u, mem_cons_of_mem _ hu⟩

theorem not_requested_of_proper {past : List (Event Client)} (h : (Event.closeRequested t c k).Proper past) :
    ¬ CloseRequested past k :=
  h.elim Current.not_requested Unbound.not_requested

/-- A close is requested once. -/
theorem requested_unique (h : Proper log) (ht : .closeRequested t c k ∈ log) (hu : .closeRequested u d k ∈ log) :
    t = u := by
  induction log with
  | nil => cases ht
  | cons e past ih =>
    rcases mem_cons.mp ht with rfl | ht'
    · rcases mem_cons.mp hu with heq | hu
      · cases heq
        rfl
      · exact absurd ⟨u, d, hu⟩ (not_requested_of_proper h.1)
    · rcases mem_cons.mp hu with rfl | hu
      · exact absurd ⟨t, c, ht'⟩ (not_requested_of_proper h.1)
      · exact ih h.2 ht' hu

/-- Nobody closes what nobody is to close. -/
theorem not_closed (h : Proper log) (hr : ¬ CloseRequested log k) : .closed t c k ∉ log := by
  intro hclosed
  induction log with
  | nil => cases hclosed
  | cons e past ih =>
    rcases mem_cons.mp hclosed with rfl | hclosed
    · exact hr ⟨t, c, mem_cons_of_mem _ h.1.requested⟩
    · apply ih h.2 _ hclosed
      rintro ⟨u, d, hu⟩
      exact hr ⟨u, d, mem_cons_of_mem _ hu⟩

/-- A conversation nobody opened is new to the log. -/
theorem unbound_of_new (h : Proper log) (hnew : ∀ u, .opened u k ∉ log) : Unbound (.opened t k :: log) t k := by
  refine ⟨mem_cons_self, ?_, ?_⟩
  · rintro ⟨u, c, hb⟩
    rcases mem_cons.mp hb with heq | hb
    · cases heq
    · exact hnew u (h.opened_of_bound hb)
  · rintro ⟨u, c, hr⟩
    rcases mem_cons.mp hr with heq | hr
    · cases heq
    · obtain ⟨v, hv⟩ := h.opened_of_requested ⟨u, c, hr⟩
      exact hnew v hv

end Proper

/-! ### The events of other requests -/

/-- The request that makes an event. -/
def Event.request : Event Client → TaskId
  | .opened t _ => t
  | .bound t _ _ => t
  | .closeRequested t _ _ => t
  | .turn t _ _ => t
  | .forked t _ _ => t
  | .closed t _ _ => t

/-- Nobody else binds or closes a conversation nobody was told of. -/
theorem Unbound.cons (hk : Unbound log u k) (h : Proper log) (he : e.Proper log) (hne : e.request ≠ u) :
    Unbound (e :: log) u k := by
  refine ⟨mem_cons_of_mem _ hk.opened, ?_, ?_⟩
  · rintro ⟨t, c, hb⟩
    rcases mem_cons.mp hb with rfl | hb
    · exact hne (h.opened_unique he.opened hk.opened)
    · exact hk.not_bound ⟨t, c, hb⟩
  · rintro ⟨t, c, hr⟩
    rcases mem_cons.mp hr with rfl | hr
    · rcases he with hcur | hunb
      · obtain ⟨v, hv⟩ := hcur.everBound
        exact hk.not_bound ⟨v, c, hv⟩
      · exact hne (h.opened_unique hunb.opened hk.opened)
    · exact hk.not_requested ⟨t, c, hr⟩

/-- Nobody else closes a conversation somebody is to close. -/
theorem Closing.cons (hk : Closing log u c k) (h : Proper log) (he : e.Proper log) (hne : e.request ≠ u) :
    Closing (e :: log) u c k := by
  refine ⟨mem_cons_of_mem _ hk.requested, fun v d hclosed => ?_⟩
  rcases mem_cons.mp hclosed with rfl | hclosed
  · exact hne (h.requested_unique he.requested hk.requested)
  · exact hk.not_closed v d hclosed

theorem Unbound.append (new : List (Event Client)) (hk : Unbound log u k) (h : Proper (new ++ log))
    (hne : ∀ e ∈ new, e.request ≠ u) : Unbound (new ++ log) u k := by
  induction new with
  | nil => exact hk
  | cons e new ih =>
    have hrest := ih h.2 fun e' he' => hne e' (mem_cons_of_mem _ he')
    exact hrest.cons h.2 h.1 (hne e mem_cons_self)

theorem Closing.append (new : List (Event Client)) (hk : Closing log u c k) (h : Proper (new ++ log))
    (hne : ∀ e ∈ new, e.request ≠ u) : Closing (new ++ log) u c k := by
  induction new with
  | nil => exact hk
  | cons e new ih =>
    have hrest := ih h.2 fun e' he' => hne e' (mem_cons_of_mem _ he')
    exact hrest.cons h.2 h.1 (hne e mem_cons_self)

/-- A new close request. -/
theorem Proper.closing (h : Proper log) (hr : ¬ CloseRequested log k) : Closing (.closeRequested t c k :: log) t c k := by
  refine ⟨mem_cons_self, fun u d hclosed => ?_⟩
  rcases mem_cons.mp hclosed with heq | hclosed
  · cases heq
  · exact h.not_closed hr hclosed

/-- A new binding is current. -/
theorem Unbound.current (hk : Unbound log t k) (c : Client) : Current (.bound t c k :: log) c k := by
  refine ⟨lastBound_bound t c k log, ?_⟩
  rintro ⟨u, d, hr⟩
  rcases mem_cons.mp hr with heq | hr
  · cases heq
  · exact hk.not_requested ⟨u, d, hr⟩

/-- A conversation stays current until its client id is bound anew or its close is requested. -/
theorem Current.cons (hk : Current log c k) (h : Proper log) (he : e.Proper log) (hbound : ∀ t k', e ≠ .bound t c k')
    (hrequest : ∀ t k', e = .closeRequested t c k' → Unbound log t k') : Current (e :: log) c k := by
  refine ⟨by rw [lastBound_cons hbound]; exact hk.bound, ?_⟩
  rintro ⟨t, d, hr⟩
  rcases mem_cons.mp hr with rfl | hr
  · obtain ⟨v, hv⟩ := hk.everBound
    rcases he with hcur | hunb
    · obtain ⟨v', hv'⟩ := hcur.everBound
      obtain rfl := h.bound_unique hv hv'
      exact (hrequest t k rfl).not_bound ⟨v, c, hv⟩
    · exact hunb.not_bound ⟨v, c, hv⟩
  · exact hk.not_requested ⟨t, d, hr⟩

end OnnxGenai.Server
