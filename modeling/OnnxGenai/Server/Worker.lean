import OnnxGenai.Lib.MinBy
import OnnxGenai.Lib.FiniteMap

/-!
# Engine workers

A loaded model is an engine instance with one or more workers. Each worker owns an engine of its
own, which numbers its sessions from its own counter and never reuses a number, and keeps three
counters that requests on other threads read and write under a lock: the sessions that are live,
those that are being opened, and the turns that are queued or running.

Workers stay healthy here, so the health of a worker and the errors of a failed or stopped one
are left out. An instance that was unloaded stays in the map: requests that still hold its handle
reach it, nobody else does.
-/

namespace OnnxGenai.Server

open Lib Option FiniteMap

set_option linter.unusedSectionVars false

/-- One worker: the sessions of its engine, and the counters of its lifecycle. -/
structure Worker where
  nextSessionId : ℕ
  sessions : Finset ℕ
  liveSessions : ℕ
  pendingSessions : ℕ
  activeTurns : ℕ
  deriving DecidableEq

namespace Worker

def new : Worker := ⟨0, ∅, 0, 0, 0⟩

/-! ### The engine -/

/-- Open a session, or the child of a fork, under the next number. -/
def openSession (w : Worker) : Worker :=
  { w with nextSessionId := w.nextSessionId + 1, sessions := insert w.nextSessionId w.sessions }

/-- Close a session; `none` if there is no such session. -/
def closeSession (w : Worker) (session : ℕ) : Option Worker :=
  if session ∈ w.sessions then some { w with sessions := w.sessions.erase session } else none

/-! ### The counters -/

def placementLoad (w : Worker) : ℕ := w.liveSessions + w.pendingSessions

def reserveSession (w : Worker) : Worker := { w with pendingSessions := w.pendingSessions + 1 }

/-- A reservation becomes a live session. -/
def commitSession (w : Worker) : Worker :=
  { w with pendingSessions := w.pendingSessions - 1, liveSessions := w.liveSessions + 1 }

def releasePendingSession (w : Worker) : Worker := { w with pendingSessions := w.pendingSessions - 1 }

def releaseLiveSession (w : Worker) : Worker := { w with liveSessions := w.liveSessions - 1 }

def reserveTurn (w : Worker) : Worker := { w with activeTurns := w.activeTurns + 1 }

def releaseTurn (w : Worker) : Worker := { w with activeTurns := w.activeTurns - 1 }

/-- The engine's answer to a close, with the accounting the driver does for it. -/
def close (w : Worker) (session : ℕ) : Option Worker := (w.closeSession session).map releaseLiveSession

/-- The driver takes a session back that nobody acknowledged. -/
def takeBack (w : Worker) (session : ℕ) : Worker := ((w.closeSession session).getD w).releaseLiveSession

/-- The live counter counts the open sessions, and their numbers were all handed out. -/
structure Sound (w : Worker) : Prop where
  live : w.liveSessions = w.sessions.card
  below : ∀ n ∈ w.sessions, n < w.nextSessionId

variable {w w' : Worker} {n : ℕ}

theorem close_eq_some :
    w.close n = some w' ↔
      n ∈ w.sessions ∧ w' = { w with sessions := w.sessions.erase n, liveSessions := w.liveSessions - 1 } := by
  unfold close closeSession
  split
  case isTrue h => simp [h, releaseLiveSession, eq_comm]
  case isFalse h => simp [h]

theorem sessions_of_close (h : w.close n = some w') : w'.sessions = w.sessions.erase n := by
  obtain ⟨-, rfl⟩ := close_eq_some.mp h
  rfl

theorem takeBack_eq (h : w.close n = some w') : w.takeBack n = w' := by
  obtain ⟨w₀, hclose, rfl⟩ := map_eq_some_iff.mp h
  rw [takeBack, hclose, getD_some]

theorem sound_new : Sound new := ⟨rfl, by simp [new]⟩

theorem Sound.next_not_mem (h : w.Sound) : w.nextSessionId ∉ w.sessions := fun hmem =>
  lt_irrefl _ (h.below _ hmem)

theorem Sound.openSession (h : w.Sound) : (w.openSession.commitSession).Sound := by
  constructor
  · show w.liveSessions + 1 = (insert w.nextSessionId w.sessions).card
    rw [Finset.card_insert_of_notMem h.next_not_mem, h.live]
  · intro n hn
    rcases Finset.mem_insert.mp hn with rfl | hn
    · exact Nat.lt_succ_self _
    · exact (h.below n hn).trans (Nat.lt_succ_self _)

theorem Sound.close (h : w.Sound) (hclose : w.close n = some w') : w'.Sound := by
  obtain ⟨hn, rfl⟩ := close_eq_some.mp hclose
  constructor
  · rw [Finset.card_erase_of_mem hn, h.live]
  · intro m hm
    exact h.below m (Finset.mem_of_mem_erase hm)

end Worker

/-! ### Engine instances -/

/-- An engine instance. -/
abbrev EngineId := ℕ

/-- The workers of an engine instance, and the model it was loaded as. -/
structure EngineDriver (Model : Type) where
  model : Model
  workers : List Worker
  deriving DecidableEq

/-- All engine instances. -/
abbrev Engines (Model : Type) := FiniteMap EngineId (EngineDriver Model)

variable {Model : Type}

namespace Engines

/-- A worker of an instance. -/
def worker? (engines : Engines Model) (e : EngineId) (w : ℕ) : Option Worker :=
  (engines.lookup e).bind fun driver => driver.workers[w]?

/-- The model of an instance. -/
def model? (engines : Engines Model) (e : EngineId) : Option Model := (engines.lookup e).map (·.model)

/-- Change one worker. -/
def update (engines : Engines Model) (e : EngineId) (w : ℕ) (f : Worker → Worker) : Engines Model :=
  FiniteMap.adjust engines e fun driver => { driver with workers := driver.workers.modify w f }

/-- The worker a new session is placed on: the first of those with the least load. -/
def placeSession (engines : Engines Model) (e : EngineId) : Option ℕ :=
  (engines.lookup e).bind fun driver =>
    (minBy (fun a b => compare a.1.placementLoad b.1.placementLoad) driver.workers.zipIdx).map (·.2)

/-- The worker a stateless turn goes to: the first of those with the fewest turns. -/
def placeTurn (engines : Engines Model) (e : EngineId) : Option ℕ :=
  (engines.lookup e).bind fun driver =>
    (minBy (fun a b => compare a.1.activeTurns b.1.activeTurns) driver.workers.zipIdx).map (·.2)

theorem worker?_update (engines : Engines Model) (e e' : EngineId) (w w' : ℕ) (f : Worker → Worker) :
    (engines.update e w f).worker? e' w' =
      if e' = e ∧ w' = w then (engines.worker? e w).map f else engines.worker? e' w' := by
  unfold worker? update
  rw [lookup_adjust]
  by_cases he : e' = e
  · subst he
    cases engines.lookup e' with
    | none => simp
    | some driver =>
      by_cases hw : w' = w
      · subst hw
        simp
      · simp [hw, Ne.symm hw]
  · rw [if_neg he, if_neg fun h => he h.1]

@[simp] theorem worker?_update_self (engines : Engines Model) (e : EngineId) (w : ℕ) (f : Worker → Worker) :
    (engines.update e w f).worker? e w = (engines.worker? e w).map f := by
  rw [worker?_update, if_pos ⟨rfl, rfl⟩]

@[simp] theorem model?_update (engines : Engines Model) (e e' : EngineId) (w : ℕ) (f : Worker → Worker) :
    (engines.update e w f).model? e' = engines.model? e' := by
  unfold model? update
  rw [lookup_adjust]
  split
  case isTrue h =>
    rw [h, map_map]
    rfl
  case isFalse => rfl

variable {engines : Engines Model} {e : EngineId} {w : ℕ}

theorem lookup_update_eq_none {e' : EngineId} {f : Worker → Worker} :
    (engines.update e w f).lookup e' = none ↔ engines.lookup e' = none := by
  unfold update
  rw [lookup_adjust]
  split
  case isTrue h => rw [h, map_eq_none_iff]
  case isFalse => rfl

theorem isSome_worker?_update (engines : Engines Model) (e e' : EngineId) (w w' : ℕ) (f : Worker → Worker) :
    ((engines.update e w f).worker? e' w').isSome = (engines.worker? e' w').isSome := by
  rw [worker?_update]
  split
  case isTrue h => rw [isSome_map, h.1, h.2]
  case isFalse => rfl

theorem worker?_of_minBy {ws : List Worker} {cmp : Worker × ℕ → Worker × ℕ → Ordering}
    (h : (minBy cmp ws.zipIdx).map (·.2) = some w) : (ws[w]?).isSome := by
  obtain ⟨⟨x, i⟩, hmin, rfl⟩ := map_eq_some_iff.mp h
  have := List.mem_zipIdx_iff_getElem?.mp (minBy_mem hmin)
  rw [this]
  rfl

theorem placeSession_some (h : engines.placeSession e = some w) : (engines.worker? e w).isSome := by
  obtain ⟨driver, hdriver, hw⟩ := bind_eq_some_iff.mp h
  rw [worker?, hdriver, bind_some]
  exact worker?_of_minBy hw

theorem placeTurn_some (h : engines.placeTurn e = some w) : (engines.worker? e w).isSome := by
  obtain ⟨driver, hdriver, hw⟩ := bind_eq_some_iff.mp h
  rw [worker?, hdriver, bind_some]
  exact worker?_of_minBy hw

end Engines

end OnnxGenai.Server
