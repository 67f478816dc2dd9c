import OnnxGenai.Lib.FiniteMap

/-!
# The session registry

A client's conversation lives in the engine of one model, on one worker, under a number that
engine handed out. The registry maps client ids to such bindings, at most `maxSessions` of
them, and knows which bindings have a turn in flight: a turn, a fork or a close must first take
the binding's lease. A new binding that finds the registry full takes the place of the least
recently used one whose lease is free, and hands that lease back to its caller, who has to
close the conversation; a delete does the same with the binding it names.

Each function here runs under the registry's lock and is atomic. The lease set is sharded in
the source; a shard is only a part of one set. A guard carries the client id its lease was taken
for, which the source uses in refusals only.
-/

namespace OnnxGenai.Server

open Lib FiniteMap

set_option linter.unusedSectionVars false

variable {Client Model : Type} [DecidableEq Client] [DecidableEq Model]

/-- Where a conversation lives inside a model's engine. -/
structure SessionPlacement where
  worker : ℕ
  engineSessionId : ℕ
  deriving DecidableEq

/-- Where a conversation lives: the model, and the placement inside its engine. -/
structure ModelSessionPlacement (Model : Type) where
  model : Model
  placement : SessionPlacement
  deriving DecidableEq

/-! ### Leases -/

/-- The bindings with a turn in flight. -/
abbrev SessionLeases (Model : Type) := Finset (ModelSessionPlacement Model)

/-- A held lease, and the client id it was taken for. -/
structure SessionLeaseGuard (Client Model : Type) where
  session : Client
  binding : ModelSessionPlacement Model
  deriving DecidableEq

/-- The refusal of a lease. -/
inductive PackageExecutionError (Client : Type) where
  | exclusiveLeaseConflict (session : Client)
  deriving DecidableEq

namespace SessionLeases

/-- Take the exclusive lease of a binding, or refuse by name. -/
def acquire (leases : SessionLeases Model) (binding : ModelSessionPlacement Model) (session : Client) :
    Except (PackageExecutionError Client) (SessionLeases Model) :=
  if binding ∈ leases then .error (.exclusiveLeaseConflict session) else .ok (insert binding leases)

/-- What dropping a guard does. -/
def release (leases : SessionLeases Model) (binding : ModelSessionPlacement Model) : SessionLeases Model :=
  leases.erase binding

theorem acquire_eq_ok {leases leases' : SessionLeases Model} {binding : ModelSessionPlacement Model} {session : Client} :
    acquire leases binding session = .ok leases' ↔ binding ∉ leases ∧ leases' = insert binding leases := by
  unfold acquire
  split
  case isTrue h => simp [h]
  case isFalse h => simp [h, eq_comm]

theorem acquire_eq_error {leases : SessionLeases Model} {binding : ModelSessionPlacement Model} {session : Client}
    {e : PackageExecutionError Client} :
    acquire leases binding session = .error e ↔ binding ∈ leases ∧ e = .exclusiveLeaseConflict session := by
  unfold acquire
  split
  case isTrue h => simp [h, eq_comm]
  case isFalse h => simp [h]

end SessionLeases

/-! ### The registry -/

structure SessionEntry (Model : Type) where
  binding : ModelSessionPlacement Model
  lastAccess : ℕ

inductive SessionRegistryError where
  | atCapacity (bound : ℕ)
  | alreadyBound
  deriving DecidableEq

inductive SessionCloseError (Client : Type) where
  | notFound
  | busy (error : PackageExecutionError Client)
  deriving DecidableEq

/-- What became of a client id two requests may race to bind. -/
inductive SessionClaim (Client Model : Type) where
  | existing (binding : ModelSessionPlacement Model)
  | claimed (evicted : Option (SessionLeaseGuard Client Model))

structure SessionRegistry (Client Model : Type) where
  maxSessions : ℕ
  sessions : FiniteMap Client (SessionEntry Model)
  accessClock : ℕ
  leases : SessionLeases Model

namespace SessionRegistry

/-- An empty registry. -/
def new (maxSessions : ℕ) : SessionRegistry Client Model := ⟨maxSessions, ∅, 0, ∅⟩

section
variable (r : SessionRegistry Client Model)

/-- The clock after one more access: a saturating 64-bit counter. -/
def tick : ℕ := min (r.accessClock + 1) (2 ^ 64 - 1)

/-- Record an access and report the binding, or `none` if unbound. -/
def touch (client : Client) :
    Option (ModelSessionPlacement Model × SessionRegistry Client Model) :=
  (r.sessions.lookup client).map fun entry =>
    (entry.binding, { r with
      accessClock := r.tick
      sessions := r.sessions.insert client { entry with lastAccess := r.tick } })

/-- Bind a client id that is known not to be bound yet. -/
def bind (client : Client) (binding : ModelSessionPlacement Model) :
    SessionRegistry Client Model :=
  { r with accessClock := r.tick, sessions := r.sessions.insert client ⟨binding, r.tick⟩ }

/-- Drop a binding. -/
def unbind (client : Client) : SessionRegistry Client Model :=
  { r with sessions := r.sessions.erase client }

/-- The conversation a client id names. -/
def get (client : Client) :
    Option (ModelSessionPlacement Model × SessionRegistry Client Model) := r.touch client

/-- Take the lease of a binding. -/
def acquire (r : SessionRegistry Client Model) (binding : ModelSessionPlacement Model) (client : Client) :
    Except (PackageExecutionError Client) (SessionRegistry Client Model) := do
  return { r with leases := ← r.leases.acquire binding client }

/-- Give the lease of a binding back. -/
def release (r : SessionRegistry Client Model) (binding : ModelSessionPlacement Model) : SessionRegistry Client Model :=
  { r with leases := r.leases.release binding }

/-- The bindings in the order of their last access. -/
def candidates : List (Σ _ : Client, SessionEntry Model) :=
  r.sessions.entries.insertionSort fun a b => a.2.lastAccess ≤ b.2.lastAccess

/-- Drop the least recently accessed binding whose lease can be taken, and take that lease. -/
def evictLru :
    Except SessionRegistryError (SessionLeaseGuard Client Model × SessionRegistry Client Model) :=
  match r.candidates.find? fun e => e.2.binding ∉ r.leases with
  | some ⟨client, entry⟩ =>
    .ok (⟨client, entry.binding⟩, { r.unbind client with leases := insert entry.binding r.leases })
  | none => .error (.atCapacity r.sessions.entries.length)

/-- Make room for one more binding, or refuse. -/
def makeRoom :
    Except SessionRegistryError (Option (SessionLeaseGuard Client Model) × SessionRegistry Client Model) :=
  if r.sessions.entries.length < r.maxSessions then .ok (none, r)
  else r.evictLru.map fun (guard, r) => (some guard, r)

/-- Bind a fresh client id to a conversation, evicting under pressure. -/
def insert (client : Client) (binding : ModelSessionPlacement Model) :
    Except SessionRegistryError (Option (SessionLeaseGuard Client Model) × SessionRegistry Client Model) :=
  if (r.sessions.lookup client).isSome then .error .alreadyBound
  else r.makeRoom.map fun (evicted, r) => (evicted, r.bind client binding)

/-- Bind a client id to a conversation, unless somebody has bound it by now. -/
def claim (client : Client) (binding : ModelSessionPlacement Model) :
    Except SessionRegistryError (SessionClaim Client Model × SessionRegistry Client Model) :=
  match r.touch client with
  | some (existing, r) => .ok (.existing existing, r)
  | none => r.makeRoom.map fun (evicted, r) => (.claimed evicted, r.bind client binding)

/-- Unbind a client id and hand its conversation over to be closed, under its lease. -/
def takeForClose (client : Client) :
    Except (SessionCloseError Client) (SessionLeaseGuard Client Model × SessionRegistry Client Model) :=
  match r.sessions.lookup client with
  | none => .error .notFound
  | some entry =>
    match r.leases.acquire entry.binding client with
    | .ok leases => .ok (⟨client, entry.binding⟩, { r.unbind client with leases := leases })
    | .error e => .error (.busy e)

/-! ### What the registry says -/

/-- The binding of a client id. -/
def bindingOf (client : Client) : Option (ModelSessionPlacement Model) :=
  (r.sessions.lookup client).map (·.binding)

/-- How many client ids are bound to a binding. -/
def bound (b : ModelSessionPlacement Model) : ℕ :=
  FiniteMap.total r.sessions fun entry => if entry.binding = b then 1 else 0

end

variable {r r' : SessionRegistry Client Model} {b : ModelSessionPlacement Model} {c : Client}
  {e : SessionRegistryError} {evicted : Option (SessionLeaseGuard Client Model)}

theorem bound_pos {client : Client} (h : r.bindingOf client = some b) : 0 < r.bound b := by
  obtain ⟨entry, hentry, rfl⟩ := Option.map_eq_some_iff.mp h
  have := le_total (fun e : SessionEntry Model => if e.binding = entry.binding then 1 else 0) hentry
  rw [if_pos rfl] at this
  exact this

theorem exists_of_bound_pos (h : 0 < r.bound b) : ∃ client, r.bindingOf client = some b := by
  obtain ⟨client, entry, hentry, hpos⟩ := exists_of_total_pos h
  refine ⟨client, ?_⟩
  have hb : entry.binding = b := by
    by_contra hne
    rw [if_neg hne] at hpos
    exact absurd hpos (lt_irrefl 0)
  rw [bindingOf, hentry, Option.map_some, hb]

/-- Two client ids with the same binding are counted twice. -/
theorem client_unique {d : Client} (hone : r.bound b ≤ 1) (hc : r.bindingOf c = some b)
    (hd : r.bindingOf d = some b) : c = d := by
  by_contra hne
  obtain ⟨e, he, heb⟩ := Option.map_eq_some_iff.mp hc
  obtain ⟨f, hf, hfb⟩ := Option.map_eq_some_iff.mp hd
  have := add_le_total (fun e : SessionEntry Model => if e.binding = b then 1 else 0) (Ne.symm hne) he hf
  rw [if_pos heb, if_pos hfb] at this
  have hle : total r.sessions (fun e : SessionEntry Model => if e.binding = b then 1 else 0) ≤ 1 := hone
  omega

/-- Nothing but the access times differs. -/
structure Same (r r' : SessionRegistry Client Model) : Prop where
  maxSessions : r'.maxSessions = r.maxSessions
  bindingOf : ∀ c, r'.bindingOf c = r.bindingOf c
  bound : ∀ b, r'.bound b = r.bound b
  length : r'.sessions.entries.length = r.sessions.entries.length
  leases : r'.leases = r.leases

theorem touch_eq_some (h : r.touch c = some (b, r')) : r.bindingOf c = some b ∧ Same r r' := by
  obtain ⟨entry, hentry, hpair⟩ := Option.map_eq_some_iff.mp h
  cases hpair
  refine ⟨by rw [bindingOf, hentry, Option.map_some], rfl, fun d => ?_, fun b => ?_, ?_, rfl⟩
  · unfold bindingOf
    rw [lookup_insert']
    split
    case isTrue hd => rw [hd, hentry, Option.map_some, Option.map_some]
    case isFalse => rfl
  · have := total_insert r.sessions (fun e : SessionEntry Model => if e.binding = b then 1 else 0) c
      { entry with lastAccess := r.tick }
    rw [hentry] at this
    exact Nat.add_right_cancel this
  · exact length_insert_some r.sessions _ hentry

theorem touch_eq_none : r.touch c = none ↔ r.bindingOf c = none := by
  simp [touch, bindingOf]

/-! ### Making room -/

theorem mem_candidates {e : Σ _ : Client, SessionEntry Model} : e ∈ r.candidates ↔ e ∈ r.sessions.entries :=
  List.mem_insertionSort _

/-- `client` gives up its binding, and whoever made it do so holds the lease. -/
structure Frees (r : SessionRegistry Client Model) (guard : SessionLeaseGuard Client Model)
    (r' : SessionRegistry Client Model) : Prop where
  was : r.bindingOf guard.session = some guard.binding
  free : guard.binding ∉ r.leases
  leases : r'.leases = Insert.insert guard.binding r.leases
  maxSessions : r'.maxSessions = r.maxSessions
  bindingOf : ∀ c, r'.bindingOf c = if c = guard.session then none else r.bindingOf c
  bound : ∀ b, r'.bound b + (if guard.binding = b then 1 else 0) = r.bound b
  length : r'.sessions.entries.length + 1 = r.sessions.entries.length

theorem frees_unbind {entry : SessionEntry Model} (h : r.sessions.lookup c = some entry)
    (hfree : entry.binding ∉ r.leases) :
    Frees r ⟨c, entry.binding⟩ { r.unbind c with leases := Insert.insert entry.binding r.leases } := by
  refine ⟨by rw [bindingOf, h, Option.map_some], hfree, rfl, rfl, fun d => ?_, fun b => ?_, ?_⟩
  · show ((r.sessions.erase c).lookup d).map (·.binding) = _
    rw [lookup_erase']
    split
    · rfl
    · rfl
  · have := total_erase r.sessions (fun e : SessionEntry Model => if e.binding = b then 1 else 0) c
    rw [h] at this
    exact this
  · exact length_erase_some r.sessions h

theorem evictLru_ok {guard : SessionLeaseGuard Client Model} (h : r.evictLru = .ok (guard, r')) :
    Frees r guard r' := by
  unfold evictLru at h
  split at h
  case h_1 client entry hfind =>
    cases h
    have hmem := mem_candidates.mp (List.mem_of_find?_eq_some hfind)
    have hfree := List.find?_some hfind
    exact frees_unbind (lookup_of_mem_entries hmem) (of_decide_eq_true hfree)
  case h_2 => cases h

/-- A refusal for want of room: every binding is leased. -/
theorem evictLru_error (h : r.evictLru = .error e) : ∀ c b, r.bindingOf c = some b → b ∈ r.leases := by
  unfold evictLru at h
  split at h
  case h_1 => cases h
  case h_2 hfind =>
    intro c b hb
    obtain ⟨entry, hentry, rfl⟩ := Option.map_eq_some_iff.mp hb
    have := List.find?_eq_none.mp hfind _ (mem_candidates.mpr (mem_entries_of_lookup hentry))
    simpa using this

theorem takeForClose_ok {guard : SessionLeaseGuard Client Model} (h : r.takeForClose c = .ok (guard, r')) :
    guard.session = c ∧ Frees r guard r' := by
  unfold takeForClose at h
  split at h
  · cases h
  case h_2 entry hentry =>
    split at h
    case h_1 leases hacq =>
      obtain ⟨hfree, rfl⟩ := SessionLeases.acquire_eq_ok.mp hacq
      cases h
      exact ⟨rfl, frees_unbind hentry hfree⟩
    · cases h

/-! ### Binding -/

/-- `client` is bound to `binding` now; if the registry was full, somebody else was evicted. -/
structure Binds (r : SessionRegistry Client Model) (client : Client) (binding : ModelSessionPlacement Model)
    (evicted : Option (SessionLeaseGuard Client Model)) (r' : SessionRegistry Client Model) : Prop where
  unbound : r.bindingOf client = none
  room : ∃ mid, (match evicted with
      | none => mid = r ∧ r.sessions.entries.length < r.maxSessions
      | some guard => Frees r guard mid ∧ r.maxSessions ≤ r.sessions.entries.length) ∧
    r'.leases = mid.leases ∧
    (∀ c, r'.bindingOf c = if c = client then some binding else mid.bindingOf c) ∧
    (∀ b, r'.bound b = mid.bound b + if binding = b then 1 else 0) ∧
    r'.sessions.entries.length = mid.sessions.entries.length + 1
  maxSessions : r'.maxSessions = r.maxSessions

theorem bindingOf_bind (r : SessionRegistry Client Model) (c d : Client) (b : ModelSessionPlacement Model) :
    (r.bind c b).bindingOf d = if d = c then some b else r.bindingOf d := by
  show ((r.sessions.insert c ⟨b, r.tick⟩).lookup d).map (·.binding) = _
  rw [lookup_insert']
  split
  · rfl
  · rfl

theorem bound_bind (h : r.bindingOf c = none) (b b' : ModelSessionPlacement Model) :
    (r.bind c b).bound b' = r.bound b' + if b = b' then 1 else 0 := by
  have := total_insert r.sessions (fun e : SessionEntry Model => if e.binding = b' then 1 else 0) c
    ⟨b, r.tick⟩
  rw [Option.map_eq_none_iff.mp h] at this
  exact this

theorem binds_of_makeRoom {mid : SessionRegistry Client Model} (hc : r.bindingOf c = none)
    (h : r.makeRoom = .ok (evicted, mid)) : Binds r c b evicted (mid.bind c b) := by
  unfold makeRoom at h
  split at h
  case isTrue hlt =>
    cases h
    exact ⟨hc, ⟨r, ⟨rfl, hlt⟩, rfl, fun d => bindingOf_bind r c d b, bound_bind hc b,
      length_insert_new r.sessions _ (Option.map_eq_none_iff.mp hc)⟩, rfl⟩
  case isFalse hlt =>
    cases hevict : r.evictLru with
    | error e =>
      rw [hevict] at h
      cases h
    | ok pair =>
      obtain ⟨guard, r'⟩ := pair
      rw [hevict] at h
      obtain ⟨rfl, rfl⟩ := Prod.mk.inj (Except.ok.inj h)
      have hfrees := evictLru_ok hevict
      have hmid : r'.bindingOf c = none := by
        rw [hfrees.bindingOf]
        split
        · rfl
        · exact hc
      exact ⟨hc, ⟨r', ⟨hfrees, not_lt.mp hlt⟩, rfl, fun d => bindingOf_bind r' c d b, bound_bind hmid b,
        length_insert_new r'.sessions _ (Option.map_eq_none_iff.mp hmid)⟩, hfrees.maxSessions⟩

theorem makeRoom_error (h : r.makeRoom = .error e) : ∀ c b, r.bindingOf c = some b → b ∈ r.leases := by
  unfold makeRoom at h
  split at h
  · cases h
  · cases hevict : r.evictLru with
    | error e' => exact evictLru_error hevict
    | ok pair =>
      rw [hevict] at h
      cases h

/-- What a granted `insert` does. -/
theorem insert_ok (h : r.insert c b = .ok (evicted, r')) : Binds r c b evicted r' := by
  unfold insert at h
  split at h
  · cases h
  case isFalse hnone =>
    cases hroom : r.makeRoom with
    | error e =>
      rw [hroom] at h
      cases h
    | ok pair =>
      rw [hroom] at h
      cases h
      exact binds_of_makeRoom (Option.map_eq_none_iff.mpr (by simpa using hnone)) hroom

/-- What a claim does. -/
theorem claim_ok {result : SessionClaim Client Model} (h : r.claim c b = .ok (result, r')) :
    match result with
    | .existing e => r.bindingOf c = some e ∧ Same r r'
    | .claimed evicted => Binds r c b evicted r' := by
  unfold claim at h
  cases htouch : r.touch c with
  | some pair =>
    obtain ⟨e, mid⟩ := pair
    rw [htouch] at h
    cases h
    exact touch_eq_some htouch
  | none =>
    rw [htouch] at h
    cases hroom : r.makeRoom with
    | error e =>
      rw [hroom] at h
      cases h
    | ok pair =>
      rw [hroom] at h
      cases h
      exact binds_of_makeRoom (touch_eq_none.mp htouch) hroom

theorem claim_existing {e : ModelSessionPlacement Model} (h : r.claim c b = .ok (.existing e, r')) :
    r.bindingOf c = some e ∧ Same r r' := claim_ok h

/-- A request refused for want of room finds every binding leased. -/
theorem insert_atCapacity {n : ℕ} (h : r.insert c b = .error (.atCapacity n)) :
    ∀ d b', r.bindingOf d = some b' → b' ∈ r.leases := by
  unfold insert at h
  split at h
  · cases h
  · cases hroom : r.makeRoom with
    | error e => exact makeRoom_error hroom
    | ok pair =>
      rw [hroom] at h
      cases h

theorem claim_error (h : r.claim c b = .error e) : ∀ d b', r.bindingOf d = some b' → b' ∈ r.leases := by
  unfold claim at h
  split at h
  · cases h
  · cases hroom : r.makeRoom with
    | error e => exact makeRoom_error hroom
    | ok pair =>
      rw [hroom] at h
      cases h

theorem Binds.length_le (h : Binds r c b evicted r') (hle : r.sessions.entries.length ≤ r.maxSessions) :
    r'.sessions.entries.length ≤ r'.maxSessions := by
  obtain ⟨mid, hmid, -, -, -, hlen⟩ := h.room
  rw [h.maxSessions]
  cases evicted with
  | none =>
    obtain ⟨rfl, hlt⟩ := hmid
    omega
  | some guard =>
    have := hmid.1.length
    omega

end SessionRegistry

end OnnxGenai.Server
