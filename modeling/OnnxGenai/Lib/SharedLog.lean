import OnnxGenai.Lib.FiniteMap

/-!
# A log with many readers

A log grows at its end, and each reader stands at some point of it. A reader takes its next
entry by naming it: where the log already goes on, the entry has to be the one that is there;
at the end of the log the entry is written, provided its key comes after the last key. So
whoever is first writes the log, and the others can only repeat it.

In a well-formed log the keys increase strictly and no reader stands beyond the end. What a
reader has taken is then a part of the log from its start (`accepted`), and taking one more
entry adds it to what this reader has and changes nothing of what the others have.
-/

namespace OnnxGenai.Lib

open List

/-- A log, and how far each reader has come. -/
structure SharedLog (ι α : Type) [DecidableEq ι] where
  /-- The entries, oldest first. -/
  entries : List α
  /-- For each reader the number of entries it has taken. -/
  cursors : FiniteMap ι ℕ

namespace SharedLog

variable {ι α κ : Type} [DecidableEq ι] [DecidableEq α] [LinearOrder κ]

/-- Why a reader does not get its entry. -/
inductive Refusal (α : Type) where
  /-- The log does not know the reader. -/
  | unknownReader
  /-- Another entry stands at the reader's place. -/
  | diverged (cursor : ℕ) (expected : α)
  /-- The entry does not come after the last one. -/
  | notAfter (previous : α)
deriving DecidableEq, Repr

/-- The log without entries, every reader at its start. -/
def empty (readers : List ι) : SharedLog ι α :=
  ⟨[], readers.foldr (fun reader m => m.insert reader 0) ∅⟩

/-- The reader's cursor moves past the entry at `cursor`. -/
def move (log : SharedLog ι α) (reader : ι) (cursor : ℕ) : SharedLog ι α :=
  { log with cursors := log.cursors.insert reader (cursor + 1) }

/-- A new last entry. -/
def push (log : SharedLog ι α) (entry : α) : SharedLog ι α :=
  { log with entries := log.entries ++ [entry] }

/-- A reader takes its next entry. -/
def advance (key : α → κ) (log : SharedLog ι α) (reader : ι) (entry : α) :
    Except (Refusal α) (SharedLog ι α) :=
  match log.cursors.lookup reader with
  | none => .error .unknownReader
  | some cursor =>
    match log.entries[cursor]? with
    | some expected =>
      if expected = entry then .ok (log.move reader cursor) else .error (.diverged cursor expected)
    | none =>
      match log.entries.getLast? with
      | none => .ok ((log.push entry).move reader cursor)
      | some previous =>
        if key entry ≤ key previous then .error (.notAfter previous)
        else .ok ((log.push entry).move reader cursor)

/-- The entries a reader has taken. -/
def accepted (log : SharedLog ι α) (reader : ι) : List α :=
  log.entries.take ((log.cursors.lookup reader).getD 0)

/-- The keys increase strictly, and no reader stands beyond the end. -/
structure WellFormed (key : α → κ) (log : SharedLog ι α) : Prop where
  increasing : log.entries.Pairwise fun a b => key a < key b
  within : ∀ reader cursor, log.cursors.lookup reader = some cursor → cursor ≤ log.entries.length

/-! ### The parts of an advance -/

@[simp] theorem entries_move (log : SharedLog ι α) (reader : ι) (cursor : ℕ) :
    (log.move reader cursor).entries = log.entries := rfl

@[simp] theorem entries_push (log : SharedLog ι α) (entry : α) :
    (log.push entry).entries = log.entries ++ [entry] := rfl

@[simp] theorem cursors_push (log : SharedLog ι α) (entry : α) : (log.push entry).cursors = log.cursors := rfl

theorem lookup_move (log : SharedLog ι α) (reader other : ι) (cursor : ℕ) :
    (log.move reader cursor).cursors.lookup other =
      if other = reader then some (cursor + 1) else log.cursors.lookup other :=
  FiniteMap.lookup_insert' _ _ _ _

@[simp] theorem entries_empty (readers : List ι) : (empty readers : SharedLog ι α).entries = [] := rfl

theorem lookup_empty (readers : List ι) (reader : ι) :
    (empty readers : SharedLog ι α).cursors.lookup reader = if reader ∈ readers then some 0 else none := by
  unfold empty
  induction readers with
  | nil => simp
  | cons first rest ih =>
    simp only [foldr_cons, FiniteMap.lookup_insert', mem_cons]
    by_cases h : reader = first
    · simp [h]
    · simpa [h] using ih

@[simp] theorem accepted_empty (readers : List ι) (reader : ι) :
    (empty readers : SharedLog ι α).accepted reader = [] := by
  simp [accepted]

theorem wellFormed_empty (key : α → κ) (readers : List ι) : (empty readers : SharedLog ι α).WellFormed key := by
  constructor
  · exact List.Pairwise.nil
  · intro reader cursor h
    rw [lookup_empty] at h
    split at h
    · simp_all
    · simp at h

/-- What a reader has taken is a part of the log from its start. -/
theorem accepted_isPrefix (log : SharedLog ι α) (reader : ι) : log.accepted reader <+: log.entries :=
  take_prefix _ _

/-! ### What an accepted advance does -/

/-- An accepted advance: the entry was there, or it comes after every entry and is written;
only this reader's cursor moves. -/
structure Took (key : α → κ) (log : SharedLog ι α) (reader : ι) (entry : α) (log' : SharedLog ι α) : Prop where
  grown : log'.entries = log.entries ∨
    log'.entries = log.entries ++ [entry] ∧ ∀ a ∈ log.entries, key a < key entry
  known : (log.cursors.lookup reader).isSome
  same : ∀ other, (log'.cursors.lookup other).isSome = (log.cursors.lookup other).isSome
  mine : log'.accepted reader = log.accepted reader ++ [entry]
  others : ∀ other, other ≠ reader → log'.accepted other = log.accepted other
  wellFormed : log'.WellFormed key

variable {key : α → κ} {log log' : SharedLog ι α} {entry : α} {reader : ι}

section

variable (h : log.WellFormed key)

include h

/-- The last key of a strictly increasing log is the largest. -/
theorem WellFormed.lt_of_last {previous : α} (hlast : log.entries.getLast? = some previous)
    (hlt : key previous < key entry) : ∀ a ∈ log.entries, key a < key entry := by
  intro a ha
  obtain ⟨front, hfront⟩ := getLast?_eq_some_iff.mp hlast
  have hinc := h.increasing
  rw [hfront] at ha hinc
  rcases mem_append.mp ha with ha | ha
  · have := (pairwise_append.mp hinc).2.2 a ha previous (by simp)
    exact this.trans hlt
  · rw [mem_singleton.mp ha]
    exact hlt

/-- Moving a cursor over an entry that is there. -/
theorem WellFormed.took_move {cursor : ℕ}
    (hcursor : log.cursors.lookup reader = some cursor) (hentry : log.entries[cursor]? = some entry) :
    Took key log reader entry (log.move reader cursor) := by
  have hlt : cursor < log.entries.length := (List.getElem?_eq_some_iff.mp hentry).1
  refine ⟨.inl rfl, by simp [hcursor], ?_, ?_, ?_, h.increasing, ?_⟩
  · intro other
    rw [lookup_move]
    split
    case isTrue heq =>
      subst heq
      simp [hcursor]
    case isFalse => rfl
  · simp only [accepted, lookup_move, if_true, hcursor, Option.getD_some, entries_move]
    rw [take_add_one, hentry]
    rfl
  · intro other hne
    simp only [accepted, lookup_move, if_neg hne, entries_move]
  · intro other c hc
    rw [lookup_move] at hc
    split at hc
    · cases hc
      exact hlt
    · exact h.within other c hc

/-- Writing an entry after the last one. -/
theorem WellFormed.push (hafter : ∀ a ∈ log.entries, key a < key entry) : (log.push entry).WellFormed key := by
  constructor
  · rw [entries_push, pairwise_append]
    exact ⟨h.increasing, pairwise_singleton _ _, fun a ha b hb => mem_singleton.mp hb ▸ hafter a ha⟩
  · intro reader cursor hc
    have := h.within reader cursor hc
    rw [entries_push, length_append]
    omega

/-- A reader within the log keeps what it has when the log grows. -/
theorem WellFormed.accepted_push (entry : α) (reader : ι) :
    (log.push entry).accepted reader = log.accepted reader := by
  simp only [accepted, entries_push, cursors_push]
  apply take_append_of_le_length
  cases hc : log.cursors.lookup reader with
  | none => exact Nat.zero_le _
  | some cursor => exact h.within reader cursor hc

/-- A reader at the end of the log writes the next entry. -/
theorem WellFormed.took_push {cursor : ℕ}
    (hcursor : log.cursors.lookup reader = some cursor) (hend : log.entries[cursor]? = none)
    (hafter : ∀ a ∈ log.entries, key a < key entry) :
    Took key log reader entry ((log.push entry).move reader cursor) := by
  have hlen : cursor = log.entries.length :=
    le_antisymm (h.within reader cursor hcursor) (getElem?_eq_none_iff.mp hend)
  have hthere : (log.push entry).entries[cursor]? = some entry := by
    rw [hlen, entries_push, getElem?_concat_length]
  have hmoved : Took key (log.push entry) reader entry ((log.push entry).move reader cursor) :=
    (h.push hafter).took_move hcursor hthere
  exact {
    grown := .inr ⟨rfl, hafter⟩
    known := hmoved.known
    same := hmoved.same
    mine := by rw [hmoved.mine, h.accepted_push]
    others := fun other hne => by rw [hmoved.others other hne, h.accepted_push]
    wellFormed := hmoved.wellFormed }

/-- **What an accepted advance does.** -/
theorem WellFormed.took (hok : log.advance key reader entry = .ok log') : Took key log reader entry log' := by
  unfold advance at hok
  split at hok
  case h_1 => cases hok
  case h_2 cursor hcursor =>
    split at hok
    case h_1 expected hentry =>
      split at hok
      case isFalse => cases hok
      case isTrue heq =>
        subst heq
        cases hok
        exact h.took_move hcursor hentry
    case h_2 hend =>
      split at hok
      case h_1 hnil =>
        cases hok
        apply h.took_push hcursor hend
        rw [getLast?_eq_none_iff.mp hnil]
        intro a ha
        cases ha
      case h_2 previous hlast =>
        split at hok
        case isTrue => cases hok
        case isFalse hlt =>
          cases hok
          exact h.took_push hcursor hend (h.lt_of_last hlast (not_le.mp hlt))

end

/-- The entry taken comes after everything this reader took before. -/
theorem Took.after (h : Took key log reader entry log') : ∀ a ∈ log.accepted reader, key a < key entry := by
  have hinc : (log'.accepted reader).Pairwise fun a b => key a < key b :=
    h.wellFormed.increasing.sublist (log'.accepted_isPrefix reader).sublist
  rw [h.mine, pairwise_append] at hinc
  intro a ha
  exact hinc.2.2 a ha entry (by simp)

/-- An entry of the new log was there before or is the one taken. -/
theorem Took.mem_entries {a : α} (h : Took key log reader entry log') (ha : a ∈ log'.entries) :
    a ∈ log.entries ∨ a = entry := by
  rcases h.grown with heq | ⟨heq, -⟩
  · exact .inl (heq ▸ ha)
  · rw [heq] at ha
    simpa using ha

/-- **When a new entry is accepted.** An entry whose key comes after all keys of the log can
only be taken by a reader who stands at the end. -/
theorem WellFormed.advance_new (h : log.WellFormed key) (hafter : ∀ a ∈ log.entries, key a < key entry) :
    (∃ log', log.advance key reader entry = .ok log') ↔ log.cursors.lookup reader = some log.entries.length := by
  unfold advance
  cases hcursor : log.cursors.lookup reader with
  | none => simp
  | some cursor =>
    have hle := h.within reader cursor hcursor
    simp only [Option.some.injEq]
    cases hentry : log.entries[cursor]? with
    | some expected =>
      have hlt : cursor < log.entries.length := (List.getElem?_eq_some_iff.mp hentry).1
      have hne : expected ≠ entry := by
        rintro rfl
        exact lt_irrefl _ (hafter expected (mem_of_getElem? hentry))
      simp only [hne, if_false]
      constructor
      · rintro ⟨_, hbad⟩
        cases hbad
      · intro heq
        omega
    | none =>
      have hlen : cursor = log.entries.length := le_antisymm hle (getElem?_eq_none_iff.mp hentry)
      simp only [hlen, iff_true]
      cases hlast : log.entries.getLast? with
      | none => exact ⟨_, rfl⟩
      | some previous =>
        have hlt := hafter previous (mem_of_getLast? hlast)
        simp only [not_le.mpr hlt, if_false]
        exact ⟨_, rfl⟩

end SharedLog

end OnnxGenai.Lib
