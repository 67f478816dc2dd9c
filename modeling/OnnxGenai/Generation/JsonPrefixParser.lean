import OnnxGenai.Lib.Json

/-!
# The JSON prefix parser

The recogniser behind the JSON constraint: a machine with a stack of open containers, each with what
it expects next, and a mode for the scalar being read. It reads one character at a time; a text is a
valid prefix when no character is refused, and complete when a root value has been finished and
nothing is open.

A number ends only at the first character that does not belong to it. The machine then finishes the
value and reads the same character again in the normal mode.

White space is what `char::is_whitespace` says, and a letter of a literal is compared with the low
byte of the character's code. Both accept more than JSON.
-/

namespace OnnxGenai.Generation

open Lib.Json

/-! ### The machine -/

abbrev ContainerKind := Kind

inductive Expect where
  | keyOrEnd
  | key
  | colon
  | valueOrEnd
  | value
  | commaOrEnd
  deriving DecidableEq, Repr

structure Container where
  kind : ContainerKind
  expect : Expect
  deriving DecidableEq, Repr

inductive StringRole where
  | key
  | value
  deriving DecidableEq, Repr

inductive NumberPhase where
  | minus
  | zero
  | int
  | dot
  | fraction
  | expStart
  | expSign
  | expDigits
  deriving DecidableEq, Repr

inductive Mode where
  | normal
  | string (role : StringRole) (escape : Bool) (unicodeRemaining : ℕ)
  | number (phase : NumberPhase)
  | literal (target : List Char) (matched : ℕ)
  deriving DecidableEq, Repr

/-- `char::is_whitespace`: the Unicode property `White_Space`. -/
def IsWhitespace (ch : Char) : Prop :=
  (0x09 ≤ ch.toNat ∧ ch.toNat ≤ 0x0d) ∨ ch.toNat = 0x20 ∨ ch.toNat = 0x85 ∨ ch.toNat = 0xa0 ∨ ch.toNat = 0x1680 ∨
    (0x2000 ≤ ch.toNat ∧ ch.toNat ≤ 0x200a) ∨ ch.toNat = 0x2028 ∨ ch.toNat = 0x2029 ∨ ch.toNat = 0x202f ∨
    ch.toNat = 0x205f ∨ ch.toNat = 0x3000

instance : DecidablePred IsWhitespace := fun _ => inferInstanceAs (Decidable (_ ∨ _))

/-- The letter expected of a literal against `ch as u8`. -/
def SameByte (expected ch : Char) : Prop := expected.toNat = ch.toNat % 256

instance : DecidableRel SameByte := fun _ _ => inferInstanceAs (Decidable (_ = _))

namespace NumberPhase

def start (ch : Char) : Option NumberPhase :=
  if ch = '-' then some .minus else if ch = '0' then some .zero else if NonzeroDigit ch then some .int else none

def isComplete : NumberPhase → Bool
  | .zero | .int | .fraction | .expDigits => true
  | _ => false

def consume : NumberPhase → Char → Option NumberPhase
  | .minus, ch => if ch = '0' then some .zero else if NonzeroDigit ch then some .int else none
  | .zero, ch => if ch = '.' then some .dot else if ch = 'e' ∨ ch = 'E' then some .expStart else none
  | .int, ch =>
    if ch = '.' then some .dot else if ch = 'e' ∨ ch = 'E' then some .expStart
    else if Digit ch then some .int else none
  | .dot, ch => if Digit ch then some .fraction else none
  | .fraction, ch => if ch = 'e' ∨ ch = 'E' then some .expStart else if Digit ch then some .fraction else none
  | .expStart, ch => if ch = '+' ∨ ch = '-' then some .expSign else if Digit ch then some .expDigits else none
  | .expSign, ch => if Digit ch then some .expDigits else none
  | .expDigits, ch => if Digit ch then some .expDigits else none

end NumberPhase

/-- The top of the stack is the head of the list. -/
structure JsonPrefixParser where
  stack : List Container
  rootComplete : Bool
  mode : Mode
  deriving DecidableEq, Repr

namespace JsonPrefixParser

def new : JsonPrefixParser := ⟨[], false, .normal⟩

def finishValue (self : JsonPrefixParser) : Option JsonPrefixParser :=
  match self.stack with
  | parent :: rest =>
    match parent.kind, parent.expect with
    | .object, .value | .array, .value | .array, .valueOrEnd =>
      some { self with stack := { parent with expect := .commaOrEnd } :: rest }
    | _, _ => none
  | [] => if self.rootComplete then none else some { self with rootComplete := true }

def closeContainer (self : JsonPrefixParser) (kind : ContainerKind) : Option JsonPrefixParser :=
  match self.stack with
  | [] => none
  | container :: rest => if container.kind ≠ kind then none else { self with stack := rest }.finishValue

def currentExpect (self : JsonPrefixParser) : Expect := self.stack.head?.elim .value Container.expect

/-- Set what the innermost container expects. -/
def setExpect (self : JsonPrefixParser) (expect : Expect) : Option JsonPrefixParser :=
  match self.stack with
  | [] => none
  | top :: rest => some { self with stack := { top with expect } :: rest }

def startValue (self : JsonPrefixParser) (ch : Char) : Option JsonPrefixParser :=
  if ch = '{' then some { self with stack := ⟨.object, .keyOrEnd⟩ :: self.stack }
  else if ch = '[' then some { self with stack := ⟨.array, .valueOrEnd⟩ :: self.stack }
  else if ch = '"' then some { self with mode := .string .value false 0 }
  else if ch = 't' then some { self with mode := .literal ['t', 'r', 'u', 'e'] 1 }
  else if ch = 'f' then some { self with mode := .literal ['f', 'a', 'l', 's', 'e'] 1 }
  else if ch = 'n' then some { self with mode := .literal ['n', 'u', 'l', 'l'] 1 }
  else if ch = '-' ∨ Digit ch then (NumberPhase.start ch).map fun phase => { self with mode := .number phase }
  else none

/-- Start reading a key. -/
def startKey (self : JsonPrefixParser) : JsonPrefixParser := { self with mode := .string .key false 0 }

/-- A character that is not white space, by what the innermost container expects. -/
def consumeExpected (self : JsonPrefixParser) (ch : Char) : Option JsonPrefixParser :=
  match self.currentExpect with
  | .value => self.startValue ch
  | .valueOrEnd => if ch = ']' then self.closeContainer .array else self.startValue ch
  | .keyOrEnd =>
    if ch = '}' then self.closeContainer .object
    else if ch = '"' then some ((self.setExpect .key).getD self).startKey
    else none
  | .key => if ch = '"' then some self.startKey else none
  | .colon => if ch = ':' then self.setExpect .value else none
  | .commaOrEnd =>
    match self.stack.head?.map Container.kind with
    | some .object =>
      if ch = ',' then self.setExpect .key else if ch = '}' then self.closeContainer .object else none
    | some .array =>
      if ch = ',' then self.setExpect .value else if ch = ']' then self.closeContainer .array else none
    | none => none

def consumeNormal (self : JsonPrefixParser) (ch : Char) : Option JsonPrefixParser :=
  if IsWhitespace ch then some self
  else if self.rootComplete ∧ self.stack = [] then none
  else self.consumeExpected ch

/-- The closing quote of a string. -/
def finishString (self : JsonPrefixParser) : StringRole → Option JsonPrefixParser
  | .key =>
    match self.stack with
    | [] => none
    | top :: rest =>
      if top.kind ≠ .object ∨ ¬ (top.expect = .key ∨ top.expect = .keyOrEnd) then none
      else some { self with stack := { top with expect := .colon } :: rest }
  | .value => self.finishValue

/-- A character inside a string. -/
def consumeString (self : JsonPrefixParser) (role : StringRole) (escape : Bool) (unicodeRemaining : ℕ) (ch : Char) :
    Option JsonPrefixParser :=
  match unicodeRemaining, escape with
  | remaining + 1, _ => if HexDigit ch then some { self with mode := .string role escape remaining } else none
  | 0, true =>
    if ch ∈ escapes then some { self with mode := .string role false 0 }
    else if ch = 'u' then some { self with mode := .string role false 4 }
    else none
  | 0, false =>
    if ch = '"' then { self with mode := .normal }.finishString role
    else if ch = '\\' then some { self with mode := .string role true 0 }
    else if ch ≤ '\x1f' then none
    else some self

def consume (self : JsonPrefixParser) (ch : Char) : Option JsonPrefixParser :=
  match self.mode with
  | .normal => self.consumeNormal ch
  | .string role escape unicodeRemaining => self.consumeString role escape unicodeRemaining ch
  | .number phase =>
    match phase.consume ch with
    | some phase => some { self with mode := .number phase }
    | none =>
      if phase.isComplete then { self with mode := .normal }.finishValue.bind (·.consumeNormal ch) else none
  | .literal target matched =>
    if target[matched]?.any (SameByte · ch) then
      if matched + 1 = target.length then { self with mode := .normal }.finishValue
      else some { self with mode := .literal target (matched + 1) }
    else if matched = target.length then { self with mode := .normal }.finishValue.bind (·.consumeNormal ch)
    else none

def parse (text : List Char) : Option JsonPrefixParser := text.foldlM consume new

def isComplete (self : JsonPrefixParser) : Bool :=
  match self.mode with
  | .normal => self.stack.isEmpty && self.rootComplete
  | .number phase =>
    if phase.isComplete then
      match { self with mode := .normal }.finishValue with
      | none => false
      | some parser => parser.stack.isEmpty && parser.rootComplete
    else false
  | _ => false

/-! ### Finishing a value -/

variable {p q : JsonPrefixParser}

/-- When a value may be finished: an open root, or a container that waits for one. -/
theorem finishValue_eq_some : p.finishValue = some q ↔
    (p.stack = [] ∧ p.rootComplete = false ∧ q = { p with rootComplete := true }) ∨
    (∃ top rest, p.stack = top :: rest ∧ (top.expect = .value ∨ top.expect = .valueOrEnd ∧ top.kind = .array) ∧
      q = { p with stack := ⟨top.kind, .commaOrEnd⟩ :: rest }) := by
  obtain ⟨stack, root, mode⟩ := p
  cases stack with
  | nil => cases root <;> simp [finishValue, @eq_comm _ q]
  | cons top rest =>
    obtain ⟨kind, expect⟩ := top
    cases kind <;> cases expect <;> simp [finishValue, @eq_comm _ q]

theorem finishValue_mode (h : p.finishValue = some q) : q.mode = p.mode := by
  rcases finishValue_eq_some.mp h with ⟨-, -, rfl⟩ | ⟨top, rest, -, -, rfl⟩ <;> rfl

theorem closeContainer_eq_some {kind : ContainerKind} : p.closeContainer kind = some q ↔
    ∃ top rest, p.stack = top :: rest ∧ top.kind = kind ∧ { p with stack := rest }.finishValue = some q := by
  obtain ⟨stack, root, mode⟩ := p
  cases stack with
  | nil => simp [closeContainer]
  | cons top rest =>
    by_cases hkind : top.kind = kind <;> simp [closeContainer, hkind]

/-! ### Runs -/

def InString (p : JsonPrefixParser) : Prop := ∃ role escape n, p.mode = .string role escape n

/-- The machine reads a text, and outside strings only characters of `A`. -/
def Reads (A : Char → Prop) : JsonPrefixParser → List Char → JsonPrefixParser → Prop
  | p, [], q => p = q
  | p, c :: t, q => ∃ r, p.consume c = some r ∧ (p.InString ∨ A c) ∧ Reads A r t q

theorem Reads.append {A : Char → Prop} {s t : List Char} {r : JsonPrefixParser} (hs : Reads A p s q)
    (ht : Reads A q t r) : Reads A p (s ++ t) r := by
  induction s generalizing p with
  | nil => exact hs ▸ ht
  | cons c s ih =>
    obtain ⟨p', hc, hA, hs⟩ := hs
    exact ⟨p', hc, hA, ih hs⟩

theorem reads_append_iff {A : Char → Prop} {s t : List Char} {r : JsonPrefixParser} :
    Reads A p (s ++ t) r ↔ ∃ q, Reads A p s q ∧ Reads A q t r := by
  induction s generalizing p with
  | nil => exact ⟨fun h => ⟨p, rfl, h⟩, fun ⟨_, hq, h⟩ => hq ▸ h⟩
  | cons c s ih =>
    constructor
    · rintro ⟨p', hc, hA, h⟩
      obtain ⟨q, hs, ht⟩ := ih.mp h
      exact ⟨q, ⟨p', hc, hA, hs⟩, ht⟩
    · rintro ⟨q, hs, ht⟩
      exact hs.append ht

/-- With every character allowed, a run is what `parse` does. -/
theorem reads_iff_foldlM (t : List Char) : Reads (fun _ => True) p t q ↔ t.foldlM consume p = some q := by
  induction t generalizing p with
  | nil => simp [Reads]
  | cons c t ih => simp [Reads, ih, List.foldlM_cons, Option.bind_eq_some_iff]

end JsonPrefixParser

end OnnxGenai.Generation
