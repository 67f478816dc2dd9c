import Mathlib

/-!
# JSON texts

The grammar of RFC 8259 over lists of characters, with two things left open: which characters are
white space, and which texts are literals (`Dialect`). With the four white space characters and the
three literals of the RFC it is JSON (`rfc8259`).

The productions of the RFC are the constructors of `Derives`. Objects and arrays differ only in their
brackets and their items, so they share the productions for a bracketed list.
-/

namespace OnnxGenai.Lib.Json

/-! ### Characters and scalars -/

/-- The productions `DIGIT` and `digit1-9`. -/
def Digit (c : Char) : Prop := '0' ≤ c ∧ c ≤ '9'

def NonzeroDigit (c : Char) : Prop := '1' ≤ c ∧ c ≤ '9'

/-- The production `HEXDIG`, in either case. -/
def HexDigit (c : Char) : Prop := Digit c ∨ ('a' ≤ c ∧ c ≤ 'f') ∨ ('A' ≤ c ∧ c ≤ 'F')

instance : DecidablePred Digit := fun _ => inferInstanceAs (Decidable (_ ∧ _))
instance : DecidablePred NonzeroDigit := fun _ => inferInstanceAs (Decidable (_ ∧ _))
instance : DecidablePred HexDigit := fun _ => inferInstanceAs (Decidable (_ ∨ _))

/-- One or more digits. -/
def Digits (t : List Char) : Prop := t ≠ [] ∧ ∀ c ∈ t, Digit c

/-- `int = zero / ( digit1-9 *DIGIT )`. -/
def Int (t : List Char) : Prop := t = ['0'] ∨ ∃ c ds, NonzeroDigit c ∧ (∀ d ∈ ds, Digit d) ∧ t = c :: ds

/-- `frac = decimal-point 1*DIGIT`, or nothing. -/
def OptionalFrac (t : List Char) : Prop := t = [] ∨ ∃ ds, Digits ds ∧ t = '.' :: ds

/-- `exp = e [ minus / plus ] 1*DIGIT`, or nothing. -/
def OptionalExp (t : List Char) : Prop :=
  t = [] ∨ ∃ e sign ds, (e = 'e' ∨ e = 'E') ∧ (sign = [] ∨ sign = ['+'] ∨ sign = ['-']) ∧ Digits ds ∧
    t = e :: (sign ++ ds)

/-- `number = [ minus ] int [ frac ] [ exp ]`. -/
def Number (t : List Char) : Prop :=
  ∃ minus int frac exp, (minus = [] ∨ minus = ['-']) ∧ Int int ∧ OptionalFrac frac ∧ OptionalExp exp ∧
    t = minus ++ (int ++ (frac ++ exp))

/-- The characters that may stand after a backslash by themselves. -/
def escapes : List Char := ['"', '\\', '/', 'b', 'f', 'n', 'r', 't']

/-- `*char`, the inside of a string. -/
inductive Chars : List Char → Prop where
  | nil : Chars []
  | unescaped {c t} : ' ' ≤ c → c ≠ '"' → c ≠ '\\' → Chars t → Chars (c :: t)
  | escaped {c t} : c ∈ escapes → Chars t → Chars ('\\' :: c :: t)
  | unicode {h₁ h₂ h₃ h₄ t} : HexDigit h₁ → HexDigit h₂ → HexDigit h₃ → HexDigit h₄ → Chars t →
    Chars ('\\' :: 'u' :: h₁ :: h₂ :: h₃ :: h₄ :: t)

/-- `string = quotation-mark *char quotation-mark`. -/
def Str (t : List Char) : Prop := ∃ cs, Chars cs ∧ t = '"' :: (cs ++ ['"'])

/-! ### Values -/

/-- What the grammar leaves open. -/
structure Dialect where
  Space : Char → Prop
  Literal : List Char → Prop

/-- `true`, `false` and `null`. -/
def literals : List (List Char) := [['t', 'r', 'u', 'e'], ['f', 'a', 'l', 's', 'e'], ['n', 'u', 'l', 'l']]

/-- The white space and the literals of RFC 8259. -/
def rfc8259 : Dialect where
  Space c := c ∈ [' ', '\t', '\n', '\r']
  Literal t := t ∈ literals

/-- The two kinds of bracketed lists. -/
inductive Kind where
  | object
  | array
  deriving DecidableEq, Repr

def Kind.opening : Kind → Char
  | .object => '{'
  | .array => '['

def Kind.closing : Kind → Char
  | .object => '}'
  | .array => ']'

inductive Nonterminal where
  | value
  /-- A member of an object, an element of an array. -/
  | item (kind : Kind)
  /-- One or more items with separators between them. -/
  | items (kind : Kind)

namespace Dialect

variable (d : Dialect)

/-- The production `ws`. -/
def Spaces (t : List Char) : Prop := ∀ c ∈ t, d.Space c

/-- A structural character with the white space around it. -/
def Token (c : Char) (t : List Char) : Prop := ∃ u v, d.Spaces u ∧ d.Spaces v ∧ t = u ++ c :: v

/-- The texts of each nonterminal. -/
inductive Derives : Nonterminal → List Char → Prop where
  | literal {t} : d.Literal t → Derives .value t
  | number {t} : Number t → Derives .value t
  | string {t} : Str t → Derives .value t
  | empty (kind : Kind) {b e} : d.Token kind.opening b → d.Token kind.closing e → Derives .value (b ++ e)
  | list (kind : Kind) {b t e} : d.Token kind.opening b → Derives (.items kind) t → d.Token kind.closing e →
    Derives .value (b ++ (t ++ e))
  | member {k n v} : Str k → d.Token ':' n → Derives .value v → Derives (.item .object) (k ++ (n ++ v))
  | element {v} : Derives .value v → Derives (.item .array) v
  | one {kind : Kind} {t} : Derives (.item kind) t → Derives (.items kind) t
  | more {kind : Kind} {t s ts} : Derives (.item kind) t → d.Token ',' s → Derives (.items kind) ts →
    Derives (.items kind) (t ++ (s ++ ts))

/-- `JSON-text = ws value ws`. -/
def Text (t : List Char) : Prop := ∃ u v w, d.Spaces u ∧ d.Derives .value v ∧ d.Spaces w ∧ t = u ++ (v ++ w)

/-- What may stand between an item and the closing bracket: nothing, or a separator and more items. -/
def More (kind : Kind) (t : List Char) : Prop :=
  t = [] ∨ ∃ s ts, d.Token ',' s ∧ d.Derives (.items kind) ts ∧ t = s ++ ts

variable {d} {c : Char} {t u : List Char} {kind : Kind}

theorem spaces_nil : d.Spaces [] := List.forall_mem_nil _

theorem Spaces.cons (hc : d.Space c) (ht : d.Spaces t) : d.Spaces (c :: t) := List.forall_mem_cons.mpr ⟨hc, ht⟩

theorem token_self (c : Char) : d.Token c [c] := ⟨[], [], spaces_nil, spaces_nil, rfl⟩

theorem Token.space {b : Char} (hc : d.Space c) (ht : d.Token b t) : d.Token b (c :: t) := by
  obtain ⟨u, v, hu, hv, rfl⟩ := ht
  exact ⟨c :: u, v, hu.cons hc, hv, rfl⟩

theorem token_of_spaces (hu : d.Spaces u) (c : Char) : d.Token c (c :: u) := ⟨[], u, spaces_nil, hu, rfl⟩

theorem token_after_spaces (hu : d.Spaces u) (c : Char) : d.Token c (u ++ [c]) := ⟨u, [], hu, spaces_nil, rfl⟩

theorem Derives.items_of_more (ht : d.Derives (.item kind) t) (hu : d.More kind u) :
    d.Derives (.items kind) (t ++ u) := by
  rcases hu with rfl | ⟨s, ts, hs, hts, rfl⟩
  · rw [List.append_nil]
    exact .one ht
  · exact .more ht hs hts

end Dialect

end OnnxGenai.Lib.Json
