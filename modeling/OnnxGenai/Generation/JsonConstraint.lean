import OnnxGenai.Generation.JsonCompleteness

/-!
# The JSON constraint

The constraint allows a token when the generated text with the token's text is still read by the JSON
prefix parser, and an end token when the generated text is complete.

The parser recognises a dialect that is larger than JSON (`lax`): any Unicode white space counts as
white space, and a letter of a literal but the first may be any character with the same low byte. Inside
strings there is no difference. So a text of the larger dialect is JSON exactly when no such character
(`Odd`) stands outside its strings, and the same holds for prefixes. `constraint_exact_iff` says for
which texts the parser and RFC 8259 agree.
-/

namespace OnnxGenai.Generation

open Lib.Json JsonPrefixParser Option

/-! ### The constraint -/

namespace JsonConstraint

def prefixIsValid (text : List Char) : Bool := (parse text).isSome

def isComplete (text : List Char) : Bool := (parse text).any JsonPrefixParser.isComplete

end JsonConstraint

structure TokenCandidate where
  tokenId : ℕ
  text : List Char
  isEos : Bool

namespace JsonConstraint

def allowedNextTokens (generatedText : List Char) (candidates : List TokenCandidate) : List Bool :=
  let complete := isComplete generatedText
  candidates.map fun candidate =>
    if candidate.isEos then complete
    else if candidate.text.isEmpty then false
    else prefixIsValid (generatedText ++ candidate.text)

end JsonConstraint

/-! ### The dialects -/

/-- The dialect of the machine. -/
def lax : Dialect where
  Space := IsWhitespace
  Literal t := ∃ first rest l, first :: rest ∈ literals ∧ List.Forall₂ SameByte rest l ∧ t = first :: l

theorem fits_lax : Fits lax fun _ => True where
  space c := (and_iff_left trivial).symm
  literal t := by simp [lax]
  byte _ _ _ := trivial

/-- The letters of the literals after the first. -/
def letters : List Char := ['r', 'u', 'e', 'a', 'l', 's']

/-- White space that JSON does not have, or a character that only its low byte makes a letter of a
literal. -/
def Odd (c : Char) : Prop :=
  (IsWhitespace c ∧ c ∉ [' ', '\t', '\n', '\r']) ∨ (256 ≤ c.toNat ∧ ∃ e ∈ letters, SameByte e c)

instance : DecidablePred Odd := fun _ => inferInstanceAs (Decidable (_ ∨ _))

theorem not_odd_of_byte {c : Char} (hspace : ¬ IsWhitespace c) (hlt : c.toNat < 256) : ¬ Odd c := by
  rintro (⟨h, -⟩ | ⟨hge, -⟩)
  · exact hspace h
  · omega

/-- A letter that is no odd character is the letter itself. -/
theorem sameByte_iff {e c : Char} (he : e ∈ letters) : SameByte e c ∧ ¬ Odd c ↔ e = c := by
  have hplain : ∀ e ∈ letters, ¬ IsWhitespace e ∧ e.toNat < 256 := by simp [letters, IsWhitespace]
  obtain ⟨hspace, hlt⟩ := hplain e he
  constructor
  · rintro ⟨hsame, hodd⟩
    have hbyte : c.toNat < 256 := by
      by_contra hge
      exact hodd (.inr ⟨not_lt.mp hge, e, he, hsame⟩)
    rw [SameByte, Nat.mod_eq_of_lt hbyte] at hsame
    exact Char.toNat_inj.mp hsame
  · rintro rfl
    exact ⟨(Nat.mod_eq_of_lt hlt).symm, not_odd_of_byte hspace hlt⟩

theorem fits_rfc8259 : Fits rfc8259 fun c => ¬ Odd c where
  space c := by
    constructor
    · intro hc
      have hall : ∀ c ∈ [' ', '\t', '\n', '\r'], IsWhitespace c ∧ c.toNat < 256 := by simp [IsWhitespace]
      obtain ⟨hspace, hlt⟩ := hall c hc
      refine ⟨hspace, ?_⟩
      rintro (⟨-, hnot⟩ | ⟨hge, -⟩)
      · exact hnot hc
      · omega
    · rintro ⟨hspace, hodd⟩
      by_contra hnot
      exact hodd (.inl ⟨hspace, hnot⟩)
  literal t := by
    have hletters : ∀ first rest, first :: rest ∈ literals → ∀ e ∈ rest, e ∈ letters := by
      intro first rest hmem
      simp only [literals, List.mem_cons, List.cons.injEq, List.not_mem_nil, or_false] at hmem
      rcases hmem with ⟨-, rfl⟩ | ⟨-, rfl⟩ | ⟨-, rfl⟩ <;> simp [letters]
    have hsame : ∀ {rest l : List Char}, (∀ e ∈ rest, e ∈ letters) →
        (List.Forall₂ (fun e c => SameByte e c ∧ ¬ Odd c) rest l ↔ rest = l) := by
      intro rest l hrest
      induction rest generalizing l with
      | nil => simp
      | cons e rest ih =>
        obtain ⟨he, hrest⟩ := List.forall_mem_cons.mp hrest
        cases l with
        | nil => simp
        | cons c l => simp [sameByte_iff he, ih hrest]
    constructor
    · intro ht
      obtain ⟨first, rest, rfl⟩ : ∃ first rest, t = first :: rest := by
        cases t with
        | nil => simp [rfc8259, literals] at ht
        | cons first rest => exact ⟨first, rest, rfl⟩
      exact ⟨first, rest, rest, ht, (hsame (hletters first rest ht)).mpr rfl, rfl⟩
    · rintro ⟨first, rest, l, hmem, hl, rfl⟩
      rw [(hsame (hletters first rest hmem)).mp hl] at hmem
      exact hmem
  byte _ := not_odd_of_byte

/-! ### Outside strings -/

/-- Where a text is, as far as strings go. -/
inductive Place where
  | outside
  | inside
  /-- After a backslash. -/
  | escaped
  deriving DecidableEq

def Place.next : Place → Char → Place
  | .outside, c => if c = '"' then .inside else .outside
  | .inside, c => if c = '"' then .outside else if c = '\\' then .escaped else .inside
  | .escaped, _ => .inside

/-- The characters outside strings, from some place on. -/
def outsideFrom : Place → List Char → List Char
  | _, [] => []
  | .outside, c :: t => c :: outsideFrom (Place.next .outside c) t
  | .inside, c :: t => outsideFrom (Place.next .inside c) t
  | .escaped, _ :: t => outsideFrom .inside t

/-- The characters of a text outside its strings. -/
def outsideStrings (text : List Char) : List Char := outsideFrom .outside text

namespace JsonPrefixParser

/-- The place and the mode of the machine belong together. -/
def Tracks (p : JsonPrefixParser) (place : Place) : Prop :=
  match p.mode with
  | .string _ true n => n = 0 ∧ place = .escaped
  | .string _ false _ => place = .inside
  | _ => place = .outside

variable {p q : JsonPrefixParser} {c : Char} {place : Place} {t : List Char}

theorem Tracks.inString_iff (h : Tracks p place) : p.InString ↔ place ≠ .outside := by
  obtain ⟨stack, root, mode⟩ := p
  cases mode with
  | string role escape n =>
    have hin : InString ⟨stack, root, .string role escape n⟩ := ⟨role, escape, n, rfl⟩
    cases escape with
    | false =>
      obtain rfl : place = .inside := h
      simp [hin]
    | true =>
      obtain ⟨-, rfl⟩ : n = 0 ∧ place = .escaped := h
      simp [hin]
  | normal | number phase | literal target matched =>
    obtain rfl : place = .outside := h
    simp [InString]

theorem tracks_of_mode (h : q.mode = .normal) (hc : c ≠ '"') : Tracks q (Place.next .outside c) := by
  simp [Tracks, h, Place.next, hc]

theorem closeContainer_mode {kind : ContainerKind} (h : p.closeContainer kind = some q) : q.mode = p.mode := by
  obtain ⟨top, rest, -, -, hfinish⟩ := closeContainer_eq_some.mp h
  exact (finishValue_mode hfinish).trans rfl

theorem setExpect_mode {expect : Expect} (h : p.setExpect expect = some q) : q.mode = p.mode := by
  unfold setExpect at h
  split at h
  · cases h
  · cases h
    rfl

theorem tracks_of_startValue (hmode : p.mode = .normal) (h : p.startValue c = some q) :
    Tracks q (Place.next .outside c) := by
  simp only [startValue] at h
  split_ifs at h with hobject harray hquote htrue hfalse hnull hnumber
  · cases h
    exact tracks_of_mode hmode (by rw [hobject]; decide)
  · cases h
    exact tracks_of_mode hmode (by rw [harray]; decide)
  · cases h
    simp [Tracks, Place.next, hquote]
  · cases h
    simp [Tracks, Place.next, hquote]
  · cases h
    simp [Tracks, Place.next, hquote]
  · cases h
    simp [Tracks, Place.next, hquote]
  · obtain ⟨phase, -, rfl⟩ := map_eq_some_iff.mp h
    simp [Tracks, Place.next, hquote]

/-- Between scalars a quote opens a string, and nothing else does. -/
theorem tracks_of_consumeNormal (hmode : p.mode = .normal) (h : p.consumeNormal c = some q) :
    Tracks q (Place.next .outside c) := by
  simp only [consumeNormal] at h
  split_ifs at h with hspace
  · cases h
    refine tracks_of_mode hmode ?_
    rintro rfl
    simp [IsWhitespace] at hspace
  · have hset : ∀ {expect}, c ≠ '"' → p.setExpect expect = some q → Tracks q (Place.next .outside c) :=
      fun hc hq => tracks_of_mode ((setExpect_mode hq).trans hmode) hc
    have hclose : ∀ {kind}, c ≠ '"' → p.closeContainer kind = some q → Tracks q (Place.next .outside c) :=
      fun hc hq => tracks_of_mode ((closeContainer_mode hq).trans hmode) hc
    unfold consumeExpected at h
    split at h
    case h_1 => exact tracks_of_startValue hmode h
    case h_2 =>
      split_ifs at h with hc
      · exact hclose (by rw [hc]; decide) h
      · exact tracks_of_startValue hmode h
    case h_3 =>
      split_ifs at h with hc hquote
      · exact hclose (by rw [hc]; decide) h
      · cases h
        simp [Tracks, startKey, Place.next, hquote]
    case h_4 =>
      split_ifs at h with hquote
      cases h
      simp [Tracks, startKey, Place.next, hquote]
    case h_5 =>
      split_ifs at h with hc
      exact hset (by rw [hc]; decide) h
    case h_6 =>
      split at h
      case h_1 =>
        split_ifs at h with hcomma hc
        · exact hset (by rw [hcomma]; decide) h
        · exact hclose (by rw [hc]; decide) h
      case h_2 =>
        split_ifs at h with hcomma hc
        · exact hset (by rw [hcomma]; decide) h
        · exact hclose (by rw [hc]; decide) h
      case h_3 => cases h

theorem tracks_of_consumeString {role : StringRole} {escape : Bool} {n : ℕ} (hmode : p.mode = .string role escape n)
    (h : p.consumeString role escape n c = some q) (hp : Tracks p place) : Tracks q (place.next c) := by
  obtain ⟨stack, root, _⟩ := p
  cases hmode
  unfold consumeString at h
  split at h
  case h_1 n =>
    split_ifs at h with hhex
    cases h
    cases escape with
    | true =>
      obtain ⟨hn, -⟩ : n + 1 = 0 ∧ place = .escaped := hp
      cases hn
    | false =>
      obtain rfl : place = .inside := hp
      have hne : c ≠ '"' ∧ c ≠ '\\' := by
        constructor <;> (rintro rfl; revert hhex; decide)
      simp [Tracks, Place.next, hne]
  case h_2 =>
    obtain ⟨-, rfl⟩ : 0 = 0 ∧ place = .escaped := hp
    split_ifs at h
    · cases h
      rfl
    · cases h
      rfl
  case h_3 =>
    obtain rfl : place = .inside := hp
    split_ifs at h with hquote hslash
    · have hnormal : q.mode = .normal := by
        cases role with
        | key =>
          obtain _ | ⟨top, rest⟩ := stack
          · cases h
          · simp only [finishString] at h
            split_ifs at h
            cases h
            rfl
        | value => exact finishValue_mode h
      simp [Tracks, hnormal, Place.next, hquote]
    · cases h
      simp [Tracks, Place.next, hslash]
    · cases h
      simp [Tracks, Place.next, hquote, hslash]

/-- The places are those of the machine. -/
theorem Tracks.consume (hvalid : p.Valid) (hp : Tracks p place) (h : p.consume c = some q) :
    Tracks q (place.next c) := by
  have hnext : ∀ {r}, { p with mode := .normal }.finishValue = some r → r.consumeNormal c = some q →
      Tracks q (Place.next .outside c) := fun hr hq => tracks_of_consumeNormal (finishValue_mode hr) hq
  unfold JsonPrefixParser.consume at h
  split at h
  case h_1 hmode =>
    obtain rfl : place = .outside := by simpa [Tracks, hmode] using hp
    exact tracks_of_consumeNormal hmode h
  case h_2 hmode => exact tracks_of_consumeString hmode h hp
  case h_3 phase hmode =>
    obtain rfl : place = .outside := by simpa [Tracks, hmode] using hp
    split at h
    case h_1 phase' hphase =>
      cases h
      have hne : c ≠ '"' := by
        rintro rfl
        exact absurd (NumberPhase.consume_eq_some hphase) (by decide)
      simp [Tracks, Place.next, hne]
    case h_2 =>
      split_ifs at h
      obtain ⟨r, hr, hq⟩ := bind_eq_some_iff.mp h
      exact hnext hr hq
  case h_4 target matched hmode =>
    obtain rfl : place = .outside := by simpa [Tracks, hmode] using hp
    have hne : target[matched]?.any (SameByte · c) = true → c ≠ '"' := by
      rintro hbyte rfl
      obtain ⟨e, he, hsame⟩ : ∃ e, target[matched]? = some e ∧ SameByte e '"' := by
        simpa [any_eq_true] using hbyte
      have hall : ∀ target ∈ literals, ∀ e ∈ target, ¬ SameByte e '"' := by simp [literals, SameByte]
      exact hall target (hvalid.literal target matched hmode) e (List.mem_of_getElem? he) hsame
    split_ifs at h with hbyte
    · exact tracks_of_mode (finishValue_mode h) (hne hbyte)
    · cases h
      simp [Tracks, Place.next, hne hbyte]
    · obtain ⟨r, hr, hq⟩ := bind_eq_some_iff.mp h
      exact hnext hr hq

theorem Valid.consume (h : p.Valid) (hq : p.consume c = some q) : q.Valid :=
  (advances_consume fits_lax h hq (.inr trivial)).valid

/-- A run over characters of `A` is a run with only characters of `A` outside strings. -/
theorem reads_iff_outside (A : Char → Prop) (hvalid : p.Valid) (hp : Tracks p place) :
    Reads A p t q ↔ Reads (fun _ => True) p t q ∧ ∀ c ∈ outsideFrom place t, A c := by
  induction t generalizing p place with
  | nil => simp [Reads, outsideFrom]
  | cons c t ih =>
    have hcons : (∀ b ∈ outsideFrom place (c :: t), A b) ↔
        (p.InString ∨ A c) ∧ ∀ b ∈ outsideFrom (place.next c) t, A b := by
      rw [hp.inString_iff]
      cases place <;> simp [outsideFrom, Place.next]
    rw [hcons]
    constructor
    · rintro ⟨r, hr, hA, h⟩
      obtain ⟨h, hrest⟩ := (ih (hvalid.consume hr) (hp.consume hvalid hr)).mp h
      exact ⟨⟨r, hr, .inr trivial, h⟩, hA, hrest⟩
    · rintro ⟨⟨r, hr, -, h⟩, hA, hrest⟩
      exact ⟨r, hr, hA, (ih (hvalid.consume hr) (hp.consume hvalid hr)).mpr ⟨h, hrest⟩⟩

end JsonPrefixParser

/-! ### What is recognised -/

namespace JsonConstraint

variable {text : List Char}

theorem prefixIsValid_iff : prefixIsValid text = true ↔ ∃ q, Reads (fun _ => True) new text q := by
  simp only [prefixIsValid, parse, isSome_iff_exists, reads_iff_foldlM]

theorem isComplete_iff : isComplete text = true ↔ ∃ q, Reads (fun _ => True) new text q ∧ q.isComplete = true := by
  simp only [isComplete, parse, any_eq_true, reads_iff_foldlM]

section

variable {d : Dialect} {A : Char → Prop}

/-- The texts of a dialect are the accepted ones with only its characters outside strings. -/
theorem text_iff (hfit : Fits d A) : d.Text text ↔ isComplete text = true ∧ ∀ c ∈ outsideStrings text, A c := by
  have houtside := fun q => reads_iff_outside (q := q) (t := text) A valid_new (rfl : Tracks new .outside)
  rw [isComplete_iff]
  constructor
  · intro h
    obtain ⟨q, hq, hcomplete⟩ := reads_of_text hfit h
    obtain ⟨hq, hA⟩ := (houtside q).mp hq
    exact ⟨⟨q, hq, hcomplete⟩, hA⟩
  · rintro ⟨⟨q, hq, hcomplete⟩, hA⟩
    exact ((houtside q).mpr ⟨hq, hA⟩).text hfit hcomplete

/-- The same for prefixes. -/
theorem prefix_iff (hfit : Fits d A) :
    (∃ t, d.Text (text ++ t)) ↔ prefixIsValid text = true ∧ ∀ c ∈ outsideStrings text, A c := by
  have houtside := fun q => reads_iff_outside (q := q) (t := text) A valid_new (rfl : Tracks new .outside)
  rw [prefixIsValid_iff]
  constructor
  · rintro ⟨t, h⟩
    obtain ⟨q, hq, -⟩ := reads_of_text hfit h
    obtain ⟨r, hr, -⟩ := reads_append_iff.mp hq
    obtain ⟨hr, hA⟩ := (houtside r).mp hr
    exact ⟨⟨r, hr⟩, hA⟩
  · rintro ⟨⟨q, hq⟩, hA⟩
    exact ((houtside q).mpr ⟨hq, hA⟩).extends hfit

end

/-- The parser recognises exactly the larger dialect. -/
theorem isComplete_iff_lax : isComplete text = true ↔ lax.Text text := by
  simp [text_iff fits_lax]

theorem prefixIsValid_iff_lax : prefixIsValid text = true ↔ ∃ t, lax.Text (text ++ t) := by
  simp [prefix_iff fits_lax]

/-- The parser and RFC 8259 agree on a text. -/
structure Exact (text : List Char) : Prop where
  complete : isComplete text = true ↔ rfc8259.Text text
  valid : prefixIsValid text = true ↔ ∃ t, rfc8259.Text (text ++ t)

/-- The text has no odd character outside its strings, or is no prefix of a text of the larger dialect
either. -/
def Plain (text : List Char) : Prop := (∀ c ∈ outsideStrings text, ¬ Odd c) ∨ ¬ ∃ t, lax.Text (text ++ t)

theorem exact_iff_plain : Exact text ↔ Plain text := by
  have hvalid : isComplete text = true → prefixIsValid text = true := by
    rw [isComplete_iff_lax, prefixIsValid_iff_lax]
    exact fun h => ⟨[], by rwa [List.append_nil]⟩
  rw [Plain, ← prefixIsValid_iff_lax]
  constructor
  · intro h
    by_cases hp : prefixIsValid text = true
    · exact .inl ((prefix_iff fits_rfc8259).mp (h.valid.mp hp)).2
    · exact .inr hp
  · rintro (hA | hp)
    · refine ⟨?_, ?_⟩
      · rw [text_iff fits_rfc8259, and_iff_left hA]
      · rw [prefix_iff fits_rfc8259, and_iff_left hA]
    · refine ⟨?_, ?_⟩
      · rw [text_iff fits_rfc8259]
        exact ⟨fun h => absurd (hvalid h) hp, And.left⟩
      · rw [prefix_iff fits_rfc8259]
        exact ⟨fun h => absurd h hp, And.left⟩

/-! ### Token by token -/

/-- The text of some tokens. -/
def textOf (tokens : List TokenCandidate) : List Char := tokens.flatMap TokenCandidate.text

/-- The constraint allows this token of the vocabulary after a text. -/
def Allows (vocabulary : List TokenCandidate) (text : List Char) (token : TokenCandidate) : Prop :=
  ∃ i : ℕ, vocabulary[i]? = some token ∧ (allowedNextTokens text vocabulary)[i]? = some true

/-- The tokens are allowed one after the other, and an end token after the last. -/
structure Ended (vocabulary tokens : List TokenCandidate) : Prop where
  steps : ∀ before token after, tokens = before ++ token :: after → token.isEos = false ∧
    Allows vocabulary (textOf before) token
  ended : ∃ token, token.isEos = true ∧ Allows vocabulary (textOf tokens) token

theorem Ended.isComplete {vocabulary tokens : List TokenCandidate} (h : Ended vocabulary tokens) :
    isComplete (textOf tokens) = true := by
  obtain ⟨token, heos, i, hi, hallowed⟩ := h.ended
  simpa [allowedNextTokens, hi, heos] using hallowed

/-- **The constraint and RFC 8259 agree exactly on the plain texts, and tokens allowed one after the
other and ended by an allowed end token give a JSON text exactly when theirs is plain.** -/
theorem constraint_exact_iff (text : List Char) (vocabulary tokens : List TokenCandidate) :
    (Exact text ↔ Plain text) ∧
      (Ended vocabulary tokens → (rfc8259.Text (textOf tokens) ↔ Plain (textOf tokens))) := by
  refine ⟨exact_iff_plain, fun h => ?_⟩
  constructor
  · intro ht
    exact .inl ((text_iff fits_rfc8259).mp ht).2
  · intro hplain
    exact (exact_iff_plain.mpr hplain).complete.mp h.isComplete

/-- A letter that is only the low byte of the character, and a no-break space. -/
theorem accepts_more_than_json : isComplete ['t', 'Ų', 'u', 'e'] = true ∧ ¬ rfc8259.Text ['t', 'Ų', 'u', 'e'] ∧
    prefixIsValid ['\u00a0', '1'] = true ∧ ¬ ∃ t, rfc8259.Text (['\u00a0', '1'] ++ t) := by
  have hletter : Odd 'Ų' := .inr ⟨by simp, 'r', by simp [letters], by simp [SameByte]⟩
  have hspace : Odd '\u00a0' := .inl ⟨by simp [IsWhitespace], by simp⟩
  refine ⟨by decide, ?_, by decide, ?_⟩
  · rw [text_iff fits_rfc8259]
    exact fun h => h.2 'Ų' (by decide) hletter
  · rw [prefix_iff fits_rfc8259]
    exact fun h => h.2 '\u00a0' (by decide) hspace

/-- **The constraint masks exactly the tokens that lead to a dead end**: an end token is allowed after
the texts of the larger dialect, another token if some text of it goes on that way. -/
theorem allows_iff (vocabulary : List TokenCandidate) (text : List Char) (token : TokenCandidate) :
    Allows vocabulary text token ↔ token ∈ vocabulary ∧
      if token.isEos then lax.Text text else token.text ≠ [] ∧ ∃ t, lax.Text (text ++ token.text ++ t) := by
  rw [← isComplete_iff_lax, ← prefixIsValid_iff_lax, List.mem_iff_getElem?, ← exists_and_right]
  refine exists_congr fun i => and_congr_right fun hi => ?_
  cases heos : token.isEos <;> simp [allowedNextTokens, hi, heos]

end JsonConstraint

end OnnxGenai.Generation
