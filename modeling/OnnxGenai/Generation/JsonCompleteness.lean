import OnnxGenai.Generation.JsonSoundness

/-!
# The JSON prefix parser reads every text of the grammar

By induction on the derivation: from a state that waits for a value the machine reads a value and has
finished it, except that a number at the end may still be open (`Settled`). For the next character that
makes no difference, since only white space, a separator, a closing bracket or the end can follow a
value, and no number goes on with any of these.
-/

namespace OnnxGenai.Generation

open Lib.Json List

/-! ### Numbers -/

namespace NumberPhase

variable {phase phase' : NumberPhase} {c : Char} {t : List Char}

theorem toNat_of_digit (h : Digit c) : 48 ≤ c.toNat ∧ c.toNat ≤ 57 := by
  obtain ⟨h1, h2⟩ := h
  exact ⟨h1, h2⟩

theorem digit_of_nonzeroDigit (h : NonzeroDigit c) : Digit c := ⟨le_trans (by decide) h.1, h.2⟩

theorem ne_of_digit (h : Digit c) : c ≠ '.' ∧ c ≠ 'e' ∧ c ≠ 'E' ∧ c ≠ '+' ∧ c ≠ '-' := by
  refine ⟨?_, ?_, ?_, ?_, ?_⟩ <;> (rintro rfl; revert h; decide)

/-- The characters of numbers. -/
theorem consume_eq_some (h : phase.consume c = some phase') : Digit c ∨ c ∈ ['.', 'e', 'E', '+', '-'] := by
  cases phase <;> simp only [consume] at h <;> split_ifs at h <;> simp_all [digit_zero, digit_of_nonzeroDigit] <;>
    tauto

/-- No phase of a number goes on with this character. -/
def Breaks (c : Char) : Prop := ¬ Digit c ∧ c ∉ ['.', 'e', 'E', '+', '-']

theorem Breaks.consume (h : Breaks c) (phase : NumberPhase) : phase.consume c = none := by
  rw [Option.eq_none_iff_forall_ne_some]
  intro phase' hc
  exact (consume_eq_some hc).elim h.1 h.2

theorem breaks_of_whitespace (h : IsWhitespace c) : Breaks c := by
  constructor
  · intro hdigit
    have := toNat_of_digit hdigit
    unfold IsWhitespace at h
    omega
  · intro hmem
    revert h
    have hall : ∀ c ∈ ['.', 'e', 'E', '+', '-'], ¬ IsWhitespace c := by simp [IsWhitespace]
    exact hall c hmem

/-- The characters of numbers are plain ones. -/
theorem plain_of_consume (h : phase.consume c = some phase') : ¬ IsWhitespace c ∧ c.toNat < 256 := by
  refine ⟨fun hspace => ?_, ?_⟩
  · rw [(breaks_of_whitespace hspace).consume] at h
    cases h
  · rcases consume_eq_some h with hdigit | hmem
    · have := toNat_of_digit hdigit
      omega
    · have hall : ∀ c ∈ ['.', 'e', 'E', '+', '-'], c.toNat < 256 := by simp
      exact hall c hmem

/-- Digits keep these phases. -/
theorem foldlM_digits {ds : List Char} (hphase : phase = .int ∨ phase = .fraction ∨ phase = .expDigits)
    (hds : ∀ d ∈ ds, Digit d) : ds.foldlM consume phase = some phase := by
  induction ds with
  | nil => rfl
  | cons c ds ih =>
    obtain ⟨hc, hds⟩ := forall_mem_cons.mp hds
    obtain ⟨hdot, he, hE, -⟩ := ne_of_digit hc
    have hstep : phase.consume c = some phase := by
      rcases hphase with rfl | rfl | rfl <;> simp [consume, hc, hdot, he, hE]
    rw [foldlM_cons, hstep]
    exact ih hds

theorem foldlM_exp (hphase : phase = .zero ∨ phase = .int ∨ phase = .fraction) (ht : OptionalExp t) :
    ∃ phase', t.foldlM consume phase = some phase' ∧ phase'.isComplete = true := by
  rcases ht with rfl | ⟨e, sign, ds, he, hsign, ⟨hne, hds⟩, rfl⟩
  · refine ⟨phase, rfl, ?_⟩
    rcases hphase with rfl | rfl | rfl <;> rfl
  · refine ⟨.expDigits, ?_, rfl⟩
    have hstart : phase.consume e = some .expStart := by
      rcases he with rfl | rfl <;> rcases hphase with rfl | rfl | rfl <;> rfl
    obtain ⟨c, ds, rfl⟩ := exists_cons_of_ne_nil hne
    obtain ⟨hc, hds⟩ := forall_mem_cons.mp hds
    obtain ⟨-, -, -, hplus, hminus⟩ := ne_of_digit hc
    have hdigits : ds.foldlM consume .expDigits = some .expDigits := foldlM_digits (.inr (.inr rfl)) hds
    rw [foldlM_cons, hstart]
    rcases hsign with rfl | rfl | rfl
    · simpa [consume, hc, hplus, hminus] using hdigits
    · simpa [consume, hc] using hdigits
    · simpa [consume, hc] using hdigits

theorem foldlM_tail {frac exp : List Char} (hphase : phase = .zero ∨ phase = .int) (hfrac : OptionalFrac frac)
    (hexp : OptionalExp exp) : ∃ phase', (frac ++ exp).foldlM consume phase = some phase' ∧ phase'.isComplete = true := by
  rcases hfrac with rfl | ⟨ds, ⟨hne, hds⟩, rfl⟩
  · exact foldlM_exp (hphase.imp_right .inl) hexp
  · obtain ⟨phase', hrun, hcomplete⟩ := foldlM_exp (.inr (.inr rfl)) hexp
    refine ⟨phase', ?_, hcomplete⟩
    have hdot : phase.consume '.' = some .dot := by
      rcases hphase with rfl | rfl <;> rfl
    obtain ⟨c, ds, rfl⟩ := exists_cons_of_ne_nil hne
    obtain ⟨hc, hds⟩ := forall_mem_cons.mp hds
    have hdigits : ds.foldlM consume .fraction = some .fraction := foldlM_digits (.inr (.inl rfl)) hds
    rw [cons_append, foldlM_cons, hdot]
    simp [consume, hc, hdigits, hrun]

/-- The first digit of the integer part decides its phase. -/
theorem foldlM_int {int : List Char} (h : Int int) : ∃ c ds phase, int = c :: ds ∧ start c = some phase ∧
    consume .minus c = some phase ∧ (phase = .zero ∨ phase = .int) ∧ ds.foldlM consume phase = some phase := by
  rcases h with rfl | ⟨c, ds, hc, hds, rfl⟩
  · exact ⟨'0', [], .zero, rfl, rfl, rfl, .inl rfl, rfl⟩
  · have hzero : c ≠ '0' := by
      rintro rfl
      revert hc
      decide
    have hminus := (ne_of_digit (digit_of_nonzeroDigit hc)).2.2.2.2
    refine ⟨c, ds, .int, rfl, ?_, ?_, .inr rfl, foldlM_digits (.inl rfl) hds⟩
    · simp [start, hminus, hzero, hc]
    · simp [consume, hzero, hc]

theorem foldlM_number (h : Number t) : ∃ c u phase phase', t = c :: u ∧ start c = some phase ∧
    u.foldlM consume phase = some phase' ∧ phase'.isComplete = true := by
  obtain ⟨minus, int, frac, exp, hminus, hint, hfrac, hexp, rfl⟩ := h
  obtain ⟨c, ds, phase, rfl, hstart, hafter, hphase, hds⟩ := foldlM_int hint
  obtain ⟨phase', htail, hcomplete⟩ := foldlM_tail hphase hfrac hexp
  rcases hminus with rfl | rfl
  · refine ⟨c, ds ++ (frac ++ exp), phase, phase', rfl, hstart, ?_, hcomplete⟩
    rw [foldlM_append, hds]
    exact htail
  · refine ⟨'-', c :: ds ++ (frac ++ exp), .minus, phase', rfl, rfl, ?_, hcomplete⟩
    rw [cons_append, foldlM_cons, hafter]
    change (ds ++ (frac ++ exp)).foldlM consume phase = some phase'
    rw [foldlM_append, hds]
    exact htail

end NumberPhase

/-! ### Scalars -/

namespace JsonPrefixParser

variable {d : Dialect} {A : Char → Prop} {p q : JsonPrefixParser} {c : Char} {t : List Char}

theorem reads_singleton (h : p.consume c = some q) (hA : p.InString ∨ A c) : Reads A p [c] q := ⟨q, h, hA, rfl⟩

/-- A value may start where it may be finished. -/
theorem consumeNormal_start (hq : p.finishValue = some q) (hspace : ¬ IsWhitespace c) (hc : c ≠ ']') :
    p.consumeNormal c = p.startValue c := by
  obtain ⟨stack, root, mode⟩ := p
  rw [consumeNormal, if_neg hspace]
  rcases finishValue_eq_some.mp hq with ⟨hstack, hroot, -⟩ | ⟨top, rest, hstack, htop, -⟩
  · obtain rfl : stack = [] := hstack
    obtain rfl : root = false := hroot
    simp [consumeExpected, currentExpect]
  · obtain rfl : stack = top :: rest := hstack
    rcases htop with htop | ⟨htop, -⟩
    · simp [consumeExpected, currentExpect, htop]
    · simp [consumeExpected, currentExpect, htop, hc]

/-- The rest of a number. -/
theorem reads_number (hfit : Fits d A) {phase phase' : NumberPhase} {stack : List Container} {root : Bool}
    (h : t.foldlM NumberPhase.consume phase = some phase') :
    Reads A ⟨stack, root, .number phase⟩ t ⟨stack, root, .number phase'⟩ := by
  induction t generalizing phase with
  | nil =>
    obtain rfl : phase = phase' := Option.some.inj h
    rfl
  | cons c t ih =>
    obtain ⟨next, hnext, h⟩ := Option.bind_eq_some_iff.mp h
    obtain ⟨hspace, hlt⟩ := NumberPhase.plain_of_consume hnext
    refine ⟨⟨stack, root, .number next⟩, ?_, .inr (hfit.byte c hspace hlt), ih h⟩
    simp [consume, hnext]

/-- The rest of a literal. -/
theorem reads_literal {target rest : List Char} {matched : ℕ} {stack : List Container} {root : Bool}
    (hdrop : target.drop matched = rest) (hne : rest ≠ [])
    (hq : finishValue ⟨stack, root, .normal⟩ = some q)
    (h : List.Forall₂ (fun e c => SameByte e c ∧ A c) rest t) :
    Reads A ⟨stack, root, .literal target matched⟩ t q := by
  induction h generalizing matched with
  | nil => exact absurd rfl hne
  | @cons e c rest t hc h ih =>
    have hlt : matched < target.length := by
      by_contra hge
      rw [drop_of_length_le (not_lt.mp hge)] at hdrop
      cases hdrop
    rw [drop_eq_getElem_cons hlt] at hdrop
    obtain ⟨rfl, hrest⟩ := cons.inj hdrop
    have hbyte : target[matched]?.any (SameByte · c) = true := by
      simp [getElem?_eq_getElem hlt, hc.1]
    by_cases hlast : matched + 1 = target.length
    · rw [drop_of_length_le hlast.ge] at hrest
      subst hrest
      cases h
      refine reads_singleton ?_ (.inr hc.2)
      simpa [consume, hbyte, hlast] using hq
    · refine ⟨⟨stack, root, .literal target (matched + 1)⟩, ?_, .inr hc.2, ih hrest ?_⟩
      · simp [consume, hbyte, hlast]
      · rw [← hrest]
        exact ne_nil_of_length_pos (by rw [length_drop]; omega)

/-- The inside of a string. -/
theorem reads_chars {role : StringRole} {stack : List Container} {root : Bool} (h : Chars t) :
    Reads A ⟨stack, root, .string role false 0⟩ t ⟨stack, root, .string role false 0⟩ := by
  have hin : ∀ escape n, InString ⟨stack, root, .string role escape n⟩ := fun escape n => ⟨role, escape, n, rfl⟩
  induction h with
  | nil => rfl
  | @unescaped c t hspace hquote hslash _ ih =>
    refine ⟨_, ?_, .inl (hin _ _), ih⟩
    have hcontrol : ¬ c ≤ '\x1f' := fun hle => absurd (hspace.trans hle) (by decide)
    simp [consume, consumeString, hquote, hslash, hcontrol]
  | @escaped c t hc _ ih =>
    refine ⟨⟨stack, root, .string role true 0⟩, rfl, .inl (hin _ _), _, ?_, .inl (hin _ _), ih⟩
    simp [consume, consumeString, hc]
  | @unicode h₁ h₂ h₃ h₄ t hh₁ hh₂ hh₃ hh₄ _ ih =>
    refine ⟨⟨stack, root, .string role true 0⟩, rfl, .inl (hin _ _),
      ⟨stack, root, .string role false 4⟩, rfl, .inl (hin _ _),
      ⟨stack, root, .string role false 3⟩, ?_, .inl (hin _ _),
      ⟨stack, root, .string role false 2⟩, ?_, .inl (hin _ _),
      ⟨stack, root, .string role false 1⟩, ?_, .inl (hin _ _), _, ?_, .inl (hin _ _), ih⟩
    · simp [consume, consumeString, hh₁]
    · simp [consume, consumeString, hh₂]
    · simp [consume, consumeString, hh₃]
    · simp [consume, consumeString, hh₄]

/-! ### Between scalars -/

/-- The value has been finished and the machine is in `q`, up to a number that is still open. -/
def Settled (q q' : JsonPrefixParser) : Prop :=
  q.mode = .normal ∧ (q' = q ∨ ∃ (p : JsonPrefixParser) (phase : NumberPhase), p.mode = .normal ∧
    phase.isComplete = true ∧ p.finishValue = some q ∧ q' = { p with mode := .number phase })

theorem settled_self (h : q.mode = .normal) : Settled q q := ⟨h, .inl rfl⟩

variable {q' s : JsonPrefixParser}

theorem Settled.consume (h : Settled q q') (hc : NumberPhase.Breaks c) : q'.consume c = q.consumeNormal c := by
  obtain ⟨hmode, rfl | ⟨p, phase, hp, hcomplete, hfinish, rfl⟩⟩ := h
  · simp [JsonPrefixParser.consume, hmode]
  · obtain ⟨stack, root, _⟩ := p
    cases hp
    simp [JsonPrefixParser.consume, hc.consume phase, hcomplete, hfinish]

theorem Settled.isComplete (h : Settled q q') : q'.isComplete = q.isComplete := by
  obtain ⟨hmode, rfl | ⟨p, phase, hp, hcomplete, hfinish, rfl⟩⟩ := h
  · rfl
  · obtain ⟨stack, root, _⟩ := p
    cases hp
    simp [JsonPrefixParser.isComplete, hcomplete, hfinish, hmode]

theorem Settled.reads_spaces (hfit : Fits d A) (h : Settled q q') (ht : d.Spaces t) :
    ∃ r, Reads A q' t r ∧ Settled q r := by
  induction t generalizing q' with
  | nil => exact ⟨q', rfl, h⟩
  | cons c t ih =>
    obtain ⟨hc, ht⟩ := forall_mem_cons.mp ht
    obtain ⟨hspace, hA⟩ := (hfit.space c).mp hc
    have hstep : q'.consume c = some q := by
      rw [h.consume (NumberPhase.breaks_of_whitespace hspace), consumeNormal, if_pos hspace]
    obtain ⟨r, hr, hsettled⟩ := ih (settled_self h.1) ht
    exact ⟨r, ⟨q, hstep, .inr hA, hr⟩, hsettled⟩

theorem reads_spaces_normal (hfit : Fits d A) (hmode : p.mode = .normal) (ht : d.Spaces t) : Reads A p t p := by
  induction t with
  | nil => rfl
  | cons c t ih =>
    obtain ⟨hc, ht⟩ := forall_mem_cons.mp ht
    obtain ⟨hspace, hA⟩ := (hfit.space c).mp hc
    refine ⟨p, ?_, .inr hA, ih ht⟩
    simp [consume, hmode, consumeNormal, hspace]

/-- The structural characters. -/
def structural : List Char := ['{', '}', '[', ']', ':', ',']

theorem plain_of_structural (h : c ∈ structural) : ¬ IsWhitespace c ∧ c.toNat < 256 ∧ NumberPhase.Breaks c := by
  have hall : ∀ c ∈ structural, ¬ IsWhitespace c ∧ c.toNat < 256 := by simp [structural, IsWhitespace]
  have hbreaks : ∀ c ∈ structural, ¬ Digit c ∧ c ∉ ['.', 'e', 'E', '+', '-'] := by simp [structural, Digit]
  exact ⟨(hall c h).1, (hall c h).2, hbreaks c h⟩

/-- A structural character with its white space. -/
theorem Settled.reads_token (hfit : Fits d A) (h : Settled q q') (ht : d.Token c t) (hc : c ∈ structural)
    (hs : q.consumeNormal c = some s) (hmode : s.mode = .normal) : Reads A q' t s := by
  obtain ⟨u, v, hu, hv, rfl⟩ := ht
  obtain ⟨hspace, hlt, hbreaks⟩ := plain_of_structural hc
  obtain ⟨r, hr, hsettled⟩ := h.reads_spaces hfit hu
  refine hr.append ⟨s, ?_, .inr (hfit.byte c hspace hlt), reads_spaces_normal hfit hmode hv⟩
  rw [hsettled.consume hbreaks, hs]

/-- What a container expects when an item may start. -/
def Ready : ContainerKind → Expect → Prop
  | .object, expect => expect = .key ∨ expect = .keyOrEnd
  | .array, expect => expect = .value ∨ expect = .valueOrEnd

/-- How the machine reads the texts of each nonterminal. -/
def Reading (A : Char → Prop) : Nonterminal → List Char → Prop
  | .value, t => ∀ p q : JsonPrefixParser, p.mode = .normal → p.finishValue = some q →
      ∃ q', Reads A p t q' ∧ Settled q q'
  | .item kind, t | .items kind, t => ∀ expect rest root, Ready kind expect →
      ∃ q', Reads A ⟨⟨kind, expect⟩ :: rest, root, .normal⟩ t q' ∧
        Settled ⟨⟨kind, .commaOrEnd⟩ :: rest, root, .normal⟩ q'

/-- Reading a string value or key up to its closing quote. -/
theorem reads_str (hfit : Fits d A) (role : StringRole) {stack : List Container} {root : Bool}
    (hp : p.consume '"' = some ⟨stack, root, .string role false 0⟩)
    (hq : finishString ⟨stack, root, .normal⟩ role = some q) (ht : Str t) : Reads A p t q := by
  obtain ⟨cs, hcs, rfl⟩ := ht
  have hquote : A '"' := hfit.byte _ (by simp [IsWhitespace]) (by simp)
  refine ⟨_, hp, .inr hquote, (reads_chars hcs).append (reads_singleton ?_ (.inr hquote))⟩
  simpa [consume, consumeString] using hq

theorem reading_literal (hfit : Fits d A) (ht : d.Literal t) : Reading A .value t := by
  intro p q hmode hq
  obtain ⟨stack, root, _⟩ := p
  cases hmode
  obtain ⟨first, rest, l, hmem, hl, rfl⟩ := (hfit.literal t).mp ht
  have hfirst : ∀ first rest, first :: rest ∈ literals → ¬ IsWhitespace first ∧ first.toNat < 256 ∧ first ≠ ']' ∧
      rest ≠ [] ∧ startValue ⟨stack, root, .normal⟩ first = some ⟨stack, root, .literal (first :: rest) 1⟩ := by
    intro first rest hmem
    simp only [literals, mem_cons, cons.injEq, not_mem_nil, or_false] at hmem
    rcases hmem with ⟨rfl, rfl⟩ | ⟨rfl, rfl⟩ | ⟨rfl, rfl⟩ <;>
      exact ⟨by simp [IsWhitespace], by simp, by decide, by simp, rfl⟩
  obtain ⟨hspace, hlt, hclose, hne, hstart⟩ := hfirst first rest hmem
  refine ⟨q, ⟨⟨stack, root, .literal (first :: rest) 1⟩, ?_, .inr (hfit.byte _ hspace hlt), ?_⟩,
    settled_self (finishValue_mode hq)⟩
  · exact (consumeNormal_start hq hspace hclose).trans hstart
  · exact reads_literal rfl hne hq hl

theorem reading_number (hfit : Fits d A) (ht : Number t) : Reading A .value t := by
  intro p q hmode hq
  obtain ⟨stack, root, _⟩ := p
  cases hmode
  obtain ⟨c, u, phase, phase', rfl, hstart, hrun, hcomplete⟩ := NumberPhase.foldlM_number ht
  have hc : c = '-' ∨ Digit c := by
    simp only [NumberPhase.start] at hstart
    split_ifs at hstart with hminus hzero hdigit
    · exact .inl hminus
    · exact .inr (hzero ▸ NumberPhase.digit_zero)
    · exact .inr (NumberPhase.digit_of_nonzeroDigit hdigit)
  have hplain : ¬ IsWhitespace c ∧ c.toNat < 256 ∧ c ∉ ['{', '[', ']', '"', 't', 'f', 'n'] := by
    rcases hc with rfl | hdigit
    · exact ⟨by simp [IsWhitespace], by simp, by decide⟩
    · have hcode := NumberPhase.toNat_of_digit hdigit
      refine ⟨fun hspace => (NumberPhase.breaks_of_whitespace hspace).1 hdigit, by omega, fun hmem => ?_⟩
      revert hdigit
      have hall : ∀ c ∈ ['{', '[', ']', '"', 't', 'f', 'n'], ¬ Digit c := by simp [Digit]
      exact hall c hmem
  obtain ⟨hspace, hlt, hmem⟩ := hplain
  simp only [mem_cons, not_mem_nil, or_false, not_or] at hmem
  obtain ⟨hbrace, hbracket, hclose, hquote, htrue, hfalse, hnull⟩ := hmem
  refine ⟨⟨stack, root, .number phase'⟩, ⟨⟨stack, root, .number phase⟩, ?_, .inr (hfit.byte _ hspace hlt),
    reads_number hfit hrun⟩, finishValue_mode hq, .inr ⟨⟨stack, root, .normal⟩, phase', rfl, hcomplete, hq, rfl⟩⟩
  refine (consumeNormal_start hq hspace hclose).trans ?_
  simp [startValue, hbrace, hbracket, hquote, htrue, hfalse, hnull, hc, hstart]

theorem reading_string (hfit : Fits d A) (ht : Str t) : Reading A .value t := by
  intro p q hmode hq
  obtain ⟨stack, root, _⟩ := p
  cases hmode
  refine ⟨q, reads_str hfit .value ?_ hq ht, settled_self (finishValue_mode hq)⟩
  exact (consumeNormal_start hq (by simp [IsWhitespace]) (by decide)).trans rfl

/-- The opening bracket of a list. -/
theorem reads_opening (hfit : Fits d A) (kind : ContainerKind) (hmode : p.mode = .normal)
    (hq : p.finishValue = some q) (ht : d.Token kind.opening t) :
    ∃ expect, Ready kind expect ∧ Reads A p t ⟨⟨kind, expect⟩ :: p.stack, p.rootComplete, .normal⟩ ∧
      consumeNormal ⟨⟨kind, expect⟩ :: p.stack, p.rootComplete, .normal⟩ kind.closing = some q := by
  obtain ⟨stack, root, _⟩ := p
  cases hmode
  cases kind with
  | object =>
    refine ⟨.keyOrEnd, .inr rfl, (settled_self rfl).reads_token hfit ht (by decide) ?_ rfl, ?_⟩
    · exact (consumeNormal_start hq (by simp [Kind.opening, IsWhitespace]) (by decide)).trans rfl
    · simpa [consumeNormal, IsWhitespace, consumeExpected, currentExpect, closeContainer, Kind.closing] using hq
  | array =>
    refine ⟨.valueOrEnd, .inr rfl, (settled_self rfl).reads_token hfit ht (by decide) ?_ rfl, ?_⟩
    · exact (consumeNormal_start hq (by simp [Kind.opening, IsWhitespace]) (by decide)).trans rfl
    · simpa [consumeNormal, IsWhitespace, consumeExpected, currentExpect, closeContainer, Kind.closing] using hq

/-- The closing bracket after an item. -/
theorem consumeNormal_closing (kind : ContainerKind) (hmode : p.mode = .normal) (hq : p.finishValue = some q) :
    consumeNormal ⟨⟨kind, .commaOrEnd⟩ :: p.stack, p.rootComplete, .normal⟩ kind.closing = some q := by
  obtain ⟨stack, root, _⟩ := p
  cases hmode
  cases kind <;>
    simpa [consumeNormal, IsWhitespace, consumeExpected, currentExpect, closeContainer, Kind.closing] using hq

theorem closing_mem_structural (kind : ContainerKind) : kind.closing ∈ structural := by
  cases kind <;> decide

/-- The separator between items. -/
theorem consumeNormal_comma (kind : ContainerKind) (rest : List Container) (root : Bool) : ∃ expect,
    Ready kind expect ∧ consumeNormal ⟨⟨kind, .commaOrEnd⟩ :: rest, root, .normal⟩ ',' =
      some ⟨⟨kind, expect⟩ :: rest, root, .normal⟩ := by
  cases kind with
  | object => exact ⟨.key, .inl rfl, by simp [consumeNormal, IsWhitespace, consumeExpected, currentExpect, setExpect]⟩
  | array => exact ⟨.value, .inl rfl, by simp [consumeNormal, IsWhitespace, consumeExpected, currentExpect, setExpect]⟩

/-- A key and its colon. -/
theorem reading_member (hfit : Fits d A) {k n v : List Char} (hk : Str k) (hn : d.Token ':' n)
    (hv : Reading A .value v) : Reading A (.item .object) (k ++ (n ++ v)) := by
  intro expect rest root hready
  have hkey : Reads A ⟨⟨.object, expect⟩ :: rest, root, .normal⟩ k ⟨⟨.object, .colon⟩ :: rest, root, .normal⟩ := by
    have hquote : consume ⟨⟨.object, expect⟩ :: rest, root, .normal⟩ '"' =
        some ⟨⟨.object, .key⟩ :: rest, root, .string .key false 0⟩ := by
      rcases hready with rfl | rfl <;>
        simp [consume, consumeNormal, IsWhitespace, consumeExpected, currentExpect, setExpect, startKey]
    exact reads_str hfit .key hquote rfl hk
  have hcolon : Reads A ⟨⟨.object, .colon⟩ :: rest, root, .normal⟩ n ⟨⟨.object, .value⟩ :: rest, root, .normal⟩ := by
    refine (settled_self rfl).reads_token hfit hn (by decide) ?_ rfl
    simp [consumeNormal, IsWhitespace, consumeExpected, currentExpect, setExpect]
  obtain ⟨q', hq', hsettled⟩ := hv ⟨⟨.object, .value⟩ :: rest, root, .normal⟩ _ rfl rfl
  exact ⟨q', hkey.append (hcolon.append hq'), hsettled⟩

/-- **The machine reads what the grammar derives.** -/
theorem reading_of_derives (hfit : Fits d A) {nonterminal : Nonterminal} (h : d.Derives nonterminal t) :
    Reading A nonterminal t := by
  induction h with
  | literal ht => exact reading_literal hfit ht
  | number ht => exact reading_number hfit ht
  | string ht => exact reading_string hfit ht
  | empty kind hb he =>
    intro p q hmode hq
    obtain ⟨expect, -, hopen, hclose⟩ := reads_opening hfit kind hmode hq hb
    have hend := (settled_self rfl).reads_token hfit he (closing_mem_structural kind) hclose
      ((finishValue_mode hq).trans hmode)
    exact ⟨q, hopen.append hend, settled_self ((finishValue_mode hq).trans hmode)⟩
  | list kind hb _ he ih =>
    intro p q hmode hq
    obtain ⟨expect, hready, hopen, -⟩ := reads_opening hfit kind hmode hq hb
    obtain ⟨q', hitems, hsettled⟩ := ih expect p.stack p.rootComplete hready
    have hend := hsettled.reads_token hfit he (closing_mem_structural kind) (consumeNormal_closing kind hmode hq)
      ((finishValue_mode hq).trans hmode)
    exact ⟨q, hopen.append (hitems.append hend), settled_self ((finishValue_mode hq).trans hmode)⟩
  | member hk hn _ ih => exact reading_member hfit hk hn ih
  | element _ ih =>
    intro expect rest root hready
    refine ih ⟨⟨.array, expect⟩ :: rest, root, .normal⟩ _ rfl (finishValue_eq_some.mpr (.inr ⟨_, rest, rfl, ?_, rfl⟩))
    exact hready.imp_right fun h => ⟨h, rfl⟩
  | one _ ih => exact ih
  | @more kind t s ts _ hs _ ih₁ ih₂ =>
    intro expect rest root hready
    obtain ⟨q₁, hfirst, hsettled⟩ := ih₁ expect rest root hready
    obtain ⟨expect', hready', hcomma⟩ := consumeNormal_comma kind rest root
    obtain ⟨q₂, hrest, hsettled'⟩ := ih₂ expect' rest root hready'
    exact ⟨q₂, hfirst.append ((hsettled.reads_token hfit hs (by decide) hcomma rfl).append hrest), hsettled'⟩

/-- **A text of the grammar is accepted.** -/
theorem reads_of_text (hfit : Fits d A) (h : d.Text t) : ∃ q, Reads A new t q ∧ q.isComplete = true := by
  obtain ⟨u, v, w, hu, hv, hw, rfl⟩ := h
  obtain ⟨q', hvalue, hsettled⟩ := reading_of_derives hfit hv new ⟨[], true, .normal⟩ rfl rfl
  obtain ⟨r, hspaces, hsettled'⟩ := hsettled.reads_spaces hfit hw
  exact ⟨r, (reads_spaces_normal hfit rfl hu).append (hvalue.append hspaces), hsettled'.isComplete⟩

end JsonPrefixParser

end OnnxGenai.Generation
