import OnnxGenai.Generation.JsonPrefixParser

/-!
# What the JSON prefix parser accepts is derived by the grammar

For every state of the machine, `Continues` says which texts complete it, in terms of the grammar: what
is left of the scalar being read, then what may follow a finished value under the stack (`After`). When
the machine reads `c` and goes from `p` to `q`, every text that completes `q` completes `p` with `c` in
front (`Advances`). So an accepted text is a text of the grammar, and as every state can be
completed (`Valid.continues`), a text that is not refused is a prefix of one.

The grammar's dialect is the machine's own, or a smaller one: outside strings only the characters of a
set `A` may be read (`Fits`).
-/

namespace OnnxGenai.Generation

open Lib.Json List Option

/-- The dialect is the machine's, restricted to the characters of `A`. -/
structure Fits (d : Dialect) (A : Char → Prop) : Prop where
  space : ∀ c, d.Space c ↔ IsWhitespace c ∧ A c
  literal : ∀ t, d.Literal t ↔ ∃ first rest l, first :: rest ∈ literals ∧
    List.Forall₂ (fun e c => SameByte e c ∧ A c) rest l ∧ t = first :: l
  byte : ∀ c, ¬ IsWhitespace c → c.toNat < 256 → A c

/-! ### What is left of a number -/

namespace NumberPhase

/-- The texts that complete a number. -/
def Rest : NumberPhase → List Char → Prop
  | .minus, t => ∃ int frac exp, Int int ∧ OptionalFrac frac ∧ OptionalExp exp ∧ t = int ++ (frac ++ exp)
  | .zero, t => ∃ frac exp, OptionalFrac frac ∧ OptionalExp exp ∧ t = frac ++ exp
  | .int, t => ∃ ds frac exp, (∀ d ∈ ds, Digit d) ∧ OptionalFrac frac ∧ OptionalExp exp ∧ t = ds ++ (frac ++ exp)
  | .dot, t => ∃ ds exp, Digits ds ∧ OptionalExp exp ∧ t = ds ++ exp
  | .fraction, t => ∃ ds exp, (∀ d ∈ ds, Digit d) ∧ OptionalExp exp ∧ t = ds ++ exp
  | .expStart, t => ∃ sign ds, (sign = [] ∨ sign = ['+'] ∨ sign = ['-']) ∧ Digits ds ∧ t = sign ++ ds
  | .expSign, t => Digits t
  | .expDigits, t => ∀ d ∈ t, Digit d

variable {phase phase' : NumberPhase} {c : Char} {t : List Char}

theorem digits_cons {ds : List Char} (hc : Digit c) (hds : ∀ d ∈ ds, Digit d) : Digits (c :: ds) :=
  ⟨cons_ne_nil _ _, forall_mem_cons.mpr ⟨hc, hds⟩⟩

theorem Rest.exp (h : Rest .expStart t) (hc : c = 'e' ∨ c = 'E') : OptionalExp (c :: t) := by
  obtain ⟨sign, ds, hsign, hds, rfl⟩ := h
  exact .inr ⟨c, sign, ds, hc, hsign, hds, rfl⟩

theorem Rest.frac (h : Rest .dot t) : Rest .zero ('.' :: t) := by
  obtain ⟨ds, exp, hds, hexp, rfl⟩ := h
  exact ⟨'.' :: ds, exp, .inr ⟨ds, hds, rfl⟩, hexp, rfl⟩

theorem Rest.int_of_zero (h : Rest .zero t) : Rest .int t := by
  obtain ⟨frac, exp, hfrac, hexp, rfl⟩ := h
  exact ⟨[], frac, exp, forall_mem_nil _, hfrac, hexp, rfl⟩

/-- A text that completes the next phase completes this one after the character. -/
theorem Rest.cons (h : phase.consume c = some phase') (hr : phase'.Rest t) : phase.Rest (c :: t) := by
  cases phase with
  | minus =>
    simp only [consume] at h
    split_ifs at h with hzero hdigit
    · obtain rfl := hzero
      cases h
      obtain ⟨frac, exp, hfrac, hexp, rfl⟩ := hr
      exact ⟨['0'], frac, exp, .inl rfl, hfrac, hexp, rfl⟩
    · cases h
      obtain ⟨ds, frac, exp, hds, hfrac, hexp, rfl⟩ := hr
      exact ⟨c :: ds, frac, exp, .inr ⟨c, ds, hdigit, hds, rfl⟩, hfrac, hexp, rfl⟩
  | zero =>
    simp only [consume] at h
    split_ifs at h with hdot he
    · obtain rfl := hdot
      cases h
      exact hr.frac
    · cases h
      exact ⟨[], c :: t, .inl rfl, hr.exp he, rfl⟩
  | int =>
    simp only [consume] at h
    split_ifs at h with hdot he hdigit
    · obtain rfl := hdot
      cases h
      exact hr.frac.int_of_zero
    · cases h
      exact ⟨[], [], c :: t, forall_mem_nil _, .inl rfl, hr.exp he, rfl⟩
    · cases h
      obtain ⟨ds, frac, exp, hds, hfrac, hexp, rfl⟩ := hr
      exact ⟨c :: ds, frac, exp, forall_mem_cons.mpr ⟨hdigit, hds⟩, hfrac, hexp, rfl⟩
  | dot =>
    simp only [consume] at h
    split_ifs at h with hdigit
    cases h
    obtain ⟨ds, exp, hds, hexp, rfl⟩ := hr
    exact ⟨c :: ds, exp, digits_cons hdigit hds, hexp, rfl⟩
  | fraction =>
    simp only [consume] at h
    split_ifs at h with he hdigit
    · cases h
      exact ⟨[], c :: t, forall_mem_nil _, hr.exp he, rfl⟩
    · cases h
      obtain ⟨ds, exp, hds, hexp, rfl⟩ := hr
      exact ⟨c :: ds, exp, forall_mem_cons.mpr ⟨hdigit, hds⟩, hexp, rfl⟩
  | expStart =>
    simp only [consume] at h
    split_ifs at h with hsign hdigit
    · cases h
      refine ⟨[c], t, .inr ?_, hr, rfl⟩
      rcases hsign with rfl | rfl
      · exact .inl rfl
      · exact .inr rfl
    · cases h
      exact ⟨[], c :: t, .inl rfl, digits_cons hdigit hr, rfl⟩
  | expSign =>
    simp only [consume] at h
    split_ifs at h with hdigit
    cases h
    exact digits_cons hdigit hr
  | expDigits =>
    simp only [consume] at h
    split_ifs at h with hdigit
    cases h
    exact forall_mem_cons.mpr ⟨hdigit, hr⟩

theorem Rest.nil (h : phase.isComplete = true) : phase.Rest [] := by
  cases phase with
  | zero => exact ⟨[], [], .inl rfl, .inl rfl, rfl⟩
  | int => exact ⟨[], [], [], forall_mem_nil _, .inl rfl, .inl rfl, rfl⟩
  | fraction => exact ⟨[], [], forall_mem_nil _, .inl rfl, rfl⟩
  | expDigits => exact forall_mem_nil _
  | minus | dot | expStart | expSign => cases h

theorem Rest.number (h : start c = some phase) (hr : phase.Rest t) : Number (c :: t) := by
  simp only [start] at h
  split_ifs at h with hminus hzero hdigit
  · obtain rfl := hminus
    cases h
    obtain ⟨int, frac, exp, hint, hfrac, hexp, rfl⟩ := hr
    exact ⟨['-'], int, frac, exp, .inr rfl, hint, hfrac, hexp, rfl⟩
  · obtain rfl := hzero
    cases h
    obtain ⟨frac, exp, hfrac, hexp, rfl⟩ := hr
    exact ⟨[], ['0'], frac, exp, .inl rfl, .inl rfl, hfrac, hexp, rfl⟩
  · cases h
    obtain ⟨ds, frac, exp, hds, hfrac, hexp, rfl⟩ := hr
    exact ⟨[], c :: ds, frac, exp, .inl rfl, .inr ⟨c, ds, hdigit, hds, rfl⟩, hfrac, hexp, rfl⟩

theorem digit_zero : Digit '0' := by decide

/-- Every number can be completed, by a zero if by nothing else. -/
theorem exists_rest (phase : NumberPhase) : ∃ t, phase.Rest t := by
  by_cases h : phase.isComplete = true
  · exact ⟨[], Rest.nil h⟩
  · refine ⟨['0'], ?_⟩
    cases phase with
    | minus | dot | expStart | expSign => exact Rest.cons rfl (Rest.nil rfl)
    | zero | int | fraction | expDigits => exact absurd rfl h

end NumberPhase

/-! ### What is left of a string -/

/-- A number of hexadecimal digits, then one of the texts of `P`. -/
def HexThen (P : List Char → Prop) : ℕ → List Char → Prop
  | 0, t => P t
  | n + 1, t => ∃ h u, HexDigit h ∧ HexThen P n u ∧ t = h :: u

/-- What may follow a backslash, to the end of the string. -/
def Escaped (t : List Char) : Prop :=
  (∃ c u, c ∈ escapes ∧ Chars u ∧ t = c :: u) ∨ ∃ u, HexThen Chars 4 u ∧ t = 'u' :: u

/-- The texts that complete the inside of a string. -/
def StringRest (escape : Bool) (unicodeRemaining : ℕ) : List Char → Prop :=
  HexThen (if escape then Escaped else Chars) unicodeRemaining

theorem Escaped.chars {t : List Char} (h : Escaped t) : Chars ('\\' :: t) := by
  rcases h with ⟨c, u, hc, hu, rfl⟩ | ⟨u, hu, rfl⟩
  · exact .escaped hc hu
  · obtain ⟨h₁, _, hh₁, ⟨h₂, _, hh₂, ⟨h₃, _, hh₃, ⟨h₄, u, hh₄, hu, rfl⟩, rfl⟩, rfl⟩, rfl⟩ := hu
    exact .unicode hh₁ hh₂ hh₃ hh₄ hu

theorem exists_hexThen {P : List Char → Prop} (h : ∃ t, P t) (n : ℕ) : ∃ t, HexThen P n t := by
  induction n with
  | zero => exact h
  | succ n ih =>
    obtain ⟨t, ht⟩ := ih
    exact ⟨'0' :: t, '0', t, .inl NumberPhase.digit_zero, ht, rfl⟩

theorem exists_stringRest (escape : Bool) (n : ℕ) : ∃ t, StringRest escape n t := by
  refine exists_hexThen ?_ n
  cases escape with
  | false => exact ⟨[], .nil⟩
  | true => exact ⟨['n'], .inl ⟨'n', [], by decide, .nil, rfl⟩⟩

/-! ### What is left of a text -/

namespace JsonPrefixParser

section Continues

variable (d : Dialect) (A : Char → Prop)

/-- What may follow a finished value under a stack. -/
def After : List Container → List Char → Prop
  | [], t => d.Spaces t
  | top :: rest, t => ∃ m e u, d.More top.kind m ∧ d.Token top.kind.closing e ∧ After rest u ∧ t = m ++ (e ++ u)

/-- A value, then what may follow it. -/
def Awaits (stack : List Container) (t : List Char) : Prop :=
  ∃ w v u, d.Spaces w ∧ d.Derives .value v ∧ After d stack u ∧ t = w ++ (v ++ u)

/-- A closing bracket, then what may follow a value under the rest of the stack. -/
def Ends (c : Char) (rest : List Container) (t : List Char) : Prop :=
  ∃ w u, d.Spaces w ∧ After d rest u ∧ t = w ++ c :: u

/-- Members of an object, its end and what may follow. -/
def Keyed (rest : List Container) (t : List Char) : Prop :=
  ∃ w m e u, d.Spaces w ∧ d.Derives (.items .object) m ∧ d.Token '}' e ∧ After d rest u ∧ t = w ++ (m ++ (e ++ u))

/-- The rest of a member after its key, and what may follow. -/
def Named (stack : List Container) (t : List Char) : Prop :=
  ∃ n v u, d.Token ':' n ∧ d.Derives .value v ∧ After d stack u ∧ t = n ++ (v ++ u)

/-- What completes the machine between scalars. -/
def Opens : List Container → Bool → List Char → Prop
  | [], true, t => d.Spaces t
  | [], false, t => Awaits d [] t
  | top :: rest, _, t =>
    match top.expect with
    | .value => Awaits d (top :: rest) t
    | .valueOrEnd => Awaits d (top :: rest) t ∨ Ends d ']' rest t
    | .keyOrEnd => Keyed d rest t ∨ Ends d '}' rest t
    | .key => Keyed d rest t
    | .colon => Named d (top :: rest) t
    | .commaOrEnd => After d (top :: rest) t

/-- The texts that complete a state of the machine. -/
def Continues (p : JsonPrefixParser) (t : List Char) : Prop :=
  match p.mode with
  | .normal => Opens d p.stack p.rootComplete t
  | .string .key escape n => ∃ cs u, StringRest escape n cs ∧ Named d p.stack u ∧ t = cs ++ '"' :: u
  | .string .value escape n => ∃ cs u, StringRest escape n cs ∧ After d p.stack u ∧ t = cs ++ '"' :: u
  | .number phase => ∃ n u, phase.Rest n ∧ After d p.stack u ∧ t = n ++ u
  | .literal target matched => ∃ l u, List.Forall₂ (fun e c => SameByte e c ∧ A c) (target.drop matched) l ∧
      After d p.stack u ∧ t = l ++ u

end Continues

variable {d : Dialect} {A : Char → Prop} {p q : JsonPrefixParser} {c : Char} {t : List Char} {stack rest : List Container}

/-! ### Spaces in front -/

theorem After.space (hc : d.Space c) (ht : After d stack t) : After d stack (c :: t) := by
  cases stack with
  | nil => exact Dialect.Spaces.cons hc ht
  | cons top rest =>
    obtain ⟨m, e, u, hm, he, hu, rfl⟩ := ht
    rcases hm with rfl | ⟨s, ts, hs, hts, rfl⟩
    · exact ⟨[], c :: e, u, .inl rfl, he.space hc, hu, rfl⟩
    · exact ⟨c :: s ++ ts, e, u, .inr ⟨c :: s, ts, hs.space hc, hts, rfl⟩, he, hu, rfl⟩

theorem Awaits.space (hc : d.Space c) (ht : Awaits d stack t) : Awaits d stack (c :: t) := by
  obtain ⟨w, v, u, hw, hv, hu, rfl⟩ := ht
  exact ⟨c :: w, v, u, hw.cons hc, hv, hu, rfl⟩

theorem Ends.space {b : Char} (hc : d.Space c) (ht : Ends d b rest t) : Ends d b rest (c :: t) := by
  obtain ⟨w, u, hw, hu, rfl⟩ := ht
  exact ⟨c :: w, u, hw.cons hc, hu, rfl⟩

theorem Keyed.space (hc : d.Space c) (ht : Keyed d rest t) : Keyed d rest (c :: t) := by
  obtain ⟨w, m, e, u, hw, hm, he, hu, rfl⟩ := ht
  exact ⟨c :: w, m, e, u, hw.cons hc, hm, he, hu, rfl⟩

theorem Named.space (hc : d.Space c) (ht : Named d stack t) : Named d stack (c :: t) := by
  obtain ⟨n, v, u, hn, hv, hu, rfl⟩ := ht
  exact ⟨c :: n, v, u, hn.space hc, hv, hu, rfl⟩

theorem Opens.space {root : Bool} (hc : d.Space c) (ht : Opens d stack root t) : Opens d stack root (c :: t) := by
  cases stack with
  | nil =>
    cases root with
    | true => exact Dialect.Spaces.cons hc ht
    | false => exact Awaits.space hc ht
  | cons top rest =>
    obtain ⟨kind, expect⟩ := top
    cases expect with
    | value => exact Awaits.space hc ht
    | valueOrEnd => exact ht.imp (Awaits.space hc) (Ends.space hc)
    | keyOrEnd => exact ht.imp (Keyed.space hc) (Ends.space hc)
    | key => exact Keyed.space hc ht
    | colon => exact Named.space hc ht
    | commaOrEnd => exact After.space hc ht

/-! ### Proper stacks -/

/-- A container expects only what its kind can have. -/
def Container.Proper (container : Container) : Prop :=
  (container.kind = .object ∧ container.expect ≠ .valueOrEnd) ∨
    (container.kind = .array ∧ (container.expect = .value ∨ container.expect = .valueOrEnd ∨ container.expect = .commaOrEnd))

/-- The containers are proper, and a literal is one of the three. -/
structure Valid (p : JsonPrefixParser) : Prop where
  stack : ∀ top ∈ p.stack, Container.Proper top
  literal : ∀ target matched, p.mode = .literal target matched → target ∈ literals

theorem Container.proper_commaOrEnd (kind : ContainerKind) : Container.Proper ⟨kind, .commaOrEnd⟩ := by
  cases kind <;> simp [Container.Proper]

theorem Container.proper_value (kind : ContainerKind) : Container.Proper ⟨kind, .value⟩ := by
  cases kind <;> simp [Container.Proper]

theorem Valid.normal (h : p.Valid) : Valid { p with mode := .normal } := ⟨h.stack, nofun⟩

theorem Valid.finishValue (h : p.Valid) (hq : p.finishValue = some q) : q.Valid := by
  refine ⟨?_, fun target matched hmode => h.literal target matched ((finishValue_mode hq).symm.trans hmode)⟩
  rcases finishValue_eq_some.mp hq with ⟨hstack, -, rfl⟩ | ⟨top, rest, hstack, -, rfl⟩
  · exact h.stack
  · have hall := h.stack
    rw [hstack] at hall
    exact forall_mem_cons.mpr ⟨Container.proper_commaOrEnd _, (forall_mem_cons.mp hall).2⟩

theorem Valid.closeContainer {kind : ContainerKind} (h : p.Valid) (hq : p.closeContainer kind = some q) : q.Valid := by
  obtain ⟨top, rest, hstack, -, hfinish⟩ := closeContainer_eq_some.mp hq
  have hall := h.stack
  rw [hstack] at hall
  have hrest : Valid { p with stack := rest } := ⟨(forall_mem_cons.mp hall).2, h.literal⟩
  exact hrest.finishValue hfinish

theorem Valid.setExpect {expect : Expect} (h : p.Valid) (hq : p.setExpect expect = some q)
    (hproper : ∀ top ∈ p.stack.head?, Container.Proper ⟨top.kind, expect⟩) : q.Valid := by
  obtain ⟨stack, root, mode⟩ := p
  cases stack with
  | nil => cases hq
  | cons top rest =>
    cases hq
    exact ⟨forall_mem_cons.mpr ⟨hproper top rfl, (forall_mem_cons.mp h.stack).2⟩, h.literal⟩

theorem valid_new : new.Valid := ⟨forall_mem_nil _, nofun⟩

/-! ### One character -/

/-- Once a value is finished, what may follow it completes the machine. -/
theorem continues_of_finishValue (hmode : p.mode = .normal) (h : p.finishValue = some q) :
    Continues d A q t ↔ After d p.stack t := by
  obtain ⟨stack, root, _⟩ := p
  cases hmode
  rcases finishValue_eq_some.mp h with ⟨hstack, -, rfl⟩ | ⟨top, rest, hstack, -, rfl⟩
  · obtain rfl : stack = [] := hstack
    exact Iff.rfl
  · obtain rfl : stack = top :: rest := hstack
    exact Iff.rfl

/-- A closing bracket ends the list it stands in. -/
theorem after_of_close {kind : ContainerKind} (hmode : p.mode = .normal) (h : p.closeContainer kind = some q)
    (ht : Continues d A q t) : ∃ top rest, p.stack = top :: rest ∧ top.kind = kind ∧ After d rest t := by
  obtain ⟨top, rest, hstack, hkind, hfinish⟩ := closeContainer_eq_some.mp h
  exact ⟨top, rest, hstack, hkind, (continues_of_finishValue (p := { p with stack := rest }) hmode hfinish).mp ht⟩

/-- The machine has read `c`: the state is proper, and what completes it completes the state before
after the character. -/
structure Advances (d : Dialect) (A : Char → Prop) (p : JsonPrefixParser) (c : Char) (q : JsonPrefixParser) : Prop where
  valid : q.Valid
  continues : ∀ t, Continues d A q t → Continues d A p (c :: t)

/-- The first character of a value. -/
theorem value_of_start (hfit : Fits d A) (hvalid : p.Valid) (hmode : p.mode = .normal) (h : p.startValue c = some q) :
    q.Valid ∧ ∀ t, Continues d A q t → ∃ v u, d.Derives .value v ∧ After d p.stack u ∧ c :: t = v ++ u := by
  obtain ⟨stack, root, _⟩ := p
  cases hmode
  have hpush : ∀ {top}, Container.Proper top → Valid ⟨top :: stack, root, .normal⟩ := fun htop =>
    ⟨forall_mem_cons.mpr ⟨htop, hvalid.stack⟩, hvalid.literal⟩
  have hliteral : ∀ {first : Char} {rest : List Char}, first :: rest ∈ literals →
      Valid ⟨stack, root, .literal (first :: rest) 1⟩ ∧
        ∀ t, Continues d A ⟨stack, root, .literal (first :: rest) 1⟩ t →
          ∃ v u, d.Derives .value v ∧ After d stack u ∧ first :: t = v ++ u := by
    intro first rest hmem
    refine ⟨⟨hvalid.stack, fun target matched heq => ?_⟩, ?_⟩
    · obtain ⟨rfl, -⟩ := Mode.literal.inj heq
      exact hmem
    · rintro _ ⟨l, u, hl, hu, rfl⟩
      exact ⟨first :: l, u, .literal ((hfit.literal _).mpr ⟨first, rest, l, hmem, hl, rfl⟩), hu, rfl⟩
  simp only [startValue] at h
  split_ifs at h with hobject harray hquote htrue hfalse hnull hnumber
  · obtain rfl := hobject
    cases h
    refine ⟨hpush (by simp [Container.Proper]), ?_⟩
    rintro t (⟨w, m, e, u, hw, hm, he, hu, rfl⟩ | ⟨w, u, hw, hu, rfl⟩)
    · exact ⟨_, u, .list .object (Dialect.token_of_spaces hw '{') hm he, hu, by simp⟩
    · exact ⟨_, u, .empty .object (Dialect.token_self '{') (Dialect.token_after_spaces hw '}'), hu, by simp⟩
  · obtain rfl := harray
    cases h
    refine ⟨hpush (by simp [Container.Proper]), ?_⟩
    rintro t (⟨w, v, _, hw, hv, ⟨m, e, u, hm, he, hu, rfl⟩, rfl⟩ | ⟨w, u, hw, hu, rfl⟩)
    · have hitems := Dialect.Derives.items_of_more (.element hv) hm
      exact ⟨_, u, .list .array (Dialect.token_of_spaces hw '[') hitems he, hu, by simp⟩
    · exact ⟨_, u, .empty .array (Dialect.token_self '[') (Dialect.token_after_spaces hw ']'), hu, by simp⟩
  · obtain rfl := hquote
    cases h
    refine ⟨⟨hvalid.stack, nofun⟩, ?_⟩
    rintro _ ⟨cs, u, hcs, hu, rfl⟩
    exact ⟨_, u, .string ⟨cs, hcs, rfl⟩, hu, by simp⟩
  · obtain rfl := htrue
    cases h
    exact hliteral (by decide)
  · obtain rfl := hfalse
    cases h
    exact hliteral (by decide)
  · obtain rfl := hnull
    cases h
    exact hliteral (by decide)
  · obtain ⟨phase, hphase, rfl⟩ := map_eq_some_iff.mp h
    refine ⟨⟨hvalid.stack, nofun⟩, ?_⟩
    rintro _ ⟨n, u, hn, hu, rfl⟩
    exact ⟨c :: n, u, .number (NumberPhase.Rest.number hphase hn), hu, rfl⟩

theorem awaits_of_start (hfit : Fits d A) (hvalid : p.Valid) (hmode : p.mode = .normal)
    (h : p.startValue c = some q) : q.Valid ∧ ∀ t, Continues d A q t → Awaits d p.stack (c :: t) := by
  obtain ⟨hq, hvalue⟩ := value_of_start hfit hvalid hmode h
  refine ⟨hq, fun t ht => ?_⟩
  obtain ⟨v, u, hv, hu, heq⟩ := hvalue t ht
  exact ⟨[], v, u, Dialect.spaces_nil, hv, hu, heq⟩

/-- The opening quote of a key. -/
theorem keyed_of_quote {top : Container} (hkind : top.kind = .object) {cs u : List Char} (hcs : Chars cs)
    (hu : Named d (top :: rest) u) : Keyed d rest ('"' :: (cs ++ '"' :: u)) := by
  obtain ⟨n, v, _, hn, hv, ⟨m, e, u, hm, he, hu, rfl⟩, rfl⟩ := hu
  rw [hkind] at hm he
  have hitems := Dialect.Derives.items_of_more (.member ⟨cs, hcs, rfl⟩ hn hv) hm
  exact ⟨[], _, e, u, Dialect.spaces_nil, hitems, he, hu, by simp⟩

/-- A character read between scalars. -/
theorem advances_normal (hfit : Fits d A) (hvalid : p.Valid) (hmode : p.mode = .normal)
    (h : p.consumeNormal c = some q) (hA : A c) : Advances d A p c q := by
  obtain ⟨stack, root, _⟩ := p
  cases hmode
  simp only [consumeNormal] at h
  split_ifs at h with hspace hroot
  · cases h
    exact ⟨hvalid, fun t ht => Opens.space ((hfit.space c).mpr ⟨hspace, hA⟩) ht⟩
  · cases stack with
    | nil =>
      obtain rfl : root = false := by simpa using hroot
      obtain ⟨hq, hawaits⟩ := awaits_of_start hfit hvalid rfl h
      exact ⟨hq, hawaits⟩
    | cons top rest =>
      obtain ⟨htop, hrest⟩ := forall_mem_cons.mp hvalid.stack
      obtain ⟨kind, expect⟩ := top
      -- a bracket that ends the list, and a quote that starts a key
      have hends : ∀ {kind'}, (⟨⟨kind, expect⟩ :: rest, root, .normal⟩ : JsonPrefixParser).closeContainer kind' = some q →
          q.Valid ∧ ∀ t, Continues d A q t → After d rest t := by
        intro kind' h
        refine ⟨hvalid.closeContainer h, fun t ht => ?_⟩
        obtain ⟨top, rest', hstack, -, hafter⟩ := after_of_close rfl h ht
        obtain ⟨rfl, rfl⟩ := cons.inj hstack
        exact hafter
      have hquoted : kind = .object → Advances d A ⟨⟨.object, .key⟩ :: rest, root, .normal⟩ '"'
          ⟨⟨kind, .key⟩ :: rest, root, .string .key false 0⟩ := by
        rintro rfl
        refine ⟨⟨forall_mem_cons.mpr ⟨by simp [Container.Proper], hrest⟩, nofun⟩, ?_⟩
        rintro _ ⟨cs, u, hcs, hu, rfl⟩
        exact keyed_of_quote rfl hcs hu
      simp only [consumeExpected, currentExpect, head?_cons, elim_some] at h
      cases expect with
      | value =>
        obtain ⟨hq, hawaits⟩ := awaits_of_start hfit hvalid rfl h
        exact ⟨hq, hawaits⟩
      | valueOrEnd =>
        simp only at h
        split_ifs at h with hclose
        · obtain rfl := hclose
          obtain ⟨hq, hafter⟩ := hends h
          exact ⟨hq, fun t ht => .inr ⟨[], t, Dialect.spaces_nil, hafter t ht, rfl⟩⟩
        · obtain ⟨hq, hawaits⟩ := awaits_of_start hfit hvalid rfl h
          exact ⟨hq, fun t ht => .inl (hawaits t ht)⟩
      | keyOrEnd =>
        simp only at h
        split_ifs at h with hclose hquote
        · obtain rfl := hclose
          obtain ⟨hq, hafter⟩ := hends h
          exact ⟨hq, fun t ht => .inr ⟨[], t, Dialect.spaces_nil, hafter t ht, rfl⟩⟩
        · obtain rfl := hquote
          cases h
          obtain ⟨hq, hkeyed⟩ := hquoted (by simpa [Container.Proper] using htop)
          exact ⟨hq, fun t ht => .inl (hkeyed t ht)⟩
      | key =>
        simp only at h
        split_ifs at h with hquote
        obtain rfl := hquote
        cases h
        obtain ⟨hq, hkeyed⟩ := hquoted (by simpa [Container.Proper] using htop)
        exact ⟨hq, hkeyed⟩
      | colon =>
        simp only at h
        split_ifs at h with hcolon
        obtain rfl := hcolon
        refine ⟨hvalid.setExpect h fun top _ => Container.proper_value top.kind, ?_⟩
        cases h
        rintro _ ⟨w, v, u, hw, hv, hu, rfl⟩
        exact ⟨':' :: w, v, u, Dialect.token_of_spaces hw ':', hv, hu, rfl⟩
      | commaOrEnd =>
        cases kind with
        | object =>
          simp only [map_some] at h
          split_ifs at h with hcomma hclose
          · obtain rfl := hcomma
            refine ⟨hvalid.setExpect h fun top htop => ?_, ?_⟩
            · cases htop
              simp [Container.Proper]
            · cases h
              rintro _ ⟨w, m, e, u, hw, hm, he, hu, rfl⟩
              exact ⟨',' :: w ++ m, e, u, .inr ⟨_, m, Dialect.token_of_spaces hw ',', hm, rfl⟩, he, hu, by simp⟩
          · obtain rfl := hclose
            obtain ⟨hq, hafter⟩ := hends h
            exact ⟨hq, fun t ht => ⟨[], ['}'], t, .inl rfl, Dialect.token_self _, hafter t ht, rfl⟩⟩
        | array =>
          simp only [map_some] at h
          split_ifs at h with hcomma hclose
          · obtain rfl := hcomma
            refine ⟨hvalid.setExpect h fun top _ => Container.proper_value top.kind, ?_⟩
            cases h
            rintro _ ⟨w, v, _, hw, hv, ⟨m, e, u, hm, he, hu, rfl⟩, rfl⟩
            have hitems := Dialect.Derives.items_of_more (.element hv) hm
            exact ⟨',' :: w ++ (v ++ m), e, u, .inr ⟨_, _, Dialect.token_of_spaces hw ',', hitems, rfl⟩, he, hu,
              by simp⟩
          · obtain rfl := hclose
            obtain ⟨hq, hafter⟩ := hends h
            exact ⟨hq, fun t ht => ⟨[], [']'], t, .inl rfl, Dialect.token_self _, hafter t ht, rfl⟩⟩

/-- A character inside a string. -/
theorem advances_string {role : StringRole} {escape : Bool} {n : ℕ} (hvalid : p.Valid)
    (hmode : p.mode = .string role escape n) (h : p.consumeString role escape n c = some q) : Advances d A p c q := by
  obtain ⟨stack, root, _⟩ := p
  cases hmode
  -- what follows the string depends on its role only
  have hrest : ∀ {escape' n'}, (∀ cs, StringRest escape' n' cs → StringRest escape n (c :: cs)) →
      Advances d A ⟨stack, root, .string role escape n⟩ c ⟨stack, root, .string role escape' n'⟩ := by
    intro escape' n' hcons
    refine ⟨⟨hvalid.stack, nofun⟩, fun t ht => ?_⟩
    cases role with
    | key | value =>
      obtain ⟨cs, u, hcs, hu, rfl⟩ := ht
      exact ⟨c :: cs, u, hcons cs hcs, hu, rfl⟩
  unfold consumeString at h
  split at h
  case h_1 n =>
    split_ifs at h with hhex
    cases h
    exact hrest fun cs hcs => ⟨c, cs, hhex, hcs, rfl⟩
  case h_2 =>
    split_ifs at h with hescape hunicode
    · cases h
      exact hrest fun cs hcs => .inl ⟨c, cs, hescape, hcs, rfl⟩
    · obtain rfl := hunicode
      cases h
      exact hrest fun cs hcs => .inr ⟨cs, hcs, rfl⟩
  case h_3 =>
    split_ifs at h with hquote hslash hcontrol
    · obtain rfl := hquote
      cases role with
      | key =>
        obtain _ | ⟨top, rest⟩ := stack
        · cases h
        · simp only [finishString] at h
          split_ifs at h with hkind
          cases h
          have hobject : top.kind = .object := by
            by_contra hne
            exact hkind (.inl hne)
          have hcolon : Container.Proper { top with expect := .colon } := .inl ⟨hobject, nofun⟩
          exact ⟨⟨forall_mem_cons.mpr ⟨hcolon, (forall_mem_cons.mp hvalid.stack).2⟩, nofun⟩,
            fun t ht => ⟨[], t, .nil, ht, rfl⟩⟩
      | value =>
        exact ⟨hvalid.normal.finishValue h, fun t ht => ⟨[], t, .nil, (continues_of_finishValue rfl h).mp ht, rfl⟩⟩
    · obtain rfl := hslash
      cases h
      exact hrest fun cs hcs => Escaped.chars hcs
    · cases h
      have hspace : ' ' ≤ c := by
        rw [Char.le_def, UInt32.le_iff_toNat_le] at hcontrol ⊢
        have h1 : ('\x1f' : Char).val.toNat = 31 := rfl
        have h2 : (' ' : Char).val.toNat = 32 := rfl
        omega
      exact hrest fun cs hcs => .unescaped hspace hquote hslash hcs

/-- **What completes the next state completes this one after the character.** -/
theorem advances_consume (hfit : Fits d A) (hvalid : p.Valid) (h : p.consume c = some q) (hA : p.InString ∨ A c) :
    Advances d A p c q := by
  -- after a scalar the character is read between scalars
  have hnext : ∀ {r}, { p with mode := .normal }.finishValue = some r → r.consumeNormal c = some q → A c →
      q.Valid ∧ ∀ t, Continues d A q t → After d p.stack (c :: t) := by
    intro r hr hq hA
    have hadvances := advances_normal hfit (hvalid.normal.finishValue hr) (finishValue_mode hr) hq hA
    exact ⟨hadvances.valid, fun t ht => (continues_of_finishValue rfl hr).mp (hadvances.continues t ht)⟩
  unfold JsonPrefixParser.consume at h
  split at h
  case h_1 hmode =>
    have hA : A c := hA.resolve_left fun ⟨_, _, _, h⟩ => by simp [hmode] at h
    exact advances_normal hfit hvalid hmode h hA
  case h_2 hmode => exact advances_string hvalid hmode h
  case h_3 phase hmode =>
    have hA : A c := hA.resolve_left fun ⟨_, _, _, h⟩ => by simp [hmode] at h
    split at h
    case h_1 phase' hphase =>
      cases h
      refine ⟨⟨hvalid.stack, nofun⟩, ?_⟩
      rintro _ ⟨n, u, hn, hu, rfl⟩
      simp only [Continues, hmode]
      exact ⟨c :: n, u, hn.cons hphase, hu, rfl⟩
    case h_2 =>
      split_ifs at h with hcomplete
      obtain ⟨r, hr, hq⟩ := bind_eq_some_iff.mp h
      obtain ⟨hvalid', hafter⟩ := hnext hr hq hA
      refine ⟨hvalid', fun t ht => ?_⟩
      simp only [Continues, hmode]
      exact ⟨[], c :: t, .nil hcomplete, hafter t ht, rfl⟩
  case h_4 target matched hmode =>
    have hA : A c := hA.resolve_left fun ⟨_, _, _, h⟩ => by simp [hmode] at h
    -- the letter that is read, if it is the one expected
    have hletter : target[matched]?.any (SameByte · c) = true →
        ∃ e, target.drop matched = e :: target.drop (matched + 1) ∧ SameByte e c := by
      intro hbyte
      obtain ⟨e, he, hsame⟩ : ∃ e, target[matched]? = some e ∧ SameByte e c := by
        simpa [Option.any_eq_true] using hbyte
      obtain ⟨hlt, rfl⟩ := List.getElem?_eq_some_iff.mp he
      exact ⟨target[matched], drop_eq_getElem_cons hlt, hsame⟩
    split_ifs at h with hbyte hlast hend
    · obtain ⟨e, hdrop, hsame⟩ := hletter hbyte
      refine ⟨hvalid.normal.finishValue h, fun t ht => ?_⟩
      simp only [Continues, hmode]
      rw [hdrop, drop_of_length_le hlast.ge]
      exact ⟨[c], t, .cons ⟨hsame, hA⟩ .nil, (continues_of_finishValue rfl h).mp ht, rfl⟩
    · obtain ⟨e, hdrop, hsame⟩ := hletter hbyte
      cases h
      refine ⟨⟨hvalid.stack, fun target' matched' heq => ?_⟩, ?_⟩
      · obtain ⟨rfl, -⟩ := Mode.literal.inj heq
        exact hvalid.literal _ _ hmode
      · rintro _ ⟨l, u, hl, hu, rfl⟩
        simp only [Continues, hmode]
        rw [hdrop]
        exact ⟨c :: l, u, .cons ⟨hsame, hA⟩ hl, hu, rfl⟩
    · obtain ⟨r, hr, hq⟩ := bind_eq_some_iff.mp h
      obtain ⟨hvalid', hafter⟩ := hnext hr hq hA
      refine ⟨hvalid', fun t ht => ?_⟩
      simp only [Continues, hmode]
      rw [drop_of_length_le hend.ge]
      exact ⟨[], c :: t, .nil, hafter t ht, rfl⟩

/-! ### Whole texts -/

/-- What completes the state after a text completes the state before it after the text. -/
theorem continues_of_reads (hfit : Fits d A) {s : List Char} (hvalid : p.Valid) (h : Reads A p s q) :
    q.Valid ∧ ∀ t, Continues d A q t → Continues d A p (s ++ t) := by
  induction s generalizing p with
  | nil =>
    obtain rfl : p = q := h
    exact ⟨hvalid, fun t ht => ht⟩
  | cons c s ih =>
    obtain ⟨r, hr, hA, h⟩ := h
    have hadvances := advances_consume hfit hvalid hr hA
    obtain ⟨hq, hcontinues⟩ := ih hadvances.valid h
    exact ⟨hq, fun t ht => hadvances.continues _ (hcontinues t ht)⟩

/-- A complete state needs nothing more. -/
theorem continues_nil (h : p.isComplete = true) : Continues d A p [] := by
  obtain ⟨stack, root, mode⟩ := p
  unfold isComplete at h
  split at h
  case h_1 hmode =>
    obtain rfl : mode = .normal := hmode
    obtain ⟨hstack, rfl⟩ : stack = [] ∧ root = true := by simpa using h
    subst hstack
    exact Dialect.spaces_nil
  case h_2 phase hmode =>
    obtain rfl : mode = .number phase := hmode
    split_ifs at h with hcomplete
    split at h
    case h_1 => cases h
    case h_2 r hr =>
      rcases finishValue_eq_some.mp hr with ⟨hstack, -, -⟩ | ⟨top, rest, -, -, rfl⟩
      · obtain rfl : stack = [] := hstack
        exact ⟨[], [], .nil hcomplete, Dialect.spaces_nil, rfl⟩
      · simp at h
  case h_3 => cases h

theorem exists_after (stack : List Container) : ∃ t, After d stack t := by
  induction stack with
  | nil => exact ⟨[], Dialect.spaces_nil⟩
  | cons top rest ih =>
    obtain ⟨t, ht⟩ := ih
    exact ⟨_, [], _, t, .inl rfl, Dialect.token_self _, ht, rfl⟩

/-- The shortest value. -/
theorem derives_zero : d.Derives .value ['0'] :=
  .number (NumberPhase.Rest.number (rfl : NumberPhase.start '0' = some .zero) (NumberPhase.Rest.nil rfl))

theorem exists_awaits (stack : List Container) : ∃ t, Awaits d stack t := by
  obtain ⟨t, ht⟩ := exists_after (d := d) stack
  exact ⟨_, [], ['0'], t, Dialect.spaces_nil, derives_zero, ht, rfl⟩

theorem exists_named (stack : List Container) : ∃ t, Named d stack t := by
  obtain ⟨t, ht⟩ := exists_after (d := d) stack
  exact ⟨_, [':'], ['0'], t, Dialect.token_self _, derives_zero, ht, rfl⟩

theorem exists_keyed (rest : List Container) : ∃ t, Keyed d rest t := by
  obtain ⟨t, ht⟩ := exists_named (d := d) (⟨.object, .key⟩ :: rest)
  exact ⟨_, keyed_of_quote rfl .nil ht⟩

/-- Every state can be completed. -/
theorem Valid.continues (hfit : Fits d A) (h : p.Valid) : ∃ t, Continues d A p t := by
  obtain ⟨stack, root, mode⟩ := p
  cases mode with
  | normal =>
    cases stack with
    | nil =>
      cases root with
      | true => exact ⟨[], Dialect.spaces_nil⟩
      | false => exact exists_awaits []
    | cons top rest =>
      obtain ⟨kind, expect⟩ := top
      cases expect with
      | value => exact exists_awaits _
      | valueOrEnd => exact (exists_awaits _).imp fun _ => .inl
      | keyOrEnd => exact (exists_keyed _).imp fun _ => .inl
      | key => exact exists_keyed _
      | colon => exact exists_named _
      | commaOrEnd => exact exists_after _
  | string role escape n =>
    obtain ⟨cs, hcs⟩ := exists_stringRest escape n
    cases role with
    | key =>
      obtain ⟨t, ht⟩ := exists_named (d := d) stack
      exact ⟨_, cs, t, hcs, ht, rfl⟩
    | value =>
      obtain ⟨t, ht⟩ := exists_after (d := d) stack
      exact ⟨_, cs, t, hcs, ht, rfl⟩
  | number phase =>
    obtain ⟨n, hn⟩ := phase.exists_rest
    obtain ⟨t, ht⟩ := exists_after (d := d) stack
    exact ⟨_, n, t, hn, ht, rfl⟩
  | literal target matched =>
    obtain ⟨t, ht⟩ := exists_after (d := d) stack
    have hletters : ∀ c ∈ target, SameByte c c ∧ A c := by
      intro c hc
      have hplain : ∀ target ∈ literals, ∀ c ∈ target, ¬ IsWhitespace c ∧ c.toNat < 256 := by
        simp [literals, IsWhitespace]
      obtain ⟨hspace, hlt⟩ := hplain target (h.literal target matched rfl) c hc
      exact ⟨(Nat.mod_eq_of_lt hlt).symm, hfit.byte c hspace hlt⟩
    have hsame : List.Forall₂ (fun e c => SameByte e c ∧ A c) (target.drop matched) (target.drop matched) :=
      forall₂_same.mpr fun c hc => hletters c (mem_of_mem_drop hc)
    exact ⟨_, target.drop matched, t, hsame, ht, rfl⟩

/-- What completes the initial state is a text of the grammar. -/
theorem text_of_continues (h : Continues d A new t) : d.Text t := h

/-- **An accepted text is a text of the grammar.** -/
theorem Reads.text (hfit : Fits d A) {s : List Char} (h : Reads A new s q) (hq : q.isComplete = true) : d.Text s := by
  have hall := (continues_of_reads hfit valid_new h).2 [] (continues_nil hq)
  rw [append_nil] at hall
  exact text_of_continues hall

/-- **A text that is read is a prefix of a text of the grammar.** -/
theorem Reads.extends (hfit : Fits d A) {s : List Char} (h : Reads A new s q) : ∃ t, d.Text (s ++ t) := by
  obtain ⟨hvalid, hcontinues⟩ := continues_of_reads hfit valid_new h
  obtain ⟨t, ht⟩ := hvalid.continues hfit
  exact ⟨t, text_of_continues (hcontinues t ht)⟩

end JsonPrefixParser

end OnnxGenai.Generation
