import OnnxGenai.Lib.FiniteMap

/-!
# History penalties

The two logit processors that look back over the tokens so far. The repetition penalty rescales the
logit of every token among the last ones; DRY ("don't repeat yourself") lowers the logit of a token
that would extend a repeat: a token that, somewhere in the sequence, followed the same tokens the
sequence now ends with.

Both see the sequence as a prompt part and a generated part. Logits are numbers of any ordered
field. What a processor does to each logit is stated without its loops: the repetition penalty by
membership in the window (`getElem?_process`), DRY by the longest repeat (`Repeats`, `process_dry`).
-/

namespace OnnxGenai.Generation

open Lib List Nat

/-- A token number, `u32` in the source. -/
abbrev TokenId := ℕ

variable {K : Type} [Field K] [LinearOrder K] [IsStrictOrderedRing K]

/-- What a processor is told of the sequence. -/
structure ProcessorContext where
  promptTokens : List TokenId
  generatedTokens : List TokenId

/-! ### Repetition penalty -/

structure RepetitionPenaltyProcessor (K : Type) where
  penalty : K
  /-- Only the most recent tokens count; `none` for all. -/
  window : Option ℕ

/-- The penalized value of a logit. -/
def rescale (penalty logit : K) : K := if 0 < logit then logit / penalty else logit * penalty

/-- Change the logit of each token of a list, once. -/
def changeEach (f : K → K) : List TokenId → Finset TokenId → List K → List K
  | [], _, logits => logits
  | token :: rest, seen, logits =>
    if token ∈ seen then changeEach f rest seen logits
    else changeEach f rest (insert token seen) (logits.modify token f)

namespace RepetitionPenaltyProcessor

/-- The settings with which nothing is done. -/
def Inactive (self : RepetitionPenaltyProcessor K) : Prop := self.penalty ≤ 0 ∨ self.penalty = 1

instance (self : RepetitionPenaltyProcessor K) : Decidable self.Inactive := inferInstanceAs (Decidable (_ ∨ _))

def process (self : RepetitionPenaltyProcessor K) (logits : List K) (context : ProcessorContext) : List K :=
  if self.Inactive then logits
  else
    let total := context.promptTokens.length + context.generatedTokens.length
    let skip := self.window.elim 0 (total - ·)
    changeEach (rescale self.penalty) ((context.promptTokens ++ context.generatedTokens).drop skip) ∅ logits

/-- What the penalty does to a logit in the window. -/
def change (self : RepetitionPenaltyProcessor K) (logit : K) : K :=
  if self.Inactive then logit else rescale self.penalty logit

/-- The tokens of a sequence the penalty is for. -/
def windowOf (self : RepetitionPenaltyProcessor K) (sequence : List TokenId) : List TokenId :=
  self.window.elim sequence sequence.rtake

end RepetitionPenaltyProcessor

omit [LinearOrder K] [IsStrictOrderedRing K] [Field K] in
theorem getElem?_changeEach (f : K → K) (tokens : List TokenId) (seen : Finset TokenId) (logits : List K)
    (i : ℕ) :
    (changeEach f tokens seen logits)[i]? = if i ∈ tokens ∧ i ∉ seen then logits[i]?.map f else logits[i]? := by
  induction tokens generalizing seen logits with
  | nil => simp [changeEach]
  | cons token rest ih =>
    simp only [changeEach]
    split
    case isTrue hseen =>
      rw [ih]
      have hiff : (i ∈ rest ∧ i ∉ seen) ↔ (i ∈ token :: rest ∧ i ∉ seen) := by
        rw [mem_cons]
        constructor
        · exact fun h => ⟨.inr h.1, h.2⟩
        · rintro ⟨rfl | h, hnot⟩
          · exact absurd hseen hnot
          · exact ⟨h, hnot⟩
      simp only [hiff]
    case isFalse hseen =>
      rw [ih, getElem?_modify]
      by_cases hi : token = i
      · subst hi
        simp [hseen]
      · simp [hi, Ne.symm hi]

omit [IsStrictOrderedRing K] in
/-- The repetition penalty changes exactly the logits of the tokens in the window. -/
theorem RepetitionPenaltyProcessor.getElem?_process (self : RepetitionPenaltyProcessor K) (logits : List K)
    (context : ProcessorContext) (i : ℕ) :
    (self.process logits context)[i]? = logits[i]?.map fun logit =>
      if i ∈ self.windowOf (context.promptTokens ++ context.generatedTokens) then self.change logit else logit := by
  have hwindow : (context.promptTokens ++ context.generatedTokens).drop
      (self.window.elim 0 (context.promptTokens.length + context.generatedTokens.length - ·)) =
      self.windowOf (context.promptTokens ++ context.generatedTokens) := by
    rw [windowOf]
    cases self.window with
    | none => rfl
    | some n => rw [Option.elim_some, Option.elim_some, rtake, length_append]
  rw [process]
  split
  case isTrue h => simp [change, h]
  case isFalse h =>
    simp only [hwindow, getElem?_changeEach, change, h, if_false]
    by_cases hi : i ∈ self.windowOf (context.promptTokens ++ context.generatedTokens)
    · simp [hi]
    · simp [hi]

/-! ### DRY -/

structure DryProcessor (K : Type) where
  multiplier : K
  base : K
  allowedLength : ℕ
  sequenceBreakers : List TokenId

/-- How far two sequences agree, read backwards; a breaker ends the comparison. -/
def matchedLength (breakers : List TokenId) : List TokenId → List TokenId → ℕ
  | historical :: hs, recent :: rs =>
    if historical ≠ recent ∨ historical ∈ breakers ∨ recent ∈ breakers then 0 else matchedLength breakers hs rs + 1
  | _, _ => 0

namespace DryProcessor

variable (self : DryProcessor K)

/-- The settings with which nothing is done. -/
def Inactive : Prop := self.multiplier ≤ 0 ∨ self.base < 1 ∨ self.allowedLength = 0

instance : Decidable self.Inactive := inferInstanceAs (Decidable (_ ∨ _))

/-- The penalty for a repeat of this length. -/
def penaltyFor (matched : ℕ) : K := self.multiplier * self.base ^ (matched - self.allowedLength)

/-- The length of the repeat a token at this index continues. -/
def matchedAt (tokens : List TokenId) (index : ℕ) : ℕ :=
  matchedLength self.sequenceBreakers (tokens.take index).reverse tokens.reverse

/-- Look at one earlier token: what preceded it may be what the sequence ends with. -/
def note (tokens : List TokenId) (penalties : FiniteMap TokenId K) (index : ℕ) : FiniteMap TokenId K :=
  match tokens[index]? with
  | none => penalties
  | some continuation =>
    if continuation ∈ self.sequenceBreakers then penalties
    else if self.allowedLength ≤ self.matchedAt tokens index then
      penalties.insert continuation
        ((penalties.lookup continuation).elim (self.penaltyFor (self.matchedAt tokens index))
          (max · (self.penaltyFor (self.matchedAt tokens index))))
    else penalties

/-- The penalties of a sequence. -/
def penalties (tokens : List TokenId) : FiniteMap TokenId K :=
  (List.range' 1 (tokens.length - 1)).foldl (self.note tokens) ∅

def process (logits : List K) (context : ProcessorContext) : List K :=
  if self.Inactive then logits
  else
    let tokens := context.promptTokens ++ context.generatedTokens
    if tokens.length ≤ self.allowedLength then logits
    else (self.penalties tokens).entries.foldl (fun logits entry => logits.modify entry.1 (· - entry.2)) logits

end DryProcessor

/-! ### Repeats -/

/-- The last `length` tokens of the sequence, none of them a breaker, also stand directly before an
occurrence of `c`. -/
def Repeats (breakers tokens : List TokenId) (length : ℕ) (c : TokenId) : Prop :=
  c ∉ breakers ∧ ∃ w before after, tokens = before ++ w ++ c :: after ∧ w <:+ tokens ∧ w.length = length ∧
    ∀ b ∈ w, b ∉ breakers

theorem le_matchedLength_iff {breakers hs rs : List TokenId} {n : ℕ} :
    n ≤ matchedLength breakers hs rs ↔ ∃ w, w <+: hs ∧ w <+: rs ∧ w.length = n ∧ ∀ b ∈ w, b ∉ breakers := by
  induction hs generalizing rs n with
  | nil =>
    constructor
    · intro h
      obtain rfl := le_zero.mp h
      exact ⟨[], by simp⟩
    · rintro ⟨w, hw, -, rfl, -⟩
      simp [prefix_nil.mp hw]
  | cons x hs ih =>
    cases rs with
    | nil =>
      constructor
      · intro h
        obtain rfl := le_zero.mp h
        exact ⟨[], by simp⟩
      · rintro ⟨w, -, hw, rfl, -⟩
        simp [prefix_nil.mp hw]
    | cons y rs =>
      simp only [matchedLength]
      split
      case isTrue hstop =>
        constructor
        · intro h
          obtain rfl := le_zero.mp h
          exact ⟨[], by simp⟩
        · rintro ⟨w, hx, hy, rfl, hbreak⟩
          cases w with
          | nil => simp
          | cons b w =>
            obtain ⟨rfl, -⟩ := cons_prefix_cons.mp hx
            obtain ⟨rfl, -⟩ := cons_prefix_cons.mp hy
            have := hbreak b mem_cons_self
            simp [this] at hstop
      case isFalse hgo =>
        have hgo := not_or.mp hgo
        obtain rfl := not_not.mp hgo.1
        cases n with
        | zero => exact ⟨fun _ => ⟨[], by simp⟩, fun _ => zero_le _⟩
        | succ n =>
          rw [add_le_add_iff_right, ih]
          constructor
          · rintro ⟨w, hx, hy, rfl, hbreak⟩
            refine ⟨x :: w, cons_prefix_cons.mpr ⟨rfl, hx⟩, cons_prefix_cons.mpr ⟨rfl, hy⟩, rfl, ?_⟩
            intro b hb
            rcases mem_cons.mp hb with rfl | hb
            · exact (not_or.mp hgo.2).1
            · exact hbreak b hb
          · rintro ⟨w, hx, hy, hlen, hbreak⟩
            cases w with
            | nil => simp at hlen
            | cons b w =>
              exact ⟨w, (cons_prefix_cons.mp hx).2, (cons_prefix_cons.mp hy).2, by simpa using hlen,
                fun b hb => hbreak b (mem_cons_of_mem _ hb)⟩

omit [LinearOrder K] [IsStrictOrderedRing K] [Field K] in
/-- A repeat is a match before an occurrence. -/
theorem repeats_iff (self : DryProcessor K) {tokens : List TokenId} {n : ℕ} {c : TokenId} :
    Repeats self.sequenceBreakers tokens n c ↔
      c ∉ self.sequenceBreakers ∧ ∃ i, tokens[i]? = some c ∧ n ≤ self.matchedAt tokens i := by
  refine and_congr_right fun _ => ?_
  constructor
  · rintro ⟨w, before, after, heq, hsuffix, hlen, hbreak⟩
    refine ⟨(before ++ w).length, by rw [heq]; simp, ?_⟩
    refine le_matchedLength_iff.mpr ⟨w.reverse, ?_, ?_, by simpa using hlen, ?_⟩
    · rw [heq, take_left' rfl]
      simp
    · exact reverse_prefix.mpr hsuffix
    · simpa using hbreak
  · rintro ⟨i, hi, hn⟩
    obtain ⟨w, hw, hw', hlen, hbreak⟩ := le_matchedLength_iff.mp hn
    have hends : w.reverse <:+ tokens.take i := by
      rw [← reverse_prefix, reverse_reverse]
      exact hw
    have hends' : w.reverse <:+ tokens := by
      rw [← reverse_prefix, reverse_reverse]
      exact hw'
    obtain ⟨before, hbefore⟩ := hends
    have hlt := (List.getElem?_eq_some_iff.mp hi).1
    refine ⟨w.reverse, before, tokens.drop (i + 1), ?_, hends', by simpa using hlen, by simpa using hbreak⟩
    have hc : tokens.drop i = c :: tokens.drop (i + 1) := by
      rw [List.drop_eq_getElem_cons hlt, (List.getElem?_eq_some_iff.mp hi).2]
    rw [hbefore, ← hc, take_append_drop]

theorem Repeats.mono {breakers tokens : List TokenId} {m n : ℕ} {c : TokenId}
    (h : Repeats breakers tokens n c) (hm : m ≤ n) : Repeats breakers tokens m c := by
  let self : DryProcessor ℚ := ⟨1, 1, 1, breakers⟩
  obtain ⟨hc, i, hi, hn⟩ := (repeats_iff self).mp h
  exact (repeats_iff self).mpr ⟨hc, i, hi, hm.trans hn⟩

/-- A repeat and its continuation fit into the sequence. -/
theorem Repeats.lt_length {breakers tokens : List TokenId} {n : ℕ} {c : TokenId} (h : Repeats breakers tokens n c) :
    n < tokens.length := by
  obtain ⟨-, w, before, after, heq, -, rfl, -⟩ := h
  rw [heq]
  simp only [length_append, length_cons]
  omega

namespace DryProcessor

variable (self : DryProcessor K) {tokens : List TokenId} {c : TokenId}

/-! ### The penalties are those of the longest repeats -/

/-- The penalty of `c` is the one for its longest repeat, if that is long enough. -/
def Penalty (tokens : List TokenId) (c : TokenId) (penalty : K) : Prop :=
  (¬ self.Inactive ∧ ∃ n, IsGreatest { n | Repeats self.sequenceBreakers tokens n c } n ∧ self.allowedLength ≤ n ∧
    penalty = self.penaltyFor n) ∨
  ((self.Inactive ∨ ¬ Repeats self.sequenceBreakers tokens self.allowedLength c) ∧ penalty = 0)

variable {self}

theorem penaltyFor_le (h : ¬ self.Inactive) {m n : ℕ} (hmn : m ≤ n) : self.penaltyFor m ≤ self.penaltyFor n := by
  have h := not_or.mp h
  have hbase : 1 ≤ self.base := not_lt.mp (not_or.mp h.2).1
  exact mul_le_mul_of_nonneg_left (pow_le_pow_right₀ hbase (by omega)) (not_le.mp h.1).le

/-- What is known of the penalty of `c` after some earlier tokens. -/
def Noted (self : DryProcessor K) (tokens : List TokenId) (c : TokenId) (indices : List ℕ)
    (penalty : Option K) : Prop :=
  match penalty with
  | none => ∀ i ∈ indices, tokens[i]? = some c → c ∉ self.sequenceBreakers →
      self.matchedAt tokens i < self.allowedLength
  | some p => c ∉ self.sequenceBreakers ∧ ∃ i ∈ indices, tokens[i]? = some c ∧
      self.allowedLength ≤ self.matchedAt tokens i ∧ p = self.penaltyFor (self.matchedAt tokens i) ∧
      ∀ j ∈ indices, tokens[j]? = some c → self.matchedAt tokens j ≤ self.matchedAt tokens i

omit [IsStrictOrderedRing K] in
theorem lookup_note (tokens : List TokenId) (penalties : FiniteMap TokenId K) (i : ℕ) (c : TokenId) :
    (self.note tokens penalties i).lookup c =
      if tokens[i]? = some c ∧ c ∉ self.sequenceBreakers ∧ self.allowedLength ≤ self.matchedAt tokens i then
        some ((penalties.lookup c).elim (self.penaltyFor (self.matchedAt tokens i))
          (max · (self.penaltyFor (self.matchedAt tokens i))))
      else penalties.lookup c := by
  unfold note
  split
  case h_1 hnone => simp [hnone]
  case h_2 continuation hsome =>
    by_cases hbreak : continuation ∈ self.sequenceBreakers
    · rw [if_pos hbreak, if_neg]
      rintro ⟨hc, hnot, -⟩
      cases hsome.symm.trans hc
      exact hnot hbreak
    · rw [if_neg hbreak]
      by_cases hlen : self.allowedLength ≤ self.matchedAt tokens i
      · rw [if_pos hlen, FiniteMap.lookup_insert']
        by_cases hc : c = continuation
        · subst hc
          rw [if_pos rfl, if_pos ⟨hsome, hbreak, hlen⟩]
        · rw [if_neg hc, if_neg]
          rintro ⟨hc', -⟩
          exact hc (Option.some.inj (hsome.symm.trans hc')).symm
      · rw [if_neg hlen, if_neg fun h => hlen h.2.2]

theorem Noted.step (h : ¬ self.Inactive) {indices : List ℕ} {penalties : FiniteMap TokenId K} {i : ℕ}
    (hn : self.Noted tokens c indices (penalties.lookup c)) :
    self.Noted tokens c (indices ++ [i]) ((self.note tokens penalties i).lookup c) := by
  have hmem : ∀ j, j ∈ indices ++ [i] → j ∈ indices ∨ j = i := by simp
  rw [lookup_note]
  by_cases hi : tokens[i]? = some c ∧ c ∉ self.sequenceBreakers ∧ self.allowedLength ≤ self.matchedAt tokens i
  · rw [if_pos hi]
    refine ⟨hi.2.1, ?_⟩
    cases hp : penalties.lookup c with
    | none =>
      rw [hp] at hn
      refine ⟨i, by simp, hi.1, hi.2.2, rfl, fun j hj hc => ?_⟩
      rcases hmem j hj with hj | rfl
      · exact (hn j hj hc hi.2.1).le.trans hi.2.2
      · exact le_rfl
    | some p =>
      rw [hp] at hn
      obtain ⟨-, k, hk, hkc, hklen, rfl, hkmax⟩ := hn
      rcases le_total (self.matchedAt tokens k) (self.matchedAt tokens i) with hle | hle
      · refine ⟨i, by simp, hi.1, hi.2.2, max_eq_right (penaltyFor_le h hle), fun j hj hc => ?_⟩
        rcases hmem j hj with hj | rfl
        · exact (hkmax j hj hc).trans hle
        · exact le_rfl
      · refine ⟨k, mem_append_left _ hk, hkc, hklen, max_eq_left (penaltyFor_le h hle), fun j hj hc => ?_⟩
        rcases hmem j hj with hj | rfl
        · exact hkmax j hj hc
        · exact hle
  · rw [if_neg hi]
    cases hp : penalties.lookup c with
    | none =>
      rw [hp] at hn
      intro j hj hc hbreak
      rcases hmem j hj with hj | rfl
      · exact hn j hj hc hbreak
      · by_contra hge
        exact hi ⟨hc, hbreak, not_lt.mp hge⟩
    | some p =>
      rw [hp] at hn
      obtain ⟨hbreak, k, hk, hkc, hklen, rfl, hkmax⟩ := hn
      refine ⟨hbreak, k, mem_append_left _ hk, hkc, hklen, rfl, fun j hj hc => ?_⟩
      rcases hmem j hj with hj | rfl
      · exact hkmax j hj hc
      · have : self.matchedAt tokens j < self.allowedLength := by
          by_contra hge
          exact hi ⟨hc, hbreak, not_lt.mp hge⟩
        exact this.le.trans hklen

theorem noted_penalties (h : ¬ self.Inactive) (tokens : List TokenId) (c : TokenId) :
    self.Noted tokens c (List.range' 1 (tokens.length - 1)) ((self.penalties tokens).lookup c) := by
  have hfold : ∀ indices : List ℕ, self.Noted tokens c indices ((indices.foldl (self.note tokens) ∅).lookup c) := by
    intro indices
    induction indices using reverseRecOn with
    | nil =>
      intro i hi
      cases hi
    | append_singleton indices i ih =>
      rw [foldl_append]
      exact ih.step h
  exact hfold _

omit [Field K] [LinearOrder K] [IsStrictOrderedRing K] in
/-- The first token of a sequence continues nothing. -/
theorem matchedAt_zero (tokens : List TokenId) : self.matchedAt tokens 0 = 0 := by
  cases tokens.reverse <;> rfl

theorem mem_indices {i : ℕ} (h : tokens[i]? = some c) (hpos : i ≠ 0) : i ∈ List.range' 1 (tokens.length - 1) := by
  have := (List.getElem?_eq_some_iff.mp h).1
  rw [mem_range'_1]
  omega

/-- The map of penalties holds those of the longest repeats. -/
theorem penalty_lookup (h : ¬ self.Inactive) (tokens : List TokenId) (c : TokenId) :
    self.Penalty tokens c (((self.penalties tokens).lookup c).getD 0) := by
  have hpos : 0 < self.allowedLength := pos_of_ne_zero fun h0 => h (.inr (.inr h0))
  have hnoted := noted_penalties h tokens c
  cases hp : (self.penalties tokens).lookup c with
  | none =>
    rw [hp] at hnoted
    refine .inr ⟨.inr fun hrep => ?_, rfl⟩
    obtain ⟨hbreak, i, hi, hlen⟩ := (repeats_iff self).mp hrep
    have hi0 : i ≠ 0 := by
      rintro rfl
      rw [matchedAt_zero] at hlen
      omega
    exact absurd hlen (not_le.mpr (hnoted i (mem_indices hi hi0) hi hbreak))
  | some p =>
    rw [hp] at hnoted
    obtain ⟨hbreak, i, -, hi, hlen, rfl, hmax⟩ := hnoted
    refine .inl ⟨h, self.matchedAt tokens i, ⟨(repeats_iff self).mpr ⟨hbreak, i, hi, le_rfl⟩, ?_⟩, hlen, rfl⟩
    intro n hn
    obtain ⟨-, j, hj, hle⟩ := (repeats_iff self).mp hn
    by_cases hj0 : j = 0
    · subst hj0
      rw [matchedAt_zero] at hle
      omega
    · exact hle.trans (hmax j (mem_indices hj hj0) hj)

omit [IsStrictOrderedRing K] in
theorem Penalty.unique {p q : K} (hp : self.Penalty tokens c p) (hq : self.Penalty tokens c q) : p = q := by
  rcases hp with ⟨hact, n, hn, hlen, rfl⟩ | ⟨hno, rfl⟩
  · rcases hq with ⟨-, m, hm, -, rfl⟩ | ⟨hno, rfl⟩
    · rw [hn.unique hm]
    · rcases hno with hin | hno
      · exact absurd hin hact
      · exact absurd (hn.1.mono hlen) hno
  · rcases hq with ⟨hact, n, hn, hlen, rfl⟩ | ⟨-, rfl⟩
    · rcases hno with hin | hno
      · exact absurd hin hact
      · exact absurd (hn.1.mono hlen) hno
    · rfl

omit [LinearOrder K] [IsStrictOrderedRing K] in
/-- Subtracting the entries of a map, one after the other. -/
theorem getElem?_subtract (entries : List (Σ _ : TokenId, K)) (h : entries.NodupKeys) (logits : List K) (i : ℕ) :
    (entries.foldl (fun logits entry => logits.modify entry.1 (· - entry.2)) logits)[i]? =
      logits[i]?.map (· - (entries.dlookup i).getD 0) := by
  induction entries generalizing logits with
  | nil => simp
  | cons entry entries ih =>
    obtain ⟨token, p⟩ := entry
    rw [nodupKeys_cons] at h
    rw [foldl_cons, ih h.2, getElem?_modify]
    by_cases hi : token = i
    · subst hi
      rw [dlookup_eq_none.mpr h.1, dlookup_cons_eq]
      simp [Function.comp_def]
    · rw [dlookup_cons_ne _ _ (Ne.symm hi)]
      simp [hi]

/-- **DRY lowers each logit by the penalty of its longest repeat.** -/
theorem process_dry {logits : List K} {context : ProcessorContext} {p : K}
    (hp : self.Penalty (context.promptTokens ++ context.generatedTokens) c p) :
    (self.process logits context)[c]? = logits[c]?.map (· - p) := by
  simp only [process]
  split
  case isTrue h =>
    have : p = 0 := hp.unique (.inr ⟨.inl h, rfl⟩)
    simp [this]
  case isFalse h =>
    split
    case isTrue hlen =>
      have : p = 0 := hp.unique (.inr ⟨.inr fun hrep => absurd hrep.lt_length (not_lt.mpr hlen), rfl⟩)
      simp [this]
    case isFalse =>
      have : p = ((self.penalties (context.promptTokens ++ context.generatedTokens)).lookup c).getD 0 :=
        hp.unique (penalty_lookup h _ c)
      rw [getElem?_subtract _ (self.penalties _).nodupKeys, this]
      rfl

end DryProcessor

end OnnxGenai.Generation
