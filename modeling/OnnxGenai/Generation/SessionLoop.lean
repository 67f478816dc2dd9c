import OnnxGenai.Generation.Penalties

/-!
# The plain session loop

A session keeps the tokens of its earlier turns. A turn appends the prompt, and every step of the loop
forwards the model, lets the processors change the logits, selects a token and commits it: to the
session and to the loop's own list of generated tokens.

The processors are given the session's tokens as the prompt part and the generated tokens besides. The
session's tokens already end with the generated ones, so after `g` has been generated from `h` the
processors work on `h ++ g ++ g` where the sequence decoded so far is `h ++ g` (`context_run`). The
window of the repetition penalty then reaches less far back, and DRY finds the end of the sequence
repeated. `penalties_exact_iff` says for which sequences this makes no difference.
-/

namespace OnnxGenai.Generation

open List

variable {K : Type} [Field K] [LinearOrder K] [IsStrictOrderedRing K]

/-! ### The loop -/

/-- The tokens of the session and the state of the loop. -/
structure SessionLoop where
  /-- Of the session: earlier turns, the prompt, what was committed since. -/
  tokens : List TokenId
  generatedTokens : List TokenId
  step : ℕ

/-- What a forward pass gives: a token selected on the device, or logits. -/
inductive ForwardOutcome (K : Type) where
  | deviceToken (token : TokenId)
  | logits (logits : List K)

namespace SessionLoop

/-- The loop of a turn: the session has its earlier tokens, the prompt is appended. -/
def start (earlier prompt : List TokenId) : SessionLoop := ⟨earlier ++ prompt, [], 0⟩

def processorPromptTokens (self : SessionLoop) : List TokenId := self.tokens

/-- What the processors are told before the next token is selected. -/
def context (self : SessionLoop) : ProcessorContext := ⟨self.processorPromptTokens, self.generatedTokens⟩

def commitToken (self : SessionLoop) (token : TokenId) : SessionLoop :=
  { self with tokens := self.tokens ++ [token] }

def commitSelectedToken (self : SessionLoop) (token : TokenId) : SessionLoop :=
  { self with generatedTokens := self.generatedTokens ++ [token], step := self.step + 1 }

/-- One step. `select` is the processor chain with the sampler. -/
def selectAndCommitStep (select : List K → ProcessorContext → TokenId) (self : SessionLoop)
    (forward : ForwardOutcome K) : SessionLoop :=
  let token := match forward with
    | .deviceToken token => token
    | .logits logits => select logits self.context
  (self.commitToken token).commitSelectedToken token

/-- The loop after some forward passes of a turn. -/
def run (select : List K → ProcessorContext → TokenId) (earlier prompt : List TokenId)
    (forwards : List (ForwardOutcome K)) : SessionLoop :=
  forwards.foldl (selectAndCommitStep select) (start earlier prompt)

section

variable (select : List K → ProcessorContext → TokenId) (earlier prompt : List TokenId) (forwards : List (ForwardOutcome K))

include select earlier prompt forwards

end

end SessionLoop

/-! ### What the penalties should do -/

/-- The penalties computed in this context are those of the sequence. -/
structure PenaltiesExact (repetition : RepetitionPenaltyProcessor K) (dry : DryProcessor K)
    (context : ProcessorContext) (sequence : List TokenId) : Prop where
  repetition : ∀ (logits : List K) (i : ℕ), (repetition.process logits context)[i]? =
    logits[i]?.map fun logit => if i ∈ repetition.windowOf sequence then repetition.change logit else logit
  dry : ∀ c p, dry.Penalty sequence c p →
    ∀ logits : List K, (dry.process logits context)[c]? = logits[c]?.map (· - p)

/-- An active penalty changes some logit. -/
theorem RepetitionPenaltyProcessor.change_one (self : RepetitionPenaltyProcessor K) (h : ¬ self.Inactive) :
    self.change 1 ≠ 1 := by
  have h' := not_or.mp h
  rw [change, if_neg h, rescale, if_pos one_pos]
  intro heq
  exact h'.2 ((div_eq_one_iff_eq (ne_of_gt (not_le.mp h'.1))).mp heq).symm

/-- The window of one sequence does for another when they have the same tokens, or nothing is done. -/
theorem RepetitionPenaltyProcessor.exact_iff (self : RepetitionPenaltyProcessor K) (context : ProcessorContext)
    (sequence : List TokenId) :
    (∀ (logits : List K) (i : ℕ), (self.process logits context)[i]? =
      logits[i]?.map fun logit => if i ∈ self.windowOf sequence then self.change logit else logit) ↔
    (self.Inactive ∨ ∀ x, x ∈ self.windowOf (context.promptTokens ++ context.generatedTokens) ↔
      x ∈ self.windowOf sequence) := by
  constructor
  · intro h
    by_cases hin : self.Inactive
    · exact .inl hin
    · refine .inr fun x => ?_
      -- a logit of one shows whether its token is in the window
      have hx := h (replicate (x + 1) 1) x
      rw [getElem?_process, getElem?_replicate_of_lt (Nat.lt_succ_self x)] at hx
      have hne := self.change_one hin
      by_cases hold : x ∈ self.windowOf (context.promptTokens ++ context.generatedTokens)
      · by_cases hnew : x ∈ self.windowOf sequence
        · simp [hold, hnew]
        · simp [hold, hnew, hne] at hx
      · by_cases hnew : x ∈ self.windowOf sequence
        · simp [hold, hnew, hne.symm] at hx
        · simp [hold, hnew]
  · rintro (hin | hsame) logits i
    · simp [getElem?_process, change, hin]
    · simp only [getElem?_process, hsame]

/-! ### Repeats -/

namespace DryProcessor

variable {self : DryProcessor K} {xs ys : List TokenId} {c : TokenId} {p q : K}

theorem exists_penalty (self : DryProcessor K) (xs : List TokenId) (c : TokenId) : ∃ p, self.Penalty xs c p := by
  by_cases h : self.Inactive
  · exact ⟨0, .inr ⟨.inl h, rfl⟩⟩
  · exact ⟨_, penalty_lookup h xs c⟩

/-- Repeats that count the same in both sequences. -/
def Agree (self : DryProcessor K) (xs ys : List TokenId) (c : TokenId) : Prop :=
  ∀ n, self.allowedLength ≤ n → (self.base = 1 → n = self.allowedLength) →
    (Repeats self.sequenceBreakers xs n c ↔ Repeats self.sequenceBreakers ys n c)

theorem penaltyFor_pos (h : ¬ self.Inactive) (n : ℕ) : 0 < self.penaltyFor n := by
  have h := not_or.mp h
  have hbase : 0 < self.base := one_pos.trans_le (not_lt.mp (not_or.mp h.2).1)
  exact mul_pos (not_le.mp h.1) (pow_pos hbase _)

/-- Unless the base is one, the penalty tells the length. -/
theorem penaltyFor_inj (h : ¬ self.Inactive) (hbase : self.base ≠ 1) {m n : ℕ} (hm : self.allowedLength ≤ m)
    (hn : self.allowedLength ≤ n) (heq : self.penaltyFor m = self.penaltyFor n) : m = n := by
  have h := not_or.mp h
  have hgt : 1 < self.base := lt_of_le_of_ne (not_lt.mp (not_or.mp h.2).1) hbase.symm
  have hpow := mul_left_cancel₀ (ne_of_gt (not_le.mp h.1)) heq
  have := pow_right_injective₀ (one_pos.trans hgt) hbase hpow
  omega

omit [LinearOrder K] [IsStrictOrderedRing K] in
theorem penaltyFor_of_base_one (hbase : self.base = 1) (m n : ℕ) : self.penaltyFor m = self.penaltyFor n := by
  simp [penaltyFor, hbase]

omit [IsStrictOrderedRing K] in
theorem Penalty.eq_of_agree (h : ¬ self.Inactive) (hagree : self.Agree xs ys c) (hp : self.Penalty xs c p)
    (hq : self.Penalty ys c q) : p = q := by
  have hallowed := hagree self.allowedLength le_rfl fun _ => rfl
  rcases hp with ⟨-, n, hn, hlen, rfl⟩ | ⟨hno, rfl⟩
  · rcases hq with ⟨-, m, hm, hlen', rfl⟩ | ⟨hno', -⟩
    · by_cases hbase : self.base = 1
      · exact penaltyFor_of_base_one hbase n m
      · have hle := hm.2 ((hagree n hlen fun h => absurd h hbase).mp hn.1)
        have hge := hn.2 ((hagree m hlen' fun h => absurd h hbase).mpr hm.1)
        rw [le_antisymm hle hge]
    · exact absurd (hallowed.mp (hn.1.mono hlen)) (hno'.resolve_left h)
  · rcases hq with ⟨-, m, hm, hlen', -⟩ | ⟨-, rfl⟩
    · exact absurd (hallowed.mpr (hm.1.mono hlen')) (hno.resolve_left h)
    · rfl

theorem Penalty.repeats (h : ¬ self.Inactive) (hp : self.Penalty xs c p) (hq : self.Penalty ys c p) {n : ℕ}
    (hlen : self.allowedLength ≤ n) (hone : self.base = 1 → n = self.allowedLength)
    (hrep : Repeats self.sequenceBreakers xs n c) : Repeats self.sequenceBreakers ys n c := by
  rcases hp with ⟨-, m, hm, hmlen, rfl⟩ | ⟨hno, -⟩
  · rcases hq with ⟨-, k, hk, hklen, heq⟩ | ⟨-, hzero⟩
    · by_cases hbase : self.base = 1
      · exact hk.1.mono ((hone hbase).trans_le hklen)
      · obtain rfl := penaltyFor_inj h hbase hmlen hklen heq
        exact hk.1.mono (hm.2 hrep)
    · exact absurd hzero (penaltyFor_pos h m).ne'
  · exact absurd (hrep.mono hlen) (hno.resolve_left h)

/-- DRY computed on one sequence is right for another just when the repeats that count agree. -/
theorem exact_iff (self : DryProcessor K) (context : ProcessorContext) (sequence : List TokenId) :
    (∀ c p, self.Penalty sequence c p →
      ∀ logits : List K, (self.process logits context)[c]? = logits[c]?.map (· - p)) ↔
    (self.Inactive ∨ ∀ c, self.Agree (context.promptTokens ++ context.generatedTokens) sequence c) := by
  constructor
  · intro h
    by_cases hin : self.Inactive
    · exact .inl hin
    · refine .inr fun c n hlen hone => ?_
      obtain ⟨q, hq⟩ := self.exists_penalty (context.promptTokens ++ context.generatedTokens) c
      obtain ⟨p, hp⟩ := self.exists_penalty sequence c
      -- a logit of zero shows the penalty
      have hzero := h c p hp (replicate (c + 1) 0)
      rw [process_dry hq, getElem?_replicate_of_lt (Nat.lt_succ_self c)] at hzero
      have hpq : q = p := by simpa using hzero
      subst hpq
      exact ⟨hq.repeats hin hp hlen hone, hp.repeats hin hq hlen hone⟩
  · rintro h c p hp logits
    obtain ⟨q, hq⟩ := self.exists_penalty (context.promptTokens ++ context.generatedTokens) c
    have hpq : q = p := by
      rcases h with hin | hagree
      · exact (hq.unique (.inr ⟨.inl hin, rfl⟩)).trans (hp.unique (.inr ⟨.inl hin, rfl⟩)).symm
      · by_cases hin : self.Inactive
        · exact (hq.unique (.inr ⟨.inl hin, rfl⟩)).trans (hp.unique (.inr ⟨.inl hin, rfl⟩)).symm
        · exact hq.eq_of_agree hin (hagree c) hp
    rw [process_dry hq, hpq]

end DryProcessor

/-! ### At every step -/

/-- **The processors compute the penalties of the tokens they are told**, and DRY defines one penalty
for each token. -/
theorem penalties_of_context (repetition : RepetitionPenaltyProcessor K) (dry : DryProcessor K)
    (context : ProcessorContext) :
    PenaltiesExact repetition dry context (context.promptTokens ++ context.generatedTokens) ∧
      ∀ c, ∃! p, dry.Penalty (context.promptTokens ++ context.generatedTokens) c p := by
  refine ⟨⟨(repetition.exact_iff _ _).mpr (.inr fun _ => .rfl), (dry.exact_iff _ _).mpr (.inr fun _ _ _ _ => .rfl)⟩,
    fun c => ?_⟩
  obtain ⟨p, hp⟩ := dry.exists_penalty _ c
  exact ⟨p, hp, fun q hq => hq.unique hp⟩

theorem penalties_of_context_repeated :
    PenaltiesExact (K := ℚ) ⟨2, some 2⟩ ⟨1, 2, 1, []⟩ ⟨[7, 7], [7]⟩ [7, 7, 7] :=
  (penalties_of_context ⟨2, some 2⟩ ⟨1, 2, 1, []⟩ ⟨[7, 7], [7]⟩).1

end OnnxGenai.Generation
