import OnnxGenai.Speculative.Mask

/-!
# Greedy verification of a draft tree

The target scores the committed context and every node of the tree. The acceptance walk starts at the
anchor and goes, as long as it can, to the first child that proposes the target's own next token; it
returns the tokens of the path it took and one more token of the target.

What it returns is always a beginning of the target's greedy continuation. It is the longest that
the tree allows exactly if no path along that continuation is *shadowed*: the walk looks at the first
child with a token only, so a candidate is lost if it lies below a node whose token an earlier
sibling proposes too, unless the earlier sibling has the same candidates below it
(`accept_shadowed`).
-/

namespace OnnxGenai.Speculative

open Lib List

variable {L : Type} [LE L] [DecidableLE L]

/-! ### The target's choice -/

/-- Keep the best entry so far; a later one must be larger. -/
def argmaxStep (best : Option (ℕ × L)) (entry : L × ℕ) : Option (ℕ × L) :=
  match best with
  | some (index, value) => if entry.1 ≤ value then some (index, value) else some (entry.2, entry.1)
  | none => some (entry.2, entry.1)

/-- Index of the maximum logit, resolving ties to the lowest index. -/
def argmax (logits : List L) : Option ℕ := (logits.zipIdx.foldl argmaxStep none).map (·.1)

/-- The last step of the scan. -/
theorem foldl_argmaxStep_concat (logits : List L) (x : L) :
    (logits ++ [x]).zipIdx.foldl argmaxStep none =
      argmaxStep (logits.zipIdx.foldl argmaxStep none) (x, logits.length) := by
  rw [zipIdx_append, foldl_append, Nat.zero_add]
  rfl

/-- The scan finds an entry of a row that has one. -/
theorem exists_foldl_argmaxStep {logits : List L} (h : logits ≠ []) :
    ∃ i v, logits.zipIdx.foldl argmaxStep none = some (i, v) ∧ logits[i]? = some v := by
  induction logits using reverseRecOn with
  | nil => exact absurd rfl h
  | append_singleton logits x ih =>
    rw [foldl_argmaxStep_concat]
    have hlast : (logits ++ [x])[logits.length]? = some x := getElem?_concat_length
    by_cases hnil : logits = []
    · subst hnil
      exact ⟨0, x, rfl, rfl⟩
    · obtain ⟨i, v, hfold, hi⟩ := ih hnil
      rw [hfold]
      simp only [argmaxStep]
      split
      · exact ⟨i, v, rfl, by rw [List.getElem?_append_left (List.getElem?_eq_some_iff.mp hi).1]; exact hi⟩
      · exact ⟨logits.length, x, rfl, hlast⟩

theorem exists_argmax {logits : List L} (h : logits ≠ []) : ∃ i, argmax logits = some i ∧ i < logits.length := by
  obtain ⟨i, v, hfold, hi⟩ := exists_foldl_argmaxStep h
  exact ⟨i, by rw [argmax, hfold]; rfl, (List.getElem?_eq_some_iff.mp hi).1⟩

/-! ### The verifier -/

inductive AcceptanceRule (L : Type) where
  | greedy
  | rejectionSampling
  | typical (threshold : L)

/-- The accepted path, and the tokens to commit. -/
structure AcceptOutcome where
  nodes : List ℕ
  tokens : List TokenId
  deriving DecidableEq

/-- Which nodes keep their place in the cache, and its length then. -/
structure KvRetentionPlan where
  retainedNodes : List ℕ
  finalLen : ℕ
  deriving DecidableEq

structure TreeVerification where
  outcome : AcceptOutcome
  plan : KvRetentionPlan
  deriving DecidableEq

/-- A target token, and whether a matching candidate may be accepted. -/
structure TargetDecision where
  token : TokenId
  accept : Bool

/-- Keep exactly the accepted path. -/
def kvRetentionPlan (baseLen : ℕ) (accepted : List ℕ) : KvRetentionPlan := ⟨accepted, baseLen + accepted.length⟩

section Verifier

-- The probability of an entry of a row, as the floating-point code computes it.
variable (softmaxProb : List L → ℕ → L)

/-- The target's token, and what the rule says of it. -/
def targetDecision (logits : List L) (rule : AcceptanceRule L) : Except TreeError TargetDecision :=
  match argmax logits with
  | none => .error .emptyLogits
  | some index =>
    if 2 ^ 32 ≤ index then .error .tokenRange
    else
      match rule with
      | .greedy => .ok ⟨index, true⟩
      | .rejectionSampling => .error .needsDistributions
      | .typical threshold => .ok ⟨index, decide (threshold ≤ softmaxProb logits index)⟩

namespace SpecTree

/-- The acceptance walk; `none` when the fuel runs out. -/
def acceptLoop (t : SpecTree) (rule : AcceptanceRule L) (nodeLogits : List (List L)) :
    ℕ → List L → List ℕ → List ℕ → Option (Except TreeError AcceptOutcome)
  | 0, _, _, _ => none
  | fuel + 1, current, frontier, accepted =>
    match targetDecision softmaxProb current rule with
    | .error e => some (.error e)
    | .ok decision =>
      match frontier.find? fun n => t.tokenAt n = some decision.token with
      | some node =>
        if decision.accept then
          t.acceptLoop rule nodeLogits fuel (nodeLogits.getD node []) (t.children node) (accepted ++ [node])
        else some (.ok ⟨accepted, t.spell accepted ++ [decision.token]⟩)
      | none => some (.ok ⟨accepted, t.spell accepted ++ [decision.token]⟩)

/-- The walk from the anchor. A path has at most `len` nodes, so this fuel is enough. -/
def accept (t : SpecTree) (rule : AcceptanceRule L) (baseLogits : List L) (nodeLogits : List (List L)) :
    Option (Except TreeError AcceptOutcome) :=
  t.acceptLoop softmaxProb rule nodeLogits (t.len + 1) baseLogits t.roots []

end SpecTree

/-- Score every node, run the acceptance walk and plan the compaction of the cache. -/
def verifyTree (t : SpecTree) (baseLen : ℕ) (rule : AcceptanceRule L) (score : List TokenId → Except TreeError (List L)) :
    Option (Except TreeError TreeVerification) :=
  match score [] with
  | .error e => some (.error e)
  | .ok baseLogits =>
    match (List.range t.len).mapM fun i => score (t.pathTokens i) with
    | .error e => some (.error e)
    | .ok nodeLogits =>
      (t.accept softmaxProb rule baseLogits nodeLogits).map fun result =>
        result.map fun outcome => ⟨outcome, kvRetentionPlan baseLen outcome.nodes⟩

end Verifier

/-! ### Greedy decoding -/

/-- A deterministic target: a row of logits for every path, over a vocabulary of `u32` tokens. -/
structure Target (L : Type) where
  logits : List TokenId → List L
  nonempty : ∀ path, logits path ≠ []
  vocabulary : ∀ path, (logits path).length ≤ 2 ^ 32

namespace Target

/-- The target as a scorer. -/
def score (T : Target L) (path : List TokenId) : Except TreeError (List L) := .ok (T.logits path)

/-- The token greedy decoding chooses after `path`. -/
def next (T : Target L) (path : List TokenId) : TokenId := (argmax (T.logits path)).getD 0

/-- The first tokens of the greedy continuation. -/
def greedy (T : Target L) : ℕ → List TokenId
  | 0 => []
  | k + 1 => T.greedy k ++ [T.next (T.greedy k)]

variable (T : Target L)

theorem targetDecision_greedy (softmaxProb : List L → ℕ → L) (path : List TokenId) :
    targetDecision softmaxProb (T.logits path) .greedy = .ok ⟨T.next path, true⟩ := by
  obtain ⟨i, hi, hlt⟩ := exists_argmax (T.nonempty path)
  have hrange : ¬ 2 ^ 32 ≤ i := not_le.mpr (hlt.trans_le (T.vocabulary path))
  simp only [targetDecision, next, hi, if_neg hrange, Option.getD_some]

@[simp] theorem length_greedy (k : ℕ) : (T.greedy k).length = k := by
  induction k with
  | zero => rfl
  | succ k ih => simp [greedy, ih]

theorem greedy_take {j k : ℕ} (h : j ≤ k) : (T.greedy k).take j = T.greedy j := by
  induction k with
  | zero =>
    obtain rfl := Nat.le_zero.mp h
    rfl
  | succ k ih =>
    rcases Nat.le_succ_iff.mp h with hle | rfl
    · rw [greedy, take_append_of_le_length (by simpa using hle)]
      exact ih hle
    · exact take_of_length_le (by simp)

end Target

namespace SpecTree

variable {t : SpecTree} {i p m n : ℕ}

/-! ### Paths from the root -/

/-- The path to where the walk stands: a node, or the anchor. -/
def pathTo (t : SpecTree) : Option ℕ → List ℕ
  | none => []
  | some n => t.path n

/-- The nodes are a path from a root down, or none at all. -/
def RootPath (t : SpecTree) (nodes : List ℕ) : Prop := nodes = [] ∨ ∃ n < t.len, nodes = t.path n

/-- No earlier sibling proposes the same token. -/
def IsFirst (t : SpecTree) (n : ℕ) : Prop := ∀ m < n, t.parentOf m = t.parentOf n → t.tokenAt m ≠ t.tokenAt n

variable {a : ℕ} {nodes : List ℕ} {c : Option ℕ} {T : Target L}

theorem lt_len_of_mem_path (hn : n < t.len) (ha : a ∈ t.path n) : a < t.len :=
  ((path_pairwise n).2 a ha).trans_lt hn

theorem spell_append (as bs : List ℕ) : t.spell (as ++ bs) = t.spell as ++ t.spell bs := filterMap_append

theorem length_spell (h : ∀ a ∈ nodes, a < t.len) : (t.spell nodes).length = nodes.length := by
  induction nodes with
  | nil => rfl
  | cons a nodes ih =>
    obtain ⟨token, htoken⟩ := tokenAt_isSome (h a mem_cons_self)
    rw [spell, filterMap_cons, htoken]
    exact congrArg (· + 1) (ih fun b hb => h b (mem_cons_of_mem _ hb))

theorem spell_take (h : ∀ a ∈ nodes, a < t.len) (k : ℕ) : t.spell (nodes.take k) = (t.spell nodes).take k := by
  induction nodes generalizing k with
  | nil => simp [spell]
  | cons a nodes ih =>
    cases k with
    | zero => simp [spell]
    | succ k =>
      obtain ⟨token, htoken⟩ := tokenAt_isSome (h a mem_cons_self)
      have hrest := ih (fun b hb => h b (mem_cons_of_mem _ hb)) k
      simp only [spell, take_succ_cons, filterMap_cons, htoken] at hrest ⊢
      rw [hrest]

/-- What lies on a path is itself at the end of a path. -/
theorem path_take {k : ℕ} (h : (t.path n)[k]? = some a) : t.path a = (t.path n).take (k + 1) := by
  induction n using t.path_induction generalizing k with
  | hroot n hp =>
    rw [path_of_root hp] at h ⊢
    cases k with
    | zero =>
      cases h
      exact path_of_root hp
    | succ k => simp at h
  | hchild n p hp ih =>
    rw [path_of_child hp] at h ⊢
    rcases lt_or_ge k (t.path p).length with hlt | hge
    · rw [getElem?_append_left hlt] at h
      rw [take_append_of_le_length hlt]
      exact ih h
    · have hk : k = (t.path p).length := by
        have := (List.getElem?_eq_some_iff.mp h).1
        rw [length_append, length_singleton] at this
        omega
      subst hk
      rw [getElem?_concat_length] at h
      cases h
      rw [path_of_child hp, take_of_length_le (by simp)]

theorem RootPath.lt_len (h : t.RootPath nodes) (ha : a ∈ nodes) : a < t.len := by
  rcases h with rfl | ⟨n, hn, rfl⟩
  · cases ha
  · exact lt_len_of_mem_path hn ha

theorem RootPath.take (h : t.RootPath nodes) (k : ℕ) : t.RootPath (nodes.take k) := by
  rcases h with rfl | ⟨n, hn, rfl⟩
  · exact .inl take_nil
  · cases k with
    | zero => exact .inl rfl
    | succ k =>
      rcases lt_or_ge k (t.path n).length with hlt | hge
      · have hk := getElem?_eq_getElem hlt
        exact .inr ⟨_, lt_len_of_mem_path hn (getElem_mem hlt), (path_take hk).symm⟩
      · exact .inr ⟨n, hn, take_of_length_le (by omega)⟩

theorem pathTokens_of_root (hi : i < t.len) (hp : t.parentOf i = none) : ∃ token, t.tokenAt i = some token ∧ t.pathTokens i = [token] := by
  obtain ⟨token, htoken⟩ := tokenAt_isSome hi
  exact ⟨token, htoken, by simp [pathTokens, path_of_root hp, spell, htoken]⟩

theorem pathTokens_of_child (hp : t.parentOf i = some p) :
    ∃ token, t.tokenAt i = some token ∧ t.pathTokens i = t.pathTokens p ++ [token] := by
  obtain ⟨token, htoken⟩ := tokenAt_isSome (lt_len_of_parentOf hp)
  exact ⟨token, htoken, by simp [pathTokens, path_of_child hp, spell, htoken]⟩

theorem pathTokens_ne_nil (hi : i < t.len) : t.pathTokens i ≠ [] := by
  intro h
  have := length_spell fun a ha => lt_len_of_mem_path hi ha
  rw [← pathTokens, h] at this
  simp [path] at this

theorem IsFirst.eq (hm : t.IsFirst m) (hn : t.IsFirst n) (hparent : t.parentOf m = t.parentOf n)
    (htoken : t.tokenAt m = t.tokenAt n) : m = n := by
  rcases lt_trichotomy m n with hlt | heq | hgt
  · exact absurd htoken (hn m hlt hparent)
  · exact heq
  · exact absurd htoken.symm (hm n hgt hparent.symm)

/-- A path of first candidates is determined by its tokens. -/
theorem first_path_unique (hm : m < t.len) (hn : n < t.len) (hmf : ∀ a ∈ t.path m, t.IsFirst a)
    (hnf : ∀ a ∈ t.path n, t.IsFirst a) (h : t.pathTokens m = t.pathTokens n) : m = n := by
  have hself : ∀ a, a ∈ t.path a := fun a => mem_append_right _ (mem_singleton_self a)
  induction m using t.path_induction generalizing n with
  | hroot m hp =>
    obtain ⟨token, htoken, hpath⟩ := pathTokens_of_root hm hp
    cases hq : t.parentOf n with
    | none =>
      obtain ⟨token', htoken', hpath'⟩ := pathTokens_of_root hn hq
      rw [hpath, hpath', cons.injEq] at h
      exact (hmf m (hself m)).eq (hnf n (hself n)) (hp.trans hq.symm) (by rw [htoken, htoken', h.1])
    | some q =>
      obtain ⟨token', -, hpath'⟩ := pathTokens_of_child hq
      have hlen := congrArg length h
      have hpos := length_pos_of_ne_nil (pathTokens_ne_nil ((parentOf_lt hq).trans hn))
      rw [hpath, hpath', length_append, length_singleton, length_singleton] at hlen
      omega
  | hchild m p hp ih =>
    obtain ⟨token, htoken, hpath⟩ := pathTokens_of_child hp
    cases hq : t.parentOf n with
    | none =>
      obtain ⟨token', -, hpath'⟩ := pathTokens_of_root hn hq
      have hlen := congrArg length h
      have hpos := length_pos_of_ne_nil (pathTokens_ne_nil ((parentOf_lt hp).trans hm))
      rw [hpath, hpath', length_append, length_singleton, length_singleton] at hlen
      omega
    | some q =>
      obtain ⟨token', htoken', hpath'⟩ := pathTokens_of_child hq
      rw [hpath, hpath'] at h
      obtain ⟨hfront, hlast⟩ := append_inj' h rfl
      have hpq : p = q := by
        apply ih ((parentOf_lt hp).trans hm) ((parentOf_lt hq).trans hn) _ _ hfront
        · intro a ha
          exact hmf a (by rw [path_of_child hp]; exact mem_append_left _ ha)
        · intro a ha
          exact hnf a (by rw [path_of_child hq]; exact mem_append_left _ ha)
      rw [cons.injEq] at hlast
      exact (hmf m (hself m)).eq (hnf n (hself n)) (by rw [hp, hq, hpq]) (by rw [htoken, htoken', hlast.1])

/-! ### The walk -/

/-- The search in a frontier finds the first candidate. -/
theorem find?_under_eq_some {token : TokenId} (h : (t.under c).find? (fun n => t.tokenAt n = some token) = some n) :
    n < t.len ∧ t.parentOf n = c ∧ t.tokenAt n = some token ∧ t.IsFirst n := by
  rw [under, find?_filter, find?_range_eq_some] at h
  obtain ⟨hn, hmem, hfirst⟩ := h
  simp only [decide_eq_true_eq] at hn
  refine ⟨mem_range.mp hmem, hn.1, hn.2, fun m hm hparent htoken => ?_⟩
  have := hfirst m hm
  simp [hparent.trans hn.1, htoken.trans hn.2] at this

theorem path_of_parentOf (h : t.parentOf n = c) : t.path n = t.pathTo c ++ [n] := by
  cases c with
  | none => exact path_of_root h
  | some p => exact path_of_child h

/-- Where the walk stands: on a path of first candidates along the greedy continuation. -/
structure Along (t : SpecTree) (T : Target L) (c : Option ℕ) : Prop where
  node : ∀ n ∈ c, n < t.len
  spelled : t.spell (t.pathTo c) = T.greedy (t.pathTo c).length
  first : ∀ a ∈ t.pathTo c, t.IsFirst a

theorem Along.rootPath (h : t.Along T c) : t.RootPath (t.pathTo c) := by
  cases c with
  | none => exact .inl rfl
  | some n => exact .inr ⟨n, h.node n rfl, rfl⟩

/-- The walk goes on to the first child with the target's token. -/
theorem Along.step (h : t.Along T c)
    (hfind : (t.under c).find? (fun n => t.tokenAt n = some (T.next (t.spell (t.pathTo c)))) = some n) :
    t.Along T (some n) ∧ t.path n = t.pathTo c ++ [n] := by
  obtain ⟨hn, hparent, htoken, hfirst⟩ := find?_under_eq_some hfind
  have hpath := path_of_parentOf hparent
  refine ⟨⟨by simpa using hn, ?_, ?_⟩, hpath⟩
  · show t.spell (t.path n) = T.greedy (t.path n).length
    rw [hpath, spell_append, length_append, length_singleton, Target.greedy, ← h.spelled]
    simp [spell, htoken]
  · show ∀ a ∈ t.path n, t.IsFirst a
    rw [hpath]
    intro a ha
    rcases mem_append.mp ha with ha | ha
    · exact h.first a ha
    · obtain rfl := mem_singleton.mp ha
      exact hfirst

/-- The walk ends where no child has the target's token. -/
theorem acceptLoop_greedy (softmaxProb : List L → ℕ → L) (T : Target L) (fuel : ℕ) (h : t.Along T c)
    (hfuel : t.len < fuel + c.elim 0 (· + 1)) :
    ∃ c', t.Along T c' ∧
      (t.under c').find? (fun n => t.tokenAt n = some (T.next (t.spell (t.pathTo c')))) = none ∧
      t.acceptLoop softmaxProb .greedy ((List.range t.len).map fun i => T.logits (t.pathTokens i)) fuel
        (T.logits (t.spell (t.pathTo c))) (t.under c) (t.pathTo c) =
        some (.ok ⟨t.pathTo c', T.greedy ((t.pathTo c').length + 1)⟩) := by
  induction fuel generalizing c with
  | zero =>
    cases c with
    | none => simp at hfuel
    | some n =>
      have := h.node n rfl
      simp only [Option.elim_some] at hfuel
      omega
  | succ fuel ih =>
    simp only [acceptLoop, T.targetDecision_greedy]
    cases hfind : (t.under c).find? fun n => t.tokenAt n = some (T.next (t.spell (t.pathTo c))) with
    | none =>
      refine ⟨c, h, hfind, ?_⟩
      rw [Target.greedy, ← h.spelled]
    | some n =>
      obtain ⟨hn, hparent, -, -⟩ := find?_under_eq_some hfind
      obtain ⟨hnext, hpath⟩ := h.step hfind
      have hrow : ((range t.len).map fun i => T.logits (t.pathTokens i)).getD n [] =
          T.logits (t.spell (t.pathTo (some n))) := by
        rw [getD_eq_getElem?_getD, getElem?_map, getElem?_range hn]
        rfl
      have hless : t.len < fuel + (some n).elim 0 (· + 1) := by
        cases c with
        | none =>
          simp only [Option.elim_none, Option.elim_some] at hfuel ⊢
          omega
        | some m =>
          have := parentOf_lt hparent
          simp only [Option.elim_some] at hfuel ⊢
          omega
      have hrest := ih hnext hless
      simp only [if_true, hrow, ← hpath]
      exact hrest

/-! ### What is returned -/

/-- Every path along the greedy continuation has a path with the same tokens on which no node
repeats the token of an earlier sibling. -/
def Unshadowed (t : SpecTree) (T : Target L) : Prop :=
  ∀ nodes, t.RootPath nodes → t.spell nodes = T.greedy nodes.length →
    ∃ nodes', t.RootPath nodes' ∧ t.spell nodes' = t.spell nodes ∧ ∀ a ∈ nodes', t.IsFirst a

/-- The lengths of the paths along the greedy continuation. -/
def greedyLengths (t : SpecTree) (T : Target L) : Set ℕ :=
  { k | ∃ nodes, t.RootPath nodes ∧ nodes.length = k ∧ t.spell nodes = T.greedy k }

/-- Where the walk ends is the longest path, unless it is shadowed. -/
theorem Along.isGreatest_iff (h : t.Along T c)
    (hend : (t.under c).find? (fun n => t.tokenAt n = some (T.next (t.spell (t.pathTo c)))) = none) :
    IsGreatest (t.greedyLengths T) (t.pathTo c).length ↔ t.Unshadowed T := by
  constructor
  · intro hgreatest nodes hnodes hspell
    have hle : nodes.length ≤ (t.pathTo c).length := hgreatest.2 ⟨nodes, hnodes, rfl, hspell⟩
    refine ⟨(t.pathTo c).take nodes.length, h.rootPath.take _, ?_, fun a ha => h.first a (mem_of_mem_take ha)⟩
    rw [spell_take (fun a ha => h.rootPath.lt_len ha), h.spelled, T.greedy_take hle, hspell]
  · intro hun
    refine ⟨⟨t.pathTo c, h.rootPath, rfl, h.spelled⟩, ?_⟩
    rintro _ ⟨nodes, hnodes, rfl, hspell⟩
    obtain ⟨nodes', hroot, hspell', hfirst⟩ := hun nodes hnodes hspell
    by_contra hlt
    have hlt := not_le.mp hlt
    have hlen : nodes'.length = nodes.length := by
      rw [← length_spell fun a ha => hroot.lt_len ha, hspell', hspell, Target.length_greedy]
    -- The node after the end of the walk, on the longer path.
    rcases hroot with rfl | ⟨m, hm, rfl⟩
    · rw [← hlen, length_nil] at hlt
      omega
    have hk : (t.pathTo c).length < (t.path m).length := by omega
    have hx := getElem?_eq_getElem hk
    set x := (t.path m)[(t.pathTo c).length] with hxdef
    have hxpath := path_take hx
    have hxlen : x < t.len := lt_len_of_mem_path hm (getElem_mem hk)
    have hxfirst : ∀ a ∈ t.path x, t.IsFirst a := fun a ha =>
      hfirst a (mem_of_mem_take (by rw [← hxpath]; exact ha))
    have hxspell : t.pathTokens x = T.greedy ((t.pathTo c).length + 1) := by
      rw [pathTokens, hxpath, spell_take fun a ha => lt_len_of_mem_path hm ha, hspell', hspell, T.greedy_take hlt]
    have hchild : t.parentOf x = c ∧ t.tokenAt x = some (T.next (t.spell (t.pathTo c))) := by
      rw [Target.greedy, ← h.spelled] at hxspell
      cases hp : t.parentOf x with
      | none =>
        obtain ⟨token, htoken, hroot⟩ := pathTokens_of_root hxlen hp
        rw [hroot] at hxspell
        have hnil : t.spell (t.pathTo c) = [] := by
          have := congrArg length hxspell
          simpa using this
        rw [hnil, nil_append, cons.injEq] at hxspell
        refine ⟨?_, by rw [htoken, hnil, hxspell.1]⟩
        cases c with
        | none => rfl
        | some n => exact absurd hnil (pathTokens_ne_nil (h.node n rfl))
      | some p =>
        obtain ⟨token, htoken, hchild⟩ := pathTokens_of_child hp
        rw [hchild] at hxspell
        obtain ⟨hfront, hlast⟩ := append_inj' hxspell rfl
        rw [cons.injEq] at hlast
        refine ⟨?_, by rw [htoken, hlast.1]⟩
        have hplen := (parentOf_lt hp).trans hxlen
        cases c with
        | none => exact absurd hfront (pathTokens_ne_nil hplen)
        | some n =>
          congr 1
          apply first_path_unique hplen (h.node n rfl) _ h.first hfront
          intro a ha
          exact hxfirst a (by rw [path_of_child hp]; exact mem_append_left _ ha)
    have := find?_eq_none.mp hend x (mem_under.mpr ⟨hxlen, hchild.1⟩)
    simp [hchild.2] at this

end SpecTree

/-- **Greedy tree speculation.** A matrix is accepted for a tree exactly if it is the mask of that
tree. Verification ends, commits the tokens of a path of the tree along the greedy continuation and
the next token of that continuation, and keeps that path; the path is the longest one along the
continuation exactly if the tree is not shadowed there. -/
theorem greedy_tree_speculation :
    (∀ (tokens : List TokenId) (mask : List (List Bool)) (t : SpecTree),
      SpecTree.fromAncestorMask tokens mask = .ok t ↔ t.tokens = tokens ∧ ancestorAttentionMask t = mask) ∧
    ∀ (softmaxProb : List L → ℕ → L) (t : SpecTree) (T : Target L) (baseLen : ℕ),
      ∃ v, verifyTree softmaxProb t baseLen .greedy T.score = some (.ok v) ∧
        t.RootPath v.plan.retainedNodes ∧
        t.spell v.plan.retainedNodes = v.outcome.tokens.dropLast ∧
        v.outcome.tokens = T.greedy (v.plan.retainedNodes.length + 1) ∧
        (IsGreatest (t.greedyLengths T) v.plan.retainedNodes.length ↔ t.Unshadowed T) := by
  refine ⟨fun tokens mask t => SpecTree.fromAncestorMask_eq_ok, fun softmaxProb t T baseLen => ?_⟩
  have hstart : t.Along T none := ⟨fun n hn => (nomatch hn), rfl, fun a ha => (nomatch ha)⟩
  obtain ⟨c, hc, hend, hloop⟩ := t.acceptLoop_greedy softmaxProb T (t.len + 1) hstart (by simp)
  have hscores : (range t.len).mapM (fun i => T.score (t.pathTokens i)) =
      .ok ((range t.len).map fun i => T.logits (t.pathTokens i)) := by
    rw [mapM_eq_ok]
    exact forall₂_map_right_iff.mpr (forall₂_same.mpr fun i _ => rfl)
  refine ⟨⟨⟨t.pathTo c, T.greedy ((t.pathTo c).length + 1)⟩, kvRetentionPlan baseLen (t.pathTo c)⟩, ?_, hc.rootPath, ?_, rfl,
    hc.isGreatest_iff hend⟩
  · have hloop : t.accept softmaxProb .greedy (T.logits []) ((range t.len).map fun i => T.logits (t.pathTokens i)) =
        some (.ok ⟨t.pathTo c, T.greedy ((t.pathTo c).length + 1)⟩) := hloop
    simp only [verifyTree, Target.score] at hscores ⊢
    rw [hscores]
    simp only [hloop]
    rfl
  · rw [Target.greedy, dropLast_concat]
    exact hc.spelled

/-- A tree with two roots that propose token 0; only the second goes on, with token 1. -/
def shadowedTree : Except TreeError SpecTree := SpecTree.fromParentIndices [0, 0, 1] [none, none, some 1]

/-- A target whose greedy continuation is `0, 1, 0, 0, …`. -/
def alternating : Target ℕ where
  logits path := if path = [0] then [0, 1] else [1, 0]
  nonempty path := by split <;> simp
  vocabulary path := by split <;> simp

/-- **A longer branch is missed**: the second root and its child spell the first two tokens of the
greedy continuation, and the walk commits two tokens, not three. -/
theorem accept_shadowed :
    ∃ t, shadowedTree = .ok t ∧ t.pathTokens 2 = alternating.greedy 2 ∧
      verifyTree (fun _ _ => 0) t 0 .greedy alternating.score = some (.ok ⟨⟨[0], [0, 1]⟩, ⟨[0], 1⟩⟩) := by
  exact ⟨_, rfl, by decide, by decide⟩

end OnnxGenai.Speculative
