import OnnxGenai.Lib.Fallible

/-!
# Broadcasting symbolic shapes

Shape inference computes with dimensions that are integer polynomials over symbols. A graph
names its own symbols; the pass mints further ones, all of them at or above
`anonSymbolFloor`, for extents it cannot express. `broadcast` aligns two shapes on the right
and combines them axis by axis.

An assignment `σ` gives every symbol its extent at run time, and `eval` gives a dimension its
extent. The inferred shape is right for `σ` if some assignment that agrees with `σ` on the
symbols that were there before gives it the extents of the NumPy broadcast. Every rule of
`broadcastDim` is right whenever the shapes broadcast at all, except one: where an anonymous
symbol meets another symbol, the one with the smaller number is kept. If that one is `1` at run
time and the other is not, the extent is the other's. The symbol minted for two named dimensions
is anonymous itself, so a fold over named dimensions runs into the same case one operand later.
-/

namespace OnnxGenai.Shape

open Lib List

/-- A symbolic dimension, a `u32`. -/
abbrev SymbolId := ℕ

/-- The largest symbol. -/
def maxSymbol : ℕ := 2 ^ 32 - 1

/-- Symbols from here on were minted by inference. -/
def anonSymbolFloor : ℕ := 0x80000000

/-- A canonical polynomial: a sorted map from sorted products of symbols to coefficients, or
the mark of a coefficient that was out of range. -/
structure DimExpr where
  terms : List (List SymbolId × ℤ)
  overflow : Bool
  /-- The products ascend. -/
  ascending : terms.Pairwise (·.1 < ·.1)
  /-- In a product the symbols ascend. -/
  sorted : ∀ t ∈ terms, t.1.Pairwise (· ≤ ·)
  /-- No coefficient is zero. -/
  nonzero : ∀ t ∈ terms, t.2 ≠ 0
  deriving DecidableEq

/-- A shape of known rank. -/
abbrev TypedShape := List DimExpr

namespace DimExpr

/-- The constant `n`. -/
def constant (n : ℤ) : DimExpr where
  terms := if n = 0 then [] else [([], n)]
  overflow := false
  ascending := by split <;> simp
  sorted := by split <;> simp
  nonzero := by split <;> simp_all

/-- A single symbol. -/
def symbol (s : SymbolId) : DimExpr where
  terms := [([s], 1)]
  overflow := false
  ascending := by simp
  sorted := by simp
  nonzero := by simp

/-- The value, if the expression is a constant. -/
def asConst (e : DimExpr) : Option ℤ :=
  if e.overflow then none
  else match e.terms with
    | [] => some 0
    | [([], n)] => some n
    | _ => none

/-- The symbol, if the expression is one symbol with coefficient one. -/
def asSymbol (e : DimExpr) : Option SymbolId :=
  if e.overflow then none
  else match e.terms with
    | [([s], n)] => if n = 1 then some s else none
    | _ => none

/-- Every symbol of the expression, with repeats. -/
def symbolIds (e : DimExpr) : List SymbolId := e.terms.flatMap (·.1)

/-- The extent under an assignment; an overflowed expression has none. -/
def eval (σ : SymbolId → ℤ) (e : DimExpr) : Option ℤ :=
  if e.overflow then none else some (e.terms.map fun t => t.2 * (t.1.map σ).prod).sum

end DimExpr

open DimExpr

/-! ### Inference -/

/-- What to do with extents that contradict each other. -/
inductive MergePolicy where
  | permissive
  | strict
  deriving DecidableEq

/-- The error of a rule: the operator and what is wrong with it. -/
inductive ShapeInferError where
  | invalid (op detail : String)
  deriving DecidableEq

/-- What mints symbols: the next one, and the records a later pass reads. -/
structure SymbolInterner where
  next : ℕ
  fresh : List SymbolId
  unifications : List (SymbolId × SymbolId)
  derivations : List (SymbolId × SymbolId)
  deriving DecidableEq

/-- The part of the context of a rule that broadcasting reads. -/
structure InferenceContext where
  opType : String
  policy : MergePolicy

/-- A rule may fail, and mints symbols. -/
abbrev Infer := EStateM ShapeInferError SymbolInterner

/-- Mint a symbol. The counter stops at the largest one. -/
def freshSymbol : Infer SymbolId := do
  let i ← get
  set { i with next := min (i.next + 1) maxSymbol, fresh := i.fresh ++ [i.next] }
  return i.next

/-- Mint a dimension. -/
def freshDim : Infer DimExpr := return symbol (← freshSymbol)

/-- Mint a dimension and record the symbols of both operands as its sources. -/
def freshBroadcastDim (a b : DimExpr) : Infer DimExpr := do
  let fresh ← freshSymbol
  let sources := ((a.symbolIds ++ b.symbolIds).filter (· ≠ fresh)).eraseDups
  modify fun i => { i with derivations := i.derivations ++ sources.map (fresh, ·) }
  return symbol fresh

/-- Record that two symbols became one. -/
def recordUnification (a b : SymbolId) : Infer PUnit :=
  modify fun i => { i with unifications := i.unifications ++ [(a, b)] }

/-- Broadcast two dimensions. -/
def broadcastDim (ctx : InferenceContext) (a b : DimExpr) : Infer DimExpr :=
  if a.asConst = some 1 then return b
  else if b.asConst = some 1 then return a
  else if a = b then return a
  else match a.asConst, b.asConst with
    | some x, some y =>
      if x = y then return a
      else if ctx.policy = .strict then throw (.invalid ctx.opType s!"incompatible broadcast dims {x} and {y}")
      else freshDim
    | some _, none => return a
    | none, some _ => return b
    | none, none =>
      match a.asSymbol, b.asSymbol with
      | some sa, some sb =>
        if anonSymbolFloor ≤ sa ∨ anonSymbolFloor ≤ sb then do
          recordUnification sa sb
          return if sa ≤ sb then a else b
        else freshBroadcastDim a b
      | _, _ => freshBroadcastDim a b

/-- The item at an axis of a view of the given rank; leading axes the list lacks are `one`. -/
def fromRight {α : Type} (one : α) (shape : List α) (rank axis : ℕ) : α :=
  if axis < rank - shape.length then one else shape.getD (axis - (rank - shape.length)) one

/-- The dimension at an axis; leading dimensions the shape lacks are `1`. -/
def dimFromRight : TypedShape → ℕ → ℕ → DimExpr := fromRight (constant 1)

/-- Broadcast two shapes. -/
def broadcast (ctx : InferenceContext) (a b : TypedShape) : Infer TypedShape :=
  let rank := max a.length b.length
  (List.range rank).mapM fun axis => broadcastDim ctx (dimFromRight a rank axis) (dimFromRight b rank axis)

/-- Broadcast any number of operands, one after the other. -/
def broadcastAll (ctx : InferenceContext) (first : TypedShape) (operands : List TypedShape) : Infer TypedShape :=
  operands.foldlM (broadcast ctx) first

/-! ### What the shapes mean -/

/-- NumPy's rule for two extents. -/
def broadcastExtent (x y : ℤ) : Option ℤ :=
  if x = 1 then some y else if y = 1 ∨ x = y then some x else none

/-- NumPy's rule for two shapes: extents on the right belong together, missing ones are `1`. -/
def broadcastExtents (xs ys : List ℤ) : Option (List ℤ) :=
  let rank := max xs.length ys.length
  (List.range rank).mapM fun axis => broadcastExtent (fromRight 1 xs rank axis) (fromRight 1 ys rank axis)

/-- Under `σ` the shape has these extents. -/
def Evaluates (σ : SymbolId → ℤ) : TypedShape → List ℤ → Prop := List.Forall₂ fun e x => e.eval σ = some x

/-- `τ` is `σ` on the symbols below `n`. -/
def Agrees (n : ℕ) (σ τ : SymbolId → ℤ) : Prop := ∀ s < n, τ s = σ s

/-- Every symbol of the shape is below `n`. -/
def Below (n : ℕ) (shape : TypedShape) : Prop := ∀ e ∈ shape, ∀ s ∈ e.symbolIds, s < n

/-- If an anonymous symbol meets a symbol, the smaller one is `1` only if both are. -/
def Safe (σ : SymbolId → ℤ) (a b : DimExpr) : Prop :=
  ∀ sa sb, a.asSymbol = some sa → b.asSymbol = some sb → anonSymbolFloor ≤ max sa sb →
    σ (min sa sb) = 1 → σ (max sa sb) = 1

/-- No axis of two shapes keeps a symbol that is `1` for one that is not. -/
def SafeShapes (σ : SymbolId → ℤ) (a b : TypedShape) : Prop :=
  ∀ axis < max a.length b.length,
    Safe σ (dimFromRight a (max a.length b.length) axis) (dimFromRight b (max a.length b.length) axis)

/-! ### Expressions and extents -/

variable {σ τ : SymbolId → ℤ} {a b e : DimExpr} {n s : ℕ} {x y z : ℤ}

@[simp] theorem eval_constant : (constant x).eval σ = some x := by
  by_cases h : x = 0
  · simp [constant, eval, h]
  · simp [constant, eval, h]

@[simp] theorem eval_symbol : (symbol s).eval σ = some (σ s) := by
  simp [symbol, eval]

theorem eval_of_asConst (h : e.asConst = some x) : e.eval σ = some x ∧ e.asSymbol = none := by
  unfold asConst at h
  unfold eval asSymbol
  split at h
  · cases h
  · next ho =>
    split at h
    · next ht => simpa [ho, ht] using h
    · next n ht => simpa [ho, ht] using h
    · cases h

theorem eq_symbol_of_asSymbol (h : e.asSymbol = some s) : e = symbol s := by
  obtain ⟨terms, overflow, _, _, _⟩ := e
  unfold asSymbol at h
  split at h
  · cases h
  · next ho =>
    split at h
    · simp_all [symbol]
    · cases h

theorem eval_of_asSymbol (h : e.asSymbol = some s) : e.eval σ = some (σ s) :=
  eq_symbol_of_asSymbol h ▸ eval_symbol

theorem eval_congr (hagrees : Agrees n σ τ) (h : ∀ s ∈ e.symbolIds, s < n) : e.eval τ = e.eval σ := by
  have hterms : ∀ t ∈ e.terms, t.2 * (t.1.map τ).prod = t.2 * (t.1.map σ).prod := by
    intro t ht
    rw [map_congr_left fun s hs => hagrees s (h s (mem_flatMap.mpr ⟨t, ht, hs⟩))]
  unfold eval
  rw [map_congr_left hterms]

theorem broadcastExtent_comm : broadcastExtent x y = broadcastExtent y x := by
  unfold broadcastExtent
  grind

/-- Keeping the first of two extents is right unless it is the `1` that is stretched. -/
theorem eq_iff_of_broadcastExtent (h : broadcastExtent x y = some z) : x = z ↔ (x = 1 → y = 1) := by
  unfold broadcastExtent at h
  grind

theorem eq_of_broadcastExtent (h : broadcastExtent x y = some z) (hx : x ≠ 1) : x = z :=
  (eq_iff_of_broadcastExtent h).mpr fun h1 => absurd h1 hx

/-! ### One axis -/

theorem Safe.of_left (h : a.asSymbol = none) : Safe σ a b := by
  intro sa sb ha
  simp [h] at ha

theorem Safe.of_right (h : b.asSymbol = none) : Safe σ a b := by
  intro sa sb _ hb
  simp [h] at hb

theorem safe_iff {sa sb : ℕ} (ha : a.asSymbol = some sa) (hb : b.asSymbol = some sb) :
    Safe σ a b ↔ (anonSymbolFloor ≤ max sa sb → σ (min sa sb) = 1 → σ (max sa sb) = 1) := by
  constructor
  · exact fun h => h sa sb ha hb
  · intro h sa' sb' hsa hsb
    cases ha.symm.trans hsa
    cases hb.symm.trans hsb
    exact h

/-- The condition is about the symbols of the two dimensions. -/
theorem safe_congr (hagrees : Agrees n σ τ) (h : Below n [a, b]) : Safe τ a b ↔ Safe σ a b := by
  refine forall₄_congr fun sa sb ha hb => ?_
  obtain ⟨hsa, hsb⟩ : sa < n ∧ sb < n := by
    simpa [Below, eq_symbol_of_asSymbol ha, eq_symbol_of_asSymbol hb, symbol, symbolIds] using h
  rw [hagrees _ (lt_of_le_of_lt (min_le_left sa sb) hsa), hagrees _ (max_lt hsa hsb)]

/-- Two dimensions with extents that broadcast to `z`. -/
def Axis (σ : SymbolId → ℤ) (a b : DimExpr) (z : ℤ) : Prop :=
  ∃ x y, a.eval σ = some x ∧ b.eval σ = some y ∧ broadcastExtent x y = some z

/-- What broadcasting two dimensions gives: one of them, or a new symbol. -/
inductive Combines (σ : SymbolId → ℤ) (i : SymbolInterner) (a b : DimExpr) (z : ℤ) :
    DimExpr → SymbolInterner → Prop where
  | keeps {e i'} (he : e = a ∨ e = b) (hnext : i'.next = i.next) (hiff : e.eval σ = some z ↔ Safe σ a b) :
      Combines σ i a b z e i'
  | mints {i'} (hnext : i'.next = min (i.next + 1) maxSymbol) (hsafe : Safe σ a b) :
      Combines σ i a b z (symbol i.next) i'

variable {ctx : InferenceContext} {i : SymbolInterner}

theorem freshBroadcastDim_combines (h : Safe σ a b) :
    ∃ e i', freshBroadcastDim a b i = .ok e i' ∧ Combines σ i a b z e i' :=
  ⟨_, _, rfl, .mints rfl h⟩

/-- The rule for two bare symbols, one of them anonymous, keeps the smaller one. -/
theorem unification_combines {sa sb : SymbolId} (ha : a.asSymbol = some sa) (hb : b.asSymbol = some sb)
    (hz : broadcastExtent (σ sa) (σ sb) = some z) (hanon : anonSymbolFloor ≤ max sa sb) :
    Combines σ i a b z (if sa ≤ sb then a else b) { i with unifications := i.unifications ++ [(sa, sb)] } := by
  have hsafe := safe_iff (σ := σ) ha hb
  rw [imp_iff_right hanon] at hsafe
  split
  · next hle =>
    refine .keeps (.inl rfl) rfl ?_
    rw [hsafe, min_eq_left hle, max_eq_right hle, eval_of_asSymbol ha, Option.some.injEq]
    exact eq_iff_of_broadcastExtent hz
  · next hle =>
    have hle := le_of_not_ge hle
    refine .keeps (.inr rfl) rfl ?_
    rw [hsafe, min_eq_right hle, max_eq_left hle, eval_of_asSymbol hb, Option.some.injEq]
    exact eq_iff_of_broadcastExtent (broadcastExtent_comm.trans hz)

/-- **One axis.** Where the extents broadcast, the rule never fails; what it keeps of the
operands is right exactly if they are safe, and it mints only where they are. -/
theorem broadcastDim_combines (ctx : InferenceContext) (h : Axis σ a b z) :
    ∃ e i', broadcastDim ctx a b i = .ok e i' ∧ Combines σ i a b z e i' := by
  obtain ⟨x, y, ha, hb, hz⟩ := h
  have keep_a : x = z → Safe σ a b → Combines σ i a b z a i := fun hx hsafe =>
    .keeps (.inl rfl) rfl (iff_of_true (hx ▸ ha) hsafe)
  have keep_b : y = z → Safe σ a b → Combines σ i a b z b i := fun hy hsafe =>
    .keeps (.inr rfl) rfl (iff_of_true (hy ▸ hb) hsafe)
  -- A constant operand has its value for extent, and is no symbol.
  have const_a : ∀ {c}, a.asConst = some c → c = x ∧ Safe σ a b := fun hc =>
    ⟨Option.some.inj ((eval_of_asConst hc).1.symm.trans ha), .of_left (eval_of_asConst (σ := σ) hc).2⟩
  have const_b : ∀ {c}, b.asConst = some c → c = y ∧ Safe σ a b := fun hc =>
    ⟨Option.some.inj ((eval_of_asConst hc).1.symm.trans hb), .of_right (eval_of_asConst (σ := σ) hc).2⟩
  unfold broadcastDim
  split
  · next h1 =>
    obtain ⟨rfl, hsafe⟩ := const_a h1
    exact ⟨b, i, rfl, keep_b (by simpa [broadcastExtent] using hz) hsafe⟩
  split
  · next h1 =>
    obtain ⟨rfl, hsafe⟩ := const_b h1
    exact ⟨a, i, rfl, keep_a ((eq_iff_of_broadcastExtent hz).mpr fun _ => rfl) hsafe⟩
  split
  · next hab =>
    subst hab
    cases ha.symm.trans hb
    refine ⟨a, i, rfl, keep_a ((eq_iff_of_broadcastExtent hz).mpr id) fun sa sb hsa hsb _ hone => ?_⟩
    cases hsa.symm.trans hsb
    simpa using hone
  next ha1 hb1 _ =>
  cases hc : a.asConst with
  | some c =>
    obtain ⟨rfl, hsafe⟩ := const_a hc
    have hx : c = z := eq_of_broadcastExtent hz fun h1 => ha1 (h1 ▸ hc)
    cases hd : b.asConst with
    | none => exact ⟨a, i, rfl, keep_a hx hsafe⟩
    | some d =>
      -- Unequal constants do not broadcast.
      obtain ⟨rfl, -⟩ := const_b hd
      have hy : d = z := eq_of_broadcastExtent (broadcastExtent_comm.trans hz) fun h1 => hb1 (h1 ▸ hd)
      simp only [if_pos (hx.trans hy.symm)]
      exact ⟨a, i, rfl, keep_a hx hsafe⟩
  | none =>
    cases hd : b.asConst with
    | some d =>
      obtain ⟨rfl, hsafe⟩ := const_b hd
      have hy : d = z := eq_of_broadcastExtent (broadcastExtent_comm.trans hz) fun h1 => hb1 (h1 ▸ hd)
      exact ⟨b, i, rfl, keep_b hy hsafe⟩
    | none =>
      cases hsa : a.asSymbol with
      | none => exact freshBroadcastDim_combines (.of_left hsa)
      | some sa =>
        cases hsb : b.asSymbol with
        | none => exact freshBroadcastDim_combines (.of_right hsb)
        | some sb =>
          cases (eval_of_asSymbol hsa).symm.trans ha
          cases (eval_of_asSymbol hsb).symm.trans hb
          by_cases hanon : anonSymbolFloor ≤ sa ∨ anonSymbolFloor ≤ sb
          · simp only [if_pos hanon]
            exact ⟨_, _, rfl, unification_combines hsa hsb hz (le_max_iff.mpr hanon)⟩
          · simp only [if_neg hanon]
            refine freshBroadcastDim_combines ((safe_iff hsa hsb).mpr fun h => absurd (le_max_iff.mp h) hanon)

/-! ### Two shapes -/

theorem below_mono {m : ℕ} {shape : TypedShape} (h : Below n shape) (hle : n ≤ m) : Below m shape :=
  fun e he s hs => (h e he s hs).trans_le hle

theorem evaluates_congr {shape : TypedShape} {xs : List ℤ} (hagrees : Agrees n σ τ) (h : Below n shape)
    (hev : Evaluates σ shape xs) : Evaluates τ shape xs := by
  induction hev with
  | nil => exact .nil
  | cons he _ ih =>
    rw [Below, forall_mem_cons] at h
    exact .cons ((eval_congr hagrees h.1).trans he) (ih h.2)

/-- An assignment that gives the minted symbol its extent agrees one symbol further. -/
theorem agrees_update : Agrees (n + 1) (Function.update σ n z) τ ↔ Agrees n σ τ ∧ τ n = z := by
  simp only [Agrees, Nat.lt_succ_iff_lt_or_eq, or_imp, forall_and, forall_eq, Function.update_self]
  refine and_congr_left fun _ => forall₂_congr fun s hs => ?_
  rw [Function.update_of_ne hs.ne]

theorem Axis.congr (hagrees : Agrees n σ τ) (h : Below n [a, b]) (haxis : Axis σ a b z) : Axis τ a b z := by
  obtain ⟨x, y, hx, hy, hz⟩ := haxis
  exact ⟨x, y, (eval_congr hagrees (h _ (by simp))).trans hx, (eval_congr hagrees (h _ (by simp))).trans hy, hz⟩

/-- The loop over the axes. The induction is on the axes still to come; the assignment is
extended by the extent of each symbol minted on the way. -/
theorem mapM_broadcastDim (ctx : InferenceContext) {f g : ℕ → DimExpr} {axes : List ℕ} {zs : List ℤ}
    (haxes : List.Forall₂ (fun axis => Axis σ (f axis) (g axis)) axes zs)
    (hbelow : ∀ axis ∈ axes, Below i.next [f axis, g axis]) (hroom : i.next + axes.length ≤ maxSymbol) :
    ∃ out i', axes.mapM (fun axis => broadcastDim ctx (f axis) (g axis)) i = .ok out i' ∧ i.next ≤ i'.next ∧
      Below i'.next out ∧
      ((∃ τ, Agrees i.next σ τ ∧ Evaluates τ out zs) ↔ ∀ axis ∈ axes, Safe σ (f axis) (g axis)) := by
  induction axes generalizing σ zs i with
  | nil =>
    cases haxes
    exact ⟨[], i, rfl, le_rfl, by simp [Below], by simpa using ⟨σ, fun _ _ => rfl, .nil⟩⟩
  | cons axis axes ih =>
    obtain ⟨z, zs, haxis, hrest, rfl⟩ := forall₂_cons_left_iff.mp haxes
    obtain ⟨hp, hbelow⟩ := forall_mem_cons.mp hbelow
    rw [length_cons] at hroom
    obtain ⟨e, i₁, hrun, hcombines⟩ := broadcastDim_combines (i := i) ctx haxis
    have run_cons : ∀ {out i'}, axes.mapM (fun axis => broadcastDim ctx (f axis) (g axis)) i₁ = .ok out i' →
        (axis :: axes).mapM (fun axis => broadcastDim ctx (f axis) (g axis)) i = .ok (e :: out) i' := by
      intro out i' h
      simp [Bind.bind, EStateM.bind, hrun, h, Pure.pure, EStateM.pure]
    rw [forall_mem_cons]
    cases hcombines with
    | keeps he hnext hiff =>
      have he : ∀ s ∈ e.symbolIds, s < i.next := hp e (by simpa [eq_comm] using he)
      obtain ⟨out, i', hout, hle, hbelow', hsafe⟩ := ih hrest (hnext ▸ hbelow) (by rw [hnext]; omega)
      rw [hnext] at hle hsafe
      refine ⟨e :: out, i', run_cons hout, hle, forall_mem_cons.mpr ⟨fun s hs => (he s hs).trans_le hle, hbelow'⟩, ?_⟩
      rw [← hiff, ← hsafe]
      constructor
      · rintro ⟨τ, hτ, _ | ⟨hz, hzs⟩⟩
        exact ⟨(eval_congr hτ he).symm.trans hz, τ, hτ, hzs⟩
      · rintro ⟨hz, τ, hτ, hzs⟩
        exact ⟨τ, hτ, .cons ((eval_congr hτ he).trans hz) hzs⟩
    | mints hnext hsafe₁ =>
      have hnext : i₁.next = i.next + 1 := hnext.trans (min_eq_left (by omega))
      have hupdate : Agrees i.next σ (Function.update σ i.next z) := fun s hs => Function.update_of_ne hs.ne _ _
      have hrest : List.Forall₂ (fun axis => Axis (Function.update σ i.next z) (f axis) (g axis)) axes zs :=
        ((forall₂_and_left _ _).mpr ⟨hbelow, hrest⟩).imp fun q z h => h.2.congr hupdate h.1
      obtain ⟨out, i', hout, hle, hbelow', hsafe⟩ := ih (i := i₁) hrest
        (fun q hq => below_mono (hbelow q hq) (by omega)) (by omega)
      refine ⟨symbol i.next :: out, i', run_cons hout, by omega, forall_mem_cons.mpr ⟨?_, hbelow'⟩, ?_⟩
      · have : i.next < i'.next := by omega
        simpa [symbol, symbolIds] using this
      have hcongr : (∀ axis ∈ axes, Safe (Function.update σ i.next z) (f axis) (g axis)) ↔
          ∀ axis ∈ axes, Safe σ (f axis) (g axis) :=
        forall₂_congr fun axis haxis => safe_congr hupdate (hbelow axis haxis)
      rw [iff_true_intro hsafe₁, true_and, ← hcongr, ← hsafe, hnext]
      constructor
      · rintro ⟨τ, hτ, _ | ⟨hz, hzs⟩⟩
        exact ⟨τ, agrees_update.mpr ⟨hτ, by simpa using hz⟩, hzs⟩
      · rintro ⟨τ, hτ, hzs⟩
        obtain ⟨hold, rfl⟩ := agrees_update.mp hτ
        exact ⟨τ, hold, .cons eval_symbol hzs⟩

theorem below_fromRight {a : TypedShape} (h : Below n a) (rank axis : ℕ) :
    ∀ s ∈ (dimFromRight a rank axis).symbolIds, s < n := by
  have hone : ∀ s ∈ (constant 1).symbolIds, s < n := by simp [constant, symbolIds]
  unfold dimFromRight fromRight
  split
  · exact hone
  · rw [getD_eq_getElem?_getD]
    cases he : a[axis - (rank - a.length)]? with
    | none => exact hone
    | some e => exact h e (mem_of_getElem? he)

theorem eval_fromRight {a : TypedShape} {xs : List ℤ} (h : Evaluates σ a xs) (rank axis : ℕ) :
    (dimFromRight a rank axis).eval σ = some (fromRight 1 xs rank axis) := by
  unfold dimFromRight fromRight
  rw [h.length_eq]
  split
  · exact eval_constant
  · next hle =>
    generalize axis - (rank - xs.length) = k
    clear hle
    induction h generalizing k with
    | nil => exact eval_constant
    | cons he _ ih =>
      cases k with
      | zero => exact he
      | succ k => exact ih k

/-- What one call gives, and when it is right. -/
theorem broadcast_spec (ctx : InferenceContext) {a b : TypedShape} {xs ys zs : List ℤ} (ha : Evaluates σ a xs) (hb : Evaluates σ b ys)
    (hz : broadcastExtents xs ys = some zs) (hna : Below i.next a) (hnb : Below i.next b)
    (hroom : i.next + max a.length b.length ≤ maxSymbol) :
    ∃ out i', broadcast ctx a b i = .ok out i' ∧ i.next ≤ i'.next ∧ Below i'.next out ∧
      ((∃ τ, Agrees i.next σ τ ∧ Evaluates τ out zs) ↔ SafeShapes σ a b) := by
  simp only [broadcastExtents, ← ha.length_eq, ← hb.length_eq] at hz
  have haxes := (mapM_eq_some hz).imp fun axis z hz =>
    (⟨_, _, eval_fromRight ha _ axis, eval_fromRight hb _ axis, hz⟩ :
      Axis σ (dimFromRight a _ axis) (dimFromRight b _ axis) z)
  have hbelow : ∀ rank axis, Below i.next [dimFromRight a rank axis, dimFromRight b rank axis] := by
    intro rank axis
    simpa [Below] using ⟨below_fromRight hna rank axis, below_fromRight hnb rank axis⟩
  simpa only [broadcast, SafeShapes, mem_range] using
    mapM_broadcastDim ctx haxes (fun axis _ => hbelow _ axis) (by simpa using hroom)

/-! ### Any number of operands -/

/-- The call gives a shape, and an assignment that is `σ` on the symbols there were before gives
it the extents `zs`. -/
def Sound (σ : SymbolId → ℤ) (i : SymbolInterner) (result : EStateM.Result ShapeInferError SymbolInterner TypedShape)
    (zs : List ℤ) : Prop :=
  ∃ out i' τ, result = .ok out i' ∧ Agrees i.next σ τ ∧ Evaluates τ out zs

/-- Every call of a fold has symbols to mint and is safe for the assignment as it is extended by
the calls before it. -/
def SafeFold (ctx : InferenceContext) : SymbolInterner → (SymbolId → ℤ) → TypedShape → List TypedShape → Prop
  | _, _, _, [] => True
  | i, σ, acc, b :: operands =>
    i.next + max acc.length b.length ≤ maxSymbol ∧ SafeShapes σ acc b ∧
      ∀ out i' τ xs ys zs, broadcast ctx acc b i = .ok out i' → Agrees i.next σ τ → Evaluates σ acc xs →
        Evaluates σ b ys → broadcastExtents xs ys = some zs → Evaluates τ out zs → SafeFold ctx i' τ out operands

/-- A fold all of whose calls are safe gives the broadcast of its operands. -/
theorem broadcastAll_sound {operands : List TypedShape} {yss : List (List ℤ)} {acc : TypedShape} {xs zs : List ℤ}
    (hacc : Evaluates σ acc xs) (hoperands : List.Forall₂ (Evaluates σ) operands yss)
    (hz : yss.foldlM broadcastExtents xs = some zs) (hn : Below i.next acc) (hns : ∀ b ∈ operands, Below i.next b)
    (hsafe : SafeFold ctx i σ acc operands) : Sound σ i (broadcastAll ctx acc operands i) zs := by
  induction operands generalizing i σ acc xs yss with
  | nil =>
    cases hoperands
    obtain rfl : xs = zs := by simpa using hz
    exact ⟨acc, i, σ, rfl, fun _ _ => rfl, hacc⟩
  | cons b operands ih =>
    obtain ⟨ys, yss, hb, hrest, rfl⟩ := forall₂_cons_left_iff.mp hoperands
    obtain ⟨hnb, hns⟩ := forall_mem_cons.mp hns
    obtain ⟨hroom, hsafe, hnext⟩ := hsafe
    obtain ⟨ws, hws, hz⟩ := Option.bind_eq_some_iff.mp hz
    obtain ⟨out, i₁, hrun, hle, hout, hiff⟩ := broadcast_spec ctx hacc hb hws hn hnb hroom
    obtain ⟨τ, hτ, hev⟩ := hiff.mpr hsafe
    have hrest : List.Forall₂ (Evaluates τ) operands yss :=
      ((forall₂_and_left _ _).mpr ⟨hns, hrest⟩).imp fun c _ h => evaluates_congr hτ h.1 h.2
    obtain ⟨out', i₂, υ, hfold, hυ, hev'⟩ := ih hev hrest hz hout (fun c hc => below_mono (hns c hc) hle)
      (hnext out i₁ τ xs ys ws hrun hτ hacc hb hws hev)
    refine ⟨out', i₂, υ, ?_, fun s hs => (hυ s (hs.trans_le hle)).trans (hτ s hs), hev'⟩
    simpa [broadcastAll, foldlM_cons, Bind.bind, EStateM.bind, hrun] using hfold

/-- **Broadcast inference.** For shapes that broadcast under `σ`, one call is sound exactly if no
axis keeps a symbol that is `1` in place of one that is not, and a fold of calls is sound if this
holds at every call. -/
theorem broadcast_sound_iff (ctx : InferenceContext) (i : SymbolInterner) (σ : SymbolId → ℤ) :
    (∀ a b xs ys zs, Below i.next a → Below i.next b → i.next + max a.length b.length ≤ maxSymbol →
      Evaluates σ a xs → Evaluates σ b ys → broadcastExtents xs ys = some zs →
        (Sound σ i (broadcast ctx a b i) zs ↔ SafeShapes σ a b)) ∧
    (∀ first operands xs yss zs, (∀ b ∈ first :: operands, Below i.next b) →
      Evaluates σ first xs → List.Forall₂ (Evaluates σ) operands yss → yss.foldlM broadcastExtents xs = some zs →
        SafeFold ctx i σ first operands → Sound σ i (broadcastAll ctx first operands i) zs) := by
  refine ⟨fun a b xs ys zs hna hnb hroom ha hb hz => ?_, fun first operands xs yss zs hn hfirst hoperands hz hsafe => ?_⟩
  · obtain ⟨out, i', hrun, -, -, hiff⟩ := broadcast_spec ctx ha hb hz hna hnb hroom
    rw [← hiff, hrun]
    constructor
    · rintro ⟨_, _, τ, h, hτ, hev⟩
      cases h
      exact ⟨τ, hτ, hev⟩
    · rintro ⟨τ, hτ, hev⟩
      exact ⟨out, i', τ, rfl, hτ, hev⟩
  · obtain ⟨hn, hns⟩ := forall_mem_cons.mp hn
    exact broadcastAll_sound hfirst hoperands hz hn hns hsafe

/-- Dimension `0` is `4` and all others are `1`: it may stand for an anonymous one. -/
theorem broadcast_sound_named : ∃ (ctx : InferenceContext) (i : SymbolInterner) (σ : SymbolId → ℤ),
    Sound σ i (broadcast ctx [symbol 0] [symbol anonSymbolFloor] i) [4] ∧
    Sound σ i (broadcastAll ctx [symbol 0] [[symbol 1]] i) [4] := by
  refine ⟨⟨"Sum", .permissive⟩, ⟨anonSymbolFloor + 1, [], [], []⟩, fun s => if s = 0 then 4 else 1, ?_, ?_⟩
  · refine ((broadcast_sound_iff _ _ _).1 _ _ [4] [1] _ ?_ ?_ (by decide) ?_ ?_ (by decide)).mpr fun axis haxis => ?_
    · simp [Below, symbolIds, symbol, anonSymbolFloor]
    · simp [Below, symbolIds, symbol, anonSymbolFloor]
    · simp [Evaluates]
    · simp [Evaluates, anonSymbolFloor]
    · obtain rfl : axis = 0 := Nat.lt_one_iff.mp haxis
      exact (safe_iff rfl rfl).mpr (by decide)
  · refine (broadcast_sound_iff _ _ _).2 _ _ [4] [[1]] _ ?_ ?_ ?_ (by decide) ⟨by decide, fun axis haxis => ?_, ?_⟩
    · simp [Below, symbolIds, symbol, anonSymbolFloor]
    · simp [Evaluates]
    · simp [Evaluates]
    · obtain rfl : axis = 0 := Nat.lt_one_iff.mp haxis
      exact (safe_iff rfl rfl).mpr (by decide)
    · intros
      trivial

/-- Dimension `0` is `1` at run time. Where it meets an anonymous extent of `5` it is kept; and
where the symbol minted for dimensions `0` and `1` meets dimension `0` again, it is kept too. -/
theorem broadcast_keeps_one : ∃ (ctx : InferenceContext) (i : SymbolInterner) (σ : SymbolId → ℤ),
    ctx.policy = .permissive ∧ (∀ s, 1 ≤ σ s) ∧
    (∀ shape ∈ [[symbol 0], [symbol 1], [symbol anonSymbolFloor]], Below i.next shape) ∧
    Evaluates σ [symbol 0] [1] ∧ Evaluates σ [symbol 1] [5] ∧ Evaluates σ [symbol anonSymbolFloor] [5] ∧
    broadcastExtents [1] [5] = some [5] ∧ [[5], [1]].foldlM broadcastExtents [1] = some [5] ∧
    ¬ Sound σ i (broadcast ctx [symbol 0] [symbol anonSymbolFloor] i) [5] ∧
    ¬ Sound σ i (broadcastAll ctx [symbol 0] [[symbol 1], [symbol 0]] i) [5] := by
  refine ⟨⟨"Sum", .permissive⟩, ⟨anonSymbolFloor + 1, [], [], []⟩, fun s => if s = 0 then 1 else 5, rfl,
    fun s => by dsimp only; split <;> decide, by simp [Below, symbolIds, symbol, anonSymbolFloor],
    by simp [Evaluates], by simp [Evaluates], by simp [Evaluates, anonSymbolFloor], by decide, by decide, ?_, ?_⟩
  all_goals
    rintro ⟨out, i', τ, hrun, hτ, hev⟩
    obtain ⟨rfl, -⟩ := EStateM.Result.ok.inj hrun
    have hone : τ 0 = 1 := hτ 0 (by decide)
    have hfive : τ 0 = 5 := by simpa [Evaluates, dimFromRight, fromRight] using hev
    omega

end OnnxGenai.Shape
