import Mathlib

/-!
# Computations that may fail

Stateful code that returns a `Result` is modelled in the monad `EStateM ε σ`: a
function of the state that gives a value or an error, and *in both cases* a state.
A failure does not undo what was done before it, which is what an early return
through `?` does.

`Ensures x s Q E` says what one run of `x` from `s` gives: `Q` of the value and the
state if it succeeds, `E` of the error and the state if it fails. The rules below
take a computation apart as it is written.
-/

namespace OnnxGenai.Lib

open List

universe u

variable {ε σ α β : Type}

/-- Running `x` from `s` ends in `Q` if it succeeds and in `E` if it fails. -/
def Ensures (x : EStateM ε σ α) (s : σ) (Q : α → σ → Prop) (E : ε → σ → Prop) : Prop :=
  match x s with
  | .ok a s' => Q a s'
  | .error e s' => E e s'

namespace Ensures

variable {x : EStateM ε σ α} {f : α → EStateM ε σ β} {s : σ}
variable {Q : α → σ → Prop} {R : β → σ → Prop} {E : ε → σ → Prop}

theorem of_ok {a : α} {s' : σ} (h : x s = .ok a s') (hQ : Q a s') : Ensures x s Q E := by
  unfold Ensures
  rw [h]
  exact hQ

theorem of_error {e : ε} {s' : σ} (h : x s = .error e s') (hE : E e s') : Ensures x s Q E := by
  unfold Ensures
  rw [h]
  exact hE

/-- What holds of every run holds of a run that succeeded. -/
theorem ok (h : Ensures x s Q E) {a : α} {s' : σ} (hx : x s = .ok a s') : Q a s' := by
  unfold Ensures at h
  rw [hx] at h
  exact h

/-- What holds of every run holds of a run that failed. -/
theorem error (h : Ensures x s Q E) {e : ε} {s' : σ} (hx : x s = .error e s') : E e s' := by
  unfold Ensures at h
  rw [hx] at h
  exact h

/-- A run either succeeds or fails. -/
theorem outcome (h : Ensures x s Q E) :
    (∃ a s', x s = .ok a s' ∧ Q a s') ∨ ∃ e s', x s = .error e s' ∧ E e s' := by
  cases hx : x s with
  | ok a s' => exact .inl ⟨a, s', rfl, h.ok hx⟩
  | error e s' => exact .inr ⟨e, s', rfl, h.error hx⟩

theorem mono {Q' : α → σ → Prop} {E' : ε → σ → Prop} (h : Ensures x s Q E)
    (hQ : ∀ a s', Q a s' → Q' a s') (hE : ∀ e s', E e s' → E' e s') : Ensures x s Q' E' := by
  rcases h.outcome with ⟨a, s', hx, h⟩ | ⟨e, s', hx, h⟩
  · exact of_ok hx (hQ a s' h)
  · exact of_error hx (hE e s' h)

/-- Sequencing: the rest runs from the state the first part leaves. -/
theorem bind (h : Ensures x s (fun a s' => Ensures (f a) s' R E) E) : Ensures (x >>= f) s R E := by
  rcases h.outcome with ⟨a, s', hx, h⟩ | ⟨e, s', hx, h⟩
  · have : (x >>= f) s = f a s' := by simp [Bind.bind, EStateM.bind, hx]
    unfold Ensures
    rw [this]
    exact h
  · exact of_error (by simp [Bind.bind, EStateM.bind, hx]) h

theorem pure {a : α} (h : Q a s) : Ensures (Pure.pure a : EStateM ε σ α) s Q E := h

theorem throw {e : ε} (h : E e s) : Ensures (throw e : EStateM ε σ α) s Q E := h

theorem get {Q : σ → σ → Prop} (h : Q s s) : Ensures (get : EStateM ε σ σ) s Q E := h

theorem set {s' : σ} {Q : PUnit → σ → Prop} (h : Q ⟨⟩ s') :
    Ensures (set s' : EStateM ε σ PUnit) s Q E := h

theorem modify {g : σ → σ} {Q : PUnit → σ → Prop} (h : Q ⟨⟩ (g s)) :
    Ensures (modify g : EStateM ε σ PUnit) s Q E := h

end Ensures

/-- Run `g` on each item in turn, stopping at the first failure. -/
def each (g : α → EStateM ε σ PUnit) : List α → EStateM ε σ PUnit
  | [] => pure ⟨⟩
  | a :: as => do
    g a
    each g as

/-- The loop rule: an invariant `I`, indexed by the items still to come, that each
turn takes from `a :: as` to `as`, and that implies `E` when a turn fails. -/
theorem Ensures.each {g : α → EStateM ε σ PUnit} {I : List α → σ → Prop} {E : ε → σ → Prop}
    (step : ∀ a as s, I (a :: as) s → Ensures (g a) s (fun _ s' => I as s') E) :
    ∀ (as : List α) (s : σ), I as s → Ensures (each g as) s (fun _ s' => I [] s') E
  | [], _, h => h
  | a :: as, s, h => .bind (.mono (step a as s h)
      (fun _ s' h' => .each step as s' h') fun _ _ h' => h')

/-- An `Option` that must be there. -/
def getOr (o : Option α) (e : ε) : EStateM ε σ α :=
  match o with
  | some a => pure a
  | none => throw e

theorem Ensures.getOr {o : Option α} {e : ε} {s : σ} {Q : α → σ → Prop} {E : ε → σ → Prop}
    (hs : ∀ a, o = some a → Q a s) (hn : o = none → E e s) : Ensures (getOr o e) s Q E := by
  cases o with
  | some a => exact hs a rfl
  | none => exact hn rfl

/-- Stop with `e` unless `b`. -/
def require (b : Prop) [Decidable b] (e : ε) : EStateM ε σ PUnit :=
  if b then pure ⟨⟩ else throw e

theorem Ensures.require {b : Prop} [Decidable b] {e : ε} {s : σ} {Q : PUnit → σ → Prop}
    {E : ε → σ → Prop} (ht : b → Q ⟨⟩ s) (hf : ¬ b → E e s) : Ensures (require b e) s Q E := by
  unfold Lib.require
  split
  case isTrue h => exact ht h
  case isFalse h => exact hf h

/-- The result of a computation, whether it is a value or an error. -/
def attempt (x : EStateM ε σ α) : EStateM ε σ (Except ε α) := fun s =>
  match x s with
  | .ok a s' => .ok (.ok a) s'
  | .error e s' => .ok (.error e) s'

theorem Ensures.attempt {x : EStateM ε σ α} {s : σ} {Q : Except ε α → σ → Prop} {E : ε → σ → Prop}
    (h : Ensures x s (fun a => Q (.ok a)) fun e => Q (.error e)) : Ensures (attempt x) s Q E := by
  unfold Ensures at h ⊢
  unfold Lib.attempt
  cases hx : x s with
  | ok | error => rwa [hx] at h

/-- A pure result that may be an error, taken into the state monad. -/
def liftResult (r : Except ε α) : EStateM ε σ α :=
  match r with
  | .ok a => pure a
  | .error e => throw e

theorem Ensures.liftResult {r : Except ε α} {s : σ} {Q : α → σ → Prop} {E : ε → σ → Prop}
    (hok : ∀ a, r = .ok a → Q a s) (herr : ∀ e, r = .error e → E e s) :
    Ensures (liftResult r) s Q E := by
  cases r with
  | ok a => exact hok a rfl
  | error e => exact herr e rfl

theorem Ensures.liftResult_ok {r : Except ε α} {s : σ} {Q : α → σ → Prop} {E : ε → σ → Prop} {a : α}
    (h : r = .ok a) (hQ : Q a s) : Ensures (Lib.liftResult r) s Q E := by
  subst h
  exact hQ

/-! ### Staying within a relation -/

/-- Whether it succeeds or fails, `x` takes `s` to a state related to `s`. -/
def Stays (R : σ → σ → Prop) (x : EStateM ε σ α) (s : σ) : Prop :=
  Ensures x s (fun _ s' => R s s') fun _ s' => R s s'

namespace Stays

variable {R : σ → σ → Prop} {x : EStateM ε σ α} {f : α → EStateM ε σ β} {s : σ}

/-- Sequencing, for a transitive relation. -/
theorem bind (trans : ∀ {a b c}, R a b → R b c → R a c) (h : Stays R x s)
    (hf : ∀ a s', x s = .ok a s' → R s s' → Stays R (f a) s') : Stays R (x >>= f) s := by
  refine Ensures.bind ?_
  rcases Ensures.outcome h with ⟨a, s', hx, h⟩ | ⟨e, s', hx, h⟩
  · exact .of_ok hx (Ensures.mono (hf a s' hx h) (fun _ _ => trans h) fun _ _ => trans h)
  · exact .of_error hx h

/-- A computation that ends well keeps the relation. -/
theorem of_ok (h : Stays R x s) {a : α} {s' : σ} (hx : x s = .ok a s') : R s s' := Ensures.ok h hx

theorem of_error (h : Stays R x s) {e : ε} {s' : σ} (hx : x s = .error e s') : R s s' :=
  Ensures.error h hx

/-- A loop stays within a preorder that each of its turns stays within. -/
theorem each (refl : ∀ s, R s s) (trans : ∀ {a b c}, R a b → R b c → R a c) {g : α → EStateM ε σ PUnit}
    (hg : ∀ a s, Stays R (g a) s) (as : List α) (s : σ) : Stays R (Lib.each g as) s := by
  refine Ensures.each (I := fun _ s' => R s s') (fun a as s' h => ?_) as s (refl s)
  exact (hg a s').mono (fun _ _ h' => trans h h') fun _ _ h' => trans h h'

end Stays

/-! ### The state a run ends in -/

/-- Whether it succeeds or fails, `x` leaves a state with `P`. -/
abbrev Leaves (P : σ → Prop) (x : EStateM ε σ α) (s : σ) : Prop := Ensures x s (fun _ => P) fun _ => P

/-- The state `x` ends in from `s`, however it ends. -/
def final (x : EStateM ε σ α) (s : σ) : σ :=
  match x s with
  | .ok _ s' => s'
  | .error _ s' => s'

theorem Ensures.final {x : EStateM ε σ α} {s : σ} {P : σ → Prop}
    (h : Leaves P x s) : P (final x s) := by
  unfold Lib.final
  cases hx : x s with
  | ok => exact h.ok hx
  | error => exact h.error hx

/-- The state a rule speaks about is the final one. -/
theorem Ensures.withFinal {x : EStateM ε σ α} {s : σ} {Q : α → σ → Prop} {E : ε → σ → Prop} (h : Ensures x s Q E) :
    Ensures x s (fun a s' => Q a s' ∧ s' = Lib.final x s) fun e s' => E e s' ∧ s' = Lib.final x s := by
  unfold Lib.final
  cases hx : x s with
  | ok => exact .of_ok hx ⟨h.ok hx, rfl⟩
  | error => exact .of_error hx ⟨h.error hx, rfl⟩

/-! ### Pure results -/

/-- A sequence of two pure steps succeeds when both do. -/
theorem bind_eq_ok {x : Except ε α} {f : α → Except ε β} {b : β} :
    (x >>= f) = .ok b ↔ ∃ a, x = .ok a ∧ f a = .ok b := by
  cases x with
  | error | ok => simp [Bind.bind, Except.bind]

/-- A loop stays within a preorder that each of its turns stays within. -/
theorem foldlM_stays {R : α → α → Prop} (refl : ∀ a, R a a) (trans : ∀ {a b c}, R a b → R b c → R a c)
    {f : α → β → Except ε α} (hf : ∀ a b a', f a b = .ok a' → R a a') :
    ∀ (bs : List β) (a a' : α), bs.foldlM f a = .ok a' → R a a'
  | [], a, a', h => by
    obtain rfl : a = a' := by simpa [Pure.pure, Except.pure] using h
    exact refl a
  | b :: bs, a, a', h => by
    obtain ⟨a₁, h₁, h₂⟩ := bind_eq_ok.mp h
    exact trans (hf a b a₁ h₁) (foldlM_stays refl trans hf bs a₁ a' h₂)

/-- The rule for a counted loop that may fail: `I k` before turn `k`. -/
theorem foldlM_range_inv {I : ℕ → α → Prop} {f : α → ℕ → Except ε α} {n : ℕ}
    (step : ∀ k a a', k < n → I k a → f a k = .ok a' → I (k + 1) a') {a a' : α} (h : I 0 a)
    (hf : (List.range n).foldlM f a = .ok a') : I n a' := by
  induction n generalizing a' with
  | zero =>
    obtain rfl : a = a' := by simpa [Pure.pure, Except.pure] using hf
    exact h
  | succ n ih =>
    rw [range_succ, foldlM_append] at hf
    obtain ⟨b, hb, hf⟩ := bind_eq_ok.mp hf
    have hI := ih (fun k a a' hk => step k a a' (Nat.lt_succ_of_lt hk)) hb
    obtain ⟨c, hc, hf⟩ := bind_eq_ok.mp hf
    obtain rfl : c = a' := by simpa [Pure.pure, Except.pure] using hf
    exact step n b c (Nat.lt_succ_self n) hI hc

/-- The rule for a loop over a list that may fail. -/
theorem foldlM_index_inv {f : α → β → Except ε α} {bs : List β} {I : ℕ → α → Prop}
    (step : ∀ k b a a', bs[k]? = some b → I k a → f a b = .ok a' → I (k + 1) a') {a a' : α} (h : I 0 a)
    (hf : bs.foldlM f a = .ok a') : I bs.length a' := by
  induction bs generalizing a I with
  | nil =>
    obtain rfl : a = a' := by simpa [Pure.pure, Except.pure] using hf
    exact h
  | cons b bs ih =>
    obtain ⟨c, hc, hf⟩ := bind_eq_ok.mp hf
    exact ih (fun k b' => step (k + 1) b') (step 0 b a c rfl h hc) hf

/-- The rule for a counted loop that does not fail. -/
theorem foldlM_range_ok {I : ℕ → α → Prop} {f : α → ℕ → Except ε α} {n : ℕ}
    (step : ∀ k a, k < n → I k a → ∃ a', f a k = .ok a' ∧ I (k + 1) a') {a : α} (h : I 0 a) :
    ∃ a', (List.range n).foldlM f a = .ok a' ∧ I n a' := by
  induction n with
  | zero => exact ⟨a, rfl, h⟩
  | succ n ih =>
    obtain ⟨b, hb, hI⟩ := ih fun k a hk => step k a (Nat.lt_succ_of_lt hk)
    obtain ⟨c, hc, hI'⟩ := step n b (Nat.lt_succ_self n) hI
    refine ⟨c, ?_, hI'⟩
    rw [range_succ, foldlM_append]
    simp [hb, hc, Bind.bind, Except.bind, Pure.pure, Except.pure]

/-- A map that may fail has mapped every item. -/
theorem mapM_eq_some {f : α → Option β} : ∀ {l : List α} {ys : List β}, l.mapM f = some ys →
    List.Forall₂ (fun a b => f a = some b) l ys
  | [], ys, h => by
    exact Option.some.inj h ▸ List.Forall₂.nil
  | a :: l, ys, h => by
    rw [mapM_cons] at h
    simp only [Option.bind_eq_bind, Option.bind_eq_some_iff] at h
    obtain ⟨b, hb, bs, hbs, h⟩ := h
    exact Option.some.inj h ▸ List.Forall₂.cons hb (mapM_eq_some hbs)

/-! ### Checks and loops that return a `Result` -/

/-- Go on if `b` holds. -/
def ensure (b : Prop) [Decidable b] (e : ε) : Except ε Unit := if b then .ok () else .error e

@[simp] theorem ensure_eq_ok {b : Prop} [Decidable b] {e : ε} {u : Unit} : ensure b e = .ok u ↔ b := by
  unfold ensure
  split
  case isTrue h => simp [h]
  case isFalse h => simp [h]

theorem forM_eq_ok {f : α → Except ε Unit} {l : List α} {u : Unit} : l.forM f = .ok u ↔ ∀ x ∈ l, f x = .ok () := by
  induction l with
  | nil => simp [pure, Except.pure]
  | cons x l ih =>
    show (f x >>= fun _ => l.forM f) = .ok u ↔ _
    rw [bind_eq_ok, forall_mem_cons]
    constructor
    · rintro ⟨⟨⟩, hx, hl⟩
      exact ⟨hx, ih.mp hl⟩
    · rintro ⟨hx, hl⟩
      exact ⟨(), hx, ih.mpr hl⟩

theorem mapM_eq_ok {f : α → Except ε β} {l : List α} {ys : List β} :
    l.mapM f = .ok ys ↔ List.Forall₂ (fun x y => f x = .ok y) l ys := by
  induction l generalizing ys with
  | nil => simp [pure, Except.pure, eq_comm]
  | cons x l ih =>
    rw [mapM_cons, bind_eq_ok]
    constructor
    · rintro ⟨y, hy, h⟩
      obtain ⟨ys', hys', h⟩ := bind_eq_ok.mp h
      cases h
      exact .cons hy (ih.mp hys')
    · intro h
      cases h with
      | cons hy h => exact ⟨_, hy, bind_eq_ok.mpr ⟨_, ih.mpr h, rfl⟩⟩

end OnnxGenai.Lib
