import OnnxGenai.Lib.LittleEndian

/-!
# Readers of byte strings

A reader takes a value off the front of a byte string. It decodes an encoding if it accepts exactly
the byte strings that begin with the encoding of a value in its range, and leaves what follows. So
much is known of a sequence of readers from what is known of each.
-/

namespace OnnxGenai.Lib

open LittleEndian List Nat

/-- A computation that consumes a byte string from the front. -/
abbrev Reader (ε α : Type) := StateT (List (BitVec 8)) (Except ε) α

variable {ε α β : Type} {x : Reader ε α} {P : α → Prop} {encode : α → List (BitVec 8)} {f : α → Reader ε β}
  {bs rest : List (BitVec 8)} {b : β}

namespace Reader

/-- `read_exact`: the next `n` bytes. -/
def exact (n : ℕ) (eof : ε) : Reader ε (List (BitVec 8)) := fun bs =>
  if n ≤ bs.length then .ok (bs.take n, bs.drop n) else .error eof

/-- Go on only if `p`. -/
def require (p : Prop) [Decidable p] (e : ε) : Reader ε Unit := fun bs => if p then .ok ((), bs) else .error e

/-- Go on only at the end. -/
def atEnd (e : ε) : Reader ε Unit := fun bs => if bs = [] then .ok ((), bs) else .error e

/-- Read `n` values one after the other. -/
def many (x : Reader ε α) : ℕ → Reader ε (List α)
  | 0 => pure []
  | n + 1 => do
    let a ← x
    let as ← many x n
    pure (a :: as)

theorem bind_eq_ok : (x >>= f).run bs = .ok (b, rest) ↔
    ∃ a mid, x.run bs = .ok (a, mid) ∧ (f a).run mid = .ok (b, rest) := by
  rw [StateT.run_bind]
  cases x.run bs with
  | error e => exact ⟨nofun, by rintro ⟨_, _, h, _⟩; cases h⟩
  | ok r => exact ⟨fun h => ⟨r.1, r.2, rfl, h⟩, by rintro ⟨_, _, h, h'⟩; cases h; exact h'⟩

theorem pure_eq_ok {a a' : α} : (pure a : Reader ε α).run bs = .ok (a', rest) ↔ a = a' ∧ bs = rest := by
  show Except.ok (a, bs) = .ok (a', rest) ↔ _
  simp

theorem require_bind {p : Prop} [Decidable p] {e : ε} {y : Reader ε β} :
    (require p e >>= fun _ => y).run bs = .ok (b, rest) ↔ p ∧ y.run bs = .ok (b, rest) := by
  rw [bind_eq_ok]
  by_cases hp : p <;> simp [require, StateT.run, hp]

theorem atEnd_bind {e : ε} {y : Reader ε β} :
    (atEnd e >>= fun _ => y).run bs = .ok (b, rest) ↔ bs = [] ∧ y.run [] = .ok (b, rest) := by
  rw [bind_eq_ok]
  by_cases hbs : bs = [] <;> simp [atEnd, StateT.run, hbs]

end Reader

open Reader

/-- The reader accepts the encodings of the values with `P`. -/
def Decodes (x : Reader ε α) (P : α → Prop) (encode : α → List (BitVec 8)) : Prop :=
  ∀ bs a rest, x.run bs = .ok (a, rest) ↔ P a ∧ bs = encode a ++ rest

theorem decodes_exact (n : ℕ) (eof : ε) : Decodes (Reader.exact n eof) (·.length = n) id := by
  intro bs a rest
  simp only [Reader.exact, StateT.run, id]
  split
  case isTrue hle =>
    simp only [Except.ok.injEq, Prod.mk.injEq]
    constructor
    · rintro ⟨rfl, rfl⟩
      simp [hle]
    · rintro ⟨rfl, rfl⟩
      simp
  case isFalse hlt =>
    simp only [reduceCtorEq, false_iff]
    rintro ⟨rfl, rfl⟩
    simp at hlt

namespace Decodes

variable (h : Decodes x P encode)

include h

theorem bind_eq_ok : (x >>= f).run bs = .ok (b, rest) ↔
    ∃ a mid, P a ∧ bs = encode a ++ mid ∧ (f a).run mid = .ok (b, rest) := by
  rw [Reader.bind_eq_ok]
  refine exists_congr fun a => exists_congr fun mid => ?_
  rw [h bs a mid, and_assoc]

/-- Reading in other terms, with `g` back to the old ones. -/
theorem map {f : α → β} {g : β → α} {Q : β → Prop} (hinv : ∀ a, P a → g (f a) = a)
    (hQ : ∀ b, Q b ↔ P (g b) ∧ f (g b) = b) : Decodes (x >>= fun a => pure (f a)) Q fun b => encode (g b) := by
  intro bs b rest
  rw [h.bind_eq_ok, hQ]
  constructor
  · rintro ⟨a, _, ha, rfl, heq⟩
    obtain ⟨rfl, rfl⟩ := pure_eq_ok.mp heq
    simp [hinv a ha, ha]
  · rintro ⟨⟨hP, hb⟩, rfl⟩
    exact ⟨g b, rest, hP, rfl, pure_eq_ok.mpr ⟨hb, rfl⟩⟩

theorem many (n : ℕ) :
    Decodes (Reader.many x n) (fun as => as.length = n ∧ ∀ a ∈ as, P a) fun as => as.flatMap encode := by
  induction n with
  | zero =>
    intro bs as rest
    rw [Reader.many, pure_eq_ok]
    cases as <;> simp [eq_comm]
  | succ n ih =>
    intro bs as rest
    rw [Reader.many, h.bind_eq_ok]
    simp only [ih.bind_eq_ok, pure_eq_ok]
    constructor
    · rintro ⟨a, _, ha, rfl, as, _, ⟨hlen, has⟩, rfl, rfl, rfl⟩
      simpa [ha, hlen] using has
    · rintro ⟨⟨hlen, hall⟩, rfl⟩
      obtain ⟨a, as, rfl⟩ := exists_cons_of_length_eq_add_one hlen
      obtain ⟨ha, has⟩ := forall_mem_cons.mp hall
      exact ⟨a, _, ha, append_assoc .., as, _, ⟨succ.inj hlen, has⟩, rfl, rfl, rfl⟩

end Decodes

/-! ### Little-endian numbers -/

/-- A number of `n` bytes. -/
def Reader.nat (n : ℕ) (eof : ε) : Reader ε ℕ := do
  let bytes ← Reader.exact n eof
  pure (fromLe bytes)

theorem decodes_nat (n : ℕ) (eof : ε) : Decodes (Reader.nat n eof) (· < 256 ^ n) (toLe n) := by
  refine (decodes_exact n eof).map (fun bs hbs => hbs ▸ toLe_fromLe bs) fun x => ?_
  rw [fromLe_toLe, length_toLe, mod_eq_iff_lt (by positivity)]
  simp

/-- A word of `w` bits. -/
def Reader.bits (w : ℕ) (eof : ε) : Reader ε (BitVec w) := do
  let bytes ← Reader.exact (w / 8) eof
  pure (word w bytes)

theorem decodes_bits {w : ℕ} (hw : 8 ∣ w) (eof : ε) : Decodes (Reader.bits w eof) (fun _ => True) bytes :=
  (decodes_exact (w / 8) eof).map (g := bytes) (fun _ hbs => bytes_word hw hbs) fun x => by
    simpa using word_bytes hw x

end OnnxGenai.Lib
