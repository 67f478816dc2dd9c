import OnnxGenai.Lib.RowMajor

/-!
# Little-endian bytes

A number in `n` bytes, the least significant first. Encoding and decoding are inverse; a
list of bytes is a list of words of `n` bytes each.
-/

namespace OnnxGenai.Lib.LittleEndian

open Lib.RowMajor Nat

/-- The `n` lowest bytes of a number. -/
def toLe : ℕ → ℕ → List (BitVec 8)
  | 0, _ => []
  | n + 1, x => BitVec.ofNat 8 x :: toLe n (x / 256)

/-- The number that bytes stand for. -/
def fromLe : List (BitVec 8) → ℕ
  | [] => 0
  | b :: bs => b.toNat + 256 * fromLe bs

@[simp] theorem length_toLe (n x : ℕ) : (toLe n x).length = n := by
  induction n generalizing x with
  | zero => rfl
  | succ n ih => rw [toLe, List.length_cons, ih]

theorem fromLe_toLe (n x : ℕ) : fromLe (toLe n x) = x % 256 ^ n := by
  induction n generalizing x with
  | zero => rw [toLe, fromLe, pow_zero, mod_one]
  | succ n ih =>
    have hsplit : x % 256 ^ (n + 1) = x % 256 + 256 * (x / 256 % 256 ^ n) := by
      rw [pow_succ, mul_comm, mod_mul]
    rw [toLe, fromLe, ih, BitVec.toNat_ofNat, hsplit]

theorem toLe_fromLe (bs : List (BitVec 8)) : toLe bs.length (fromLe bs) = bs := by
  induction bs with
  | nil => rfl
  | cons b bs ih =>
    rw [List.length_cons, toLe, fromLe]
    congr 1
    · apply BitVec.eq_of_toNat_eq
      rw [BitVec.toNat_ofNat]
      omega
    · rw [show (b.toNat + 256 * fromLe bs) / 256 = fromLe bs by omega, ih]

/-! ### Words -/

/-- The bytes of a word. -/
def bytes {w : ℕ} (x : BitVec w) : List (BitVec 8) := toLe (w / 8) x.toNat

/-- The word that bytes stand for. -/
def word (w : ℕ) (bs : List (BitVec 8)) : BitVec w := BitVec.ofNat w (fromLe bs)

@[simp] theorem length_bytes {w : ℕ} (x : BitVec w) : (bytes x).length = w / 8 := length_toLe _ _

theorem word_bytes {w : ℕ} (h : 8 ∣ w) (x : BitVec w) : word w (bytes x) = x := by
  apply BitVec.eq_of_toNat_eq
  rw [word, bytes, fromLe_toLe, BitVec.toNat_ofNat, show (256 : ℕ) = 2 ^ 8 from rfl, ← pow_mul, Nat.mul_div_cancel' h,
    mod_mod, mod_eq_of_lt x.isLt]

theorem fromLe_lt (bs : List (BitVec 8)) : fromLe bs < 256 ^ bs.length := by
  induction bs with
  | nil => exact one_pos
  | cons b bs ih =>
    rw [fromLe, List.length_cons, pow_succ]
    omega

theorem bytes_word {w : ℕ} (h : 8 ∣ w) {bs : List (BitVec 8)} (hl : bs.length = w / 8) : bytes (word w bs) = bs := by
  have hlt : fromLe bs < 2 ^ w := by
    have := fromLe_lt bs
    rwa [hl, show (256 : ℕ) = 2 ^ 8 from rfl, ← pow_mul, Nat.mul_div_cancel' h] at this
  rw [bytes, word, BitVec.toNat_ofNat, mod_eq_of_lt hlt, ← hl, toLe_fromLe]

/-- The words of a list of bytes. -/
def words (w : ℕ) (bs : List (BitVec 8)) : List (BitVec w) :=
  (List.range (bs.length / (w / 8))).map fun i => word w (chunk bs (w / 8) i)

end OnnxGenai.Lib.LittleEndian
