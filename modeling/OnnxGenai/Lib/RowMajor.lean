import Mathlib

/-!
# Row-major layout

An array with dimensions `dims` stored as a list, the last index running fastest. `flat`
is the position of an index, `unflat` the index at a position; they are inverse within
bounds. A record of `size` cells at position `i` of a list is `chunk l size i`, and a list
is given by its records (`ext_chunks`). A buffer that is written from front to back agrees
with the list it is to hold up to the next position (`Filled`).
-/

namespace OnnxGenai.Lib.RowMajor

open Nat

open List

/-- An index within the dimensions. -/
def InBounds (dims idx : List ℕ) : Prop := List.Forall₂ (· < ·) idx dims

/-- The position of an index. -/
def flat : List ℕ → List ℕ → ℕ
  | _ :: ds, i :: is => i * ds.prod + flat ds is
  | _, _ => 0

/-- The index at a position. -/
def unflat : List ℕ → ℕ → List ℕ
  | [], _ => []
  | _ :: ds, o => o / ds.prod :: unflat ds (o % ds.prod)

/-- The weight of each index: the product of the dimensions after it. -/
def weights : List ℕ → List ℕ
  | [] => []
  | _ :: ds => ds.prod :: weights ds

theorem InBounds.length {dims idx : List ℕ} (h : InBounds dims idx) : idx.length = dims.length :=
  List.Forall₂.length_eq h

@[simp] theorem length_weights (dims : List ℕ) : (weights dims).length = dims.length := by
  induction dims with
  | nil => rfl
  | cons d ds ih => rw [weights, length_cons, length_cons, ih]

@[simp] theorem length_unflat (dims : List ℕ) (o : ℕ) : (unflat dims o).length = dims.length := by
  induction dims generalizing o with
  | nil => rfl
  | cons d ds ih => rw [unflat, length_cons, length_cons, ih]

theorem inBounds_unflat {dims : List ℕ} {o : ℕ} (h : o < dims.prod) : InBounds dims (unflat dims o) := by
  induction dims generalizing o with
  | nil => exact List.Forall₂.nil
  | cons d ds ih =>
    rw [prod_cons] at h
    have hpos : 0 < ds.prod := pos_of_ne_zero fun hz => by rw [hz, mul_zero] at h; omega
    exact List.Forall₂.cons (Nat.div_lt_of_lt_mul (by rwa [Nat.mul_comm])) (ih (Nat.mod_lt _ hpos))

theorem flat_unflat {dims : List ℕ} {o : ℕ} (h : o < dims.prod) : flat dims (unflat dims o) = o := by
  induction dims generalizing o with
  | nil =>
    exact (lt_one_iff.mp h).symm
  | cons d ds ih =>
    rw [prod_cons] at h
    have hpos : 0 < ds.prod := pos_of_ne_zero fun hz => by rw [hz, mul_zero] at h; omega
    rw [unflat, flat, ih (mod_lt _ hpos), div_add_mod']

theorem flat_append {P Q pre post : List ℕ} (h : pre.length = P.length) :
    flat (P ++ Q) (pre ++ post) = flat P pre * Q.prod + flat Q post := by
  induction P generalizing pre with
  | nil =>
    rw [length_eq_zero_iff.mp h]
    simp [flat]
  | cons d P ih =>
    obtain ⟨i, pre, rfl⟩ := exists_cons_of_length_eq_add_one h
    simp only [cons_append, flat, ih (succ.inj h), prod_append]
    ring

variable {α : Type}

/-- The record of `size` cells at position `i`. -/
def chunk (l : List α) (size i : ℕ) : List α := (l.drop (i * size)).take size

/-- A record of a run of records. -/
theorem chunk_slice (l : List α) {size q n i : ℕ} (hi : i < n) :
    chunk ((l.drop (q * size)).take (n * size)) size i = chunk l size (q + i) := by
  have : i * size + size ≤ n * size := by rw [← succ_mul]; exact mul_le_mul_right _ hi
  rw [chunk, chunk, drop_take, drop_drop, take_take, add_mul, min_eq_left (by omega)]

theorem ext_chunks {l l' : List α} (size n : ℕ) (hl : l.length = n * size) (hl' : l'.length = n * size)
    (h : ∀ i < n, chunk l size i = chunk l' size i) : l = l' := by
  refine ext_getElem? fun k => ?_
  by_cases hk : k < n * size
  · have hsize : 0 < size := pos_of_ne_zero fun h0 => by rw [h0, mul_zero] at hk; omega
    have := congrArg (·[k % size]?) (h (k / size) (Nat.div_lt_of_lt_mul (by rwa [Nat.mul_comm])))
    simpa only [chunk, getElem?_take_of_lt (mod_lt k hsize), getElem?_drop, div_add_mod'] using this
  · rw [List.getElem?_eq_none (by omega), List.getElem?_eq_none (by omega)]

/-- A list put together from records of the same size. -/
theorem chunk_flatten {ls : List (List α)} {size : ℕ} (h : ∀ l ∈ ls, l.length = size) {i : ℕ} (hi : i < ls.length) :
    chunk ls.flatten size i = ls[i] := by
  induction ls generalizing i with
  | nil => cases hi
  | cons l ls ih =>
    have hl : l.length = size := h l mem_cons_self
    cases i with
    | zero =>
      rw [chunk, zero_mul, drop_zero, flatten_cons, take_left' hl]
      rfl
    | succ i =>
      have := ih (fun x hx => h x (mem_cons_of_mem l hx)) (lt_of_succ_lt_succ hi)
      rw [chunk] at this
      rw [chunk, flatten_cons, add_mul, one_mul, add_comm, ← drop_drop, drop_left' hl, this]
      rfl

theorem length_flatten_of_forall {ls : List (List α)} {size : ℕ} (h : ∀ l ∈ ls, l.length = size) :
    ls.flatten.length = ls.length * size := by
  induction ls with
  | nil => rw [flatten_nil, length_nil, length_nil, zero_mul]
  | cons l ls ih =>
    rw [flatten_cons, length_append, h l mem_cons_self, ih fun x hx => h x (mem_cons_of_mem l hx),
      length_cons, add_mul, one_mul, add_comm]

/-! ### Copying into a buffer -/

/-- Overwrite the cells from `dst` on with `src`, if they are within the buffer. -/
def copyAt (out : List α) (dst : ℕ) (src : List α) : Option (List α) :=
  if dst + src.length ≤ out.length then some (out.take dst ++ src ++ out.drop (dst + src.length)) else none

/-- A buffer of the right length that agrees with the list to be built up to a position. -/
def Filled (target : List α) (pos : ℕ) (out : List α) : Prop :=
  out.length = target.length ∧ out.take pos = target.take pos

section Filled

variable {target out out' src : List α} {pos : ℕ}

theorem length_copyAt (h : copyAt out pos src = some out') : out'.length = out.length := by
  unfold copyAt at h
  split_ifs at h with hle
  cases h
  simp only [length_append, length_take, length_drop]
  omega

/-- Copying what comes next. -/
theorem Filled.copyAt (h : Filled target pos out) (hc : copyAt out pos src = some out')
    (hsrc : pos + src.length ≤ target.length → src = (target.drop pos).take src.length) :
    Filled target (pos + src.length) out' := by
  obtain ⟨hl, htake⟩ := h
  refine ⟨(length_copyAt hc).trans hl, ?_⟩
  unfold RowMajor.copyAt at hc
  split_ifs at hc with hle
  rw [← Option.some.inj hc, htake, take_left' (by simp only [length_append, length_take]; omega), take_add,
    ← hsrc (hl ▸ hle)]

theorem Filled.eq (h : Filled target target.length out) : out = target := by
  obtain ⟨hl, htake⟩ := h
  rwa [← hl, take_length, hl, take_length] at htake

end Filled

end OnnxGenai.Lib.RowMajor
