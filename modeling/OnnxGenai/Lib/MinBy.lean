import Mathlib

/-!
# The first least element of a list

`minBy` is `Iterator::min_by`: the first of the least elements under a comparison. When the
comparison agrees with a key in a linear order, no element of the list has a smaller key.
-/

namespace OnnxGenai.Lib

open List

universe u v

variable {α : Type u} {κ : Type v}

/-- The first least element under `cmp`. -/
def minBy (cmp : α → α → Ordering) : List α → Option α
  | [] => none
  | x :: xs => some (xs.foldl (fun best y => if cmp best y = .gt then y else best) x)

@[simp] theorem minBy_eq_none {cmp : α → α → Ordering} {l : List α} : minBy cmp l = none ↔ l = [] := by
  cases l <;> simp [minBy]

theorem foldl_minBy_mem (cmp : α → α → Ordering) (l : List α) (x : α) :
    l.foldl (fun best y => if cmp best y = .gt then y else best) x ∈ x :: l := by
  induction l generalizing x with
  | nil => exact mem_cons_self
  | cons y l ih =>
    rw [foldl_cons]
    split
    · exact mem_cons_of_mem x (ih y)
    · rcases mem_cons.mp (ih x) with h | h
      · exact mem_cons.mpr (.inl h)
      · exact mem_cons.mpr (.inr (mem_cons_of_mem y h))

theorem minBy_mem {cmp : α → α → Ordering} {l : List α} {m : α} (h : minBy cmp l = some m) : m ∈ l := by
  cases l with
  | nil => cases h
  | cons x xs =>
    cases h
    exact foldl_minBy_mem cmp xs x

section Key

variable [LinearOrder κ] {cmp : α → α → Ordering} {key : α → κ}

theorem foldl_minBy_le (hcmp : ∀ x y, cmp x y = .gt ↔ key y < key x) (l : List α) (x : α) :
    ∀ y ∈ x :: l, key (l.foldl (fun best y => if cmp best y = .gt then y else best) x) ≤ key y := by
  induction l generalizing x with
  | nil =>
    intro y hy
    rw [mem_singleton.mp hy]
    exact le_rfl
  | cons z l ih =>
    intro y hy
    rw [foldl_cons]
    split
    case isTrue hgt =>
      have hzx : key z < key x := (hcmp x z).mp hgt
      rcases mem_cons.mp hy with rfl | hy
      · exact (ih z z mem_cons_self).trans hzx.le
      · exact ih z y hy
    case isFalse hle =>
      have hxz : key x ≤ key z := not_lt.mp fun hlt => hle ((hcmp x z).mpr hlt)
      rcases mem_cons.mp hy with rfl | hy
      · exact ih y y mem_cons_self
      · rcases mem_cons.mp hy with rfl | hy
        · exact (ih x x mem_cons_self).trans hxz
        · exact ih x y (mem_cons_of_mem x hy)

/-- Nothing in the list has a smaller key. -/
theorem minBy_le (key : α → κ) (hcmp : ∀ x y, cmp x y = .gt ↔ key y < key x) {l : List α} {m : α} (h : minBy cmp l = some m) :
    ∀ y ∈ l, key m ≤ key y := by
  cases l with
  | nil => cases h
  | cons x xs =>
    cases h
    exact foldl_minBy_le hcmp xs x

end Key

/-! ### Positions -/

/-- A minimum with its position. -/
theorem minBy_zipIdx_le [LinearOrder κ] {cmp : α × ℕ → α × ℕ → Ordering} (key : α → κ)
    (hcmp : ∀ x y, cmp x y = .gt ↔ key y.1 < key x.1) {l : List α} {m : α × ℕ} (h : minBy cmp l.zipIdx = some m) :
    ∀ x ∈ l, key m.1 ≤ key x := by
  intro x hx
  obtain ⟨i, hi⟩ := mem_iff_getElem?.mp hx
  exact minBy_le (fun p : α × ℕ => key p.1) hcmp h (x, i) (mem_zipIdx_iff_getElem?.mpr hi)

/-- Taking an element out of a list. -/
theorem perm_eraseIdx {l : List α} {i : ℕ} {x : α} (h : l[i]? = some x) : l.Perm (x :: l.eraseIdx i) := by
  obtain ⟨hi, rfl⟩ := List.getElem?_eq_some_iff.mp h
  exact (getElem_cons_eraseIdx_perm hi).symm

end OnnxGenai.Lib
