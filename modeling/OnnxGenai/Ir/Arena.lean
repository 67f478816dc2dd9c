import Mathlib

/-!
# The slot arena

`Arena` (`arena.rs`): a vector of slots with a stack of vacant ones. Removing an entry
leaves its slot vacant, and the next insertion takes the slot over, so ids are recycled.
They are not generational: a stale id denotes whatever occupies its slot.

A key is a `u32`. The key of a new slot is the number of slots cast to `u32`, so from
`2 ^ 32` slots on an insertion overwrites an occupied one (`Room` excludes it).

The source counts the live entries in a field; here the count is computed (`len`).
-/

namespace OnnxGenai.Ir

open List

/-- The number of values of a `u32`. -/
def u32Size : ℕ := 2 ^ 32

/-- A slot map. The vacant slots are on the stack `free`, each once. -/
structure Arena (T : Type) where
  slots : List (Option T)
  free : List ℕ
  vacant : ∀ i ∈ free, slots[i]? = some none
  nodup : free.Nodup

namespace Arena

variable {T : Type}

/-- An empty arena. -/
def new : Arena T := ⟨[], [], fun _ h => (List.not_mem_nil h).elim, List.nodup_nil⟩

/-- The entry for a key, if live. -/
def get (a : Arena T) (key : ℕ) : Option T := a.slots[key]?.join

/-- Whether a key refers to a live entry. -/
def contains (a : Arena T) (key : ℕ) : Bool := (a.get key).isSome

/-- The number of allocated slots, including vacant ones. -/
def capacity (a : Arena T) : ℕ := a.slots.length

/-- The keys of the live entries, ascending. -/
def keys (a : Arena T) : List ℕ := (List.range a.slots.length).filter a.contains

/-- The live entries with their keys, ascending. -/
def iter (a : Arena T) : List (ℕ × T) := a.keys.filterMap fun key => (a.get key).map (key, ·)

/-- The number of live entries. -/
def len (a : Arena T) : ℕ := a.keys.length

/-- Insert an entry that may depend on its key; a vacant slot is taken first. -/
def insertWith (a : Arena T) (make : ℕ → T) : ℕ × Arena T :=
  match a with
  | ⟨slots, idx :: free, vacant, nodup⟩ =>
    (idx, {
      slots := slots.set idx (some (make idx))
      free := free
      vacant := fun i hi => by
        have hne : idx ≠ i := fun h => (List.nodup_cons.mp nodup).1 (h ▸ hi)
        rw [List.getElem?_set_ne hne]
        exact vacant i (List.mem_cons_of_mem _ hi)
      nodup := (List.nodup_cons.mp nodup).2 })
  | ⟨slots, [], _, _⟩ =>
    let idx := slots.length % u32Size
    (idx, {
      slots := (slots ++ [none]).set idx (some (make idx))
      free := []
      vacant := fun _ h => (List.not_mem_nil h).elim
      nodup := List.nodup_nil })

/-- Remove an entry, if live, and recycle its slot. -/
def remove (a : Arena T) (key : ℕ) : Arena T :=
  match h : a.slots[key]? with
  | some (some _) => {
      slots := a.slots.set key none
      free := key :: a.free
      vacant := fun i hi => by
        have hlt := (List.getElem?_eq_some_iff.mp h).1
        rcases List.mem_cons.mp hi with rfl | hi
        · exact List.getElem?_set_self hlt
        · have hne : key ≠ i := by
            rintro rfl
            rw [a.vacant _ hi] at h
            cases h
          rw [List.getElem?_set_ne hne]
          exact a.vacant i hi
      nodup := by
        refine List.nodup_cons.mpr ⟨fun hi => ?_, a.nodup⟩
        rw [a.vacant _ hi] at h
        cases h }
  | _ => a

/-- Update an entry in place, if live. -/
def modify (a : Arena T) (key : ℕ) (f : T → T) : Arena T :=
  { a with
    slots := a.slots.modify key (Option.map f)
    vacant := fun i hi => by
      rw [List.getElem?_modify, a.vacant i hi]
      simp }

/-- The next insertion gets a key of its own. -/
def Room (a : Arena T) : Prop := a.free ≠ [] ∨ a.slots.length < u32Size

instance (a : Arena T) : Decidable a.Room := inferInstanceAs (Decidable (_ ∨ _))

/-! ### Lookups -/

theorem get_of_vacant {a : Arena T} {key : ℕ} (h : a.slots[key]? = some none) : a.get key = none := by
  unfold get
  rw [h]
  rfl

/-- The key of an insertion was not live. -/
theorem get_insertWith_key {a : Arena T} (h : a.Room) (make : ℕ → T) : a.get (a.insertWith make).1 = none := by
  obtain ⟨slots, free, vacant, nodup⟩ := a
  cases free with
  | cons idx free => exact get_of_vacant (vacant idx (mem_cons_self ..))
  | nil =>
    have hlt : slots.length < u32Size := h.resolve_left fun hne => hne rfl
    show (slots[slots.length % u32Size]?).join = none
    rw [Nat.mod_eq_of_lt hlt, getElem?_eq_none le_rfl]
    rfl

/-- An insertion changes the entry of its key. -/
theorem get_insertWith {a : Arena T} (h : a.Room) (make : ℕ → T) (key : ℕ) :
    (a.insertWith make).2.get key = if key = (a.insertWith make).1 then some (make key) else a.get key := by
  obtain ⟨slots, free, vacant, nodup⟩ := a
  cases free with
  | cons idx free =>
    show ((slots.set idx (some (make idx)))[key]?).join = if key = idx then _ else (slots[key]?).join
    split_ifs with hk
    · subst hk
      rw [List.getElem?_set_self (List.getElem?_eq_some_iff.mp (vacant key (List.mem_cons_self ..))).1]
      rfl
    · rw [getElem?_set_ne (Ne.symm hk)]
  | nil =>
    have hlt : slots.length < u32Size := h.resolve_left fun hne => hne rfl
    show (((slots ++ [none]).set (slots.length % u32Size) (some (make (slots.length % u32Size))))[key]?).join =
      if key = slots.length % u32Size then _ else (slots[key]?).join
    rw [Nat.mod_eq_of_lt hlt]
    split_ifs with hk
    · subst hk
      rw [getElem?_set_self (by rw [length_append]; exact Nat.lt_succ_self _)]
      rfl
    · rw [getElem?_set_ne (Ne.symm hk)]
      rcases Nat.lt_or_ge key slots.length with hlt' | hge
      · rw [getElem?_append_left hlt']
      · rw [getElem?_eq_none (by rw [length_append, length_singleton]; omega),
          getElem?_eq_none hge]

theorem get_remove (a : Arena T) (key j : ℕ) : (a.remove key).get j = if j = key then none else a.get j := by
  unfold remove
  split
  · next h =>
    unfold get
    split_ifs with hj
    · subst hj
      rw [List.getElem?_set_self (List.getElem?_eq_some_iff.mp h).1]
      rfl
    · rw [getElem?_set_ne (Ne.symm hj)]
  · next h =>
    split_ifs with hj
    · subst hj
      unfold get
      cases hs : a.slots[j]? with
      | none => rfl
      | some o =>
        cases o with
        | none => rfl
        | some x => exact absurd hs (h x)
    · rfl

theorem get_modify (a : Arena T) (key : ℕ) (f : T → T) (j : ℕ) :
    (a.modify key f).get j = if j = key then (a.get key).map f else a.get j := by
  unfold get modify
  simp only [getElem?_modify]
  split_ifs with hj hj' hj'
  · subst hj
    cases a.slots[key]? with
    | none => rfl
    | some o => cases o <;> rfl
  · exact absurd hj.symm hj'
  · exact absurd hj'.symm hj
  · cases a.slots[j]? with
    | none => rfl
    | some o => cases o <;> rfl

@[simp] theorem room_modify (a : Arena T) (key : ℕ) (f : T → T) : (a.modify key f).Room ↔ a.Room := by
  unfold Room modify
  simp only [length_modify]

theorem contains_iff {a : Arena T} {key : ℕ} : a.contains key = true ↔ ∃ x, a.get key = some x :=
  Option.isSome_iff_exists

end Arena

end OnnxGenai.Ir
