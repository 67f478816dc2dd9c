import Mathlib

/-!
# Finite maps

A hash map is modelled by Mathlib's `AList`: a list of key-value pairs whose keys
are distinct. The order of the pairs stands for the unspecified order of
iteration. What is added here is the update in place of one entry, `adjust`, with
the lemmas that say what a lookup finds after each kind of update.
-/

namespace OnnxGenai.Lib

open List

universe u v

variable {K : Type u} {V : Type v} [DecidableEq K]

/-- A finite map with keys `K` and values `V`. -/
abbrev FiniteMap (K : Type u) (V : Type v) : Type (max u v) := AList (fun _ : K => V)

namespace FiniteMap

section
variable (m : FiniteMap K V)

/-- Update the entry of `k`, if there is one. -/
def adjust (k : K) (f : V → V) : FiniteMap K V :=
  match m.lookup k with
  | some v => m.insert k (f v)
  | none => m

/-- What a lookup finds after an insertion, for any key. -/
theorem lookup_insert' (k j : K) (v : V) :
    (m.insert k v).lookup j = if j = k then some v else m.lookup j := by
  by_cases h : j = k
  · subst h
    rw [if_pos rfl, AList.lookup_insert]
  · rw [if_neg h, AList.lookup_insert_ne h]

/-- What a lookup finds after a removal, for any key. -/
theorem lookup_erase' (k j : K) :
    (m.erase k).lookup j = if j = k then none else m.lookup j := by
  by_cases h : j = k
  · subst h
    rw [if_pos rfl, AList.lookup_erase]
  · rw [if_neg h, AList.lookup_erase_ne h]

/-- What a lookup finds after an update in place, for any key. -/
theorem lookup_adjust (k j : K) (f : V → V) :
    (adjust m k f).lookup j = if j = k then (m.lookup k).map f else m.lookup j := by
  unfold adjust
  cases hk : m.lookup k with
  | none =>
    by_cases h : j = k
    · subst h
      simp [hk]
    · simp [h]
  | some v =>
    rw [lookup_insert']
    rfl

@[simp] theorem lookup_adjust_self (k : K) (f : V → V) :
    (adjust m k f).lookup k = (m.lookup k).map f := by
  rw [lookup_adjust, if_pos rfl]

end

variable {k : K} {m : FiniteMap K V} {v : V} {P : V → Prop}

theorem lookup_adjust_ne (m : FiniteMap K V) {j : K} (f : V → V) (h : j ≠ k) :
    (adjust m k f).lookup j = m.lookup j := by
  rw [lookup_adjust, if_neg h]

/-- A pair of the list is what the lookup of its key finds. -/
theorem lookup_of_mem_entries {e : Sigma fun _ : K => V} (h : e ∈ m.entries) : m.lookup e.1 = some e.2 :=
  AList.mem_lookup_iff.mpr h

/-- An empty map. -/
theorem lookup_of_entries_nil (h : m.entries = []) (k : K) : m.lookup k = none := by
  unfold AList.lookup
  rw [h]
  rfl

/-! ### Updating every value -/

omit [DecidableEq K] in
theorem nodupKeys_map (l : List (Sigma fun _ : K => V)) (f : K → V → V) (h : l.NodupKeys) :
    (l.map fun e => (⟨e.1, f e.1 e.2⟩ : Sigma fun _ : K => V)).NodupKeys := by
  have hkeys : (l.map fun e => (⟨e.1, f e.1 e.2⟩ : Sigma fun _ : K => V)).keys = l.keys := by
    simp [keys, Function.comp_def]
  unfold List.NodupKeys
  rw [hkeys]
  exact h

section
variable (m : FiniteMap K V)

/-- Update every value, by its key. -/
def mapEntries (f : K → V → V) : FiniteMap K V :=
  ⟨m.entries.map fun e => ⟨e.1, f e.1 e.2⟩, nodupKeys_map m.entries f m.nodupKeys⟩

/-- Update every value. -/
def mapValues (f : V → V) : FiniteMap K V := mapEntries m fun _ => f

theorem lookup_mapEntries (f : K → V → V) (k : K) :
    (mapEntries m f).lookup k = (m.lookup k).map (f k) := by
  show dlookup k (m.entries.map fun e => (⟨e.1, f e.1 e.2⟩ : Sigma fun _ : K => V)) =
    Option.map (f k) (dlookup k m.entries : Option V)
  induction m.entries with
  | nil => rfl
  | cons e es ih =>
    obtain ⟨j, v⟩ := e
    by_cases hj : k = j
    · subst hj
      simp
    · have hs : k ≠ (⟨j, v⟩ : Sigma fun _ : K => V).1 := hj
      have hs' : k ≠ (⟨j, f j v⟩ : Sigma fun _ : K => V).1 := hj
      rw [map_cons, dlookup_cons_ne _ _ hs', dlookup_cons_ne _ _ hs, ih]

theorem lookup_mapValues (f : V → V) (k : K) :
    (mapValues m f).lookup k = (m.lookup k).map f := lookup_mapEntries m _ k

/-! ### Sums over the values -/

/-- The sum of a weight over the values of a map. -/
def total (w : V → ℕ) : ℕ := (m.entries.map fun e => w e.2).sum

omit [DecidableEq K] in
theorem total_mono {w w' : V → ℕ} (h : ∀ v, w v ≤ w' v) : total m w ≤ total m w' := by
  unfold total
  induction m.entries with
  | nil => exact le_rfl
  | cons e es ih => exact Nat.add_le_add (h e.2) ih

theorem sum_kerase (w : V → ℕ) (k : K) : ∀ l : List (Sigma fun _ : K => V), l.NodupKeys →
    ((l.kerase k).map fun e => w e.2).sum + ((l.dlookup k).map w).getD 0 = (l.map fun e => w e.2).sum
  | [], _ => rfl
  | ⟨j, v⟩ :: l, h => by
    have hl := (nodupKeys_cons.mp h).2
    by_cases hj : k = j
    · subst hj
      simp [kerase_cons_eq, dlookup_cons_eq, Nat.add_comm]
    · have hs : k ≠ (⟨j, v⟩ : Sigma fun _ : K => V).1 := hj
      rw [kerase_cons_ne hs, dlookup_cons_ne _ (⟨j, v⟩ : Sigma fun _ : K => V) hs]
      have := sum_kerase w k l hl
      simp only [map_cons, sum_cons]
      omega

/-- Removing an entry takes its weight out of the sum. -/
theorem total_erase (w : V → ℕ) (k : K) :
    total (m.erase k) w + ((m.lookup k).map w).getD 0 = total m w :=
  sum_kerase w k m.entries m.nodupKeys

/-- Inserting an entry replaces the weight of the one it overwrites. -/
theorem total_insert (w : V → ℕ) (k : K) (v : V) :
    total (m.insert k v) w + ((m.lookup k).map w).getD 0 = total m w + w v := by
  have h := total_erase m w k
  have he : total (m.insert k v) w = w v + total (m.erase k) w := by
    simp [total, AList.entries_insert, AList.erase]
  omega

/-- Updating an entry in place replaces its weight. -/
theorem total_adjust (w : V → ℕ) (f : V → V) (h : m.lookup k = some v) :
    total (adjust m k f) w + w v = total m w + w (f v) := by
  have := total_insert m w k (f v)
  simpa [adjust, h] using this

/-- An update that keeps every weight keeps the sum. -/
theorem total_adjust_of_eq (w : V → ℕ) (k : K) (f : V → V)
    (h : ∀ v, w (f v) = w v) : total (adjust m k f) w = total m w := by
  cases hk : m.lookup k with
  | none => simp [adjust, hk]
  | some v =>
    have := total_adjust m w f hk
    rw [h] at this
    omega

omit [DecidableEq K] in
/-- An update of every value that keeps its weight keeps the sum. -/
theorem total_mapEntries (w : V → ℕ) (f : K → V → V) (h : ∀ k v, w (f k v) = w v) :
    total (mapEntries m f) w = total m w := by
  simp only [total, mapEntries, map_map, Function.comp_def, h]

omit [DecidableEq K] in
theorem total_add (w w' : V → ℕ) : total m (fun v => w v + w' v) = total m w + total m w' := by
  simp [total, sum_map_add]

omit [DecidableEq K] in
/-- The number of entries is the sum of ones. -/
theorem length_entries : m.entries.length = total m fun _ => 1 := by
  simp [total]

theorem length_insert_new (v : V) (h : m.lookup k = none) :
    (m.insert k v).entries.length = m.entries.length + 1 := by
  have := total_insert m (fun _ => 1) k v
  rw [h] at this
  rw [length_entries, length_entries]
  exact this

theorem length_insert_some (u : V) (h : m.lookup k = some v) :
    (m.insert k u).entries.length = m.entries.length := by
  have := total_insert m (fun _ => 1) k u
  rw [h] at this
  rw [length_entries, length_entries]
  simpa using this

theorem length_insert_le (k : K) (u : V) :
    (m.insert k u).entries.length ≤ m.entries.length + 1 := by
  cases h : m.lookup k with
  | none => exact (length_insert_new m u h).le
  | some v => exact (length_insert_some m u h).le.trans (Nat.le_succ _)

/-- A map with no other keys is no larger. -/
theorem length_le_of_keys {m m' : FiniteMap K V} (h : ∀ k v, m'.lookup k = some v → (m.lookup k).isSome = true) :
    m'.entries.length ≤ m.entries.length := by
  have hsub : m'.keys ⊆ m.keys := fun k hk => by
    obtain ⟨v, hv⟩ := Option.isSome_iff_exists.mp (AList.lookup_isSome.mpr hk)
    exact AList.lookup_isSome.mp (h k v hv)
  simpa [AList.keys, keys] using (m'.nodupKeys.subperm hsub).length_le

theorem length_erase_some (h : m.lookup k = some v) :
    (m.erase k).entries.length + 1 = m.entries.length := by
  have := total_erase m (fun _ => 1) k
  rw [h] at this
  rw [length_entries, length_entries]
  exact this

theorem length_adjust (k : K) (f : V → V) : (adjust m k f).entries.length = m.entries.length := by
  rw [length_entries, length_entries]
  exact total_adjust_of_eq m _ k f fun _ => rfl

end

/-- An entry weighs no more than the whole map. -/
theorem le_total (w : V → ℕ) (h : m.lookup k = some v) : w v ≤ total m w := by
  have := total_erase m w k
  rw [h] at this
  simp only [Option.map_some, Option.getD_some] at this
  omega

/-- Two entries weigh no more than the sum. -/
theorem add_le_total (w : V → ℕ) {j : K} {u : V} (hne : j ≠ k) (hk : m.lookup k = some v) (hj : m.lookup j = some u) :
    w v + w u ≤ total m w := by
  have hsum := total_erase m w k
  have hle : w u ≤ total (m.erase k) w := le_total w (by rw [lookup_erase', if_neg hne, hj])
  rw [hk] at hsum
  simp only [Option.map_some, Option.getD_some] at hsum
  omega

/-- A positive sum comes from some entry. -/
theorem exists_of_total_pos {w : V → ℕ} (h : 0 < total m w) : ∃ k v, m.lookup k = some v ∧ 0 < w v := by
  obtain ⟨n, hn, hpos⟩ := List.sum_pos_iff_exists_pos_nat.mp h
  obtain ⟨e, he, rfl⟩ := mem_map.mp hn
  exact ⟨e.1, e.2, lookup_of_mem_entries he, hpos⟩

/-! ### What holds of the entries after an insertion -/

/-- What holds of the new entry and of the other old ones holds of all. -/
theorem forall_insert {P : K → V → Prop} (hnew : P k v) (hold : ∀ j u, j ≠ k → m.lookup j = some u → P j u) :
    ∀ j u, (m.insert k v).lookup j = some u → P j u := by
  intro j u hj
  rw [lookup_insert'] at hj
  split at hj
  case isTrue heq =>
    subst heq
    cases hj
    exact hnew
  case isFalse hne => exact hold j u hne hj

theorem exists_insert :
    (∃ j u, (m.insert k v).lookup j = some u ∧ P u) ↔ P v ∨ ∃ j u, j ≠ k ∧ m.lookup j = some u ∧ P u := by
  constructor
  · rintro ⟨j, u, hj, hu⟩
    rw [lookup_insert'] at hj
    split at hj
    · cases hj
      exact .inl hu
    case isFalse hne => exact .inr ⟨j, u, hne, hj, hu⟩
  · rintro (hv | ⟨j, u, hne, hj, hu⟩)
    · exact ⟨k, v, AList.lookup_insert _, hv⟩
    · exact ⟨j, u, by rw [lookup_insert', if_neg hne, hj], hu⟩

/-- A replaced entry that had the property only if the new one has it. -/
theorem exists_insert_of_imp {v₀ : V} (hk : m.lookup k = some v₀) (himp : P v₀ → P v) :
    (∃ j u, (m.insert k v).lookup j = some u ∧ P u) ↔ P v ∨ ∃ j u, m.lookup j = some u ∧ P u := by
  rw [exists_insert]
  constructor
  · rintro (hv | ⟨j, u, -, hj, hu⟩)
    · exact .inl hv
    · exact .inr ⟨j, u, hj, hu⟩
  · rintro (hv | ⟨j, u, hj, hu⟩)
    · exact .inl hv
    · by_cases hjk : j = k
      · subst hjk
        cases hk.symm.trans hj
        exact .inl (himp hu)
      · exact .inr ⟨j, u, hjk, hj, hu⟩

/-- A replaced entry that has the property if and only if it had it. -/
theorem exists_insert_of_iff {v₀ : V} (hk : m.lookup k = some v₀) (hiff : P v ↔ P v₀) :
    (∃ j u, (m.insert k v).lookup j = some u ∧ P u) ↔ ∃ j u, m.lookup j = some u ∧ P u := by
  rw [exists_insert_of_imp hk hiff.mpr]
  constructor
  · rintro (hv | h)
    · exact ⟨k, v₀, hk, hiff.mp hv⟩
    · exact h
  · exact .inr

/-- A new entry without the property. -/
theorem exists_insert_of_not (hk : m.lookup k = none) (hnot : ¬ P v) :
    (∃ j u, (m.insert k v).lookup j = some u ∧ P u) ↔ ∃ j u, m.lookup j = some u ∧ P u := by
  rw [exists_insert]
  constructor
  · rintro (hv | ⟨j, u, -, hj, hu⟩)
    · exact absurd hv hnot
    · exact ⟨j, u, hj, hu⟩
  · rintro ⟨j, u, hj, hu⟩
    refine .inr ⟨j, u, ?_, hj, hu⟩
    rintro rfl
    cases hk.symm.trans hj

/-! ### Deciding what holds of the entries -/

theorem mem_entries_of_lookup (h : m.lookup k = some v) : (⟨k, v⟩ : Sigma fun _ : K => V) ∈ m.entries :=
  AList.mem_lookup_iff.mp h

instance decidableForall (m : FiniteMap K V) (P : K → V → Prop) [∀ k v, Decidable (P k v)] :
    Decidable (∀ k v, m.lookup k = some v → P k v) :=
  decidable_of_iff (∀ e ∈ m.entries, P e.1 e.2)
    ⟨fun h _ _ hk => h _ (mem_entries_of_lookup hk), fun h _ he => h _ _ (lookup_of_mem_entries he)⟩

instance decidableExists (m : FiniteMap K V) (P : K → V → Prop) [∀ k v, Decidable (P k v)] :
    Decidable (∃ k v, m.lookup k = some v ∧ P k v) :=
  decidable_of_iff (∃ e ∈ m.entries, P e.1 e.2)
    ⟨fun ⟨_, he, hP⟩ => ⟨_, _, lookup_of_mem_entries he, hP⟩, fun ⟨_, _, hk, hP⟩ => ⟨_, mem_entries_of_lookup hk, hP⟩⟩

end FiniteMap

end OnnxGenai.Lib
