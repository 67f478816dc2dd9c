import OnnxGenai.Kv.Tiers

/-!
# Reference counts

The accounting of page references. A reference to a page is either an entry of a
sequence's page list or is held by somebody else: a node of the prefix cache, a
borrower, or an operation in the middle of its work. `Counted t held` says that the
table accounts for exactly the references of its sequences and those in `held`: each
page's count is the number of references to it, a page is on the free list of its own
tier, once, when there are none, and every reference names a page.

Each operation of the table then moves references: `free` takes one from `held`,
`retain` and `allocate` put one there, `pushPage` moves one from `held` into a sequence.
-/

namespace OnnxGenai.Kv

open Lib List FiniteMap Nat

namespace PageTable

/-- How often the page lists of the sequences name a page. -/
def seqRefs (t : PageTable) (id : PageId) : ℕ := t.sequences.total fun r => r.pages.count id

/-- An unreferenced page whose residency is `d`. -/
def Idle (d : Device) (p : Page) : Prop := p.refCount = 0 ∧ p.residency = d

instance (d : Device) (p : Page) : Decidable (Idle d p) := inferInstanceAs (Decidable (_ ∧ _))

/-- The table accounts for the references of its sequences and those in `held`. -/
structure Counted (t : PageTable) (held : List PageId) : Prop where
  /-- A count is the number of references. -/
  refCount : ∀ id p, t.pages.lookup id = some p → p.refCount = t.seqRefs id + held.count id
  /-- A reference names a page. -/
  named : ∀ id, 0 < t.seqRefs id + held.count id → ∃ p, t.pages.lookup id = some p
  /-- A page is on the free list of its residency, once, when it is unreferenced. -/
  idle : ∀ d id p, t.pages.lookup id = some p →
    (t.freeList d).count id = if Idle d p then 1 else 0
  /-- A free list names pages. -/
  free_named : ∀ d, ∀ id ∈ t.freeList d, ∃ p, t.pages.lookup id = some p
  /-- New pages get new ids. -/
  fresh : ∀ id p, t.pages.lookup id = some p → id < t.nextPageId

/-! ### Congruence -/

variable {t t' : PageTable} {held held' : List PageId} {id : PageId} {seq : SequenceId} {r : Sequence} {d : Device}

theorem seqRefs_congr (h : t'.sequences = t.sequences) (id : PageId) : t'.seqRefs id = t.seqRefs id := by
  unfold seqRefs
  rw [h]

theorem seqRefs_le (t : PageTable) (id : PageId) :
    t.seqRefs id ≤ t.sequences.total fun r => r.pages.length :=
  total_mono _ fun _ => count_le_length

/-- A page that is named at most once stands at one place of one page list. -/
theorem named_once_of_le (h : t.seqRefs id ≤ 1) (hr : t.sequences.lookup seq = some r) {i : ℕ}
    (hi : r.pages[i]? = some id) : (∀ j, r.pages[j]? = some id → j = i) ∧
      ∀ s r', s ≠ seq → t.sequences.lookup s = some r' → id ∉ r'.pages := by
  have hmem : 0 < r.pages.count id := count_pos_iff.mpr (mem_of_getElem? hi)
  refine ⟨fun j hj => ?_, fun s r' hs hr' hmem' => ?_⟩
  · by_contra hne
    have htwo : 2 ≤ r.pages.count id := by
      obtain ⟨hli, hgi⟩ := List.getElem?_eq_some_iff.mp hi
      obtain ⟨hlj, hgj⟩ := List.getElem?_eq_some_iff.mp hj
      refine duplicate_iff_two_le_count.mp (duplicate_iff_exists_distinct_get.mpr ?_)
      rcases lt_or_gt_of_ne hne with hlt | hgt
      · exact ⟨⟨j, hlj⟩, ⟨i, hli⟩, hlt, hgj.symm, hgi.symm⟩
      · exact ⟨⟨i, hli⟩, ⟨j, hlj⟩, hgt, hgi.symm, hgj.symm⟩
    have hle : r.pages.count id ≤ t.seqRefs id := le_total (fun r => r.pages.count id) hr
    omega
  · have hpos : 0 < r'.pages.count id := count_pos_iff.mpr hmem'
    have hle : r.pages.count id + r'.pages.count id ≤ t.seqRefs id :=
      add_le_total (fun r => r.pages.count id) hs hr hr'
    omega

theorem freeList_congr (h : t'.freePages = t.freePages) (d : Device) : t'.freeList d = t.freeList d := by
  unfold freeList
  rw [h]

/-- Holding references in another order. -/
theorem Counted.perm (h : Counted t held) (hp : ∀ id, held'.count id = held.count id) : Counted t held' :=
  ⟨fun id p hl => by rw [hp, h.refCount id p hl], fun id hpos => h.named id (by rwa [hp] at hpos),
    h.idle, h.free_named, h.fresh⟩

/-- Moving pages between the tiers moves no reference. -/
theorem Counted.moved (h : Counted t held) (hm : Moved t t') : Counted t' held := by
  have hrefs := seqRefs_congr hm.sequences
  have hfree := freeList_congr hm.freePages
  refine ⟨fun id p' hp' => ?_, fun id hpos => ?_, fun d id p' hp' => ?_, fun d id hid => ?_,
    fun id p' hp' => ?_⟩
  · obtain ⟨p, hp, hs⟩ := hm.lookup_back hp'
    rw [hs.refCount, hrefs, h.refCount id p hp]
  · rw [hrefs] at hpos
    obtain ⟨p, hp⟩ := h.named id hpos
    obtain ⟨p', hp', -⟩ := hm.lookup hp
    exact ⟨p', hp'⟩
  · obtain ⟨p, hp, hs⟩ := hm.lookup_back hp'
    rw [hfree, h.idle d id p hp]
    have : Idle d p ↔ Idle d p' := by
      obtain ⟨d', a, rfl, hd⟩ := hs
      constructor
      · rintro ⟨h0, hr⟩
        exact ⟨h0, (hd h0).trans hr⟩
      · rintro ⟨h0, hr⟩
        exact ⟨h0, (hd h0).symm.trans hr⟩
    simp only [this]
  · rw [hfree] at hid
    obtain ⟨p, hp⟩ := h.free_named d id hid
    obtain ⟨p', hp', -⟩ := hm.lookup hp
    exact ⟨p', hp'⟩
  · obtain ⟨p, hp, -⟩ := hm.lookup_back hp'
    rw [hm.nextPageId]
    exact h.fresh id p hp

/-- What every change of one page has to account for: its new count, its place on the
free lists, and nothing of the other pages. -/
theorem Counted.insertPage (h : Counted t held) {p' : Page} (hseq : t'.sequences = t.sequences)
    (hpages : t'.pages = t.pages.insert id p') (hcount : p'.refCount = t.seqRefs id + held'.count id)
    (hheld : ∀ j, j ≠ id → held'.count j = held.count j)
    (hidle : ∀ d, (t'.freeList d).count id = if Idle d p' then 1 else 0)
    (hfree : ∀ d j, j ≠ id → (t'.freeList d).count j = (t.freeList d).count j)
    (hnext : t.nextPageId ≤ t'.nextPageId) (hid : id < t'.nextPageId) : Counted t' held' := by
  have hrefs := seqRefs_congr hseq
  have hself : t'.pages.lookup id = some p' := by rw [hpages, AList.lookup_insert]
  have hne : ∀ j, j ≠ id → t'.pages.lookup j = t.pages.lookup j := by
    intro j hj
    rw [hpages, AList.lookup_insert_ne hj]
  refine ⟨fun j q hq => ?_, fun j hpos => ?_, fun d j q hq => ?_, fun d j hj => ?_, fun j q hq => ?_⟩
  all_goals by_cases hji : j = id
  · subst hji
    rw [hself] at hq
    cases hq
    rw [hrefs, hcount]
  · rw [hne j hji] at hq
    rw [hrefs, hheld j hji, h.refCount j q hq]
  · subst hji
    exact ⟨p', hself⟩
  · rw [hne j hji]
    rw [hrefs, hheld j hji] at hpos
    exact h.named j hpos
  · subst hji
    rw [hself] at hq
    cases hq
    exact hidle d
  · rw [hne j hji] at hq
    rw [hfree d j hji, h.idle d j q hq]
  · subst hji
    exact ⟨p', hself⟩
  · rw [hne j hji]
    refine h.free_named d j (count_pos_iff.mp ?_)
    rw [← hfree d j hji]
    exact count_pos_iff.mpr hj
  · subst hji
    exact hid
  · rw [hne j hji] at hq
    exact lt_of_lt_of_le (h.fresh j q hq) hnext

/-- A change of a page that keeps its count and its residency moves no reference. -/
theorem Counted.update (h : Counted t held) {p p' : Page} (hp : t.pages.lookup id = some p)
    (hc : p'.refCount = p.refCount) (hr : p'.residency = p.residency) {clock : ℕ} {lease : Option MemoryLease} :
    Counted { t with pages := t.pages.insert id p', clock := clock, poolLease := lease } held := by
  refine h.insertPage rfl rfl (hc.trans (h.refCount id p hp)) (fun _ _ => rfl) (fun d => ?_)
    (fun _ _ _ => rfl) le_rfl (h.fresh id p hp)
  have := h.idle d id p hp
  simp only [Idle, hc, hr] at this ⊢
  exact this

/-! ### Sequences -/

section

variable (h : Counted t held)

include h

/-- Changing the pages of one sequence moves references between it and `held`. -/
theorem Counted.adjustSequence (hr : t.sequences.lookup seq = some r) (f : Sequence → Sequence)
    (hf : ∀ id, (f r).pages.count id + held'.count id = r.pages.count id + held.count id) :
    Counted (t.adjustSequence seq f) held' := by
  have hrefs : ∀ id, (t.adjustSequence seq f).seqRefs id + held'.count id = t.seqRefs id + held.count id := by
    intro id
    have := total_adjust t.sequences (fun r => r.pages.count id) f hr
    have := hf id
    unfold seqRefs PageTable.adjustSequence
    simp only at *
    omega
  refine ⟨fun id p hp => ?_, fun id hpos => ?_, h.idle, h.free_named, h.fresh⟩
  · rw [hrefs]
    exact h.refCount id p hp
  · rw [hrefs] at hpos
    exact h.named id hpos

/-- Changing a record but for its pages moves nothing. -/
theorem Counted.adjustSequence_same (seq : SequenceId) (f : Sequence → Sequence)
    (hf : ∀ r, (f r).pages = r.pages) : Counted (t.adjustSequence seq f) held := by
  cases hr : t.sequences.lookup seq with
  | some r => exact h.adjustSequence hr f fun id => by rw [hf]
  | none =>
    have : t.adjustSequence seq f = t := by simp [PageTable.adjustSequence, adjust, hr]
    rwa [this]

end

/-- `pushPage` puts a held reference into a sequence. -/
theorem Counted.pushPage (h : Counted t (id :: held)) (hr : t.sequences.lookup seq = some r) :
    Counted (t.pushPage seq id) held :=
  h.adjustSequence hr _ fun j => by
    simp only [count_append, count_cons, count_nil]
    omega

/-- `replacePage` swaps a held reference with one of a sequence. -/
theorem Counted.replacePage {old : PageId} (h : Counted t (id :: held)) {index : ℕ}
    (hr : t.sequences.lookup seq = some r) (hold : r.pages[index]? = some old) :
    Counted (t.replacePage seq index id) (old :: held) := by
  refine h.adjustSequence hr _ fun j => ?_
  obtain ⟨hlt, hget⟩ := List.getElem?_eq_some_iff.mp hold
  have hset := count_set (a := id) (b := j) hlt
  have hpos : r.pages[index] = j → 0 < r.pages.count j := by
    rintro rfl
    exact count_pos_iff.mpr (getElem_mem hlt)
  rw [hset, hget]
  rw [hget] at hpos
  by_cases h₁ : old = j
  · have := hpos h₁
    by_cases h₂ : id = j <;> simp [h₁, h₂] <;> omega
  · by_cases h₂ : id = j
    · simp [h₁, h₂]
      omega
    · simp [h₁, h₂]

/-- Removing a sequence hands its references back. -/
theorem Counted.removeSequence (h : Counted t held) (seq : SequenceId) :
    Counted (t.removeSequence seq).2 ((t.removeSequence seq).1 ++ held) := by
  have hrefs : ∀ id, (t.removeSequence seq).2.seqRefs id + ((t.removeSequence seq).1 ++ held).count id =
      t.seqRefs id + held.count id := by
    intro id
    have := total_erase t.sequences (fun r => r.pages.count id) seq
    unfold seqRefs PageTable.removeSequence getSequence
    cases hr : t.sequences.lookup seq with
    | none | some =>
      rw [hr] at this
      simp at this ⊢
      omega
  refine ⟨fun id p hp => ?_, fun id hpos => ?_, h.idle, h.free_named, h.fresh⟩
  · rw [hrefs]
    exact h.refCount id p hp
  · rw [hrefs] at hpos
    exact h.named id hpos

/-! ### Freeing and retaining -/

@[simp] theorem free_sequences (t : PageTable) (id : PageId) : (t.free id).sequences = t.sequences := by
  unfold PageTable.free
  cases t.pages.lookup id with
  | none => rfl
  | some p =>
    simp only
    split <;> rfl

/-- `free` gives one held reference back. -/
theorem Counted.free (h : Counted t (id :: held)) : Counted (t.free id) held := by
  obtain ⟨p, hp⟩ := h.named id (by rw [count_cons_self]; omega)
  have hcount := h.refCount id p hp
  rw [count_cons_self] at hcount
  have hheld : ∀ j, j ≠ id → held.count j = (id :: held).count j := by
    intro j hj
    rw [count_cons_of_ne (Ne.symm hj)]
  have hbusy : ∀ d, (t.freeList d).count id = 0 := by
    intro d
    rw [h.idle d id p hp, if_neg]
    rintro ⟨hz, -⟩
    omega
  by_cases h0 : p.refCount - 1 = 0
  · -- the last reference: the page goes to the free list of its residency
    have hfree : t.free id = { t with
        pages := t.pages.insert id ({ p with refCount := p.refCount - 1 } : Page).resetStorage
        freePages := t.freePages.insert p.residency (t.freeList p.residency ++ [id]) } := by
      unfold PageTable.free freeList
      rw [hp]
      simp only [h0, if_true]
      rfl
    have hlist : ∀ d j, ((t.free id).freeList d).count j =
        (t.freeList d).count j + if d = p.residency ∧ j = id then 1 else 0 := by
      intro d j
      rw [hfree]
      unfold freeList
      by_cases hd : d = p.residency
      · subst hd
        by_cases hj : j = id
        · simp [hj]
        · simp [hj, Ne.symm hj]
      · simp [hd]
    refine h.insertPage (by rw [hfree]) (by rw [hfree]) ?_ hheld (fun d => ?_) (fun d j hj => ?_)
      (by rw [hfree]) (by rw [hfree]; exact h.fresh id p hp)
    · simp only [Page.resetStorage]
      omega
    · rw [hlist, hbusy]
      simp [Idle, Page.resetStorage, Page.residency, h0, eq_comm]
    · rw [hlist]
      simp [hj]
  · -- other references remain
    have hfree : t.free id = { t with
        pages := t.pages.insert id { p with refCount := p.refCount - 1 } } := by
      unfold PageTable.free
      rw [hp]
      simp only [h0, if_false]
    rw [hfree]
    refine h.insertPage rfl rfl ?_ hheld (fun d => ?_) (fun _ _ _ => rfl) le_rfl (h.fresh id p hp)
    · simp only
      omega
    · exact (hbusy d).trans (if_neg fun hi => h0 hi.1).symm

/-- `freeAll` gives held references back. -/
theorem Counted.freeAll : ∀ {ids : List PageId} {t : PageTable},
    Counted t (ids ++ held) → Counted (t.freeAll ids) held
  | [], _, h => h
  | id :: ids, t, h => by
    have hf : Counted (t.free id) (ids ++ held) := Counted.free h
    show Counted ((t.free id).freeAll ids) held
    exact Counted.freeAll hf

@[simp] theorem retain_sequences (t : PageTable) (id : PageId) : (t.retain id).sequences = t.sequences := by
  unfold PageTable.retain
  cases t.pages.lookup id <;> rfl

/-- `retain` adds a held reference, as long as the count can hold it. -/
theorem Counted.retain (h : Counted t held) (hpos : 0 < t.seqRefs id + held.count id)
    (hmax : t.seqRefs id + held.count id < u32Max) : Counted (t.retain id) (id :: held) := by
  obtain ⟨p, hp⟩ := h.named id hpos
  have hcount := h.refCount id p hp
  have hret : t.retain id = { t with
      clock := t.clock + 1
      pages := t.pages.insert id
        { p with refCount := min (p.refCount + 1) u32Max, lastAccess := t.clock + 1 } } := by
    unfold PageTable.retain
    rw [hp]
  have hmin : min (p.refCount + 1) u32Max = p.refCount + 1 := min_eq_left (by omega)
  rw [hret]
  refine h.insertPage rfl rfl ?_ (fun j hj => ?_) (fun d => ?_) (fun _ _ _ => rfl) le_rfl (h.fresh id p hp)
  · rw [count_cons_self]
    simp only [hmin]
    omega
  · rw [count_cons_of_ne (Ne.symm hj)]
  · have hbusy : (t.freeList d).count id = 0 := by
      rw [h.idle d id p hp, if_neg]
      rintro ⟨hz, -⟩
      omega
    refine hbusy.trans (if_neg fun hi => ?_).symm
    have := hi.1
    simp only [hmin] at this
    omega

/-! ### Allocating -/

theorem moved_of_room {u : PageTable} (h : u = t ∨ u = final (evictLruHot none) t) : Moved t u :=
  stays_of_room h (.refl t) (evictLruHot_moved none t)

/-- The pages on the free lists exist. -/
theorem Counted.not_missing (h : Counted t held) (hlast : (t.freeList d).getLast? = some id)
    (hp : t.pages.lookup id = none) : False := by
  obtain ⟨p, hp'⟩ := h.free_named d id (mem_of_getLast? hlast)
  cases hp.symm.trans hp'

/-- Taking a page off a free list gives it its first reference. -/
theorem Counted.reuse {p : Page} (h : Counted t held) (hlast : (t.freeList d).getLast? = some id)
    (hp : t.pages.lookup id = some p) :
    Counted { t with
        freePages := t.freePages.insert d (t.freeList d).dropLast
        clock := t.clock + 1
        pages := t.pages.insert id { p.resetStorage with refCount := 1, lastAccess := t.clock + 1 } } (id :: held) ∧
      p.refCount = 0 ∧ t.seqRefs id + held.count id = 0 := by
  have hmem : id ∈ t.freeList d := mem_of_getLast? hlast
  have hidle := h.idle d id p hp
  have hi : Idle d p := by
    by_contra hi
    rw [if_neg hi] at hidle
    have := count_pos_iff.mpr hmem
    omega
  have hz : t.seqRefs id + held.count id = 0 := by
    rw [← h.refCount id p hp]
    exact hi.1
  have happ : t.freeList d = (t.freeList d).dropLast ++ [id] := (dropLast_append_getLast? id hlast).symm
  have hlist : ∀ e j, ((((t.freePages.insert d (t.freeList d).dropLast).lookup e).getD []).count j) +
      (if e = d ∧ j = id then 1 else 0) = (t.freeList e).count j := by
    intro e j
    by_cases he : e = d
    · subst he
      conv_rhs => rw [happ, count_append, count_singleton]
      by_cases hj : j = id
      · simp [hj]
      · simp [hj, Ne.symm hj]
    · simp [he, freeList]
  refine ⟨?_, hi.1, hz⟩
  refine h.insertPage rfl rfl ?_ (fun j hj => ?_) (fun e => ?_) (fun e j hj => ?_) le_rfl (h.fresh _ p hp)
  · rw [count_cons_self]
    simp only
    omega
  · rw [count_cons_of_ne (Ne.symm hj)]
  · have hle := hlist e id
    rw [h.idle e id p hp] at hle
    have hn : ¬ Idle e ({ p.resetStorage with refCount := 1, lastAccess := t.clock + 1 } : Page) :=
      fun hne => absurd hne.1 one_ne_zero
    rw [if_neg hn]
    by_cases he : e = d
    · rw [if_pos ⟨he, rfl⟩, if_pos (he ▸ hi)] at hle
      simpa [freeList] using hle
    · rw [if_neg (fun hc => he hc.1), if_neg (fun hc : Idle e p => he (hc.2.symm.trans hi.2))] at hle
      simpa [freeList] using hle
  · have hle := hlist e j
    rw [if_neg (fun hc => hj hc.2)] at hle
    simpa [freeList] using hle

/-- Adding a page gives it its first reference, as long as there is an id for it. -/
theorem Counted.allocateFresh (d : Device) (h : Counted t held) (hmax : t.nextPageId < u32Max) :
    Counted (t.allocateFresh d).2 ((t.allocateFresh d).1 :: held) ∧
      t.seqRefs t.nextPageId + held.count t.nextPageId = 0 := by
  have hnone : ∀ p, t.pages.lookup t.nextPageId ≠ some p := fun p hp => lt_irrefl _ (h.fresh _ p hp)
  have hz : t.seqRefs t.nextPageId + held.count t.nextPageId = 0 := by
    by_contra hne
    obtain ⟨p, hp⟩ := h.named t.nextPageId (pos_of_ne_zero hne)
    exact hnone p hp
  have hnext : (t.allocateFresh d).2.nextPageId = t.nextPageId + 1 := min_eq_left (succ_le_of_lt hmax)
  refine ⟨?_, hz⟩
  refine h.insertPage rfl rfl ?_ (fun j hj => ?_) (fun e => ?_) (fun _ _ _ => rfl) ?_ ?_
  · show 1 = t.seqRefs t.nextPageId + (t.nextPageId :: held).count t.nextPageId
    rw [count_cons_self]
    omega
  · exact count_cons_of_ne (Ne.symm hj)
  · refine Eq.trans ?_ (if_neg fun hi => absurd hi.1 one_ne_zero).symm
    refine count_eq_zero.mpr fun hmem => ?_
    obtain ⟨p, hp⟩ := h.free_named e _ hmem
    exact hnone p hp
  · rw [hnext]
    exact le_succ _
  · rw [hnext]
    exact lt_succ_self _

/-- An allocation that succeeds gives a page nobody referenced, with one held reference. -/
theorem Counted.allocate (h : Counted t held) (hmax : t.nextPageId < u32Max) (ha : t.allocate d = (some id, t')) :
    Counted t' (id :: held) ∧ t'.sequences = t.sequences ∧ t.seqRefs id + held.count id = 0 := by
  cases allocation_of ha with
  | reused hlast hp =>
    obtain ⟨h₁, -, h₂⟩ := h.reuse hlast hp
    exact ⟨h₁, rfl, h₂⟩
  | missing hlast hp => exact (h.not_missing hlast hp).elim
  | added _ hroom =>
    have hm := moved_of_room hroom.eq
    obtain ⟨h₁, h₂⟩ := (h.moved hm).allocateFresh d (by rwa [hm.nextPageId])
    exact ⟨h₁, hm.sequences, by rwa [seqRefs_congr hm.sequences] at h₂⟩

/-- An allocation that fails has only moved pages between the tiers. -/
theorem allocate_none (ha : t.allocate d = (none, t')) : Moved t t' := by
  cases allocation_of ha with
  | failed _ hroom => exact moved_of_room hroom

end PageTable

end OnnxGenai.Kv
