import OnnxGenai.Kv.Tiers
import OnnxGenai.Lib.Runs

/-!
# The capacity of the hot tier

A page table is built for `num_gpu_pages` hot pages in use. Allocation checks that bound
only when there is no free page to reuse: a free page keeps its residency, so while it lies
on the free list a cold page may be promoted into its place, and reusing it then exceeds the
capacity (`reused_beyond_capacity`). Likewise `retain` of an unreferenced hot page. In runs
where a page is never brought into use this way while the tier is full, the capacity is kept
(`hot_within_capacity`).
-/

namespace OnnxGenai.Kv

open Lib Option FiniteMap Finset

namespace PageTable

/-! ### The hot pages in use -/

/-- The referenced pages resident in the hot tier. -/
def hotOf (pages : FiniteMap PageId Page) : Finset PageId :=
  ((pages.entries.filter fun e => isHotUsed e.2).map Sigma.fst).toFinset

variable {id : PageId} {p : Page} {t u t' : PageTable} {hot : Finset PageId} {device : Device}

@[simp] theorem mem_hotOf {pages : FiniteMap PageId Page} :
    id ∈ hotOf pages ↔ ∃ p, pages.lookup id = some p ∧ isHotUsed p = true := by
  simp only [hotOf, List.mem_toFinset, List.mem_map, List.mem_filter]
  constructor
  · rintro ⟨e, ⟨he, hp⟩, rfl⟩
    exact ⟨e.2, lookup_of_mem_entries he, hp⟩
  · rintro ⟨p, hp, hhot⟩
    exact ⟨⟨id, p⟩, ⟨AList.mem_lookup_iff.mp hp, hhot⟩, rfl⟩

theorem card_hotOf (t : PageTable) : (hotOf t.pages).card = t.hotUsedCount := by
  have hkeys : (t.pages.entries.map Sigma.fst).Nodup := t.pages.nodupKeys
  have hnodup : ((t.pages.entries.filter fun e => isHotUsed e.2).map Sigma.fst).Nodup :=
    hkeys.sublist (List.filter_sublist.map _)
  rw [hotOf, List.toFinset_card_of_nodup hnodup, List.length_map]
  rfl

theorem hotOf_insert (pages : FiniteMap PageId Page) (id : PageId) (p : Page) :
    hotOf (pages.insert id p) =
      if isHotUsed p then insert id (hotOf pages) else (hotOf pages).erase id := by
  ext j
  by_cases hj : j = id
  · subst hj
    by_cases hp : isHotUsed p = true <;> simp [lookup_insert', hp]
  · by_cases hp : isHotUsed p = true <;> simp [lookup_insert', hj, hp]

theorem hotOf_insert_subset (pages : FiniteMap PageId Page) (id : PageId) (p : Page) :
    hotOf (pages.insert id p) ⊆ insert id (hotOf pages) := by
  rw [hotOf_insert]
  split
  · exact Finset.Subset.refl _
  · exact (erase_subset _ _).trans (subset_insert _ _)

theorem hotOf_congr {pages pages' : FiniteMap PageId Page} (h : ∀ j, pages'.lookup j = pages.lookup j) :
    hotOf pages' = hotOf pages := by
  ext j
  rw [mem_hotOf, mem_hotOf, h]

theorem hotOf_erase (pages : FiniteMap PageId Page) (id : PageId) :
    hotOf (pages.erase id) = (hotOf pages).erase id := by
  ext j
  by_cases hj : j = id
  · subst hj
    simp [lookup_erase']
  · simp [lookup_erase', hj]

/-- Replacing a page by one that is in use and hot just as it was changes nothing. -/
theorem hotOf_insert_same {pages : FiniteMap PageId Page} {q : Page} (h : pages.lookup id = some p)
    (hq : isHotUsed q = isHotUsed p) : hotOf (pages.insert id q) = hotOf pages := by
  rw [hotOf_insert, hq]
  by_cases hp : isHotUsed p = true
  · rw [if_pos hp]
    exact insert_eq_of_mem (mem_hotOf.mpr ⟨p, h, hp⟩)
  · rw [if_neg hp]
    refine erase_eq_of_notMem fun hmem => ?_
    obtain ⟨p', hp', hhot⟩ := mem_hotOf.mp hmem
    cases h.symm.trans hp'
    exact hp hhot

/-! ### Moving pages -/

/-- The hot pages in use become `hot`; the capacity and the free lists stay. -/
structure HotStep (t t' : PageTable) (hot : Finset PageId) : Prop where
  hot : hotOf t'.pages = hot
  capacity : t'.hotCapacity = t.hotCapacity
  freePages : t'.freePages = t.freePages

theorem HotStep.refl (t : PageTable) : HotStep t t (hotOf t.pages) := ⟨rfl, rfl, rfl⟩

theorem HotStep.trans {v : PageTable} {hot' : Finset PageId} (h : HotStep t u hot) (h' : HotStep u v hot') :
    HotStep t v hot' :=
  ⟨h'.hot, h'.capacity.trans h.capacity, h'.freePages.trans h.freePages⟩

theorem Asked.hotStep (h : Asked t t') : HotStep t t' (hotOf t.pages) := by
  obtain ⟨lease, rfl, -⟩ := h
  exact ⟨rfl, rfl, rfl⟩

/-- A migration moves the page. -/
theorem Migrated.hotStep {target : Device} (h : Migrated t id target t') : ∃ p, t.pages.lookup id = some p ∧
    HotStep t t' (if 0 < p.refCount ∧ target.isGpu then insert id (hotOf t.pages) else (hotOf t.pages).erase id) := by
  obtain ⟨p, pages, lease, hp, rfl, -, hpages⟩ := h
  refine ⟨p, hp, ?_, rfl, rfl⟩
  have hcopy := hotOf_congr fun j => (hpages j).trans (lookup_insert' _ _ _ _).symm
  rw [hotOf_insert] at hcopy
  simpa [isHotUsed, Page.residency] using hcopy

/-- An eviction takes one page out of the hot tier, or fails. -/
theorem evictLruHot_hot (exclude : Option PageId) (t : PageTable) :
    Ensures (evictLruHot exclude) t
      (fun victim t' => victim ∈ hotOf t.pages ∧ some victim ≠ exclude ∧ HotStep t t' ((hotOf t.pages).erase victim))
      fun _ t' => HotStep t t' (hotOf t.pages) := by
  refine (evictLruHot_spec exclude t).mono ?_ fun _ _ => Asked.hotStep
  rintro victim t' ⟨hv, hm⟩
  obtain ⟨p, hp, hpos, hgpu, hne⟩ := lruHot_spec hv
  obtain ⟨q, hq, hstep⟩ := hm.hotStep
  refine ⟨mem_hotOf.mpr ⟨p, hp, by simp [isHotUsed, hpos, hgpu]⟩, hne, ?_⟩
  simpa [Device.isGpu] using hstep

/-- No page comes into use on the hot tier. -/
def Cools (t t' : PageTable) : Prop := hotOf t'.pages ⊆ hotOf t.pages ∧ t'.hotCapacity = t.hotCapacity

theorem Cools.refl (t : PageTable) : Cools t t := ⟨Finset.Subset.refl _, rfl⟩

theorem Cools.trans {v : PageTable} (h : Cools t u) (h' : Cools u v) : Cools t v := ⟨h'.1.trans h.1, h'.2.trans h.2⟩

theorem HotStep.cools (h : HotStep t t' hot) (hsub : hot ⊆ hotOf t.pages) : Cools t t' := ⟨h.hot.le.trans hsub, h.capacity⟩

theorem hotOf_touch (t : PageTable) (id : PageId) : hotOf (t.touch id).pages = hotOf t.pages := by
  unfold touch
  cases hp : t.pages.lookup id with
  | none => rfl
  | some page => exact hotOf_insert_same hp rfl

theorem hotStep_touch (t : PageTable) (id : PageId) : HotStep t (t.touch id) (hotOf t.pages) := by
  refine ⟨hotOf_touch t id, ?_, ?_⟩ <;> unfold touch <;> split <;> rfl

/-- The number of hot pages in use is within the capacity. -/
def WithinCapacity (t : PageTable) : Prop := t.hotUsedCount ≤ t.hotCapacity

instance (t : PageTable) : Decidable t.WithinCapacity := inferInstanceAs (Decidable (_ ≤ _))

theorem withinCapacity_iff (t : PageTable) : t.WithinCapacity ↔ (hotOf t.pages).card ≤ t.hotCapacity := by
  rw [WithinCapacity, card_hotOf]

theorem HotStep.withinCapacity (h : HotStep t t' hot) (hcard : hot.card ≤ t.hotCapacity) : t'.WithinCapacity := by
  rw [withinCapacity_iff, h.hot, h.capacity]
  exact hcard

theorem Cools.withinCapacity (h : Cools t t') (ht : t.WithinCapacity) : t'.WithinCapacity := by
  rw [withinCapacity_iff, h.2]
  exact (card_le_card h.1).trans ((withinCapacity_iff t).mp ht)

/-- **A promotion keeps the capacity.** -/
theorem promoteToHot_withinCapacity (ht : t.WithinCapacity) (id : PageId) : Leaves WithinCapacity (promoteToHot id) t := by
  -- The last two steps, from a table with room for one more page.
  have hrest : ∀ u : PageTable, (hotOf u.pages).card + 1 ≤ u.hotCapacity → Leaves WithinCapacity (do
      let _ ← migratePage id (.gpu 0)
      modify fun t => t.touch id : TableM Unit) u := by
    intro u hu
    refine .bind (.mono (migratePage_spec id (.gpu 0) u) (fun _ v hv => ?_) fun _ v hv => ?_)
    · obtain ⟨p, -, hstep⟩ := hv.hotStep
      refine .modify ((hstep.trans (hotStep_touch v id)).withinCapacity ?_)
      rw [hstep.hot]
      split
      · exact (card_insert_le _ _).trans hu
      · exact (card_erase_le).trans (Nat.le_of_succ_le hu)
    · exact hv.hotStep.withinCapacity (Nat.le_of_succ_le hu)
  have hcard := (withinCapacity_iff t).mp ht
  refine .bind (.get (.bind (.getOr (fun page hp => ?_) fun _ => ht)))
  by_cases hr : page.residency.isGpu = true
  · rw [if_pos hr]
    exact .bind (.modify (.pure ((hotStep_touch t id).withinCapacity hcard)))
  rw [if_neg hr]
  refine .bind (.require (fun hzero => ?_) fun _ => ht)
  by_cases hfull : t.hotUsedCount ≥ t.hotCapacity
  · rw [if_pos hfull]
    refine .bind (.mono (evictLruHot_hot (some id) t) (fun victim u hu => ?_) fun _ u hu => ?_)
    · obtain ⟨hmem, -, hstep⟩ := hu
      refine hrest u ?_
      rw [hstep.hot, hstep.capacity, card_erase_add_one hmem]
      exact hcard
    · exact hu.withinCapacity hcard
  · rw [if_neg hfull]
    refine hrest t ?_
    rw [card_hotOf]
    omega

theorem demoteAll_cools (ids : List PageId) (t : PageTable) : Stays Cools (demoteAll ids) t := by
  induction ids generalizing t with
  | nil => exact .pure (.refl t)
  | cons id ids ih =>
    have hdemote : Stays Cools (demoteIfExclusive id) t := by
      refine Ensures.bind (Ensures.get ?_)
      split
      · refine .bind (.mono (migratePage_spec id .cpu t) (fun _ u hu => ?_) fun _ u hu => hu.hotStep.cools (Finset.Subset.refl _))
        obtain ⟨p, -, hstep⟩ := hu.hotStep
        exact .pure (hstep.cools (by simp [Device.isGpu, erase_subset]))
      · exact .pure (.refl t)
    refine .bind Cools.trans hdemote fun _ u _ _ => ?_
    exact .bind Cools.trans (ih u) fun _ v _ _ => .pure (.refl v)

/-! ### Counting references -/

theorem free_cools (t : PageTable) (id : PageId) : Cools t (t.free id) := by
  unfold free
  cases hp : t.pages.lookup id with
  | none => exact .refl t
  | some page =>
    dsimp only
    by_cases hz : page.refCount - 1 = 0
    · rw [if_pos hz]
      refine ⟨?_, rfl⟩
      simp only [hotOf_insert, isHotUsed, Page.resetStorage, hz]
      exact erase_subset _ _
    · rw [if_neg hz]
      refine ⟨(hotOf_insert_same hp ?_).le, rfl⟩
      have hpos : 0 < page.refCount - 1 ∧ 0 < page.refCount := by omega
      simp [isHotUsed, hpos, Page.residency]

/-- Whether `id` is an unreferenced page of the hot tier, so that a reference to it brings
one more hot page into use. -/
def idleHot (t : PageTable) (id : PageId) : Bool :=
  (t.pages.lookup id).any fun page => decide (page.refCount = 0) && page.residency.isGpu

/-- A page is in use or stays out of it: the hot tier has room, or `id` is not idle there. -/
def UseOk (t : PageTable) (id : PageId) : Prop := t.hotUsedCount < t.hotCapacity ∨ t.idleHot id = false

instance (t : PageTable) (id : PageId) : Decidable (t.UseOk id) := inferInstanceAs (Decidable (_ ∨ _))

/-- A page of the hot tier that is not idle is in use. -/
theorem mem_hotOf_of_not_idle (hp : t.pages.lookup id = some p) (hgpu : p.residency.isGpu = true) :
    id ∈ hotOf t.pages ↔ t.idleHot id = false := by
  rw [mem_hotOf]
  constructor
  · rintro ⟨q, hq, hhot⟩
    cases hp.symm.trans hq
    simp only [isHotUsed, Bool.and_eq_true, decide_eq_true_eq] at hhot
    simp [idleHot, hp, hhot.1.ne']
  · intro hidle
    refine ⟨p, hp, ?_⟩
    simp only [idleHot, hp, any_some, hgpu, Bool.and_true, decide_eq_false_iff_not] at hidle
    simp [isHotUsed, hgpu, Nat.pos_of_ne_zero hidle]

/-- **Bringing a page into use keeps the capacity exactly when the tier has room, or the
page was not idle in it.** -/
theorem use_withinCapacity_iff (hp : t.pages.lookup id = some p) (hcap : t'.hotCapacity = t.hotCapacity)
    (hot : hotOf t'.pages = if p.residency.isGpu then insert id (hotOf t.pages) else (hotOf t.pages).erase id)
    (ht : t.WithinCapacity) : t'.WithinCapacity ↔ t.UseOk id := by
  have hcard := (withinCapacity_iff t).mp ht
  rw [withinCapacity_iff, hcap, hot, UseOk, ← card_hotOf]
  by_cases hgpu : p.residency.isGpu = true
  · rw [if_pos hgpu]
    by_cases hmem : id ∈ hotOf t.pages
    · have hidle := (mem_hotOf_of_not_idle hp hgpu).mp hmem
      rw [insert_eq_of_mem hmem]
      simp [hidle, hcard]
    · have hidle : t.idleHot id = true := by
        rw [mem_hotOf_of_not_idle hp hgpu] at hmem
        simpa using hmem
      rw [card_insert_of_notMem hmem]
      simp only [hidle, Bool.true_eq_false, or_false]
      exact Nat.succ_le_iff
  · have hidle : t.idleHot id = false := by simp [idleHot, hp, hgpu]
    rw [if_neg hgpu]
    simp only [hidle, or_true, iff_true]
    exact card_erase_le.trans hcard

theorem retain_withinCapacity_iff (ht : t.WithinCapacity) (id : PageId) :
    (t.retain id).WithinCapacity ↔ t.UseOk id := by
  unfold retain
  cases hp : t.pages.lookup id with
  | none => simp [ht, UseOk, idleHot, hp]
  | some page =>
    refine use_withinCapacity_iff hp rfl ?_ ht
    have hpos : 0 < min (page.refCount + 1) u32Max := by simp [u32Max]
    have hhot : isHotUsed { page with refCount := min (page.refCount + 1) u32Max, lastAccess := t.clock + 1 } =
        page.residency.isGpu := by
      simp [isHotUsed, hpos, Page.residency]
    rw [hotOf_insert, hhot]

/-! ### Allocation -/

/-- The page an allocation would take off the free list. -/
def nextFree (t : PageTable) (device : Device) : Option PageId := ((t.freePages.lookup device).getD []).getLast?

/-- Reusing the next free page keeps the capacity. -/
def ReuseOk (t : PageTable) (device : Device) : Prop := ∀ id ∈ t.nextFree device, t.UseOk id

instance (t : PageTable) (device : Device) : Decidable (t.ReuseOk device) := by
  unfold ReuseOk
  cases t.nextFree device with
  | none => exact isTrue (by simp)
  | some id => exact decidable_of_iff (t.UseOk id) (by simp)

/-- What an allocation does to the hot pages in use. -/
inductive Allocates (t : PageTable) (device : Device) : Option PageId → PageTable → Prop where
  /-- A free page is reused. -/
  | reused {id : PageId} {p : Page} {t' : PageTable} (hnext : t.nextFree device = some id)
      (hp : t.pages.lookup id = some p) (hcap : t'.hotCapacity = t.hotCapacity)
      (hot : hotOf t'.pages = if p.residency.isGpu then insert id (hotOf t.pages) else (hotOf t.pages).erase id) :
      Allocates t device (some id) t'
  /-- The free list has a page that does not exist. -/
  | missing {id : PageId} {t' : PageTable} (hnext : t.nextFree device = some id) (hp : t.pages.lookup id = none)
      (hcap : t'.hotCapacity = t.hotCapacity) (hot : hotOf t'.pages = hotOf t.pages) : Allocates t device (some id) t'
  /-- A page is added, perhaps after an eviction. -/
  | added {id : PageId} {hot : Finset PageId} {t' : PageTable} (hnext : t.nextFree device = none)
      (hcap : t'.hotCapacity = t.hotCapacity) (hsub : hot ⊆ hotOf t.pages) (hroom : hot.card < t.hotCapacity)
      (hot' : hotOf t'.pages ⊆ insert id hot) : Allocates t device (some id) t'
  /-- There is no room. -/
  | failed {t' : PageTable} (hnext : t.nextFree device = none) (hcap : t'.hotCapacity = t.hotCapacity)
      (hsub : hotOf t'.pages ⊆ hotOf t.pages) : Allocates t device none t'

/-- **What an allocation does.** -/
theorem allocate_spec (t : PageTable) (device : Device) :
    Allocates t device (t.allocate device).1 (t.allocate device).2 := by
  have hroomed : ∀ {u}, u = t ∨ u = final (evictLruHot none) t → ∃ hot ⊆ hotOf t.pages, HotStep t u hot := fun h =>
    stays_of_room (R := fun t u => ∃ hot ⊆ hotOf t.pages, HotStep t u hot) h ⟨_, Finset.Subset.refl _, .refl t⟩
      ((evictLruHot_hot none t).mono (fun _ _ h => ⟨_, erase_subset _ _, h.2.2⟩)
        fun _ _ h => ⟨_, Finset.Subset.refl _, h⟩)
  cases ha : t.allocate device with
  | mk allocated t' =>
  cases allocation_of ha with
  | @reused _ page hlast hp =>
    have hhot : isHotUsed { page.resetStorage with refCount := 1, lastAccess := t.clock + 1 } =
        page.residency.isGpu := by simp [isHotUsed, Page.residency, Page.resetStorage]
    exact .reused hlast hp rfl (by rw [hotOf_insert, hhot])
  | missing hlast hp => exact .missing hlast hp rfl rfl
  | added hlast hroom hspace =>
    obtain ⟨hot, hsub, hstep⟩ := hroomed hroom.eq
    rw [← card_hotOf, hstep.hot, hstep.capacity] at hspace
    exact .added hlast hstep.capacity hsub hspace (hstep.hot ▸ hotOf_insert_subset _ _ _)
  | failed hlast hroom =>
    obtain ⟨hot, hsub, hstep⟩ := hroomed hroom
    exact .failed hlast hstep.capacity (hstep.hot ▸ hsub)

namespace Allocates

variable {t t' : PageTable} {device : Device} {allocated : Option PageId}

theorem capacity (h : Allocates t device allocated t') : t'.hotCapacity = t.hotCapacity := by
  cases h <;> assumption

theorem subset (h : Allocates t device (some id) t') : hotOf t'.pages ⊆ insert id (hotOf t.pages) := by
  cases h with
  | reused _ _ _ hot =>
    rw [hot]
    split
    · exact Finset.Subset.refl _
    · exact (erase_subset _ _).trans (subset_insert _ _)
  | missing _ _ _ hot => exact hot ▸ subset_insert _ _
  | added _ _ hsub _ hot => exact hot.trans (insert_subset_insert _ hsub)

/-- An allocation keeps the capacity exactly when the page it reuses may be used. -/
theorem withinCapacity_iff (h : Allocates t device allocated t') (ht : t.WithinCapacity) :
    t'.WithinCapacity ↔ t.ReuseOk device := by
  cases h with
  | reused hnext hp hcap hot =>
    rw [use_withinCapacity_iff hp hcap hot ht]
    simp [ReuseOk, hnext]
  | @missing id _ hnext hp hcap hot =>
    have hidle : t.idleHot id = false := by simp [idleHot, hp]
    have hok : t.ReuseOk device := by
      intro j hj
      rw [hnext, mem_some_iff] at hj
      exact .inr (hj ▸ hidle)
    simp only [hok, iff_true]
    rw [PageTable.withinCapacity_iff, hcap, hot]
    exact (PageTable.withinCapacity_iff t).mp ht
  | added hnext hcap hsub hroom hot =>
    have hok : t.ReuseOk device := by simp [ReuseOk, hnext]
    simp only [hok, iff_true]
    rw [PageTable.withinCapacity_iff, hcap]
    exact (card_le_card hot).trans ((card_insert_le _ _).trans hroom)
  | failed hnext hcap hsub =>
    have hok : t.ReuseOk device := by simp [ReuseOk, hnext]
    simp only [hok, iff_true]
    rw [PageTable.withinCapacity_iff, hcap]
    exact (card_le_card hsub).trans ((PageTable.withinCapacity_iff t).mp ht)

end Allocates

/-! ### Copying a shared page -/

/-- What a checkpoint saved of the hot tier. -/
structure Saved (t : PageTable) (checkpoint : AllocationCheckpoint) : Prop where
  reused : ∀ p, checkpoint.reusedPage = some p → ∃ id, t.nextFree (.gpu 0) = some id ∧ t.pages.lookup id = some p
  evicted : ∀ e, checkpoint.evictedHot = some e → e.1 ∈ hotOf t.pages

theorem saved_checkpointOf (t : PageTable) (growth : Option ℕ) : Saved t (t.checkpointOf (.gpu 0) growth) where
  reused p hp := bind_eq_some_iff.mp hp
  evicted e he := by
    obtain ⟨v, hv, rfl⟩ := map_eq_some_iff.mp he
    unfold evictee at hv
    split at hv
    · obtain ⟨id, hid, hv⟩ := bind_eq_some_iff.mp hv
      obtain ⟨q, -, rfl⟩ := map_eq_some_iff.mp hv
      obtain ⟨p, hp, hpos, hgpu, -⟩ := lruHot_spec hid
      exact mem_hotOf.mpr ⟨p, hp, by simp [isHotUsed, hpos, hgpu]⟩
    · cases hv

/-- A rollback brings back the hot pages there were. -/
theorem rollbackAllocation_hot {checkpoint : AllocationCheckpoint} {newId : PageId} (hs : Saved t checkpoint)
    (hnext : ∀ id, t.nextFree (.gpu 0) = some id → id = newId) (hsub : hotOf u.pages ⊆ insert newId (hotOf t.pages))
    (hcap : u.hotCapacity = t.hotCapacity) : Leaves (Cools t) (rollbackAllocation checkpoint newId) u := by
  have hback : hotOf (u.restored newId checkpoint.reusedPage) ⊆ hotOf t.pages := by
    have herase : (hotOf u.pages).erase newId ⊆ hotOf t.pages := fun j hj => by
      obtain ⟨hne, hj⟩ := mem_erase.mp hj
      exact (mem_insert.mp (hsub hj)).resolve_left hne
    cases hr : checkpoint.reusedPage with
    | none =>
      rw [restored, hotOf_erase]
      exact herase
    | some p =>
      obtain ⟨id, hid, hp⟩ := hs.reused p hr
      obtain rfl := hnext id hid
      rw [restored, hotOf_insert]
      by_cases hhot : isHotUsed p = true
      · rw [if_pos hhot]
        have hmem : id ∈ hotOf t.pages := mem_hotOf.mpr ⟨p, hp, hhot⟩
        exact insert_subset hmem (hsub.trans (insert_subset hmem (Finset.Subset.refl _)))
      · rw [if_neg hhot]
        exact herase
  refine rollbackAllocation_rule rfl (fun _ => ⟨hback, hcap⟩) fun v store page he _ => ⟨?_, hcap⟩
  exact (hotOf_insert_subset _ _ _).trans (insert_subset (hs.evicted _ he) hback)

end PageTable

namespace PagedKvCache

open PageTable

theorem copyPageForWrite_withinCapacity {t : PageTable} (ht : t.WithinCapacity) (hok : t.ReuseOk (.gpu 0))
    (seq : SequenceId) (pageIndex : ℕ) (pageId : PageId) :
    Leaves WithinCapacity (copyPageForWrite seq pageIndex pageId) t := by
  have hcard := (withinCapacity_iff t).mp ht
  have hallocated : ∀ {u v : PageTable} {allocated : Option PageId}, Asked t u →
      u.allocate (.gpu 0) = (allocated, v) → v.WithinCapacity := by
    rintro _ v allocated ⟨lease, rfl, -⟩ ha
    have halloc := allocate_spec ({ t with poolLease := lease } : PageTable) (.gpu 0)
    rw [ha] at halloc
    exact (halloc.withinCapacity_iff ht).mpr hok
  refine copyPageForWrite_rule (fun u hu => hu.hotStep.withinCapacity hcard) (fun u v => hallocated) ?_ ?_ ?_
  · rintro p newId v ⟨-, u, hu, ha⟩ -
    exact hallocated hu ha
  · rintro p newId v new pages growth ⟨-, _, ⟨lease, rfl, -⟩, ha⟩ hnew hpages
    have halloc := allocate_spec ({ t with poolLease := lease } : PageTable) (.gpu 0)
    rw [ha] at halloc
    have hsame : hotOf pages = hotOf v.pages := by
      rcases hpages with rfl | ⟨copy, rfl, -, hhot⟩
      · rfl
      · exact hotOf_insert_same hnew hhot
    have hnext : ∀ id, t.nextFree (.gpu 0) = some id → id = newId := fun id hid => by
      cases halloc with
      | reused h | missing h => exact some_inj.mp (hid.symm.trans h)
      | added h => cases hid.symm.trans h
    have hback : Leaves (Cools t) (rollbackAllocation _ newId) { v with pages := pages } :=
      rollbackAllocation_hot (saved_checkpointOf t growth) hnext (hsame ▸ halloc.subset) halloc.capacity
    exact hback.mono (fun _ _ hw => hw.withinCapacity ht) fun _ _ hw => hw.withinCapacity ht
  · rintro p newId v old new lease ⟨-, u, hu, ha⟩ hold hnew - -
    refine (free_cools _ pageId).withinCapacity ((withinCapacity_iff _).mpr ?_)
    show (hotOf (v.pages.insert newId _)).card ≤ v.hotCapacity
    rw [hotOf_insert_same hnew (by simp [isHotUsed, Page.residency])]
    exact (withinCapacity_iff _).mp (hallocated hu ha)

/-- Whether a write to a page of a sequence needs another page. -/
def needsPage (t : PageTable) (seq : SequenceId) (pageIndex : ℕ) : Bool :=
  match (t.getSequence seq).map fun ids => ids[pageIndex]? with
  | none => false
  | some none => true
  | some (some id) => (t.pages.lookup id).any fun page => decide (1 < page.refCount)

theorem ensurePageForWrite_withinCapacity {t : PageTable} (ht : t.WithinCapacity) (seq : SequenceId) (pageIndex : ℕ)
    (hok : needsPage t seq pageIndex = true → t.ReuseOk (.gpu 0)) :
    (final (ensurePageForWrite seq pageIndex) t).WithinCapacity := by
  refine Ensures.final ?_
  refine .bind (.get (.bind (.getOr (fun ids hids => ?_) fun _ => ht)))
  cases hidx : ids[pageIndex]? with
  | some id =>
    refine .bind (.getOr (fun page hp => ?_) fun _ => ht)
    by_cases hshared : page.refCount > 1
    · rw [if_pos hshared]
      exact copyPageForWrite_withinCapacity ht (hok (by simp [needsPage, hids, hidx, hp, hshared])) seq pageIndex id
    · rw [if_neg hshared]
      exact .bind (promoteToHot_withinCapacity ht id)
  | none =>
    have hreuse := hok (by simp [needsPage, hids, hidx])
    have hv := ((allocate_spec t (.gpu 0)).withinCapacity_iff ht).mpr hreuse
    refine .bind (.require (fun _ => ?_) fun _ => ht)
    refine .bind (.set (.bind (.getOr (fun id _ => ?_) fun _ => hv)))
    exact .bind (.modify (.pure hv))

end PagedKvCache

/-! ### Runs -/

/-- The calls that count references and move pages. -/
inductive TierAction where
  | createSequence (seq : SequenceId)
  | allocate (device : Device)
  | free (id : PageId)
  | retain (id : PageId)
  | promoteToHot (id : PageId)
  | evictLruHot (exclude : Option PageId)
  | evictSequenceToCold (seq : SequenceId)
  | ensurePageForWrite (seq : SequenceId) (pageIndex : ℕ)
  deriving DecidableEq, Repr

namespace PageTable

/-- A new page table, for any number of hot pages, governed or not. -/
def Built (t : PageTable) : Prop :=
  ∃ pageSize numGpuPages tensorConfig layerConfigs quantConfig lease,
    t = { build pageSize numGpuPages tensorConfig layerConfigs quantConfig with poolLease := lease }

/-- One call, however it ends. -/
def tierStep (t : PageTable) : TierAction → PageTable
  | .createSequence seq => t.createSequence seq
  | .allocate device => (t.allocate device).2
  | .free id => t.free id
  | .retain id => t.retain id
  | .promoteToHot id => final (promoteToHot id) t
  | .evictLruHot exclude => final (evictLruHot exclude) t
  | .evictSequenceToCold seq => final (evictSequenceToCold seq) t
  | .ensurePageForWrite seq pageIndex => final (PagedKvCache.ensurePageForWrite seq pageIndex) t

/-- No idle page of the hot tier is brought into use while the tier is full. -/
def TierOk (t : PageTable) : TierAction → Prop
  | .allocate device => t.ReuseOk device
  | .retain id => t.UseOk id
  | .ensurePageForWrite seq pageIndex => PagedKvCache.needsPage t seq pageIndex = true → t.ReuseOk (.gpu 0)
  | _ => True

instance (t : PageTable) (a : TierAction) : Decidable (t.TierOk a) := by
  cases a <;> unfold TierOk <;> infer_instance

/-- The pages of a new table are not referenced. -/
theorem hotOf_foldl_new (f : PageId → Page) (hf : ∀ id, (f id).refCount = 0) (ids : List PageId)
    (pages : FiniteMap PageId Page) (h : hotOf pages = ∅) :
    hotOf (ids.foldl (fun m id => m.insert id (f id)) pages) = ∅ := by
  induction ids generalizing pages with
  | nil => exact h
  | cons id ids ih =>
    refine ih _ ?_
    simp [hotOf_insert, isHotUsed, hf, h]

variable {t : PageTable}

theorem Built.withinCapacity (h : t.Built) : t.WithinCapacity := by
  obtain ⟨pageSize, n, tensorConfig, layerConfigs, quantConfig, lease, rfl⟩ := h
  have hempty := hotOf_foldl_new (fun id => Page.new id (.gpu 0) pageSize layerConfigs quantConfig) (fun _ => rfl)
    ((List.range n).map fun i => i % 2 ^ 32) ∅ rfl
  rw [withinCapacity_iff]
  exact (congrArg card hempty).trans_le (Nat.zero_le _)

theorem evictLruHot_withinCapacity (ht : t.WithinCapacity) (exclude : Option PageId) :
    (final (evictLruHot exclude) t).WithinCapacity := by
  refine Ensures.final (Ensures.mono (evictLruHot_hot exclude t) (fun victim u hu => ?_) fun _ u hu => ?_)
  · exact (hu.2.2.cools (erase_subset _ _)).withinCapacity ht
  · exact (hu.cools (Finset.Subset.refl _)).withinCapacity ht

theorem evictSequenceToCold_withinCapacity (ht : t.WithinCapacity) (seq : SequenceId) :
    (final (evictSequenceToCold seq) t).WithinCapacity := by
  have hwithin : ∀ u, Cools t u → u.WithinCapacity := fun u hu => hu.withinCapacity ht
  refine Ensures.final ?_
  refine .bind (.get ?_)
  cases t.getSequence seq with
  | none => exact .pure ht
  | some ids => exact .mono (demoteAll_cools ids t) (fun _ => hwithin) fun _ => hwithin

/-- One call that meets the condition keeps the capacity. -/
theorem WithinCapacity.tierStep (ht : t.WithinCapacity) {a : TierAction} (ha : t.TierOk a) :
    (t.tierStep a).WithinCapacity := by
  cases a with
  | createSequence seq => exact ht
  | allocate device => exact ((allocate_spec t device).withinCapacity_iff ht).mpr ha
  | free id => exact (free_cools t id).withinCapacity ht
  | retain id => exact (retain_withinCapacity_iff ht id).mpr ha
  | promoteToHot id => exact Ensures.final (promoteToHot_withinCapacity ht id)
  | evictLruHot exclude => exact evictLruHot_withinCapacity ht exclude
  | evictSequenceToCold seq => exact evictSequenceToCold_withinCapacity ht seq
  | ensurePageForWrite seq pageIndex => exact PagedKvCache.ensurePageForWrite_withinCapacity ht seq pageIndex ha

/-- **The hot tier keeps its capacity** in every run in which no idle page of the hot tier is
brought into use while the tier is full. For `allocate` and `retain` the condition is exact. -/
theorem hot_within_capacity {t : PageTable} (h : Reachable Built TierOk tierStep t) :
    t.hotUsedCount ≤ t.hotCapacity ∧
      (∀ device, (t.tierStep (.allocate device)).hotUsedCount ≤ (t.tierStep (.allocate device)).hotCapacity ↔
        t.TierOk (.allocate device)) ∧
      ∀ id, (t.tierStep (.retain id)).hotUsedCount ≤ (t.tierStep (.retain id)).hotCapacity ↔ t.TierOk (.retain id) := by
  have ht : t.WithinCapacity :=
    Reachable.invariant (I := WithinCapacity) (fun _ => Built.withinCapacity) (fun _ _ ht ha => ht.tierStep ha) h
  exact ⟨ht, fun device => (allocate_spec t device).withinCapacity_iff ht, retain_withinCapacity_iff ht⟩

/-- Two pages are taken, one is evicted and its place is taken by a third, which is freed
again; the evicted page is promoted back. -/
def evictAndPromote : List TierAction :=
  [.allocate (.gpu 0), .allocate (.gpu 0), .evictLruHot none, .allocate (.gpu 0), .free 2, .promoteToHot 1]

theorem hot_within_capacity_promoted : (evictAndPromote.foldl tierStep (new 1 2)).hotUsedCount ≤
    (evictAndPromote.foldl tierStep (new 1 2)).hotCapacity :=
  (hot_within_capacity (Reachable.foldl evictAndPromote
    (.start ⟨1, 2, none, [], none, none, rfl⟩) (by decide))).1

/-- After that the tier is full, with the third page still on the free list, and an allocation
reuses it. -/
def evictPromoteReuse : List TierAction := evictAndPromote ++ [.allocate (.gpu 0)]

/-- Without the condition it fails. -/
theorem reused_beyond_capacity : ∃ t : PageTable, Reachable Built (fun _ _ => True) tierStep t ∧
    t.hotCapacity = 2 ∧ t.hotUsedCount = 3 :=
  ⟨evictPromoteReuse.foldl tierStep (new 1 2),
    Reachable.foldl evictPromoteReuse (.start ⟨1, 2, none, [], none, none, rfl⟩) (by decide), by decide, by decide⟩

end PageTable

end OnnxGenai.Kv
