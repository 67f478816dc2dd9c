import OnnxGenai.Kv.HotTier
import OnnxGenai.Kv.LocalTiered

/-!
# Room in the hot tier

The connector makes room in the hot tier by demoting a page of a chunk that is not pinned and not
of a higher priority than the chunk that needs the room. `room` counts the pages it can make room
for that way: the unused capacity and the pages it may demote. As long as there is room, a page can
be allocated or promoted within the capacity, each takes at most one place (`room_of_adds`), and
pages that may not be demoted stay hot (`Calm`).
-/

namespace OnnxGenai.Kv

open Lib FiniteMap Finset

namespace PageTable

/-! ### What happens to the pages of a table -/

/-- Whether a page is on the hot tier, in use or not. -/
def onGpu (t : PageTable) (id : PageId) : Bool := (t.pages.lookup id).any fun page => page.residency.isGpu

/-- Each page carries the number it is filed under. -/
def Keyed (t : PageTable) : Prop := ∀ id page, t.pages.lookup id = some page → page.id = id

/-- Page `id` is now `q`; the other pages are as they were. -/
structure Replaced (t t' : PageTable) (id : PageId) (q : Page) : Prop where
  lookup : ∀ j, t'.pages.lookup j = if j = id then some q else t.pages.lookup j
  capacity : t'.hotCapacity = t.hotCapacity

/-- No page leaves the hot tier. -/
structure Keeps (t t' : PageTable) : Prop where
  capacity : t'.hotCapacity = t.hotCapacity
  keyed : t.Keyed → t'.Keyed
  onGpu : ∀ id, t.onGpu id = true → t'.onGpu id = true

section

variable {t t' u : PageTable} {id : PageId} {q : Page}

theorem Keeps.refl (t : PageTable) : Keeps t t := ⟨rfl, fun h => h, fun _ h => h⟩

theorem Keeps.of_pages (hpages : t'.pages = t.pages) (hcapacity : t'.hotCapacity = t.hotCapacity) : Keeps t t' :=
  ⟨hcapacity, by simp only [Keyed, hpages, imp_self], fun _ => by simp only [PageTable.onGpu, hpages, imp_self]⟩

theorem Keeps.trans (h : Keeps t t') (h' : Keeps t' u) : Keeps t u :=
  ⟨h'.capacity.trans h.capacity, fun hk => h'.keyed (h.keyed hk), fun id hid => h'.onGpu id (h.onGpu id hid)⟩

namespace Replaced

theorem hotOf_eq (h : Replaced t t' id q) :
    hotOf t'.pages = if isHotUsed q then insert id (hotOf t.pages) else (hotOf t.pages).erase id := by
  rw [← hotOf_insert]
  apply hotOf_congr
  intro j
  rw [h.lookup, lookup_insert']

theorem onGpu_eq (h : Replaced t t' id q) (j : PageId) :
    t'.onGpu j = if j = id then q.residency.isGpu else t.onGpu j := by
  unfold onGpu
  rw [h.lookup]
  split
  · rfl
  · rfl

theorem keyed (h : Replaced t t' id q) (hq : t.Keyed → q.id = id) (hk : t.Keyed) : t'.Keyed := by
  intro j page hpage
  rw [h.lookup] at hpage
  split at hpage
  case isTrue heq =>
    cases hpage
    rw [heq]
    exact hq hk
  case isFalse => exact hk j page hpage

/-- A page that stays on the hot tier, if it was there. -/
theorem keeps (h : Replaced t t' id q) (hq : t.Keyed → q.id = id) (hgpu : t.onGpu id = true → q.residency.isGpu = true) :
    Keeps t t' where
  capacity := h.capacity
  keyed := h.keyed hq
  onGpu := by
    intro j hj
    rw [h.onGpu_eq]
    split
    case isTrue heq => exact hgpu (heq ▸ hj)
    case isFalse => exact hj

end Replaced

theorem replaced_insert (t : PageTable) (id : PageId) (q : Page) (free : FiniteMap Device (List PageId)) (clock : ℕ)
    (next : PageId) : Replaced t { t with pages := t.pages.insert id q, freePages := free, clock, nextPageId := next } id q :=
  ⟨fun _ => lookup_insert' _ _ _ _, rfl⟩

/-- A page and its changed copy have the same number and place. -/
theorem keeps_of_copy {p : Page} (h : Replaced t t' id q) (hp : t.pages.lookup id = some p) (hid : q.id = p.id)
    (hresidency : q.residency = p.residency) : Keeps t t' := by
  apply h.keeps
  · intro hk
    rw [hid]
    exact hk id p hp
  · intro hgpu
    rw [hresidency]
    simpa [onGpu, hp] using hgpu

theorem migratePage_replaced (id : PageId) (target : Device) (t : PageTable) :
    Ensures (migratePage id target) t
      (fun _ t' => ∃ p, t.pages.lookup id = some p ∧
        Replaced t t' id { p with store := { p.store with residency := target } })
      fun _ t' => t'.pages = t.pages ∧ t'.hotCapacity = t.hotCapacity := by
  refine (migratePage_spec id target t).mono ?_ ?_
  · rintro _ _ ⟨p, pages, lease, hp, rfl, -, hpages⟩
    exact ⟨p, hp, hpages, rfl⟩
  · rintro _ _ ⟨lease, rfl, -⟩
    exact ⟨rfl, rfl⟩

theorem keeps_touch (t : PageTable) (id : PageId) : Keeps t (t.touch id) := by
  unfold touch
  cases hp : t.pages.lookup id with
  | none => exact .refl t
  | some page => exact keeps_of_copy (replaced_insert t id _ t.freePages (t.clock + 1) t.nextPageId) hp rfl rfl

theorem keeps_retain (t : PageTable) (id : PageId) : Keeps t (t.retain id) := by
  unfold retain
  cases hp : t.pages.lookup id with
  | none => exact .refl t
  | some page => exact keeps_of_copy (replaced_insert t id _ t.freePages (t.clock + 1) t.nextPageId) hp rfl rfl

theorem keeps_free (t : PageTable) (id : PageId) : Keeps t (t.free id) := by
  unfold free
  cases hp : t.pages.lookup id with
  | none => exact .refl t
  | some page =>
    dsimp only
    split
    · exact keeps_of_copy (replaced_insert t id _ _ t.clock t.nextPageId) hp rfl rfl
    · exact keeps_of_copy (replaced_insert t id _ t.freePages t.clock t.nextPageId) hp rfl rfl

theorem freeAll_keeps (ids : List PageId) (t : PageTable) :
    Keeps t (t.freeAll ids) ∧ hotOf (t.freeAll ids).pages ⊆ hotOf t.pages := by
  induction ids generalizing t with
  | nil => exact ⟨.refl t, Finset.Subset.refl _⟩
  | cons id ids ih =>
    obtain ⟨hkeeps, hsub⟩ := ih (t.free id)
    exact ⟨(keeps_free t id).trans hkeeps, hsub.trans (free_cools t id).1⟩

/-- A retain of a page that is not idle leaves no page idle that was not. -/
theorem idleHot_retain {j : PageId} (h : t.idleHot j = false) : (t.retain id).idleHot j = false := by
  unfold idleHot at h ⊢
  unfold retain
  cases hp : t.pages.lookup id with
  | none => exact h
  | some page =>
    rw [lookup_insert']
    split
    · simp [u32Max]
    · exact h

theorem retainAll_within (ids : List PageId) (ht : t.WithinCapacity) (hidle : ∀ id ∈ ids, t.idleHot id = false) :
    (ids.foldl retain t).WithinCapacity ∧ Keeps t (ids.foldl retain t) := by
  induction ids generalizing t with
  | nil => exact ⟨ht, .refl t⟩
  | cons id ids ih =>
    have hwithin := (retain_withinCapacity_iff ht id).mpr (.inr (hidle id List.mem_cons_self))
    obtain ⟨hrest, hkeeps⟩ := ih hwithin fun j hj => idleHot_retain (hidle j (List.mem_cons_of_mem _ hj))
    exact ⟨hrest, (keeps_retain t id).trans hkeeps⟩

/-- No page leaves the hot tier or its use there, and at most `id` comes into use. -/
structure Adds (t t' : PageTable) (id : PageId) : Prop where
  keeps : Keeps t t'
  more : hotOf t.pages ⊆ hotOf t'.pages
  only : hotOf t'.pages ⊆ insert id (hotOf t.pages)

/-- A page that comes into use, or stays in it if it is hot. -/
theorem Replaced.adds (h : Replaced t t' id q) (hkeeps : Keeps t t') (hused : id ∈ hotOf t.pages → isHotUsed q = true) :
    Adds t t' id := by
  refine ⟨hkeeps, ?_, ?_⟩
  · rw [h.hotOf_eq]
    split
    · exact subset_insert _ _
    case isFalse hq =>
      intro j hj
      refine mem_erase.mpr ⟨?_, hj⟩
      rintro rfl
      exact hq (hused hj)
  · rw [h.hotOf_eq]
    split
    · exact Finset.Subset.refl _
    · exact (erase_subset _ _).trans (subset_insert _ _)

/-- **An allocation within the capacity evicts nothing.** -/
theorem allocate_adds (h : t.hotUsedCount < t.hotCapacity) :
    ∃ id, (t.allocate (.gpu 0)).1 = some id ∧ Adds t (t.allocate (.gpu 0)).2 id := by
  cases ha : t.allocate (.gpu 0) with
  | mk allocated t' =>
  cases allocation_of ha with
  | @reused id page hlast hp =>
    have hreplaced := replaced_insert t id { page.resetStorage with refCount := 1, lastAccess := t.clock + 1 }
      (t.freePages.insert (.gpu 0) ((t.freePages.lookup (.gpu 0)).getD []).dropLast) (t.clock + 1) t.nextPageId
    refine ⟨id, rfl, hreplaced.adds (keeps_of_copy hreplaced hp rfl rfl) fun hmem => ?_⟩
    obtain ⟨p, hp', hhot⟩ := mem_hotOf.mp hmem
    cases hp.symm.trans hp'
    simp only [isHotUsed, Bool.and_eq_true] at hhot
    simpa [isHotUsed, Page.residency, Page.resetStorage] using hhot.2
  | missing => exact ⟨_, rfl, ⟨rfl, fun hk => hk, fun _ hgpu => hgpu⟩, Finset.Subset.refl _, subset_insert _ _⟩
  | added _ hroom =>
    cases hroom with
    | evicted hfull => exact absurd hfull.2.2 (by omega)
    | roomy =>
      have hreplaced := replaced_insert t t.nextPageId
        { Page.new t.nextPageId (.gpu 0) t.pageSize t.layerConfigs t.quantConfig with
          refCount := 1, lastAccess := t.clock + 1 } t.freePages (t.clock + 1) (min (t.nextPageId + 1) u32Max)
      exact ⟨t.nextPageId, rfl, hreplaced.adds (hreplaced.keeps (fun _ => rfl) fun _ => rfl) fun _ => rfl⟩
  | failed _ _ hfull => exact absurd (hfull rfl) (by omega)

/-- A page that moves to the hot tier. -/
theorem migratePage_adds (id : PageId) (t : PageTable) :
    Ensures (migratePage id (.gpu 0)) t (fun _ t' => Adds t t' id) fun _ t' =>
      t'.pages = t.pages ∧ t'.hotCapacity = t.hotCapacity := by
  refine (migratePage_replaced id (.gpu 0) t).mono (fun _ t' ht' => ?_) fun _ _ h => h
  obtain ⟨p, hp, hreplaced⟩ := ht'
  refine hreplaced.adds (hreplaced.keeps (fun hk => hk id p hp) fun _ => rfl) fun hmem => ?_
  obtain ⟨p', hp', hhot⟩ := mem_hotOf.mp hmem
  cases hp.symm.trans hp'
  simp only [isHotUsed, Bool.and_eq_true] at hhot
  simp [isHotUsed, Page.residency, Device.isGpu, of_decide_eq_true hhot.1]

end

end PageTable

namespace Interior

open PageTable

/-! ### Room -/

/-- A hot page with this number may be demoted for a chunk of priority `incoming`. -/
def mayDemote (s : Interior) (incoming : CachePriority) (id : PageId) : Bool :=
  decide (id ∉ s.pinnedPages) && (s.pagePriority.lookup id).any fun priority => evictRank priority ≥ evictRank incoming

/-- The hot pages that may be demoted. -/
def demotable (s : Interior) (incoming : CachePriority) : Finset PageId :=
  (hotOf s.pageTable.pages).filter fun id => s.mayDemote incoming id = true

/-- How many pages the connector can make room for. -/
def room (s : Interior) (incoming : CachePriority) : ℕ :=
  (s.pageTable.hotCapacity - s.pageTable.hotUsedCount) + (s.demotable incoming).card

/-- The hot pages in use are within the capacity. -/
structure Fits (s : Interior) : Prop where
  within : s.pageTable.WithinCapacity
  keyed : s.pageTable.Keyed

/-- Chunks and pins stay, and hot pages that may not be demoted stay hot. -/
structure Calm (incoming : CachePriority) (s s' : Interior) : Prop where
  chunks : s'.chunks = s.chunks
  pinned : s'.pinned = s.pinned
  capacity : s'.pageTable.hotCapacity = s.pageTable.hotCapacity
  stays : ∀ id, s.mayDemote incoming id = false → s.isHot id = true → s'.isHot id = true

variable {s s' u : Interior} {incoming : CachePriority} {id : PageId}

theorem mayDemote_congr (hchunks : s'.chunks = s.chunks) (hpinned : s'.pinned = s.pinned) :
    s'.mayDemote incoming = s.mayDemote incoming := by
  unfold mayDemote pinnedPages pagePriority
  rw [hchunks, hpinned]

theorem mayDemote_of_pinned (h : id ∈ s.pinnedPages) : s.mayDemote incoming id = false := by
  simp [mayDemote, h]

theorem mem_demotable : id ∈ s.demotable incoming ↔ id ∈ hotOf s.pageTable.pages ∧ s.mayDemote incoming id = true :=
  mem_filter

theorem Calm.refl (incoming : CachePriority) (s : Interior) : Calm incoming s s := ⟨rfl, rfl, rfl, fun _ _ h => h⟩

theorem Calm.trans (h : Calm incoming s s') (h' : Calm incoming s' u) : Calm incoming s u where
  chunks := h'.chunks.trans h.chunks
  pinned := h'.pinned.trans h.pinned
  capacity := h'.capacity.trans h.capacity
  stays := by
    intro id hnot hhot
    rw [← mayDemote_congr h.chunks h.pinned] at hnot
    exact h'.stays id hnot (h.stays id (mayDemote_congr h.chunks h.pinned ▸ hnot) hhot)

/-- The table changes without a page leaving the hot tier. -/
theorem calm_of_keeps (hchunks : s'.chunks = s.chunks) (hpinned : s'.pinned = s.pinned)
    (h : Keeps s.pageTable s'.pageTable) : Calm incoming s s' :=
  ⟨hchunks, hpinned, h.capacity, fun id _ hhot => h.onGpu id hhot⟩

theorem Fits.of_subset (h : s.Fits) (hkeeps : Keeps s.pageTable s'.pageTable)
    (hsub : hotOf s'.pageTable.pages ⊆ hotOf s.pageTable.pages) : s'.Fits := by
  refine ⟨?_, hkeeps.keyed h.keyed⟩
  rw [withinCapacity_iff, hkeeps.capacity]
  exact (card_le_card hsub).trans ((withinCapacity_iff _).mp h.within)

/-! ### Making room -/

/-- The victim is a page that may be demoted. -/
theorem demotionVictim_some (h : s.Fits) (hvictim : s.demotionVictim incoming = some id) :
    id ∈ s.demotable incoming := by
  obtain ⟨⟨page, priority⟩, hmin, rfl⟩ := Option.map_eq_some_iff.mp hvictim
  obtain ⟨hmem, hrank⟩ := List.mem_filter.mp (minBy_mem hmin)
  obtain ⟨e, he, hpriority⟩ := List.mem_filterMap.mp hmem
  obtain ⟨hentry, hhot⟩ := List.mem_filter.mp he
  obtain ⟨priority', hlookup, heq⟩ := Option.map_eq_some_iff.mp hpriority
  cases heq
  have hpage := lookup_of_mem_entries hentry
  have hid := h.keyed e.1 e.2 hpage
  simp only [Bool.and_eq_true] at hhot
  rw [mem_demotable]
  constructor
  · rw [mem_hotOf, hid]
    exact ⟨e.2, hpage, hhot.1⟩
  · simp only [mayDemote, hlookup, Option.any_some, Bool.and_eq_true]
    exact ⟨hhot.2, hrank⟩

/-- Without a victim there is no page that may be demoted. -/
theorem demotionVictim_none (h : s.Fits) (hvictim : s.demotionVictim incoming = none) : s.demotable incoming = ∅ := by
  rw [eq_empty_iff_forall_notMem]
  intro id hmem
  obtain ⟨hhot, hmay⟩ := mem_demotable.mp hmem
  obtain ⟨page, hpage, hused⟩ := mem_hotOf.mp hhot
  have hid := h.keyed id page hpage
  simp only [mayDemote, Bool.and_eq_true] at hmay
  obtain ⟨priority, hlookup, hrank⟩ := (Option.any_eq_true _ _).mp hmay.2
  unfold demotionVictim at hvictim
  rw [Option.map_eq_none_iff, minBy_eq_none, List.filter_eq_nil_iff] at hvictim
  refine hvictim (page, priority) ?_ hrank
  rw [List.mem_filterMap]
  refine ⟨⟨id, page⟩, List.mem_filter.mpr ⟨mem_entries_of_lookup hpage, ?_⟩, ?_⟩
  · simp only [Bool.and_eq_true, hid]
    exact ⟨hused, hmay.1⟩
  · rw [hid, hlookup]
    rfl

/-- A table operation that failed before it changed a page. -/
theorem calm_of_pages {t : PageTable} (h : s.Fits) (hpages : t.pages = s.pageTable.pages)
    (hcapacity : t.hotCapacity = s.pageTable.hotCapacity) :
    Calm incoming s { s with pageTable := t } ∧ Fits { s with pageTable := t } := by
  have hkeeps := Keeps.of_pages hpages hcapacity
  exact ⟨calm_of_keeps rfl rfl hkeeps, h.of_subset hkeeps (by dsimp only; rw [hpages])⟩

theorem liftTable_ensures {α : Type} {x : TableM α} {Q : α → Interior → Prop} {E : ConnectorError → Interior → Prop}
    (h : Ensures x s.pageTable (fun a t => Q a { s with pageTable := t })
      fun error t => E (.backendTable error) { s with pageTable := t }) : Ensures (liftTable x) s Q E := by
  unfold Ensures liftTable
  rcases h.outcome with ⟨a, t, hx, h⟩ | ⟨error, t, hx, h⟩ <;> rw [hx] <;> exact h

/-- What `demote_one` does: one page that may be demoted leaves the hot tier, if there is one. -/
theorem demoteOne_spec (h : s.Fits) (incoming : CachePriority) :
    Ensures (demoteOne incoming) s
      (fun _ s' => Calm incoming s s' ∧ s'.Fits ∧ ((s.demotable incoming = ∅ ∧ s' = s) ∨
        ∃ v ∈ s.demotable incoming, hotOf s'.pageTable.pages = (hotOf s.pageTable.pages).erase v))
      fun _ s' => Calm incoming s s' ∧ s'.Fits := by
  refine .bind (.get ?_)
  cases hvictim : s.demotionVictim incoming with
  | none => exact ⟨.refl _ s, h, .inl ⟨demotionVictim_none h hvictim, rfl⟩⟩
  | some id =>
    have hmem := demotionVictim_some h hvictim
    refine .bind ?_
    refine liftTable_ensures ((migratePage_replaced id .cpu s.pageTable).mono (fun _ t hspec => ?_) fun _ t hspec => ?_)
    · obtain ⟨p, hp, hreplaced⟩ := hspec
      have hhot : hotOf t.pages = (hotOf s.pageTable.pages).erase id := by
        rw [hreplaced.hotOf_eq]
        simp [isHotUsed, Page.residency, Device.isGpu]
      refine ⟨⟨rfl, rfl, hreplaced.capacity, fun j hnot hj => ?_⟩, ⟨?_, ?_⟩, .inr ⟨id, hmem, hhot⟩⟩
      · change t.onGpu j = true
        rw [hreplaced.onGpu_eq, if_neg]
        · exact hj
        · rintro rfl
          cases hnot.symm.trans (mem_demotable.mp hmem).2
      · rw [withinCapacity_iff]
        rw [hhot, hreplaced.capacity]
        exact card_erase_le.trans ((withinCapacity_iff _).mp h.within)
      · exact hreplaced.keyed (fun hk => hk id p hp) h.keyed
    · exact calm_of_pages h hspec.1 hspec.2

/-- **If there is room, `demote_one` makes it.** -/
theorem demoteOne_room (h : s.Fits) (hroom : 0 < s.room incoming)
    (hfull : s.pageTable.hotCapacity < s.pageTable.hotUsedCount + 1) :
    Ensures (demoteOne incoming) s
      (fun _ s' => Calm incoming s s' ∧ s'.Fits ∧ s'.pageTable.hotUsedCount < s'.pageTable.hotCapacity ∧
        s.room incoming ≤ s'.room incoming)
      fun _ s' => Calm incoming s s' ∧ s'.Fits := by
  refine (demoteOne_spec h incoming).mono (fun _ s' hs' => ?_) fun _ _ hs' => hs'
  obtain ⟨hcalm, hfits, hdemoted⟩ := hs'
  refine ⟨hcalm, hfits, ?_⟩
  have hwithin : s.pageTable.hotUsedCount ≤ s.pageTable.hotCapacity := h.within
  unfold room at hroom ⊢
  rcases hdemoted with ⟨hempty, -⟩ | ⟨v, hv, hhot⟩
  · rw [hempty, card_empty] at hroom
    omega
  · have hused : s'.pageTable.hotUsedCount + 1 = s.pageTable.hotUsedCount := by
      rw [← card_hotOf, ← card_hotOf, hhot]
      exact card_erase_add_one (mem_demotable.mp hv).1
    have hdemotable : s'.demotable incoming = (s.demotable incoming).erase v := by
      unfold demotable
      rw [hhot, mayDemote_congr hcalm.chunks hcalm.pinned, filter_erase]
    have hcard := card_erase_add_one hv
    rw [← hdemotable] at hcard
    have hcapacity := hcalm.capacity
    omega

/-! ### Using room -/

/-- **A page that comes into use takes one place**, and none if it may be demoted again. -/
theorem room_of_adds (incoming : CachePriority) (h : s.Fits) (hchunks : s'.chunks = s.chunks) (hpinned : s'.pinned = s.pinned)
    (hadds : Adds s.pageTable s'.pageTable id) (hspace : s.pageTable.hotUsedCount < s.pageTable.hotCapacity) :
    s'.Fits ∧ s.room incoming ≤ s'.room incoming + 1 ∧
      (s.mayDemote incoming id = true → s.room incoming ≤ s'.room incoming) := by
  have hcapacity := hadds.keeps.capacity
  have hmore : s.demotable incoming ⊆ s'.demotable incoming := by
    intro j hj
    obtain ⟨hhot, hmay⟩ := mem_demotable.mp hj
    rw [mem_demotable, mayDemote_congr hchunks hpinned]
    exact ⟨hadds.more hhot, hmay⟩
  have hcard := card_le_card hmore
  rw [← card_hotOf] at hspace
  by_cases hnew : id ∈ hotOf s'.pageTable.pages ∧ id ∉ hotOf s.pageTable.pages
  · have hhot : hotOf s'.pageTable.pages = insert id (hotOf s.pageTable.pages) :=
      Finset.Subset.antisymm hadds.only (insert_subset hnew.1 hadds.more)
    have hused := congrArg card hhot
    rw [card_insert_of_notMem hnew.2] at hused
    refine ⟨⟨?_, hadds.keeps.keyed h.keyed⟩, ?_, fun hmay => ?_⟩
    · rw [withinCapacity_iff]
      omega
    · unfold room
      rw [← card_hotOf, ← card_hotOf]
      omega
    · have hmem : id ∈ s'.demotable incoming := by
        rw [mem_demotable, mayDemote_congr hchunks hpinned]
        exact ⟨hnew.1, hmay⟩
      have hnot : id ∉ s.demotable incoming := fun hin => hnew.2 (mem_demotable.mp hin).1
      have hcard' := card_le_card (insert_subset hmem hmore)
      rw [card_insert_of_notMem hnot] at hcard'
      unfold room
      rw [← card_hotOf, ← card_hotOf]
      omega
  · have hhot : hotOf s'.pageTable.pages = hotOf s.pageTable.pages := by
      refine Finset.Subset.antisymm (fun j hj => ?_) hadds.more
      rcases mem_insert.mp (hadds.only hj) with rfl | hin
      · exact not_not.mp fun hnot => hnew ⟨hj, hnot⟩
      · exact hin
    have hused := congrArg card hhot
    have hroom : s.room incoming ≤ s'.room incoming := by
      unfold room
      rw [← card_hotOf, ← card_hotOf]
      omega
    refine ⟨⟨?_, hadds.keeps.keyed h.keyed⟩, hroom.trans (Nat.le_succ _), fun _ => hroom⟩
    rw [withinCapacity_iff]
    omega

/-- Allocation when there is space. -/
theorem allocatePage_room (h : s.Fits) (incoming : CachePriority)
    (hspace : s.pageTable.hotUsedCount < s.pageTable.hotCapacity) :
    Ensures allocatePage s (fun _ s' => Calm incoming s s' ∧ s'.Fits ∧ s.room incoming ≤ s'.room incoming + 1)
      fun _ s' => Calm incoming s s' ∧ s'.Fits := by
  obtain ⟨id, hid, hadds⟩ := allocate_adds hspace
  unfold Ensures allocatePage
  rw [show s.pageTable.allocate (.gpu 0) = (some id, (s.pageTable.allocate (.gpu 0)).2) from Prod.ext hid rfl]
  have hroom : Fits { s with pageTable := (s.pageTable.allocate (.gpu 0)).2 } ∧ _ :=
    room_of_adds incoming h rfl rfl hadds hspace
  exact ⟨calm_of_keeps rfl rfl hadds.keeps, hroom.1, hroom.2.1⟩

theorem allocateHot_room {policy : RuntimeTieringPolicy} (h : s.Fits)
    (hbudget : policy.hotPageBudget = s.pageTable.hotCapacity) (hroom : 0 < s.room incoming) :
    Ensures (allocateHot incoming policy) s
      (fun _ s' => Calm incoming s s' ∧ s'.Fits ∧ s.room incoming ≤ s'.room incoming + 1)
      fun _ s' => Calm incoming s s' ∧ s'.Fits := by
  refine .bind (.get ?_)
  unfold RuntimeTieringPolicy.needsColdMigration
  rw [hbudget]
  split
  case isTrue hfull =>
    refine .bind ((demoteOne_room h hroom (of_decide_eq_true hfull)).mono (fun _ t ht => ?_) fun _ _ he => he)
    obtain ⟨hcalm, hfits, hspace, hroom'⟩ := ht
    refine (allocatePage_room hfits incoming hspace).mono (fun _ u hu => ?_) fun _ u hu => ?_
    · exact ⟨hcalm.trans hu.1, hu.2.1, hroom'.trans hu.2.2⟩
    · exact ⟨hcalm.trans hu.1, hu.2⟩
  case isFalse hspace =>
    apply allocatePage_room h incoming
    have := of_decide_eq_false (eq_false_of_ne_true hspace)
    omega

/-- The pages of a new chunk, if there is room for all. -/
theorem allocatePages_room {policy : RuntimeTieringPolicy} (n : ℕ) (pages : List PageId) {s : Interior} (h : s.Fits)
    (hbudget : policy.hotPageBudget = s.pageTable.hotCapacity) (hroom : n ≤ s.room incoming) :
    Ensures (allocatePages incoming policy n pages) s (fun _ s' => Calm incoming s s' ∧ s'.Fits)
      fun _ s' => Calm incoming s s' ∧ s'.Fits := by
  induction n generalizing pages s with
  | zero => exact ⟨.refl _ s, h⟩
  | succ n ih =>
    refine .bind (.attempt ?_)
    refine (allocateHot_room h hbudget (by omega)).mono (fun id t ht => ?_) fun error t ht => ?_
    · obtain ⟨hcalm, hfits, hroom'⟩ := ht
      refine (ih _ hfits (by rw [hbudget, hcalm.capacity]) (by omega)).mono (fun _ u hu => ?_) fun _ u hu => ?_
      · exact ⟨hcalm.trans hu.1, hu.2⟩
      · exact ⟨hcalm.trans hu.1, hu.2⟩
    · obtain ⟨hcalm, hfits⟩ := ht
      obtain ⟨hkeeps, hsub⟩ := freeAll_keeps pages t.pageTable
      refine .bind (.modify (.throw ⟨hcalm.trans (calm_of_keeps rfl rfl hkeeps), ?_⟩))
      exact hfits.of_subset hkeeps hsub

end Interior

end OnnxGenai.Kv
