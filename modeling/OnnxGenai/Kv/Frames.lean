import OnnxGenai.Kv.Materialize

/-!
# What an operation leaves alone

Three things the operations keep, whatever else they do. The configuration of the table
never changes (`SameConfig`). Every page has the buffers of an `f32` page (`AllFormed`).
And a page that is referenced before and after keeps its payload (`Kept`): a page is
cleared only when its last reference goes, and is written to only by the sequence that
alone references it.
-/

namespace OnnxGenai.Kv

open Lib

namespace PagedKvCache

open PageTable

/-! ### The configuration -/

variable {t t' : PageTable} {seq : SequenceId} {pageIndex : ℕ} {id : PageId} {held : List PageId}

theorem sameConfig_moved (h : Moved t t') : SameConfig t t' := (samePages_moved h).config

theorem sameConfig_allocate {d : Device} {o : Option PageId} (ha : t.allocate d = (o, t')) : SameConfig t t' := by
  cases allocation_of ha with
  | reused | missing => exact ⟨rfl, rfl, rfl, rfl⟩
  | added _ hroom => exact (sameConfig_moved (moved_of_room hroom.eq)).trans ⟨rfl, rfl, rfl, rfl⟩
  | failed _ hroom => exact sameConfig_moved (moved_of_room hroom)

theorem WritePage.sameConfig (hw : WritePage t seq pageIndex id t') : SameConfig t t' := by
  cases hw with
  | owned _ _ _ _ hm => exact sameConfig_moved hm
  | @copied _ pageId _ _ _ _ _ _ _ _ _ _ _ hm ha =>
    refine ((sameConfig_moved hm).trans (sameConfig_allocate ha)).trans ?_
    refine SameConfig.trans ?_ (sameLayout_free _ pageId).config
    exact ⟨rfl, rfl, rfl, rfl⟩
  | added _ _ ha => exact (sameConfig_allocate ha).trans ⟨rfl, rfl, rfl, rfl⟩

theorem Ready.sameConfig (h : Ready t seq pageIndex id t') : SameConfig t t' := by
  obtain ⟨u, hw, hm⟩ := h
  exact hw.sameConfig.trans (sameConfig_moved hm)

/-! ### Well-formed pages -/

/-- Every page has the buffers of an `f32` page. -/
def AllFormed (t : PageTable) : Prop :=
  ∀ id p, t.pages.lookup id = some p → Formed t.pageSize t.layerConfigs p

/-- Every page has the buffers of a new page of this table. -/
def Laid (t : PageTable) : Prop := ∀ id p, t.pages.lookup id = some p →
  SameStore (Page.new id (.gpu 0) t.pageSize t.layerConfigs t.quantConfig) p

theorem allFormed_iff_laid (hq : t.quantConfig = some (KvQuantConfig.homogeneous .f32 t.layerConfigs.length)) :
    AllFormed t ↔ Laid t := by
  unfold AllFormed Laid
  rw [hq]
  refine forall₃_congr fun id p _ => ⟨fun h => ⟨h.components, h.planned, ?_⟩, fun h => ⟨h.1, h.2.1, ?_⟩⟩
  · rw [h.buffers, (formed_new id (.gpu 0) t.pageSize t.layerConfigs).buffers]
  · rw [h.2.2, (formed_new id (.gpu 0) t.pageSize t.layerConfigs).buffers]

/-- Pages that keep their buffers are laid out as new ones are. -/
theorem Laid.same (h : Laid t) (hs : SamePages t t') : Laid t' := by
  intro id p' hp'
  obtain ⟨p, hp, hsame⟩ := hs.lookup_back hp'
  rw [hs.config.pageSize, hs.config.layerConfigs, hs.config.quantConfig]
  exact (h id p hp).trans hsame

theorem Laid.allocate (h : Laid t) (hc : Counted t held) {d : Device} (ha : t.allocate d = (some id, t')) : Laid t' := by
  have hsame := sameConfig_allocate ha
  intro j p hp
  rw [hsame.pageSize, hsame.layerConfigs, hsame.quantConfig]
  by_cases hj : j = id
  · subst hj
    rcases hc.allocate_self ha with ⟨q, a, hq, -, hself⟩ | ⟨-, a, hself⟩
    · cases hp.symm.trans hself
      exact (h j q hq).trans ⟨rfl, rfl, HostPageStore.resetStorage_layout _⟩
    · cases hp.symm.trans hself
      exact ⟨rfl, rfl, by simp [Page.new]⟩
  · obtain ⟨q, hlook, e, a, rfl, -⟩ := optionRel_some_back (allocate_lookup_ne ha hj) hp
    exact (h j q hlook).trans ⟨rfl, rfl, rfl⟩

theorem WritePage.laid (h : Laid t) (hc : Counted t held) (hw : WritePage t seq pageIndex id t') : Laid t' := by
  cases hw with
  | owned _ _ _ _ hm => exact h.same (samePages_moved hm)
  | @copied _ pageId _ t₁ t₂ _ old new lease _ _ _ _ hm ha hold hnew =>
    have h₂ := (h.same (samePages_moved hm)).allocate (hc.moved hm) ha
    have hcopy : SameStore new { new with
        store := { old.store with residency := new.store.residency }, filled := old.filled } :=
      ⟨rfl, rfl, (h₂ pageId old hold).2.2.trans (h₂ id new hnew).2.2.symm⟩
    refine Laid.same ?_ (sameLayout_free _ pageId).toSamePages
    exact h₂.same (samePages_of_insert hnew rfl hcopy ⟨rfl, rfl, rfl, rfl⟩)
  | added _ _ ha => exact (h.allocate hc ha).same (sameLayout_sequences _ _).toSamePages

theorem Ready.laid (h : Laid t) (hc : Counted t held) (hr : Ready t seq pageIndex id t') : Laid t' := by
  obtain ⟨u, hw, hm⟩ := hr
  exact (hw.laid h hc).same (samePages_moved hm)

/-! ### Payloads -/

/-- A page that is referenced before and after keeps its payload. -/
def Kept (t t' : PageTable) : Prop := ∀ id p p', t.pages.lookup id = some p → t'.pages.lookup id = some p' →
  0 < p.refCount → 0 < p'.refCount → payload p' = payload p

theorem kept_moved (h : Moved t t') : Kept t t' := by
  intro id p p' hp hp' _ _
  obtain ⟨q, hq, hs⟩ := h.lookup hp
  cases hp'.symm.trans hq
  exact payload_tierStep hs

/-- Freeing pages keeps the payload of a page that is still referenced, and its count does
not go up. -/
theorem freeAll_lookup : ∀ {ids : List PageId} {t : PageTable} {id : PageId} {p' : Page},
    (t.freeAll ids).pages.lookup id = some p' → 0 < p'.refCount →
    ∃ p, t.pages.lookup id = some p ∧ payload p' = payload p ∧ p'.refCount ≤ p.refCount
  | [], _, _, p', h, _ => ⟨p', h, rfl, le_rfl⟩
  | j :: ids, t, id, p', h, hpos => by
    have hrest : ((t.free j).freeAll ids).pages.lookup id = some p' := h
    obtain ⟨q, hq, hpay, hle⟩ := freeAll_lookup hrest hpos
    by_cases hj : id = j
    · subst hj
      cases hp : t.pages.lookup id with
      | none =>
        have : t.free id = t := by
          unfold PageTable.free
          rw [hp]
        rw [this, hp] at hq
        cases hq
      | some p =>
        refine ⟨p, rfl, ?_⟩
        unfold PageTable.free at hq
        simp only [hp] at hq
        split_ifs at hq with h0
        · cases (AList.lookup_insert _).symm.trans hq
          simp only [Page.resetStorage] at hle
          omega
        · cases (AList.lookup_insert _).symm.trans hq
          simp only at hle
          exact ⟨hpay, by omega⟩
    · rw [free_lookup_ne t hj] at hq
      exact ⟨q, hq, hpay, hle⟩

theorem kept_freeAll (t : PageTable) (ids : List PageId) : Kept t (t.freeAll ids) := by
  intro id p p' hp hp' _ hpos
  obtain ⟨q, hq, hpay, -⟩ := freeAll_lookup hp' hpos
  cases hp.symm.trans hq
  exact hpay

theorem retainAll_lookup : ∀ {ids : List PageId} {t : PageTable} {id : PageId} {p' : Page},
    (ids.foldl PageTable.retain t).pages.lookup id = some p' →
    ∃ p, t.pages.lookup id = some p ∧ payload p' = payload p
  | [], _, _, p', h => ⟨p', h, rfl⟩
  | j :: ids, t, id, p', h => by
    have hrest : (ids.foldl PageTable.retain (t.retain j)).pages.lookup id = some p' := h
    obtain ⟨q, hq, hpay⟩ := retainAll_lookup hrest
    unfold PageTable.retain at hq
    cases hp : t.pages.lookup j with
    | none =>
      simp only [hp] at hq
      exact ⟨q, hq, hpay⟩
    | some p =>
      simp only [hp] at hq
      by_cases hj : id = j
      · subst hj
        cases (AList.lookup_insert _).symm.trans hq
        exact ⟨p, hp, hpay⟩
      · exact ⟨q, (AList.lookup_insert_ne hj).symm.trans hq, hpay⟩

theorem kept_retainAll (t : PageTable) (ids : List PageId) : Kept t (ids.foldl PageTable.retain t) := by
  intro id p p' hp hp' _ _
  obtain ⟨q, hq, hpay⟩ := retainAll_lookup hp'
  cases hp.symm.trans hq
  exact hpay

/-- Marking a page filled leaves its payload and its count alone. -/
theorem Kept.markFilled {u : PageTable} (h : Kept t u) (ids : List PageId) (n m : ℕ) :
    Kept t (markFilled u ids n m) := by
  unfold PagedKvCache.markFilled
  split
  · cases ids.getLast? with
    | none => exact h
    | some last =>
      intro id p p' hp hp' hpos hpos'
      rw [show (u.adjustPage last fun page => { page with filled := (m - 1) % n + 1 }).pages =
        u.pages.adjust last _ from rfl, FiniteMap.lookup_adjust] at hp'
      split_ifs at hp' with hid
      · obtain ⟨q, hq, rfl⟩ := Option.map_eq_some_iff.mp hp'
        exact h id p q hp (hid ▸ hq) hpos hpos'
      · exact h id p p' hp hp' hpos hpos'
  · exact h

end PagedKvCache

end OnnxGenai.Kv
