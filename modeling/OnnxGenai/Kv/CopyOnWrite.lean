import OnnxGenai.Kv.RefCount

/-!
# Copy on write

`ensurePageForWrite` gives a sequence a page of its own to write to. When the page is
shared it allocates a page, copies the shared one into it and swaps the two, as a
transaction: a failure on the way is rolled back. Here it is proved what the
transaction does when it succeeds (`copyPageForWrite_spec`), and that a failure leaves
the table as it was, up to a move of pages between the tiers.
-/

namespace OnnxGenai.Kv

open Lib List FiniteMap AList Nat

namespace PageTable

/-! ### Rolling back -/

variable {t u t' : PageTable} {id : PageId} {held : List PageId} {d : Device}

/-- Tables that agree on everything but the clock and the lease, with the same pages under
each id, are the same up to a tier move. -/
theorem moved_of_lookup {pages : FiniteMap PageId Page} {clock : ℕ} {lease : Option MemoryLease}
    (h : t' = { t with pages := pages, clock := clock, poolLease := lease })
    (hl : ∀ j, pages.lookup j = t.pages.lookup j) : Moved t t' := by
  refine ⟨pages, clock, lease, h, fun j => ?_⟩
  rw [hl]
  exact optionRel_refl TierStep.refl _

theorem Counted.lookup_next (h : Counted t held) : t.pages.lookup t.nextPageId = none := by
  cases hp : t.pages.lookup t.nextPageId with
  | none => rfl
  | some p => exact absurd (h.fresh _ p hp) (lt_irrefl _)

/-- **Rollback**: undoing the allocation of `id`, after anything was written to its page,
gives the table of the checkpoint back. -/
theorem rollbackAllocation_moved {t₂ : PageTable} {growth : Option ℕ} {q : FiniteMap PageId Page} (h : Counted t held)
    (hu : Asked t u) (ha : u.allocate (.gpu 0) = (some id, t₂)) (hq : ∀ j, j ≠ id → q.lookup j = t₂.pages.lookup j) :
    Ensures (rollbackAllocation (t.checkpointOf (.gpu 0) growth) id) { t₂ with pages := q }
      (fun _ => Moved t) fun _ => Moved t := by
  obtain ⟨lease, rfl, -⟩ := hu
  cases allocation_of ha with
  | @reused _ p hlast hp =>
    -- a free page was reused: nothing was evicted, and the page is put back
    have hre : t.reusable (.gpu 0) = some p := Option.bind_eq_some_iff.mpr ⟨id, hlast, hp⟩
    have hev : t.evictee (.gpu 0) = none := if_neg fun hc => by
      rw [length_eq_zero_iff.mp hc.2.1] at hlast
      cases hlast
    refine rollbackAllocation_rule rfl (fun _ => moved_of_lookup rfl fun j => ?_) fun v store _ he => ?_
    · simp only [checkpointOf, hre, restored, lookup_insert']
      by_cases hj : j = id
      · rw [if_pos hj, hj]
        exact hp.symm
      · rw [if_neg hj, hq j hj]
        exact lookup_insert_ne hj
    · simp [checkpointOf, hev] at he
  | missing hlast hp => exact (h.not_missing hlast hp).elim
  | added hlast hroom =>
    -- the page is new
    have hre : t.reusable (.gpu 0) = none := by
      unfold reusable
      rw [show (t.freeList (.gpu 0)).getLast? = none from hlast]
      rfl
    have hnone : t.pages.lookup t.nextPageId = none := h.lookup_next
    cases hroom with
    | @evicted victim _ hfull hx =>
      obtain ⟨hv, p, pages, lease₂, hp, rfl, -, hpages⟩ := (evictLruHot_spec none _).ok hx
      replace hv : t.lruHot none = some victim := hv
      have hev : t.evictee (.gpu 0) = some (victim, p) := by
        unfold evictee
        rw [if_pos (by exact hfull), hv]
        simp [hp]
      have hvn : victim ≠ t.nextPageId := fun hc => by
        rw [← hc, hp] at hnone
        cases hnone
      refine rollbackAllocation_rule rfl (fun hgone => ?_) fun v store page he hpage => ?_
      · have := hgone _ (by simp [checkpointOf, hev]; rfl)
        simp [checkpointOf, hre, restored, hvn, hq victim hvn, allocateFresh, hpages] at this
      · simp only [checkpointOf, hev, Option.map_some, Option.some.injEq, Prod.mk.injEq] at he
        obtain ⟨rfl, rfl⟩ := he
        simp only [checkpointOf, hre, restored, lookup_erase', if_neg hvn, hq victim hvn, allocateFresh,
          lookup_insert', hpages, if_true] at hpage
        cases hpage
        refine moved_of_lookup rfl fun j => ?_
        simp only [checkpointOf, hre, restored, lookup_erase', lookup_insert']
        by_cases hj : j = victim
        · rw [if_pos hj, hj]
          exact hp.symm
        · by_cases hjn : j = t.nextPageId
          · rw [if_neg hj, if_pos hjn, hjn]
            exact hnone.symm
          · simp [hj, hjn, hq j hjn, allocateFresh, hpages]
    | roomy hroom =>
      have hev : t.evictee (.gpu 0) = none := if_neg hroom
      refine rollbackAllocation_rule rfl (fun _ => moved_of_lookup rfl fun j => ?_) fun v store _ he => ?_
      · simp only [checkpointOf, hre, restored, lookup_erase']
        by_cases hj : j = t.nextPageId
        · rw [if_pos hj, hj]
          exact hnone.symm
        · simp [hj, hq j hj, allocateFresh]
      · simp [checkpointOf, hev] at he

/-! ### What an allocation leaves alone -/

/-- An allocation moves the other pages between the tiers at most. -/
theorem allocate_lookup_ne {j : PageId} (ha : t.allocate d = (some id, t')) (hj : j ≠ id) :
    Option.Rel TierStep (t.pages.lookup j) (t'.pages.lookup j) := by
  cases allocation_of ha with
  | reused =>
    simp only [lookup_insert_ne hj]
    exact optionRel_refl TierStep.refl _
  | missing => exact optionRel_refl TierStep.refl _
  | added _ hroom =>
    obtain ⟨pages, clock, lease, rfl, hr⟩ := moved_of_room hroom.eq
    exact (lookup_insert_ne hj).symm ▸ hr j

/-- The page an allocation gives: an unreferenced one, cleared, or a new one. -/
theorem Counted.allocate_self (h : Counted t held) (ha : t.allocate d = (some id, t')) :
    (∃ p a, t.pages.lookup id = some p ∧ p.refCount = 0 ∧
        t'.pages.lookup id = some { p.resetStorage with refCount := 1, lastAccess := a }) ∨
      t.pages.lookup id = none ∧ ∃ a, t'.pages.lookup id =
        some { Page.new id d t.pageSize t.layerConfigs t.quantConfig with refCount := 1, lastAccess := a } := by
  cases allocation_of ha with
  | @reused _ p hlast hp => exact .inl ⟨p, _, hp, (h.reuse hlast hp).2.1, lookup_insert _⟩
  | missing hlast hp => exact (h.not_missing hlast hp).elim
  | added _ hroom =>
    obtain ⟨pages, clock, lease, rfl, -⟩ := moved_of_room hroom.eq
    exact .inr ⟨h.lookup_next, clock + 1, lookup_insert _⟩

/-- An allocation never gives a referenced page. -/
theorem Counted.allocate_ne {j : PageId} {p : Page} (h : Counted t held) (ha : t.allocate d = (some id, t'))
    (hp : t.pages.lookup j = some p) (hpos : 0 < p.refCount) : j ≠ id := by
  rintro rfl
  rcases h.allocate_self ha with ⟨q, a, hq, h0, -⟩ | ⟨hn, -⟩
  · rw [hp] at hq
    cases hq
    omega
  · rw [hp] at hn
    cases hn

/-! ### Page ids are handed out in order -/

/-- No id was handed out. -/
def SameNext (t t' : PageTable) : Prop := t'.nextPageId = t.nextPageId

/-- The next id did not go down, unless it is at the end of its range. -/
def NextMono (t t' : PageTable) : Prop := t'.nextPageId < u32Max → t.nextPageId ≤ t'.nextPageId

theorem SameNext.mono (h : SameNext t t') : NextMono t t' := fun _ => le_of_eq h.symm

theorem NextMono.trans {v : PageTable} (h₁ : NextMono t u) (h₂ : NextMono u v) : NextMono t v :=
  fun hv => le_trans (h₁ (lt_of_le_of_lt (h₂ hv) hv)) (h₂ hv)

@[simp] theorem free_nextPageId (t : PageTable) (id : PageId) : (t.free id).nextPageId = t.nextPageId :=
  (sameLayout_free t id).nextPageId

theorem allocate_next {o : Option PageId} (ha : t.allocate d = (o, t')) : NextMono t t' := by
  cases allocation_of ha with
  | reused | missing => exact SameNext.mono rfl
  | added _ hroom =>
    intro hlt
    rw [← (moved_of_room hroom.eq).nextPageId]
    exact (le_succ _).trans (le_min le_rfl ((min_lt_iff.mp hlt).resolve_right (lt_irrefl _)).le)
  | failed _ hroom => exact SameNext.mono (moved_of_room hroom).nextPageId

end PageTable

namespace PagedKvCache

open PageTable

/-! ### The transaction -/

/-- The ways to get a page of one's own to write to. -/
inductive WritePage (t : PageTable) (seq : SequenceId) (pageIndex : ℕ) : PageId → PageTable → Prop where
  /-- The page was not shared. -/
  | owned {r : Sequence} {id : PageId} {p : Page} {t' : PageTable}
      (hr : t.sequences.lookup seq = some r) (hid : r.pages[pageIndex]? = some id)
      (hp : t.pages.lookup id = some p) (hc : p.refCount ≤ 1) (hm : Moved t t') :
      WritePage t seq pageIndex id t'
  /-- The page was shared, and is copied. -/
  | copied {r : Sequence} {pageId id : PageId} {t₁ t₂ : PageTable} {p old new : Page}
      (lease : Option MemoryLease) (hr : t.sequences.lookup seq = some r)
      (hid : r.pages[pageIndex]? = some pageId) (hp : t.pages.lookup pageId = some p)
      (hc : 1 < p.refCount) (hm : Moved t t₁)
      (ha : t₁.allocate (.gpu 0) = (some id, t₂)) (hold : t₂.pages.lookup pageId = some old)
      (hnew : t₂.pages.lookup id = some new) :
      WritePage t seq pageIndex id (withCopy t₂ seq pageIndex pageId id old new lease)
  /-- There was no page yet. -/
  | added {r : Sequence} {id : PageId} {t₁ : PageTable} (hr : t.sequences.lookup seq = some r)
      (hlen : pageIndex = r.pages.length) (ha : t.allocate (.gpu 0) = (some id, t₁)) :
      WritePage t seq pageIndex id (t₁.pushPage seq id)

variable {t t' : PageTable} {held : List PageId} {id : PageId} {seq : SequenceId} {pageIndex : ℕ} {p : Page}

/-- Copy on write gives the sequence a copy, or fails and leaves the table as it was. -/
theorem copyPageForWrite_spec (h : Counted t held) {r : Sequence} {pageId : PageId}
    (hr : t.sequences.lookup seq = some r) (hid : r.pages[pageIndex]? = some pageId)
    (hp : t.pages.lookup pageId = some p) (hc : 1 < p.refCount) :
    Ensures (copyPageForWrite seq pageIndex pageId) t (WritePage t seq pageIndex) fun _ t' => Moved t t' := by
  have hasked : ∀ {u}, Asked t u → Moved t u := fun hu => moved_of_asks (hu.imp fun _ => And.left)
  refine copyPageForWrite_rule (fun u => hasked) (fun u v hu ha => (hasked hu).trans (allocate_none ha)) ?_ ?_ ?_
  · rintro p' id v ⟨hp', u, hu, ha⟩ hn
    cases hp.symm.trans hp'
    have hm := h.moved (hasked hu)
    obtain ⟨lease, rfl, -⟩ := hu
    rcases hn with hn | hn
    · obtain ⟨q, hq, -⟩ := optionRel_some (allocate_lookup_ne ha (hm.allocate_ne ha hp (by omega))) hp
      cases hn.symm.trans hq
    · rcases hm.allocate_self ha with ⟨q, a, -, -, hq⟩ | ⟨-, a, hq⟩ <;> cases hq.symm.trans hn
  · rintro p' id v new pages growth ⟨-, u, hu, ha⟩ - hpages
    refine rollbackAllocation_moved h hu ha fun j hj => ?_
    rcases hpages with rfl | ⟨copy, rfl, -⟩
    · rfl
    · exact lookup_insert_ne hj
  · rintro p' id v old new lease ⟨-, u, hu, ha⟩ hold hnew - -
    exact .copied lease hr hid hp hc (hasked hu) ha hold hnew

/-- Freeing a page leaves the others alone. -/
theorem free_lookup_ne (t : PageTable) {j : PageId} (hj : j ≠ id) :
    (t.free id).pages.lookup j = t.pages.lookup j := by
  unfold PageTable.free
  cases t.pages.lookup id with
  | none => rfl
  | some p =>
    simp only
    split <;> exact lookup_insert_ne hj

/-- Freeing a shared page takes one reference off. -/
theorem free_lookup_self (hp : t.pages.lookup id = some p) (hc : 1 < p.refCount) :
    (t.free id).pages.lookup id = some { p with refCount := p.refCount - 1 } := by
  unfold PageTable.free
  have h0 : ¬ p.refCount - 1 = 0 := by omega
  simp only [hp, h0, if_false]
  exact lookup_insert _

/-- Giving the last reference up resets the page. -/
theorem free_lookup_last (hp : t.pages.lookup id = some p) (hc : p.refCount = 1) :
    (t.free id).pages.lookup id = some ({ p with refCount := 0 } : Page).resetStorage := by
  unfold PageTable.free
  simp only [hp, hc, sub_self, if_true]
  exact lookup_insert _

/-- The pages a sequence names are referenced. -/
theorem seqRefs_pos {r : Sequence} (hr : t.sequences.lookup seq = some r) (hid : id ∈ r.pages) : 0 < t.seqRefs id :=
  lt_of_lt_of_le (count_pos_iff.mpr hid) (le_total (fun r => r.pages.count id) hr)

theorem allReferenced (h : Counted t held) : AllReferenced t := by
  intro seq r hr id hid p hp
  rw [h.refCount id p hp]
  exact lt_of_lt_of_le (seqRefs_pos hr hid) (le_add_right _ _)

/-- **Copy on write**: a page of one's own to write to, or a failure that leaves the table
as it was, but for moves between the tiers. -/
theorem ensurePageForWrite_spec (h : Counted t held) (seq : SequenceId) (pageIndex : ℕ) :
    Ensures (ensurePageForWrite seq pageIndex) t (WritePage t seq pageIndex) fun _ t' => Moved t t' := by
  refine .bind (.get (.bind (.getOr (fun ids hids => ?_) fun _ => Moved.refl t)))
  obtain ⟨r, hr, rfl⟩ := Option.map_eq_some_iff.mp hids
  cases hid : r.pages[pageIndex]? with
  | some pageId =>
    refine .bind (.getOr (fun p hp => ?_) fun _ => Moved.refl t)
    by_cases hc : p.refCount > 1
    · rw [if_pos hc]
      exact copyPageForWrite_spec h hr hid hp hc
    · rw [if_neg hc]
      have hpos := allReferenced h seq r hr pageId (mem_of_getElem? hid)
      refine .bind (.mono (promoteToHot_moved hpos) (fun _ t' hm => ?_) fun _ _ hm => hm)
      exact .pure (.owned hr hid hp (not_lt.mp hc) hm)
  | none =>
    refine .bind (.require (fun hlen => ?_) fun _ => Moved.refl t)
    cases ha : t.allocate (.gpu 0) with
    | mk allocated t₁ =>
    refine .bind (.set (.bind (.getOr ?_ ?_)))
    · rintro id rfl
      exact .bind (.modify (.pure (.added hr hlen ha)))
    · rintro rfl
      exact allocate_none ha

/-- The payload of a page: its buffers, wherever they are. -/
def payload (p : Page) : HostPageStore := { p.store with residency := .cpu }

theorem payload_tierStep {p' : Page} (h : TierStep p p') : payload p' = payload p := by
  obtain ⟨d, a, rfl, -⟩ := h
  rfl

/-- The page to write to is referenced once, and is the page that was there or a copy of
it. -/
theorem WritePage.lookup_self (h : Counted t held) (hw : WritePage t seq pageIndex id t') :
    ∃ p', t'.pages.lookup id = some p' ∧ p'.refCount = 1 ∧
      ∀ r j p, t.sequences.lookup seq = some r → r.pages[pageIndex]? = some j →
        t.pages.lookup j = some p → payload p' = payload p := by
  cases hw with
  | owned hr hid hp hc hm =>
    obtain ⟨p', hp', hs⟩ := hm.lookup hp
    have hpos := allReferenced h seq _ hr id (mem_of_getElem? hid) _ hp
    refine ⟨p', hp', by rw [hs.refCount]; omega, fun r j p hr' hj hpj => ?_⟩
    cases hr.symm.trans hr'
    cases hid.symm.trans hj
    cases hp.symm.trans hpj
    exact payload_tierStep hs
  | @copied _ pageId _ _ t₂ p₀ old new lease hr hid hp hc hm ha hold hnew =>
    have h₁ := h.moved hm
    obtain ⟨p₁, hp₁, hs₁⟩ := hm.lookup hp
    have hne : pageId ≠ id := h₁.allocate_ne ha hp₁ (by rw [hs₁.refCount]; omega)
    have hcount : new.refCount = 1 := by
      rcases h₁.allocate_self ha with ⟨q, a, -, -, hq⟩ | ⟨-, a, hq⟩ <;>
      · rw [hnew] at hq
        cases hq
        rfl
    refine ⟨{ new with store := { old.store with residency := new.store.residency }, filled := old.filled },
      ?_, hcount, fun r j p hr' hj hpj => ?_⟩
    · unfold withCopy
      rw [free_lookup_ne _ hne.symm]
      exact lookup_insert _
    · cases hr.symm.trans hr'
      cases hid.symm.trans hj
      cases hp.symm.trans hpj
      obtain ⟨q, hq, hs⟩ := optionRel_some (allocate_lookup_ne ha hne) hp₁
      cases hold.symm.trans hq
      exact (payload_tierStep hs).trans (payload_tierStep hs₁)
  | added hr hlen ha =>
    have hnone : ∀ r j, t.sequences.lookup seq = some r → r.pages[pageIndex]? ≠ some j := by
      intro r j hr' hj
      cases hr.symm.trans hr'
      rw [hlen] at hj
      simp at hj
    rcases h.allocate_self ha with ⟨q, a, -, -, hq⟩ | ⟨-, a, hq⟩
    · exact ⟨_, hq, rfl, fun r j p hr' hj => absurd hj (hnone r j hr')⟩
    · exact ⟨_, hq, rfl, fun r j p hr' hj => absurd hj (hnone r j hr')⟩

/-- The other referenced pages keep their payload. -/
theorem WritePage.lookup_ne {j : PageId} (hw : WritePage t seq pageIndex id t') (hj : j ≠ id)
    (hp : t.pages.lookup j = some p) : ∃ p', t'.pages.lookup j = some p' ∧ payload p' = payload p := by
  cases hw with
  | owned _ _ _ _ hm =>
    obtain ⟨p', hp', hs⟩ := hm.lookup hp
    exact ⟨p', hp', payload_tierStep hs⟩
  | @copied _ pageId _ _ t₂ p₀ old new lease hr hid hp₀ hc hm ha hold hnew =>
    obtain ⟨p₁, hp₁, hs₁⟩ := hm.lookup hp
    obtain ⟨p₂, hp₂, hs₂⟩ := optionRel_some (allocate_lookup_ne ha hj) hp₁
    have hpay := (payload_tierStep hs₂).trans (payload_tierStep hs₁)
    unfold withCopy
    by_cases hjp : j = pageId
    · subst hjp
      have hc₂ : 1 < p₂.refCount := by
        cases hp₀.symm.trans hp
        rw [hs₂.refCount, hs₁.refCount]
        exact hc
      exact ⟨_, free_lookup_self ((lookup_insert_ne hj).trans hp₂) hc₂, hpay⟩
    · rw [free_lookup_ne _ hjp]
      exact ⟨p₂, (lookup_insert_ne hj).trans hp₂, hpay⟩
  | @added _ _ t₁ hr hlen ha =>
    obtain ⟨p₁, hp₁, hs⟩ := optionRel_some (allocate_lookup_ne ha hj) hp
    exact ⟨p₁, hp₁, payload_tierStep hs⟩

/-! ### Accounting -/

/-- Getting a page to write to moves no reference but those of the sequence. -/
theorem WritePage.counted (h : Counted t held) (hw : WritePage t seq pageIndex id t')
    (hfit : t'.nextPageId < u32Max) : Counted t' held := by
  cases hw with
  | owned _ _ _ _ hm => exact h.moved hm
  | @copied r pageId _ t₁ t₂ p₀ old new lease hr hid hp hc hm ha hold hnew =>
    have hfit₂ : t₂.nextPageId < u32Max := by simpa [withCopy, PageTable.replacePage, adjustSequence] using hfit
    have hnext : t₁.nextPageId < u32Max := lt_of_le_of_lt (allocate_next ha hfit₂) hfit₂
    obtain ⟨h₂, hseq, -⟩ := (h.moved hm).allocate hnext ha
    have hr₂ : t₂.sequences.lookup seq = some r := by rw [hseq, hm.sequences, hr]
    refine Counted.free (Counted.replacePage ?_ hr₂ hid)
    exact h₂.update hnew (by rfl) (by rfl)
  | @added r _ t₁ hr hlen ha =>
    have hfit₁ : t₁.nextPageId < u32Max := hfit
    have hnext : t.nextPageId < u32Max := lt_of_le_of_lt (allocate_next ha hfit₁) hfit₁
    obtain ⟨h₁, hseq, -⟩ := h.allocate hnext ha
    exact h₁.pushPage (by rw [hseq, hr])

theorem copyPageForWrite_next (seq : SequenceId) (pageIndex : ℕ) (pageId : PageId) (t : PageTable) :
    Stays NextMono (copyPageForWrite seq pageIndex pageId) t := by
  have hasked : ∀ u, Asked t u → NextMono t u := by
    rintro _ ⟨lease, rfl, -⟩
    exact SameNext.mono rfl
  refine copyPageForWrite_rule hasked (fun u v hu ha => (hasked u hu).trans (allocate_next ha)) ?_ ?_ ?_
  · rintro p id v ⟨-, u, hu, ha⟩ -
    exact (hasked u hu).trans (allocate_next ha)
  · intro p id v new pages growth _ _ _
    exact rollbackAllocation_rule rfl (fun _ => SameNext.mono rfl) fun _ _ _ _ _ => SameNext.mono rfl
  · rintro p id v old new lease ⟨-, u, hu, ha⟩ - - - -
    refine (hasked u hu).trans ((allocate_next ha).trans (SameNext.mono ?_))
    unfold SameNext withCopy
    rw [free_nextPageId]
    rfl

theorem ensurePageForWrite_next (seq : SequenceId) (pageIndex : ℕ) (t : PageTable) :
    Stays NextMono (ensurePageForWrite seq pageIndex) t := by
  have hrefl : NextMono t t := SameNext.mono rfl
  refine Ensures.bind (Ensures.get (Ensures.bind (Ensures.getOr (fun ids _ => ?_) fun _ => hrefl)))
  cases ids[pageIndex]? with
  | some pageId =>
    refine .bind (.getOr (fun p _ => ?_) fun _ => hrefl)
    split
    · exact copyPageForWrite_next seq pageIndex pageId t
    · refine .bind (.mono (promoteToHot_tiered pageId t) ?_ fun _ _ h => SameNext.mono h.sameLayout.nextPageId)
      exact fun _ _ h => .pure (SameNext.mono h.sameLayout.nextPageId)
  | none =>
    refine .bind (.require (fun _ => ?_) fun _ => hrefl)
    cases ha : t.allocate (.gpu 0) with
    | mk allocated t₁ =>
    have hnext := allocate_next ha
    refine .bind (.set (.bind (.getOr (fun id _ => ?_) fun _ => hnext)))
    exact .bind (.modify (.pure hnext))

end PagedKvCache

end OnnxGenai.Kv
