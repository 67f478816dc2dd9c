import OnnxGenai.Kv.PagedCache

/-!
# Moving pages between the tiers

What an operation of the tiers can do to a table, said once: it may change where a
referenced page is and when a page was last used, and what the governor was asked; it
changes nothing else (`Moved`). Migration, promotion, eviction, preemption and
restoring are each proved to be such a step, whether they succeed or fail.
-/

namespace OnnxGenai.Kv

open Lib FiniteMap

/-- Page `p` after a tier operation: perhaps elsewhere, if it is referenced, and perhaps
used since. -/
def TierStep (p p' : Page) : Prop :=
  ∃ d a, p' = { p with lastAccess := a, store := { p.store with residency := d } } ∧
    (p.refCount = 0 → d = p.residency)

theorem TierStep.refl (p : Page) : TierStep p p := ⟨p.residency, p.lastAccess, rfl, fun _ => rfl⟩

variable {p p' : Page} {t : PageTable} {id : PageId}

theorem TierStep.trans {q r : Page} (h₁ : TierStep p q) (h₂ : TierStep q r) : TierStep p r := by
  obtain ⟨d₁, a₁, rfl, hd₁⟩ := h₁
  obtain ⟨d₂, a₂, rfl, hd₂⟩ := h₂
  refine ⟨d₂, a₂, rfl, fun h0 => ?_⟩
  rw [hd₂ h0]
  exact hd₁ h0

theorem TierStep.refCount (h : TierStep p p') : p'.refCount = p.refCount := by
  obtain ⟨d, a, rfl, -⟩ := h
  rfl

/-- The table after tier operations. -/
def Moved (t t' : PageTable) : Prop :=
  ∃ pages clock lease, t' = { t with pages := pages, clock := clock, poolLease := lease } ∧
    ∀ id, Option.Rel TierStep (t.pages.lookup id) (pages.lookup id)

theorem optionRel_refl {α : Type} {R : α → α → Prop} (h : ∀ a, R a a) : ∀ o : Option α, Option.Rel R o o
  | none => .none
  | some a => .some (h a)

theorem optionRel_trans {α : Type} {R : α → α → Prop} (h : ∀ a b c, R a b → R b c → R a c)
    {x y z : Option α} (h₁ : Option.Rel R x y) (h₂ : Option.Rel R y z) : Option.Rel R x z := by
  cases h₁ with
  | none => exact h₂
  | some hab =>
    cases h₂ with
    | some hbc => exact .some (h _ _ _ hab hbc)

theorem optionRel_some {α : Type} {R : α → α → Prop} {x y : Option α} {a : α} (h : Option.Rel R x y) (hx : x = some a) :
    ∃ b, y = some b ∧ R a b := by
  subst hx
  cases h with
  | some hab => exact ⟨_, rfl, hab⟩

theorem optionRel_some_back {α : Type} {R : α → α → Prop} {x y : Option α} {b : α} (h : Option.Rel R x y)
    (hy : y = some b) : ∃ a, x = some a ∧ R a b := by
  subst hy
  cases h with
  | some hab => exact ⟨_, rfl, hab⟩

theorem optionRel_mono {α : Type} {R S : α → α → Prop} {x y : Option α} (h : Option.Rel R x y)
    (hRS : ∀ a b, x = some a → R a b → S a b) : Option.Rel S x y := by
  cases h with
  | none => exact .none
  | some hab => exact .some (hRS _ _ rfl hab)

namespace Moved

theorem refl (t : PageTable) : Moved t t :=
  ⟨t.pages, t.clock, t.poolLease, rfl, fun _ => optionRel_refl TierStep.refl _⟩

theorem trans {u v : PageTable} (h₁ : Moved t u) (h₂ : Moved u v) : Moved t v := by
  obtain ⟨p₁, c₁, l₁, rfl, r₁⟩ := h₁
  obtain ⟨p₂, c₂, l₂, rfl, r₂⟩ := h₂
  exact ⟨p₂, c₂, l₂, rfl, fun id => optionRel_trans (R := TierStep) (fun _ _ _ => TierStep.trans) (r₁ id) (r₂ id)⟩

variable {t' : PageTable}

/-- A page that was there is there, after a tier step. -/
theorem lookup (h : Moved t t') (hp : t.pages.lookup id = some p) :
    ∃ p', t'.pages.lookup id = some p' ∧ TierStep p p' := by
  obtain ⟨pages, clock, lease, rfl, hr⟩ := h
  exact optionRel_some (hr id) hp

/-- A page that is there was there. -/
theorem lookup_back (h : Moved t t') (hp : t'.pages.lookup id = some p') :
    ∃ p, t.pages.lookup id = some p ∧ TierStep p p' := by
  obtain ⟨pages, clock, lease, rfl, hr⟩ := h
  exact optionRel_some_back (hr id) hp

theorem sequences (h : Moved t t') : t'.sequences = t.sequences := by
  obtain ⟨_, _, _, rfl, -⟩ := h
  rfl

theorem freePages (h : Moved t t') : t'.freePages = t.freePages := by
  obtain ⟨_, _, _, rfl, -⟩ := h
  rfl

theorem nextPageId (h : Moved t t') : t'.nextPageId = t.nextPageId := by
  obtain ⟨_, _, _, rfl, -⟩ := h
  rfl

end Moved

/-- These two are the buffers of one page. -/
def SameStore (p p' : Page) : Prop :=
  p'.storageLayout = p.storageLayout ∧ p'.storeLayout = p.storeLayout ∧ p'.store.layout = p.store.layout

theorem SameStore.refl (p : Page) : SameStore p p := ⟨rfl, rfl, rfl⟩

theorem SameStore.trans {q r : Page} (h₁ : SameStore p q) (h₂ : SameStore q r) : SameStore p r :=
  ⟨h₂.1.trans h₁.1, h₂.2.1.trans h₁.2.1, h₂.2.2.trans h₁.2.2⟩

/-- The configuration of the table stays. -/
structure PagedKvCache.SameConfig (t t' : PageTable) : Prop where
  pageSize : t'.pageSize = t.pageSize
  tensorConfig : t'.tensorConfig = t.tensorConfig
  layerConfigs : t'.layerConfigs = t.layerConfigs
  quantConfig : t'.quantConfig = t.quantConfig

theorem PagedKvCache.SameConfig.refl (t : PageTable) : SameConfig t t := ⟨rfl, rfl, rfl, rfl⟩

theorem PagedKvCache.SameConfig.trans {u v : PageTable} (h₁ : SameConfig t u) (h₂ : SameConfig u v) : SameConfig t v :=
  ⟨h₂.pageSize.trans h₁.pageSize, h₂.tensorConfig.trans h₁.tensorConfig,
    h₂.layerConfigs.trans h₁.layerConfigs, h₂.quantConfig.trans h₁.quantConfig⟩

namespace PageTable

open PagedKvCache

variable {t' u v : PageTable} {ids : List PageId}

/-! ### Steps that add no page -/

/-- The pages keep their buffers, perhaps cleared or written to. -/
structure SamePages (t t' : PageTable) : Prop where
  config : SameConfig t t'
  page : ∀ id, Option.Rel SameStore (t.pages.lookup id) (t'.pages.lookup id)

/-- An operation that adds no page: besides, the next page id and what the pool leased stay as
they are. -/
structure SameLayout (t t' : PageTable) : Prop extends SamePages t t' where
  nextPageId : t'.nextPageId = t.nextPageId
  leasedBytes : t'.leasedBytes = t.leasedBytes

theorem SamePages.trans (h₁ : SamePages t u) (h₂ : SamePages u v) : SamePages t v where
  config := h₁.config.trans h₂.config
  page id := optionRel_trans (R := SameStore) (fun _ _ _ => SameStore.trans) (h₁.page id) (h₂.page id)

theorem SameLayout.trans (h₁ : SameLayout t u) (h₂ : SameLayout u v) : SameLayout t v :=
  ⟨h₁.toSamePages.trans h₂.toSamePages, h₂.nextPageId.trans h₁.nextPageId, h₂.leasedBytes.trans h₁.leasedBytes⟩

/-- A page that is there was there. -/
theorem SamePages.lookup_back (h : SamePages t t') (hp : t'.pages.lookup id = some p') :
    ∃ p, t.pages.lookup id = some p ∧ SameStore p p' := optionRel_some_back (h.page id) hp

/-- A step that leaves the pages as they are. -/
theorem samePages_of_pages (hc : SameConfig t t') (hpages : t'.pages = t.pages) : SamePages t t' :=
  ⟨hc, fun _ => hpages ▸ optionRel_refl SameStore.refl _⟩

/-- A step that changes one page. -/
theorem samePages_of_insert (hp : t.pages.lookup id = some p) (hpages : t'.pages = t.pages.insert id p')
    (hs : SameStore p p') (hc : SameConfig t t') : SamePages t t' := by
  refine ⟨hc, fun j => ?_⟩
  rw [hpages, lookup_insert']
  by_cases hj : j = id
  · subst hj
    rw [if_pos rfl, hp]
    exact .some hs
  · rw [if_neg hj]
    exact optionRel_refl SameStore.refl _

theorem samePages_moved (h : Moved t t') : SamePages t t' := by
  obtain ⟨pages, clock, lease, rfl, hrel⟩ := h
  refine ⟨⟨rfl, rfl, rfl, rfl⟩, fun id => optionRel_mono (hrel id) ?_⟩
  rintro p _ - ⟨d, a, rfl, -⟩
  exact ⟨rfl, rfl, rfl⟩

theorem SameLayout.refl (t : PageTable) : SameLayout t t :=
  ⟨samePages_of_pages ⟨rfl, rfl, rfl, rfl⟩ rfl, rfl, rfl⟩

theorem sameLayout_adjustPage (t : PageTable) (id : PageId) (f : Page → Page) (hf : ∀ p, SameStore p (f p)) :
    SameLayout t (t.adjustPage id f) := by
  unfold adjustPage adjust
  cases hp : t.pages.lookup id with
  | none => exact .refl t
  | some page => exact ⟨samePages_of_insert hp rfl (hf page) ⟨rfl, rfl, rfl, rfl⟩, rfl, rfl⟩

/-- A step of the records of the sequences. -/
theorem sameLayout_sequences (t : PageTable) (sequences : FiniteMap SequenceId Sequence) :
    SameLayout t { t with sequences := sequences } :=
  ⟨samePages_of_pages ⟨rfl, rfl, rfl, rfl⟩ rfl, rfl, rfl⟩

theorem sameLayout_free (t : PageTable) (id : PageId) : SameLayout t (t.free id) := by
  unfold free
  cases hp : t.pages.lookup id with
  | none => exact .refl t
  | some page =>
    dsimp only
    split
    · exact ⟨samePages_of_insert hp rfl ⟨rfl, rfl, HostPageStore.resetStorage_layout _⟩ ⟨rfl, rfl, rfl, rfl⟩, rfl, rfl⟩
    · exact ⟨samePages_of_insert hp rfl ⟨rfl, rfl, rfl⟩ ⟨rfl, rfl, rfl, rfl⟩, rfl, rfl⟩

theorem sameLayout_freeAll (ids : List PageId) (t : PageTable) : SameLayout t (t.freeAll ids) := by
  induction ids generalizing t with
  | nil => exact .refl t
  | cons id ids ih => exact (sameLayout_free t id).trans (ih _)

theorem sameLayout_retain (t : PageTable) (id : PageId) : SameLayout t (t.retain id) := by
  unfold retain
  cases hp : t.pages.lookup id with
  | none => exact .refl t
  | some page => exact ⟨samePages_of_insert hp rfl ⟨rfl, rfl, rfl⟩ ⟨rfl, rfl, rfl, rfl⟩, rfl, rfl⟩

theorem sameLayout_retainAll (ids : List PageId) (t : PageTable) : SameLayout t (ids.foldl retain t) := by
  induction ids generalizing t with
  | nil => exact .refl t
  | cons id ids ih => exact (sameLayout_retain t id).trans (ih _)

/-! ### Steps of the tiers -/

/-- The table after operations of the tiers on the pages `ids`. A page that is not referenced
stays where it is, unless it is one of them. -/
def Tiered (ids : List PageId) (t t' : PageTable) : Prop :=
  ∃ pages clock lease, t' = { t with pages := pages, clock := clock, poolLease := lease } ∧
    lease.map MemoryLease.bytes = t.leasedBytes ∧ ∀ id, Option.Rel
      (fun p p' => ∃ d a, p' = { p with lastAccess := a, store := { p.store with residency := d } } ∧
        (p.refCount = 0 → id ∉ ids → d = p.residency)) (t.pages.lookup id) (pages.lookup id)

/-- The governor was asked for bytes, and no more happened. -/
def Asked (t t' : PageTable) : Prop :=
  ∃ lease, t' = { t with poolLease := lease } ∧ lease.map MemoryLease.bytes = t.leasedBytes

/-- Page `id` is on the tier `target`, and no other page changed. -/
def Migrated (t : PageTable) (id : PageId) (target : Device) (t' : PageTable) : Prop :=
  ∃ p pages lease, t.pages.lookup id = some p ∧ t' = { t with pages := pages, poolLease := lease } ∧
    lease.map MemoryLease.bytes = t.leasedBytes ∧ ∀ j, pages.lookup j =
      if j = id then some { p with store := { p.store with residency := target } } else t.pages.lookup j

/-- Every one of these pages is referenced. -/
def Referenced (t : PageTable) (ids : List PageId) : Prop :=
  ∀ id ∈ ids, ∀ p, t.pages.lookup id = some p → 0 < p.refCount

namespace Tiered

/-- A step of one page. -/
theorem replaced {pages : FiniteMap PageId Page} {clock : ℕ} {lease : Option MemoryLease} {d : Device} {a : ℕ}
    (hp : t.pages.lookup id = some p) (hlease : lease.map MemoryLease.bytes = t.leasedBytes)
    (hpages : ∀ j, pages.lookup j =
      if j = id then some { p with lastAccess := a, store := { p.store with residency := d } } else t.pages.lookup j)
    (hd : p.refCount = 0 → id ∉ ids → d = p.residency) :
    Tiered ids t { t with pages := pages, clock := clock, poolLease := lease } := by
  refine ⟨_, _, _, rfl, hlease, fun j => ?_⟩
  rw [hpages]
  by_cases hj : j = id
  · subst hj
    rw [if_pos rfl, hp]
    exact .some ⟨d, a, rfl, hd⟩
  · rw [if_neg hj]
    exact optionRel_refl (fun p => ⟨p.residency, p.lastAccess, rfl, fun _ _ => rfl⟩) _

theorem asks (h : Asked t t') : Tiered ids t t' := by
  obtain ⟨lease, rfl, hlease⟩ := h
  exact ⟨t.pages, t.clock, lease, rfl, hlease,
    fun _ => optionRel_refl (fun p => ⟨p.residency, p.lastAccess, rfl, fun _ _ => rfl⟩) _⟩

theorem refl (ids : List PageId) (t : PageTable) : Tiered ids t t := .asks ⟨t.poolLease, rfl, rfl⟩

theorem trans (h₁ : Tiered ids t u) (h₂ : Tiered ids u v) : Tiered ids t v := by
  obtain ⟨p₁, c₁, l₁, rfl, b₁, r₁⟩ := h₁
  obtain ⟨p₂, c₂, l₂, rfl, b₂, r₂⟩ := h₂
  refine ⟨p₂, c₂, l₂, rfl, b₂.trans b₁, fun id => optionRel_trans ?_ (r₁ id) (r₂ id)⟩
  rintro p _ _ ⟨d, a, rfl, hd⟩ ⟨e, b, rfl, he⟩
  exact ⟨e, b, rfl, fun h0 hid => (he h0 hid).trans (hd h0 hid)⟩

/-- A step on some of the pages. -/
theorem mono {ids' : List PageId} (h : Tiered ids t t')
    (hids : ∀ id p, t.pages.lookup id = some p → p.refCount = 0 → id ∈ ids → id ∈ ids') : Tiered ids' t t' := by
  obtain ⟨pages, clock, lease, rfl, hlease, hr⟩ := h
  refine ⟨pages, clock, lease, rfl, hlease, fun id => optionRel_mono (hr id) ?_⟩
  rintro p _ hp ⟨d, a, rfl, hd⟩
  exact ⟨d, a, rfl, fun h0 hid => hd h0 fun hmem => hid (hids id p hp h0 hmem)⟩

/-- A step on referenced pages moves them. -/
theorem moved (h : Tiered ids t t') (hr : Referenced t ids) : Moved t t' := by
  have hnone : Tiered [] t t' := h.mono fun id p hp h0 hid => absurd h0 (hr id hid p hp).ne'
  obtain ⟨pages, clock, lease, rfl, -, hrel⟩ := hnone
  refine ⟨pages, clock, lease, rfl, fun id => optionRel_mono (hrel id) ?_⟩
  rintro p _ - ⟨d, a, rfl, hd⟩
  exact ⟨d, a, rfl, fun h0 => hd h0 List.not_mem_nil⟩

theorem sameLayout (h : Tiered ids t t') : SameLayout t t' := by
  obtain ⟨pages, clock, lease, rfl, hlease, hrel⟩ := h
  refine ⟨⟨⟨rfl, rfl, rfl, rfl⟩, fun id => optionRel_mono (hrel id) ?_⟩, rfl, hlease⟩
  rintro p _ - ⟨d, a, rfl, -⟩
  exact ⟨rfl, rfl, rfl⟩

theorem touch (ids : List PageId) (t : PageTable) (id : PageId) : Tiered ids t (t.touch id) := by
  unfold PageTable.touch
  cases hp : t.pages.lookup id with
  | none => exact .refl ids t
  | some page => exact .replaced hp rfl (fun _ => lookup_insert' _ _ _ _) fun _ _ => rfl

end Tiered

/-- Operations on referenced pages move them, whether they succeed or fail. -/
theorem moved_of_tiered {α : Type} {x : TableM α} (hx : Stays (Tiered ids) x t) (hr : Referenced t ids) :
    Stays Moved x t := .mono hx (fun _ _ h => h.moved hr) fun _ _ h => h.moved hr

theorem sameLayout_of_tiered {α : Type} {x : TableM α} (hx : Stays (Tiered ids) x t) : Stays SameLayout x t :=
  .mono hx (fun _ _ h => h.sameLayout) fun _ _ h => h.sameLayout

theorem moved_touch (t : PageTable) (id : PageId) : Moved t (t.touch id) :=
  (Tiered.touch [] t id).moved fun _ h => nomatch h

/-- A reservation of a governed pool is for the bytes asked for, and leaves the lease as it is. -/
theorem reserveTransient_spec (bytes : ℕ) (t : PageTable) :
    Ensures (reserveTransient bytes) t
      (fun granted t' => granted = t.poolLease.map (fun _ => bytes) ∧ Asked t t') fun _ => Asked t := by
  unfold Ensures reserveTransient
  cases hl : t.poolLease with
  | none => exact ⟨rfl, none, by rw [← hl], by simp [leasedBytes, hl]⟩
  | some lease =>
    by_cases hg : lease.reserveSibling lease.asked bytes = true
    · simp only [hg, if_true]
      exact ⟨rfl, _, rfl, by simp [leasedBytes, hl]⟩
    · simp only [hg]
      exact ⟨_, rfl, by simp [leasedBytes, hl]⟩

theorem moved_of_asks (h : ∃ lease, t' = { t with poolLease := lease }) : Moved t t' := by
  obtain ⟨lease, rfl⟩ := h
  exact ⟨t.pages, t.clock, lease, rfl, fun _ => optionRel_refl TierStep.refl _⟩

/-- A migration that succeeds changes the residency only. -/
theorem migrate_ok {target : Device} {m : Page.Migration} (h : p.migrate target = .ok (m, p')) :
    p' = { p with store := { p.store with residency := target } } := by
  unfold Page.migrate at h
  simp only at h
  split_ifs at h with h₁ h₂
  · cases h
    rw [← h₁]
    rfl
  · unfold HostPageStore.copyFromHost at h
    by_cases hc : (HostPageStore.new target p.storeLayout).layout = p.store.layout
    · rw [if_pos hc] at h
      cases h
      rfl
    · rw [if_neg hc] at h
      cases h

theorem migratePage_spec (id : PageId) (target : Device) (t : PageTable) :
    Ensures (migratePage id target) t (fun _ => Migrated t id target) fun _ => Asked t := by
  refine .bind (.get (.bind (.getOr (fun page hp => ?_) fun _ => ⟨_, rfl, rfl⟩)))
  split
  case isTrue hr =>
    refine .pure ⟨page, t.pages, t.poolLease, hp, rfl, rfl, fun j => ?_⟩
    rw [← hr]
    split
    case isTrue heq => rw [heq, hp]; rfl
    case isFalse => rfl
  case isFalse =>
    refine .bind (.mono (reserveTransient_spec _ t) ?_ fun _ _ h => h)
    rintro _ _ ⟨-, lease, rfl, hlease⟩
    refine .bind (.liftResult ?_ fun _ _ => ⟨lease, rfl, hlease⟩)
    rintro ⟨report, moved⟩ hm
    refine .bind (.modify (.pure ⟨page, _, lease, hp, rfl, hlease, fun j => ?_⟩))
    rw [migrate_ok hm]
    exact lookup_insert' _ _ _ _

theorem migratePage_tiered (id : PageId) (target : Device) (t : PageTable) :
    Stays (Tiered [id]) (migratePage id target) t := by
  refine (migratePage_spec id target t).mono ?_ fun _ _ => .asks
  rintro _ _ ⟨p, pages, lease, hp, rfl, hlease, hpages⟩
  exact .replaced hp hlease hpages fun _ hid => absurd List.mem_cons_self hid

/-- The victim of an eviction is a referenced hot page. -/
theorem lruHot_spec {exclude : Option PageId} (h : t.lruHot exclude = some id) :
    ∃ p, t.pages.lookup id = some p ∧ 0 < p.refCount ∧ p.residency.isGpu = true ∧ some id ≠ exclude := by
  obtain ⟨e, he, rfl⟩ := Option.map_eq_some_iff.mp h
  have hmem := List.argmin_mem he
  rw [List.mem_filter] at hmem
  obtain ⟨hin, hp⟩ := hmem
  simp only [isHotUsed, Bool.and_eq_true, decide_eq_true_eq] at hp
  exact ⟨e.2, lookup_of_mem_entries hin, hp.2.1, hp.2.2, hp.1⟩

/-- An eviction moves the victim to the cold tier, or fails. -/
theorem evictLruHot_spec (exclude : Option PageId) (t : PageTable) :
    Ensures (evictLruHot exclude) t (fun victim t' => t.lruHot exclude = some victim ∧ Migrated t victim .cpu t')
      fun _ => Asked t := by
  refine .bind (.get (.bind (.getOr (fun victim hv => ?_) fun _ => ⟨_, rfl, rfl⟩)))
  exact .bind ((migratePage_spec victim .cpu t).mono (fun _ _ hm => .pure ⟨hv, hm⟩) fun _ _ h => h)

theorem evictLruHot_tiered (exclude : Option PageId) (ids : List PageId) (t : PageTable) :
    Stays (Tiered ids) (evictLruHot exclude) t := by
  refine (evictLruHot_spec exclude t).mono ?_ fun _ _ => .asks
  rintro victim _ ⟨hv, p, pages, lease, hp, rfl, hlease, hpages⟩
  refine .replaced hp hlease hpages fun h0 _ => ?_
  obtain ⟨q, hq, hpos, -⟩ := lruHot_spec hv
  cases hq.symm.trans hp
  omega

theorem evictLruHot_moved (exclude : Option PageId) (t : PageTable) : Stays Moved (evictLruHot exclude) t :=
  moved_of_tiered (evictLruHot_tiered exclude [] t) fun _ h => nomatch h

/-! ### Allocation -/

/-- The table once there is room for an allocation on `d`. -/
inductive MakesRoom (t : PageTable) (d : Device) : PageTable → Prop where
  /-- There was room. -/
  | roomy (h : ¬ (d.isGpu = true ∧ t.freeCount d = 0 ∧ t.hotUsedCount ≥ t.hotCapacity)) : MakesRoom t d t
  /-- The hot tier was full, and a page left it. -/
  | evicted {victim : PageId} {u : PageTable}
      (hfull : d.isGpu = true ∧ t.freeCount d = 0 ∧ t.hotUsedCount ≥ t.hotCapacity)
      (h : evictLruHot none t = .ok victim u) : MakesRoom t d u

/-- What an allocation on `d` can do. -/
inductive Allocation (t : PageTable) (d : Device) : Option PageId → PageTable → Prop where
  /-- A free page is reused. -/
  | reused {id : PageId} {page : Page} (hlast : ((t.freePages.lookup d).getD []).getLast? = some id)
      (hp : t.pages.lookup id = some page) :
      Allocation t d (some id) { t with
        freePages := t.freePages.insert d ((t.freePages.lookup d).getD []).dropLast
        clock := t.clock + 1
        pages := t.pages.insert id { page.resetStorage with refCount := 1, lastAccess := t.clock + 1 } }
  /-- The free list has a page that does not exist. -/
  | missing {id : PageId} (hlast : ((t.freePages.lookup d).getD []).getLast? = some id)
      (hp : t.pages.lookup id = none) :
      Allocation t d (some id) { t with
        freePages := t.freePages.insert d ((t.freePages.lookup d).getD []).dropLast }
  /-- A page is added. -/
  | added {u : PageTable} (hlast : ((t.freePages.lookup d).getD []).getLast? = none) (hroom : MakesRoom t d u)
      (hspace : u.hotUsedCount < u.hotCapacity) : Allocation t d (some u.nextPageId) (u.allocateFresh d).2
  /-- There is no room. -/
  | failed {u : PageTable} (hlast : ((t.freePages.lookup d).getD []).getLast? = none)
      (hroom : u = t ∨ u = final (evictLruHot none) t) (hfull : d.isGpu = true → t.hotUsedCount ≥ t.hotCapacity) :
      Allocation t d none u

theorem MakesRoom.eq {d : Device} (h : MakesRoom t d u) : u = t ∨ u = final (evictLruHot none) t := by
  cases h with
  | roomy => exact .inl rfl
  | evicted _ h => exact .inr (by rw [final, h])

/-- What an eviction keeps is kept while room is made. -/
theorem stays_of_room {R : PageTable → PageTable → Prop} (h : u = t ∨ u = final (evictLruHot none) t)
    (hrefl : R t t) (hevict : Stays R (evictLruHot none) t) : R t u := by
  rcases h with rfl | rfl
  · exact hrefl
  · exact Ensures.final hevict

theorem allocation_of_none {d : Device} (hlast : ((t.freePages.lookup d).getD []).getLast? = none)
    (hroom : MakesRoom t d u) : Allocation t d (u.allocateReady d).1 (u.allocateReady d).2 := by
  have hfree : u.freePages = t.freePages :=
    stays_of_room (R := fun t u => u.freePages = t.freePages) hroom.eq rfl
      ((evictLruHot_moved none t).mono (fun _ _ h => h.freePages) fun _ _ h => h.freePages)
  have hnone : u.allocateFree d = none := by
    simp only [allocateFree, hfree, hlast]
  simp only [allocateReady, hnone]
  split
  case isTrue hspace => exact .added hlast hroom hspace.2
  case isFalse hspace =>
    refine .failed hlast hroom.eq fun hgpu => ?_
    cases hroom with
    | roomy => exact Nat.not_lt.mp fun hlt => hspace ⟨hgpu, hlt⟩
    | evicted hfull => exact hfull.2.2

/-- **What an allocation does.** -/
theorem allocation_of {d : Device} {o : Option PageId} (ha : t.allocate d = (o, t')) : Allocation t d o t' := by
  suffices h : Allocation t d (t.allocate d).1 (t.allocate d).2 by rwa [ha] at h
  unfold allocate
  split
  case isTrue hfull =>
    have hlast : ((t.freePages.lookup d).getD []).getLast? = none := by simpa [freeCount] using hfull.2.1
    cases hx : evictLruHot none t with
    | ok victim u => exact allocation_of_none hlast (.evicted hfull hx)
    | error e u => exact .failed hlast (.inr (by rw [final, hx])) fun _ => hfull.2.2
  case isFalse hroom =>
    cases hlast : ((t.freePages.lookup d).getD []).getLast? with
    | none => exact allocation_of_none hlast (.roomy hroom)
    | some id =>
      simp only [allocateReady, allocateFree, hlast]
      cases hp : t.pages.lookup id with
      | none => exact .missing hlast hp
      | some page => exact .reused hlast hp

theorem promoteToHot_tiered (id : PageId) (t : PageTable) : Stays (Tiered [id]) (promoteToHot id) t := by
  refine Ensures.bind (Ensures.get (Ensures.bind (Ensures.getOr (fun page _ => ?_) fun _ => .refl [id] t)))
  split
  · exact .bind (.modify (.pure (.touch [id] t id)))
  refine .bind (.require (fun _ => ?_) fun _ => .refl [id] t)
  -- the last two steps, from wherever the eviction leaves the table
  have hrest : ∀ u : PageTable, Stays (Tiered [id]) (do
      let _ ← migratePage id (.gpu 0)
      modify fun t => t.touch id) u :=
    fun u => .bind Tiered.trans (migratePage_tiered _ _ u) fun _ v _ _ => .modify (.touch [id] v id)
  split
  · exact Stays.bind Tiered.trans (evictLruHot_tiered _ [id] t) fun _ u _ _ => hrest u
  · exact hrest t

theorem promoteToHot_moved (h : ∀ p, t.pages.lookup id = some p → 0 < p.refCount) : Stays Moved (promoteToHot id) t :=
  moved_of_tiered (promoteToHot_tiered id t) fun _ hj => List.mem_singleton.mp hj ▸ h

theorem demoteIfExclusive_tiered (id : PageId) (t : PageTable) : Stays (Tiered [id]) (demoteIfExclusive id) t := by
  refine Ensures.bind (Ensures.get ?_)
  split
  · exact .bind (.mono (migratePage_tiered id .cpu t) (fun _ _ h => .pure h) fun _ _ h => h)
  · exact .pure (.refl [id] t)

/-- What works on some of the pages works on the pages. -/
theorem tiered_of_subset {α : Type} {x : TableM α} {ids' : List PageId} (hx : Stays (Tiered ids) x t) (hids : ids ⊆ ids') :
    Stays (Tiered ids') x t := by
  have hmono : ∀ {t'}, Tiered ids t t' → Tiered ids' t t' := fun h => h.mono fun _ _ _ _ hj => hids hj
  exact .mono hx (fun _ _ => hmono) fun _ _ => hmono

theorem demoteAll_tiered (ids : List PageId) (t : PageTable) : Stays (Tiered ids) (demoteAll ids) t := by
  induction ids generalizing t with
  | nil => exact .pure (.refl [] t)
  | cons id ids ih =>
    refine .bind Tiered.trans (tiered_of_subset (demoteIfExclusive_tiered id t) (by simp)) fun _ u _ _ => ?_
    exact .bind Tiered.trans (tiered_of_subset (ih u) (by simp)) fun _ v _ _ => .pure (.refl (id :: ids) v)

/-! ### The transaction of a copy -/

/-- The free list of a device. -/
def freeList (t : PageTable) (d : Device) : List PageId := (t.freePages.lookup d).getD []

/-- The page an allocation on `d` would take off the free list. -/
def reusable (t : PageTable) (d : Device) : Option Page :=
  ((t.freeList d).getLast?).bind fun id => t.pages.lookup id

/-- The page an allocation on `d` would evict. -/
def evictee (t : PageTable) (d : Device) : Option (PageId × Page) :=
  if d.isGpu ∧ t.freeCount d = 0 ∧ t.hotUsedCount ≥ t.hotCapacity then
    (t.lruHot none).bind fun id => (t.pages.lookup id).map fun page => (id, page)
  else none

/-- The checkpoint of an allocation on `d`, with the growth the governor granted. -/
def checkpointOf (t : PageTable) (d : Device) (growth : Option ℕ) : AllocationCheckpoint where
  device := d
  reusedPage := t.reusable d
  evictedHot := (t.evictee d).map fun e => (e.1, e.2.store)
  freePages := t.freePages
  clock := t.clock
  nextPageId := t.nextPageId
  persistentGrowth := growth

/-- Taking a checkpoint reserves the bytes of the page to be copied, unless a page is reused. -/
theorem allocationCheckpoint_spec (source : PageId) (d : Device) (t : PageTable) :
    Ensures (allocationCheckpoint source d) t
      (fun cp t' => Asked t t' ∧ ∃ p, t.pages.lookup source = some p ∧ cp = t.checkpointOf d
        (t.poolLease.map fun _ => if (t.reusable d).isNone then p.store.allocatedBytes else 0))
      fun _ => Asked t := by
  refine .bind (.get (.bind (.getOr (fun p hp => ?_) fun _ => ⟨_, rfl, rfl⟩)))
  refine .bind (.mono (reserveTransient_spec _ t) ?_ fun _ _ h => h)
  rintro growth _ ⟨rfl, lease, rfl, hlease⟩
  refine .bind (.mono (reserveTransient_spec _ _) ?_ ?_)
  · rintro _ _ ⟨-, lease', rfl, hlease'⟩
    exact .pure ⟨⟨lease', rfl, hlease'.trans hlease⟩, p, hp, rfl⟩
  · rintro _ _ ⟨lease', rfl, hlease'⟩
    exact ⟨lease', rfl, hlease'.trans hlease⟩

/-- Committing adds what was reserved to the lease; a failure changes nothing. -/
theorem commitAllocation_spec (cp : AllocationCheckpoint) (t : PageTable) :
    Ensures (commitAllocation cp) t
      (fun _ t' => ∃ lease, t' = { t with poolLease := lease } ∧
        lease.map MemoryLease.bytes = t.leasedBytes.map (· + cp.persistentGrowth.getD 0))
      fun _ t' => t' = t := by
  unfold commitAllocation
  cases cp.persistentGrowth with
  | none => exact .pure ⟨t.poolLease, rfl, Option.map_id'.symm⟩
  | some growth =>
    refine .bind (.get (.bind (.getOr (fun lease hlease => ?_) fun _ => rfl)))
    refine .bind (.liftResult (fun lease' hlease' => ?_) fun _ _ => rfl)
    refine .modify ⟨some lease', rfl, ?_⟩
    unfold MemoryLease.absorbSibling at hlease'
    split at hlease'
    · cases hlease'
      simp [leasedBytes, hlease]
    · cases hlease'

/-- The pages after `id` is taken back. -/
def restored (t : PageTable) (id : PageId) : Option Page → FiniteMap PageId Page
  | some page => t.pages.insert id page
  | none => t.pages.erase id

/-- The rule for the rollback of the allocation of `id`, which puts a page back and then the
store that was evicted. -/
theorem rollbackAllocation_rule {cp : AllocationCheckpoint} {E : PageTable → Prop} {pages : FiniteMap PageId Page}
    (hpages : pages = t.restored id cp.reusedPage)
    (hback : (∀ e, cp.evictedHot = some e → pages.lookup e.1 = none) → E { t with
      pages := pages, freePages := cp.freePages, clock := cp.clock, nextPageId := cp.nextPageId })
    (hput : ∀ v store page, cp.evictedHot = some (v, store) → pages.lookup v = some page → E { t with
      pages := pages.insert v { page with store := store }
      freePages := cp.freePages, clock := cp.clock, nextPageId := cp.nextPageId }) :
    Leaves E (rollbackAllocation cp id) t := by
  subst hpages
  refine .bind (.modify ?_)
  cases he : cp.evictedHot with
  | none => exact .pure (hback fun e h => nomatch he.symm.trans h)
  | some e =>
    refine .bind (.get (.bind (.getOr (fun page hp => ?_) fun hn => hback fun e' h => ?_)))
    · exact .modify (hput e.1 e.2 page he hp)
    · cases he.symm.trans h
      exact hn

end PageTable

namespace PagedKvCache

open PageTable

theorem evict_tiered (target : ℕ) (t : PageTable) : Tiered [] t (evict target t).2 := by
  induction target generalizing t with
  | zero => exact .refl [] t
  | succ target ih =>
    unfold evict
    cases hx : evictLruHot none t with
    | ok _ t' => exact (Stays.of_ok (evictLruHot_tiered none [] t) hx).trans (ih t')
    | error _ t' => exact Stays.of_error (evictLruHot_tiered none [] t) hx

theorem evict_moved (target : ℕ) (t : PageTable) : Moved t (evict target t).2 :=
  (evict_tiered target t).moved fun _ h => nomatch h

theorem promoteAll_tiered (ids : List PageId) (t : PageTable) : Stays (Tiered ids) (promoteAll ids) t := by
  induction ids generalizing t with
  | nil => exact .pure (.refl [] t)
  | cons id ids ih =>
    refine Ensures.bind (Ensures.get ?_)
    refine Stays.bind Tiered.trans (tiered_of_subset (promoteToHot_tiered id t) (by simp)) fun _ u _ _ => ?_
    exact Stays.bind Tiered.trans (tiered_of_subset (ih u) (by simp)) fun _ v _ _ => Ensures.pure (.refl (id :: ids) v)

/-- Reading the record of a sequence. -/
theorem sequence_ensures {seq : SequenceId} {Q : Sequence → PageTable → Prop} {E : KvError → PageTable → Prop}
    (hs : ∀ r, t.sequences.lookup seq = some r → Q r t)
    (hn : t.sequences.lookup seq = none → E (.sequenceNotFound seq) t) : Ensures (sequence seq) t Q E := by
  exact .bind (.get (.getOr hs hn))

/-- The pages of a sequence. -/
def pagesOf (t : PageTable) (seq : SequenceId) : List PageId := (t.getSequence seq).getD []

theorem pagesOf_eq {seq : SequenceId} {r : Sequence} (hr : t.sequences.lookup seq = some r) : pagesOf t seq = r.pages := by
  simp [pagesOf, getSequence, hr]

/-- The pages of every sequence are referenced. -/
def AllReferenced (t : PageTable) : Prop :=
  ∀ seq r, t.sequences.lookup seq = some r → Referenced t r.pages

theorem AllReferenced.pagesOf (h : AllReferenced t) (seq : SequenceId) : Referenced t (pagesOf t seq) := by
  cases hr : t.sequences.lookup seq with
  | none => simp [Referenced, PagedKvCache.pagesOf, getSequence, hr]
  | some r => exact pagesOf_eq hr ▸ h seq r hr

theorem prefetch_tiered (seq : SequenceId) (start stop : ℕ) (t : PageTable) :
    Stays (Tiered (pagesOf t seq)) (prefetch seq start stop) t := by
  have hrefl := Tiered.refl (pagesOf t seq) t
  refine Ensures.bind (sequence_ensures (fun r hr => ?_) fun _ => hrefl)
  refine .bind (.require (fun _ => ?_) fun _ => hrefl)
  refine .bind (.require (fun _ => ?_) fun _ => hrefl)
  split
  · exact .pure hrefl
  refine .bind (.get (.bind (.require (fun _ => ?_) fun _ => hrefl)))
  refine .bind (.require (fun _ => ?_) fun _ => hrefl)
  exact tiered_of_subset (promoteAll_tiered _ t) fun _ hj =>
    pagesOf_eq hr ▸ List.mem_of_mem_drop (List.mem_of_mem_take hj)

theorem prefetch_moved (h : AllReferenced t) (seq : SequenceId) (start stop : ℕ) :
    Stays Moved (prefetch seq start stop) t := moved_of_tiered (prefetch_tiered seq start stop t) (h.pagesOf seq)

theorem restoreSequence_tiered (seq : SequenceId) (t : PageTable) :
    Stays (Tiered (pagesOf t seq)) (restoreSequence seq) t :=
  Ensures.bind (sequence_ensures (fun r _ => prefetch_tiered seq r.start r.length t) fun _ => .refl _ t)

theorem restoreSequence_moved (h : AllReferenced t) (seq : SequenceId) : Stays Moved (restoreSequence seq) t :=
  moved_of_tiered (restoreSequence_tiered seq t) (h.pagesOf seq)

theorem preemptSequence_tiered (seq : SequenceId) (t : PageTable) :
    Stays (Tiered (pagesOf t seq)) (preemptSequence seq) t := by
  refine Ensures.bind (Ensures.bind (sequence_ensures (fun r hr => Ensures.pure ?_) fun _ => .refl _ t))
  refine .bind (.get ?_)
  have hs : t.getSequence seq = some r.pages := by rw [getSequence, hr]; rfl
  rw [hs, pagesOf_eq hr]
  exact demoteAll_tiered r.pages t

theorem preemptSequence_moved (h : AllReferenced t) (seq : SequenceId) : Stays Moved (preemptSequence seq) t :=
  moved_of_tiered (preemptSequence_tiered seq t) (h.pagesOf seq)

/-! ### Copying a shared page -/

/-- The table after a copy of the shared page `pageId` replaced it in a sequence. -/
def withCopy (t : PageTable) (seq : SequenceId) (pageIndex : ℕ) (pageId newPageId : PageId)
    (old new : Page) (lease : Option MemoryLease) : PageTable :=
  (({ t with
      pages := t.pages.insert newPageId
        { new with store := { old.store with residency := new.store.residency }, filled := old.filled }
      poolLease := lease } : PageTable).replacePage seq pageIndex newPageId).free pageId

/-- A copy of page `pageId`, which is `p`, was given the page `id` to copy to. -/
def Copying (t : PageTable) (pageId : PageId) (p : Page) (id : PageId) (v : PageTable) : Prop :=
  t.pages.lookup pageId = some p ∧ ∃ u, Asked t u ∧ u.allocate (.gpu 0) = (some id, v)

/-- The pages of `v`, with page `id` as it is or as a copy. -/
def CopiedTo (v : PageTable) (id : PageId) (new : Page) (pages : FiniteMap PageId Page) : Prop :=
  pages = v.pages ∨ ∃ copy, pages = v.pages.insert id copy ∧ copy.store.layout = new.store.layout ∧
    isHotUsed copy = isHotUsed new

/-- **The rule for the transaction**: what it has to keep when it fails (`E`), before the page
is allocated, while it is missing, and when it is rolled back with or without the copy. -/
theorem copyPageForWrite_rule {seq : SequenceId} {pageIndex : ℕ} {pageId : PageId} {Q : PageId → PageTable → Prop}
    {E : PageTable → Prop} (hasked : ∀ u, Asked t u → E u)
    (hnone : ∀ u v, Asked t u → u.allocate (.gpu 0) = (none, v) → E v)
    (hmissing : ∀ p id v, Copying t pageId p id v → v.pages.lookup pageId = none ∨ v.pages.lookup id = none → E v)
    (hroll : ∀ p id v new pages growth, Copying t pageId p id v → v.pages.lookup id = some new →
      CopiedTo v id new pages →
      Leaves E (rollbackAllocation (t.checkpointOf (.gpu 0) growth) id) { v with pages := pages })
    (hdone : ∀ p id v old new lease, Copying t pageId p id v → v.pages.lookup pageId = some old →
      v.pages.lookup id = some new → new.store.layout = old.store.layout →
      lease.map MemoryLease.bytes = v.leasedBytes.map (· + (t.poolLease.map fun _ =>
        if (t.reusable (.gpu 0)).isNone then p.store.allocatedBytes else 0).getD 0) →
      Q id (withCopy v seq pageIndex pageId id old new lease)) :
    Ensures (copyPageForWrite seq pageIndex pageId) t Q fun _ => E := by
  refine .bind (.mono (allocationCheckpoint_spec pageId (.gpu 0) t) ?_ fun _ => hasked)
  rintro _ u ⟨hu, p, hp, rfl⟩
  generalize hgrowth : Option.map _ t.poolLease = growth
  refine .bind (.get ?_)
  cases ha : u.allocate (.gpu 0) with
  | mk allocated v =>
  refine .bind (.set (.bind (.getOr (fun id hid => ?_) fun hid => hnone u v hu (hid ▸ ha))))
  subst hid
  have hv : Copying t pageId p id v := ⟨hp, u, hu, ha⟩
  refine .bind (.get (.bind (.getOr (fun old hold => ?_)
    fun hn => hmissing p id v hv (.inl hn))))
  refine .bind (.getOr (fun new hnew => ?_) fun hn => hmissing p id v hv (.inr hn))
  have hthrow : ∀ {pages} (e : KvError), CopiedTo v id new pages →
      Ensures (do rollbackAllocation (t.checkpointOf (.gpu 0) growth) id; throw e) { v with pages := pages } Q fun _ => E :=
    fun e hpages => .bind (.mono (hroll p id v new _ _ hv hnew hpages) (fun _ _ he => .throw he)
      fun _ _ he => he)
  unfold HostPageStore.copyFromHost
  split_ifs with hl
  · refine .bind (.modify (.bind (.get ?_)))
    have hc := commitAllocation_spec (t.checkpointOf (.gpu 0) growth) { v with
      pages := v.pages.insert id
        { new with store := { old.store with residency := new.store.residency }, filled := old.filled } }
    cases hx : commitAllocation _ _ with
    | error e x =>
      cases hc.error hx
      exact .bind (.set (hthrow e (.inr ⟨_, rfl, hl.symm, rfl⟩)))
    | ok _ x =>
      obtain ⟨lease, rfl, hlease⟩ := hc.ok hx
      exact .bind (.set (.bind (.modify (.pure
        (hdone p id v old new lease hv hold hnew hl (hgrowth ▸ hlease))))))
  · exact hthrow _ (.inl rfl)

end PagedKvCache

end OnnxGenai.Kv
