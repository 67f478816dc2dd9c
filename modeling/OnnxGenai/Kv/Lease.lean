import OnnxGenai.Kv.Conservation
import OnnxGenai.Kv.HotTier

/-!
# A pool and its lease

A pool built by `new_leased` holds a lease for the bytes of its pages. Copy on write asks the
governor for the bytes of the copy and adds them to the lease; the extension of a sequence does
not. With no free page on the hot tier it still adds a page, and the pool then occupies more than
it leased (`extended_beyond_lease`). In the runs in which no extension has to add a page the
lease does not cover, the pool stays within its lease (`pool_within_lease`).

Every page of a pool has the same layout, so the bytes of a pool are the number of its pages
times the bytes of one. Sizes are sums of `u64` that saturate; the products of `usize` inside
them are not bounded here.
-/

namespace OnnxGenai.Kv

open Lib List Option FiniteMap Nat

namespace PageTable

/-! ### Planning and leasing -/

/-- `u64::saturating_add`. -/
def saturatingAdd (a b : ℕ) : ℕ := min (a + b) u64Max

/-- Bytes the whole page pool actually occupies. -/
def poolBytes (t : PageTable) : ℕ :=
  (t.pages.entries.map fun e => e.2.store.allocatedBytes).foldl saturatingAdd 0

/-- The bytes of one component in the loop of `planned_pool_bytes`. -/
def componentBytes (pageSize : ℕ) (geom : LayerTensorConfig) (dtype : KvDType) : ℕ :=
  let componentLen := geom.numKvHeads * pageSize * geom.headDim
  let scaleSlots := geom.numKvHeads * pageSize
  match dtype with
  | .f32 => min (componentLen * 4) u64Max
  | .int8 => saturatingAdd componentLen (scaleSlots * 4)
  | .fp8E4M3Fn | .fp8E5M2 => saturatingAdd componentLen (scaleSlots * 4)

/-- The loop of `planned_pool_bytes` over the layers from number `layer` on. -/
def plannedPageBytes (pageSize : ℕ) (quant : KvQuantConfig) : ℕ → List LayerTensorConfig → ℕ → ℕ
  | _, [], perPage => perPage
  | layer, geom :: rest, perPage =>
    plannedPageBytes pageSize quant (layer + 1) rest
      (saturatingAdd (saturatingAdd perPage (componentBytes pageSize geom (quant.dtype layer .key)))
        (componentBytes pageSize geom (quant.dtype layer .value)))

/-- Bytes a pool of `numPages` would occupy, before allocating one. -/
def plannedPoolBytes (pageSize numPages : ℕ) (layerConfigs : List LayerTensorConfig)
    (quantConfig : Option KvQuantConfig) : ℕ :=
  match quantConfig with
  | none => 0
  | some quant =>
    if layerConfigs = [] then 0
    else min (plannedPageBytes pageSize quant 0 layerConfigs 0 * numPages) u64Max

/-- Why a leased pool is not built: the governor refuses, the plan is wrong, or an assertion of
the constructor fails. -/
inductive NewLeasedError where
  | refused
  | poolSizeMismatch (planned actual : ℕ)
  | panic
  deriving DecidableEq, Repr

/-- Build a pool whose storage is granted by a memory governor. `reserve` is the governor's
answer to the plan, `reserveSibling` its later answers. -/
def newLeased (pageSize numGpuPages : ℕ) (dtype : KvDType) (layerConfigs : List LayerTensorConfig)
    (reserve : ℕ → Bool) (reserveSibling : ℕ → ℕ → Bool) : Except NewLeasedError PageTable :=
  let quantConfig := KvQuantConfig.homogeneous dtype layerConfigs.length
  let planned := plannedPoolBytes pageSize numGpuPages layerConfigs (some quantConfig)
  if reserve planned then
    match newWithLayerStorage pageSize numGpuPages dtype layerConfigs quantConfig with
    | none => .error .panic
    | some table =>
      if table.poolBytes ≠ planned then .error (.poolSizeMismatch planned table.poolBytes)
      else .ok { table with poolLease := some ⟨planned, reserveSibling, 0⟩ }
  else .error .refused

/-! ### Pools of pages of one layout -/

/-- The layout a new page of this table gets. -/
def pageLayout (t : PageTable) : PageStoreLayout := (Page.layoutOf t.pageSize t.layerConfigs t.quantConfig).2

/-- The bytes of a page of this table. -/
def pageBytes (t : PageTable) : ℕ := t.pageLayout.hostAllocatedBytes

/-- The number of pages, free ones included. -/
def pageCount (t : PageTable) : ℕ := t.pages.entries.length

/-- Every page has the layout of a new one. -/
def Uniform (t : PageTable) : Prop := ∀ id p, t.pages.lookup id = some p → p.store.layout = t.pageLayout

theorem allocatedBytes_eq (store : HostPageStore) : store.allocatedBytes = store.layout.hostAllocatedBytes := by
  simp only [HostPageStore.allocatedBytes, HostPageStore.layout, PageStoreLayout.hostAllocatedBytes]
  omega

theorem foldl_saturatingAdd (l : List ℕ) (a : ℕ) :
    l.foldl saturatingAdd (min a u64Max) = min (a + l.sum) u64Max := by
  induction l generalizing a with
  | nil => simp
  | cons b l ih =>
    have hadd : saturatingAdd (min a u64Max) b = min (a + b) u64Max := by
      simp only [saturatingAdd]
      omega
    rw [foldl_cons, hadd, ih, sum_cons, add_assoc]

variable {t u v t' : PageTable} {m n : ℕ}

/-- **The bytes of a pool are those of its pages.** -/
theorem Uniform.poolBytes_eq (h : t.Uniform) : t.poolBytes = min (t.pageCount * t.pageBytes) u64Max := by
  have hmap : (t.pages.entries.map fun e => e.2.store.allocatedBytes) =
      replicate t.pages.entries.length t.pageBytes := by
    rw [eq_replicate_iff]
    refine ⟨length_map _, fun b hb => ?_⟩
    obtain ⟨e, he, rfl⟩ := mem_map.mp hb
    rw [allocatedBytes_eq, h e.1 e.2 (lookup_of_mem_entries he)]
    rfl
  have := foldl_saturatingAdd (t.pages.entries.map fun e => e.2.store.allocatedBytes) 0
  rw [poolBytes]
  simpa [hmap, pageCount] using this

/-- A step of the table that adds at most `n` pages, and leaves the lease alone. -/
structure Grows (t t' : PageTable) (n : ℕ) : Prop where
  count : t'.pageCount ≤ t.pageCount + n
  uniform : t.Uniform → t'.Uniform
  lease : t'.leasedBytes = t.leasedBytes
  pageLayout : t'.pageLayout = t.pageLayout

/-- A step that adds no page. -/
def SamePool (t t' : PageTable) : Prop := Grows t t' 0

theorem Grows.trans (h : Grows t u m) (h' : Grows u v n) : Grows t v (m + n) where
  count := by
    have := h.count
    have := h'.count
    omega
  uniform ht := h'.uniform (h.uniform ht)
  lease := h'.lease.trans h.lease
  pageLayout := h'.pageLayout.trans h.pageLayout

theorem Grows.mono (h : Grows t u m) (hmn : m ≤ n) : Grows t u n :=
  ⟨h.count.trans (Nat.add_le_add_left hmn _), h.uniform, h.lease, h.pageLayout⟩

theorem SamePool.trans (h : SamePool t u) (h' : SamePool u v) : SamePool t v := Grows.trans h h'

/-- A step that leaves the pages as they are. -/
theorem samePool_of_pages (hpages : t'.pages = t.pages) (hlease : t'.leasedBytes = t.leasedBytes)
    (hlayout : t'.pageLayout = t.pageLayout) : SamePool t t' where
  count := by simp [pageCount, hpages]
  uniform ht := by
    intro id p hp
    rw [hpages] at hp
    rw [hlayout]
    exact ht id p hp
  lease := hlease
  pageLayout := hlayout

/-- A step that writes to one page. -/
theorem samePool_of_insert {id : PageId} {p q : Page} (hp : t.pages.lookup id = some p)
    (hpages : t'.pages = t.pages.insert id q) (hq : q.store.layout = p.store.layout)
    (hlease : t'.leasedBytes = t.leasedBytes) (hlayout : t'.pageLayout = t.pageLayout) : SamePool t t' where
  count := by
    rw [pageCount, hpages, length_insert_some _ _ hp]
    exact le_rfl
  uniform ht := by
    intro j r hr
    rw [hpages, lookup_insert'] at hr
    rw [hlayout]
    by_cases hj : j = id
    · rw [if_pos hj] at hr
      cases hr
      exact hq.trans (ht id p hp)
    · rw [if_neg hj] at hr
      exact ht j r hr
  lease := hlease
  pageLayout := hlayout

theorem samePool_of_asks (h : Asked t t') : SamePool t t' := by
  obtain ⟨lease, rfl, hlease⟩ := h
  exact samePool_of_pages rfl hlease rfl

/-- A step that leaves the buffers of the pages as they are adds no page. -/
theorem samePool_of_layout (h : SameLayout t t') : SamePool t t' where
  count := length_le_of_keys fun id p' hp' => by
    obtain ⟨p, hp, -⟩ := h.lookup_back hp'
    rw [hp]
    rfl
  uniform ht := by
    intro id p' hp'
    obtain ⟨p, hp, hs⟩ := h.lookup_back hp'
    rw [hs.2.2, ht id p hp]
    simp only [pageLayout, h.config.pageSize, h.config.layerConfigs, h.config.quantConfig]
  lease := h.leasedBytes
  pageLayout := by simp only [pageLayout, h.config.pageSize, h.config.layerConfigs, h.config.quantConfig]

/-! ### Allocation -/

/-- What an allocation does to the pool. -/
inductive Pooled (t : PageTable) (device : Device) : Option PageId → PageTable → Prop where
  /-- A free page is reused. -/
  | reused {id : PageId} {p q : Page} {t' : PageTable} (hnext : t.nextFree device = some id)
      (hp : t.pages.lookup id = some p) (hq : t'.pages.lookup id = some q) (hk : SamePool t t') :
      Pooled t device (some id) t'
  /-- The free list has a page that does not exist. -/
  | missing {id : PageId} {t' : PageTable} (hnext : t.nextFree device = some id)
      (hp : t'.pages.lookup id = none) (hk : SamePool t t') : Pooled t device (some id) t'
  /-- A page is added. -/
  | added {id : PageId} {q : Page} {t' : PageTable} (hnext : t.nextFree device = none)
      (hq : t'.pages.lookup id = some q) (hg : Grows t t' 1) : Pooled t device (some id) t'
  /-- There is no room. -/
  | failed {t' : PageTable} (hnext : t.nextFree device = none) (hk : SamePool t t') : Pooled t device none t'

/-- The page that was allocated is missing, or it is there, and is one more unless it was reused. -/
theorem Pooled.page {newId : PageId} (h : Pooled t (.gpu 0) (some newId) t') :
    (t'.pages.lookup newId = none ∧ SamePool t t') ∨
      ∃ q, t'.pages.lookup newId = some q ∧ Grows t t' (if (t.reusable (.gpu 0)).isNone then 1 else 0) := by
  cases h with
  | missing _ hp hk => exact .inl ⟨hp, hk⟩
  | @reused _ p _ _ hnext hp hq hk =>
    have hreuse : t.reusable (.gpu 0) = some p := bind_eq_some_iff.mpr ⟨newId, hnext, hp⟩
    refine .inr ⟨_, hq, ?_⟩
    rw [hreuse]
    exact hk
  | added hnext hq hg =>
    have hreuse : t.reusable (.gpu 0) = none := bind_eq_none_iff.mpr fun _ hi => nomatch hnext.symm.trans hi
    refine .inr ⟨_, hq, ?_⟩
    rw [hreuse]
    exact hg

theorem allocateFresh_grows (t : PageTable) (device : Device) : Grows t (t.allocateFresh device).2 1 where
  count := length_insert_le _ _ _
  uniform ht := by
    intro id p hp
    simp only [allocateFresh, lookup_insert'] at hp
    split at hp
    · cases hp
      exact HostPageStore.new_layout _ _
    · exact ht id p hp
  lease := rfl
  pageLayout := rfl

theorem allocate_pooled {device : Device} {o : Option PageId} (ha : t.allocate device = (o, t')) :
    Pooled t device o t' := by
  have hroomed : ∀ {u}, u = t ∨ u = final (evictLruHot none) t → SamePool t u := fun h =>
    samePool_of_layout (stays_of_room h (.refl [] t) (evictLruHot_tiered none [] t)).sameLayout
  cases allocation_of ha with
  | reused hlast hp =>
    exact .reused hlast hp (AList.lookup_insert _)
      (samePool_of_insert hp rfl (HostPageStore.resetStorage_layout _) rfl rfl)
  | missing hlast hp => exact .missing hlast hp (samePool_of_pages rfl rfl rfl)
  | added hlast hroom =>
    exact .added hlast (AList.lookup_insert _)
      ((Grows.trans (hroomed hroom.eq) (allocateFresh_grows _ device)).mono (zero_add 1).le)
  | failed hlast hroom => exact .failed hlast (hroomed hroom)

/-! ### Pools within their lease -/

/-- The lease covers `n` pages of this table. -/
def Covers (t : PageTable) (n : ℕ) : Prop := ∃ bytes, t.leasedBytes = some bytes ∧ min (n * t.pageBytes) u64Max ≤ bytes

/-- A pool of pages of one layout, within its lease. -/
structure Leased (t : PageTable) : Prop where
  uniform : t.Uniform
  covered : t.Covers t.pageCount

theorem Covers.mono (h : t.Covers n) (hmn : m ≤ n) : t.Covers m := by
  obtain ⟨bytes, hbytes, hle⟩ := h
  refine ⟨bytes, hbytes, le_trans ?_ hle⟩
  exact min_le_min_right _ (mul_le_mul_right _ hmn)

theorem Covers.congr (h : t.Covers n) (hlease : t'.leasedBytes = t.leasedBytes)
    (hlayout : t'.pageLayout = t.pageLayout) : t'.Covers n := by
  unfold Covers pageBytes
  rw [hlease, hlayout]
  exact h

theorem Leased.grows (h : t.Leased) (hg : Grows t t' n) (hc : t.Covers (t.pageCount + n)) : t'.Leased :=
  ⟨hg.uniform h.uniform, (hc.congr hg.lease hg.pageLayout).mono hg.count⟩

theorem Leased.samePool (h : t.Leased) (hk : SamePool t t') : t'.Leased := h.grows hk h.covered

theorem Leased.sameLayout (h : t.Leased) (hs : SameLayout t t') : t'.Leased := h.samePool (samePool_of_layout hs)

/-- **A leased pool occupies no more than its lease.** -/
theorem leased_iff (hu : t.Uniform) : t.Leased ↔ ∃ bytes, t.leasedBytes = some bytes ∧ t.poolBytes ≤ bytes := by
  rw [hu.poolBytes_eq]
  exact ⟨fun h => h.covered, fun h => ⟨hu, h⟩⟩

/-- An extension of a sequence finds a free page on the hot tier, or the lease already covers
another page. -/
def GrowthOk (t : PageTable) : Prop :=
  (t.nextFree (.gpu 0)).isSome = true ∨ ∃ bytes ∈ t.leasedBytes, saturatingAdd t.poolBytes t.pageBytes ≤ bytes

instance (t : PageTable) : Decidable t.GrowthOk :=
  inferInstanceAs (Decidable (_ ∨ ∃ bytes ∈ t.leasedBytes, _))

theorem Uniform.covers_succ (h : t.Uniform) :
    t.Covers (t.pageCount + 1) ↔ ∃ bytes ∈ t.leasedBytes, saturatingAdd t.poolBytes t.pageBytes ≤ bytes := by
  have hbytes : saturatingAdd t.poolBytes t.pageBytes = min ((t.pageCount + 1) * t.pageBytes) u64Max := by
    rw [h.poolBytes_eq, saturatingAdd, succ_mul]
    omega
  rw [hbytes]
  rfl

theorem Leased.allocate (h : t.Leased) (hok : t.GrowthOk) : (t.allocate (.gpu 0)).2.Leased := by
  cases ha : t.allocate (.gpu 0) with
  | mk allocated t' =>
  cases allocate_pooled ha with
  | reused _ _ _ hk | missing _ _ hk | failed _ hk => exact h.samePool hk
  | added hnext _ hg =>
    refine h.grows hg (h.uniform.covers_succ.mpr ?_)
    rcases hok with hsome | hcover
    · rw [hnext] at hsome
      cases hsome
    · exact hcover

/-! ### Copying a shared page -/

/-- A pool that grew by a page and whose lease absorbed the bytes of a page is within its lease. -/
theorem Leased.absorbs {lease : Option MemoryLease} (h : t.Leased)
    (hg : Grows t v (if (t.reusable (.gpu 0)).isNone then 1 else 0)) (hlease : lease.map MemoryLease.bytes =
      v.leasedBytes.map (· + if (t.reusable (.gpu 0)).isNone then t.pageBytes else 0)) :
    ({ v with poolLease := lease } : PageTable).Leased := by
  obtain ⟨bytes, hbytes, hle⟩ := h.covered
  have hcount := hg.count
  rw [hg.lease, hbytes] at hlease
  refine ⟨hg.uniform h.uniform, _, hlease, ?_⟩
  have hpage : ({ v with poolLease := lease } : PageTable).pageBytes = t.pageBytes :=
    congrArg PageStoreLayout.hostAllocatedBytes hg.pageLayout
  rw [hpage]
  show min (v.pageCount * t.pageBytes) u64Max ≤ bytes + _
  split at hcount
  case isTrue hnone =>
    rw [if_pos hnone]
    have hmul := mul_le_mul_right t.pageBytes hcount
    rw [succ_mul] at hmul
    omega
  case isFalse hsome =>
    have hmul := mul_le_mul_right t.pageBytes hcount
    rw [add_zero] at hmul
    omega

/-- Rolling an allocation back leaves no more pages than there were. -/
theorem rollbackAllocation_samePool {x : PageTable} {growth : Option ℕ} {newId : PageId} {q : Page} (ht : t.Uniform)
    (hq : x.pages.lookup newId = some q) (hg : Grows t x (if (t.reusable (.gpu 0)).isNone then 1 else 0)) :
    Leaves (SamePool t) (rollbackAllocation (t.checkpointOf (.gpu 0) growth) newId) x := by
  have hx := hg.uniform ht
  obtain ⟨pages, hpages⟩ : ∃ pages, pages = x.restored newId (t.reusable (.gpu 0)) := ⟨_, rfl⟩
  have hkept : SamePool t { x with
      pages := pages, freePages := t.freePages, clock := t.clock, nextPageId := t.nextPageId } := by
    subst hpages
    cases hr : t.reusable (.gpu 0) with
    | none =>
      rw [hr] at hg
      refine ⟨?_, fun _ => ?_, hg.lease, hg.pageLayout⟩
      · have hcount : x.pageCount ≤ t.pageCount + 1 := hg.count
        have herase := length_erase_some x.pages hq
        simp only [pageCount, restored] at hcount ⊢
        omega
      · intro j p hp
        simp only [restored, lookup_erase'] at hp
        split at hp
        · cases hp
        · exact hx j p hp
    | some page =>
      rw [hr] at hg
      obtain ⟨id, -, hpage⟩ := bind_eq_some_iff.mp hr
      refine SamePool.trans hg (samePool_of_insert hq rfl ?_ rfl rfl)
      rw [ht id page hpage, hx newId q hq]
      exact hg.pageLayout.symm
  refine rollbackAllocation_rule hpages (fun _ => hkept) fun v store page he hp =>
    hkept.trans (samePool_of_insert hp rfl ?_ rfl rfl)
  -- the store put back is one of the table the checkpoint was taken of
  obtain ⟨⟨w, p⟩, hev, hstore⟩ := map_eq_some_iff.mp he
  cases hstore
  have hlook : t.pages.lookup w = some p := by
    unfold evictee at hev
    split at hev
    · obtain ⟨i, -, hi⟩ := bind_eq_some_iff.mp hev
      obtain ⟨p', hp', he'⟩ := map_eq_some_iff.mp hi
      cases he'
      exact hp'
    · cases hev
  rw [hkept.uniform ht w page hp]
  exact (ht w p hlook).trans hkept.pageLayout.symm

end PageTable

namespace PagedKvCache

open PageTable

variable {t : PageTable} {seq : SequenceId} {position : ℕ}

/-- **Copy on write stays within the lease**, whether it succeeds or fails. -/
theorem copyPageForWrite_leased (h : t.Leased) (seq : SequenceId) (pageIndex : ℕ) (pageId : PageId) :
    Leaves Leased (copyPageForWrite seq pageIndex pageId) t := by
  -- the page that was allocated, and the source, which is still there
  have hpage : ∀ {p id v}, Copying t pageId p id v → (v.pages.lookup id = none ∧ SamePool t v) ∨
      ((v.pages.lookup pageId).isSome = true ∧
        ∃ q, v.pages.lookup id = some q ∧ Grows t v (if (t.reusable (.gpu 0)).isNone then 1 else 0)) := by
    rintro p id v ⟨hp, u, hu, ha⟩
    have hasked := samePool_of_asks hu
    obtain ⟨lease, rfl, -⟩ := hu
    refine (allocate_pooled ha).page.imp (fun hk => ⟨hk.1, hasked.trans hk.2⟩) fun ⟨q, hq, hg⟩ => ?_
    refine ⟨?_, q, hq, (Grows.trans hasked hg).mono (zero_add _).le⟩
    by_cases heq : pageId = id
    · rw [heq, hq]
      rfl
    · obtain ⟨old, hold, -⟩ := optionRel_some (allocate_lookup_ne ha heq) hp
      rw [hold]
      rfl
  refine copyPageForWrite_rule (fun u hu => h.samePool (samePool_of_asks hu)) ?_ ?_ ?_ ?_
  · intro u v hu ha
    cases allocate_pooled ha with
    | failed _ hk => exact h.samePool ((samePool_of_asks hu).trans hk)
  · intro p id v hv hn
    rcases hpage hv with ⟨-, hk⟩ | ⟨hold, q, hq, -⟩
    · exact h.samePool hk
    · rcases hn with hn | hn
      · rw [hn] at hold
        cases hold
      · cases hn.symm.trans hq
  · intro p id v new pages growth hv hnew hpages
    obtain ⟨-, q, -, hg⟩ := (hpage hv).resolve_left fun hn => nomatch hn.1.symm.trans hnew
    have hput : ∃ q, pages.lookup id = some q ∧
        Grows t { v with pages := pages } (if (t.reusable (.gpu 0)).isNone then 1 else 0) := by
      rcases hpages with rfl | ⟨copy, rfl, hl, -⟩
      · exact ⟨new, hnew, hg⟩
      · have hkept : SamePool v { v with pages := v.pages.insert id copy } := samePool_of_insert hnew rfl hl rfl rfl
        exact ⟨copy, AList.lookup_insert _, Grows.trans hg hkept⟩
    obtain ⟨q, hq, hput⟩ := hput
    exact (rollbackAllocation_samePool h.uniform hq hput).mono (fun _ _ => h.samePool) fun _ _ => h.samePool
  · intro p id v old new lease hv hold hnew hl hlease
    obtain ⟨-, q, -, hg⟩ := (hpage hv).resolve_left fun hn => nomatch hn.1.symm.trans hnew
    obtain ⟨bytes, hbytes, -⟩ := h.covered
    obtain ⟨lease₀, hlease₀, -⟩ := map_eq_some_iff.mp hbytes
    rw [hlease₀, allocatedBytes_eq, h.uniform pageId p hv.1] at hlease
    refine Leased.sameLayout ?_ ((sameLayout_sequences _ _).trans (sameLayout_free _ pageId))
    have hkept : SamePool v { v with
        pages := v.pages.insert id
          { new with store := { old.store with residency := new.store.residency }, filled := old.filled } } :=
      samePool_of_insert hnew rfl hl.symm rfl rfl
    exact h.absorbs (Grows.trans hg hkept) hlease

/-! ### Writing -/

/-- A write to a page of a sequence that has to extend it may add a page. -/
def ExtendOk (t : PageTable) (seq : SequenceId) (pageIndex : ℕ) : Prop :=
  ∀ r ∈ t.sequences.lookup seq, pageIndex = r.pages.length → t.GrowthOk

instance (t : PageTable) (seq : SequenceId) (pageIndex : ℕ) : Decidable (ExtendOk t seq pageIndex) :=
  inferInstanceAs (Decidable (∀ r ∈ t.sequences.lookup seq, pageIndex = r.pages.length → t.GrowthOk))

/-- Writing a token at `position` of a sequence. -/
def WriteOk (t : PageTable) (seq : SequenceId) (position : ℕ) : Prop :=
  ∀ r ∈ t.sequences.lookup seq, ExtendOk t seq (r.bufferIndex position / t.pageSize)

instance (t : PageTable) (seq : SequenceId) (position : ℕ) : Decidable (WriteOk t seq position) :=
  inferInstanceAs (Decidable (∀ r ∈ t.sequences.lookup seq, ExtendOk t seq (r.bufferIndex position / t.pageSize)))

/-- Appending tokens at these positions, each judged by the table it finds. -/
def AppendOk (seq : SequenceId) : List ℕ → PageTable → Prop
  | [], _ => True
  | position :: rest, t => WriteOk t seq position ∧
    match appendOne seq position t with
    | .ok _ t' => AppendOk seq rest t'
    | .error _ _ => True

instance decidableAppendOk (seq : SequenceId) : ∀ (positions : List ℕ) (t : PageTable),
    Decidable (AppendOk seq positions t)
  | [], _ => inferInstanceAs (Decidable True)
  | position :: rest, t => by
    have : Decidable (match appendOne seq position t with
        | .ok _ t' => AppendOk seq rest t'
        | .error _ _ => True) := by
      cases appendOne seq position t with
      | ok _ t' => exact decidableAppendOk seq rest t'
      | error _ _ => exact isTrue trivial
    exact inferInstanceAs (Decidable (_ ∧ _))

theorem ensurePageForWrite_leased (h : t.Leased) {pageIndex : ℕ} (hok : ExtendOk t seq pageIndex) :
    Leaves Leased (ensurePageForWrite seq pageIndex) t := by
  refine .bind (.get (.bind (.getOr (fun ids hids => ?_) fun _ => h)))
  obtain ⟨r, hr, rfl⟩ := map_eq_some_iff.mp hids
  cases r.pages[pageIndex]? with
  | some pageId =>
    refine .bind (.getOr (fun page _ => ?_) fun _ => h)
    split
    · exact copyPageForWrite_leased h seq pageIndex pageId
    · refine .bind (.mono (promoteToHot_tiered pageId t) (fun _ u hu => ?_) fun _ u hu => h.sameLayout hu.sameLayout)
      exact .pure (h.sameLayout hu.sameLayout)
  | none =>
    refine .bind (.require (fun hlen => ?_) fun _ => h)
    have hv := h.allocate (hok r hr hlen)
    refine .bind (.set (.bind (.getOr (fun id _ => ?_) fun _ => hv)))
    exact .bind (.modify (.pure (hv.sameLayout (sameLayout_sequences _ _))))

theorem bufferIndex_ensures {Q : ℕ → PageTable → Prop} {E : KvError → PageTable → Prop}
    (hs : ∀ r, t.sequences.lookup seq = some r → Q (r.bufferIndex position) t)
    (hn : t.sequences.lookup seq = none → E (.sequenceNotFound seq) t) : Ensures (bufferIndex seq position) t Q E :=
  .bind (sequence_ensures (fun r hr => .pure (hs r hr)) hn)

theorem appendOne_leased (h : t.Leased) (hok : WriteOk t seq position) :
    Leaves Leased (appendOne seq position) t := by
  refine .bind (.get (.bind (.require (fun _ => ?_) fun _ => h)))
  refine .bind (bufferIndex_ensures (fun r hr => ?_) fun _ => h)
  refine .bind (.mono (ensurePageForWrite_leased h (hok r hr)) (fun id u hu => ?_) fun _ _ hu => hu)
  refine .bind (.mono (promoteToHot_tiered id u) (fun _ v hv => ?_) fun _ v hv => hu.sameLayout hv.sameLayout)
  exact .modify (hu.sameLayout (hv.sameLayout.trans (sameLayout_adjustPage v id _ fun _ => ⟨rfl, rfl, rfl⟩)))

theorem append_leased (h : t.Leased) {numTokens : ℕ}
    (hok : ∀ r ∈ t.sequences.lookup seq, AppendOk seq ((List.range numTokens).map fun i => r.length + i) t) :
    Leaves Leased (append seq numTokens) t := by
  refine .bind (.bind (sequence_ensures (fun r hr => .pure ?_) fun _ => h))
  have hloop : ∀ positions u, u.Leased ∧ AppendOk seq positions u →
      Ensures (each (appendOne seq) positions) u (fun _ t' => t'.Leased ∧ AppendOk seq [] t') fun _ t' => t'.Leased := by
    refine .each (I := fun positions u => u.Leased ∧ AppendOk seq positions u) ?_
    rintro position rest u ⟨hu, hwrite, hnext⟩
    rcases (appendOne_leased hu hwrite).outcome with ⟨_, v, hx, hv⟩ | ⟨_, v, hx, hv⟩
    · rw [hx] at hnext
      exact .of_ok hx ⟨hv, hnext⟩
    · exact .of_error hx hv
  refine .bind (.mono (hloop _ t ⟨h, hok r hr⟩) (fun _ u hu => ?_) fun _ _ hu => hu)
  exact .modify (hu.1.sameLayout (sameLayout_sequences _ _))

theorem writeTokenKv_leased (h : t.Leased) (codec : Page.QuantCodec) (layers : List LayerKv)
    (hok : WriteOk t seq position) :
    Leaves Leased (writeTokenKv codec seq position layers) t := by
  refine .bind (.get (.bind (.require (fun _ => ?_) fun _ => h)))
  refine .bind (.liftResult (fun _ _ => ?_) fun _ _ => h)
  refine .bind (sequence_ensures (fun r hr => ?_) fun _ => h)
  refine .bind (.require (fun _ => ?_) fun _ => h)
  refine .bind (.require (fun _ => ?_) fun _ => h)
  refine .bind (.require (fun _ => ?_) fun _ => h)
  refine .bind (bufferIndex_ensures (fun r' hr' => ?_) fun _ => h)
  refine .bind (.mono (ensurePageForWrite_leased h (hok r' hr')) (fun id u hu => ?_) fun _ _ hu => hu)
  refine .bind (.mono (promoteToHot_tiered id u) (fun _ v hv => ?_) fun _ v hv => hu.sameLayout hv.sameLayout)
  have hv' := hu.sameLayout hv.sameLayout
  refine .bind (.get (.bind (.getOr (fun page hp => ?_) fun _ => hv')))
  refine .bind (.liftResult (fun page' hwrite => ?_) fun _ _ => hv')
  obtain ⟨store, rfl, -, hlayout⟩ := writeLayers_stored hwrite
  have hput : ∀ filled, ({ v with
      pages := v.pages.insert id { page with store := store, filled := filled } } : PageTable).Leased :=
    fun filled => hv'.samePool (samePool_of_insert hp rfl hlayout rfl rfl)
  refine .bind (.modify (.bind (.modify ?_)))
  split
  · exact .modify ((hput _).sameLayout ((Tiered.touch [] _ id).sameLayout.trans (sameLayout_sequences _ _)))
  · exact .pure ((hput _).sameLayout (Tiered.touch [] _ id).sameLayout)

theorem appendTokenKv_leased (h : t.Leased) (codec : Page.QuantCodec) (layers : List LayerKv)
    (hok : ∀ r ∈ t.sequences.lookup seq, WriteOk t seq r.length) :
    Leaves Leased (appendTokenKv codec seq layers) t := by
  refine .bind (.bind (sequence_ensures (fun r hr => .pure ?_) fun _ => h))
  refine .bind (.mono (writeTokenKv_leased h codec layers (hok r hr)) (fun _ u hu => ?_) fun _ _ hu => hu)
  exact .pure hu

/-! ### The other operations -/

theorem rewindTo_sameLayout (seq : SequenceId) (position : ℕ) (t : PageTable) :
    Stays SameLayout (rewindTo seq position) t := by
  refine .mono (rewindTo_spec seq position t) ?_ ?_
  · rintro _ _ ⟨r, hr⟩
    exact hr.sameLayout
  · rintro _ _ rfl
    exact SameLayout.refl _

theorem applySlidingWindow_sameLayout (seq : SequenceId) (windowSize : ℕ) (t : PageTable) :
    Stays SameLayout (applySlidingWindow seq windowSize) t := by
  refine .mono (applySlidingWindow_spec seq windowSize t) ?_ ?_
  · rintro _ _ (rfl | ⟨r, -, rfl⟩)
    · exact SameLayout.refl _
    · exact sameLayout_slid _ _ _ _ _ _ _
  · rintro _ _ rfl
    exact SameLayout.refl _

theorem applySlidingWindowWithSinks_sameLayout (seq : SequenceId) (windowSize sinkTokens : ℕ) (t : PageTable) :
    Stays SameLayout (applySlidingWindowWithSinks seq windowSize sinkTokens) t := by
  by_cases hsink : sinkTokens = 0
  · unfold applySlidingWindowWithSinks
    rw [if_pos hsink]
    exact Ensures.bind (Ensures.require (fun _ => applySlidingWindow_sameLayout seq windowSize t)
      fun _ => SameLayout.refl t)
  refine .mono (applySlidingWindowWithSinks_spec seq windowSize hsink t) ?_ ?_
  · rintro _ _ (rfl | ⟨r, hr⟩)
    · exact SameLayout.refl _
    · rw [hr.run]
      exact sameLayout_slid _ _ _ _ _ _ _
  · rintro _ _ rfl
    exact SameLayout.refl _

theorem forkInto_sameLayout (source : SequenceId) (position : ℕ) (newSeq : SequenceId) (t : PageTable) :
    Stays SameLayout (forkInto source position newSeq) t := by
  refine .mono (forkInto_spec source position newSeq t) ?_ ?_
  · rintro _ _ ⟨r, hr⟩
    exact hr.sameLayout
  · rintro _ _ rfl
    exact SameLayout.refl _

end PagedKvCache

theorem PrefixCache.evictLruLoop_sameLayout (target fuel : ℕ) (released : List PageId) (cache : PrefixCache)
    (t : PageTable) : PageTable.SameLayout t (PrefixCache.evictLruLoop target fuel released cache t).2.2 := by
  induction fuel generalizing released cache t with
  | zero => exact .refl t
  | succ fuel ih =>
    unfold PrefixCache.evictLruLoop
    split
    · split
      · exact .refl t
      · split
        · exact .refl t
        · split
          · exact .refl t
          · exact (PageTable.sameLayout_freeAll _ t).trans (ih _ _ _)
    · exact .refl t

/-- The actions that take a page for a sequence to write to. -/
def Action.writes : Action → Bool
  | .append _ _ | .writeTokenKv _ _ _ | .appendTokenKv _ _ => true
  | _ => false

/-! ### Runs -/

namespace System

open PageTable PagedKvCache

/-- **The other operations keep the layout**: what the pages' buffers are, and what is leased. -/
theorem sameLayout_step {s : System} (codec : Page.QuantCodec) {a : Action} (ha : a.writes = false) :
    SameLayout s.table (s.step codec a).table := by
  have hfinal : ∀ {α : Type} {x : TableM α}, Stays SameLayout x s.table → SameLayout s.table (final x s.table) :=
    fun hx => Ensures.final (P := SameLayout s.table) hx
  cases a with
  | append | writeTokenKv | appendTokenKv => cases ha
  | create => exact sameLayout_sequences _ _
  | rewindTo seq position => exact hfinal (rewindTo_sameLayout seq position _)
  | fork source position =>
    have hfork := forkInto_sameLayout source position s.cache.nextSeqId s.table
    simp only [step, PagedKvCache.fork]
    cases hx : forkInto source position s.cache.nextSeqId s.cache.pageTable with
    | ok _ u => exact hfork.of_ok hx
    | error _ u => exact hfork.of_error hx
  | applySlidingWindow seq w => exact hfinal (applySlidingWindow_sameLayout seq w _)
  | applySlidingWindowWithSinks seq w n => exact hfinal (applySlidingWindowWithSinks_sameLayout seq w n _)
  | preemptSequence seq => exact hfinal (sameLayout_of_tiered (preemptSequence_tiered seq _))
  | restoreSequence seq => exact hfinal (sameLayout_of_tiered (restoreSequence_tiered seq _))
  | prefetch seq start stop => exact hfinal (sameLayout_of_tiered (prefetch_tiered seq start stop _))
  | evict target => exact (evict_tiered target _).sameLayout
  | remove seq => exact (sameLayout_sequences _ _).trans (sameLayout_freeAll _ _)
  | insertPages tokens ids => exact sameLayout_retainAll ids _
  | lookupShared tokens =>
    simp only [step, PrefixCache.lookupShared]
    split
    · exact sameLayout_retainAll _ _
    · exact .refl _
  | releaseShared b =>
    simp only [step, PrefixCache.releaseShared]
    split
    · exact .refl _
    · split
      · exact .refl _
      · split
        · exact sameLayout_freeAll _ _
        · exact .refl _
  | evictLru target => exact PrefixCache.evictLruLoop_sameLayout target target [] _ _

/-- A cache built under a governor, with a new prefix cache. -/
def NewLeased (s : System) : Prop :=
  ∃ pageSize numGpuPages dtype layerConfigs reserve reserveSibling t,
    newLeased pageSize numGpuPages dtype layerConfigs reserve reserveSibling = .ok t ∧
      s = ⟨⟨t, 0⟩, PrefixCache.new, []⟩

/-- No extension of a sequence has to add a page the lease does not cover. -/
def LeaseOk (s : System) : Action → Prop
  | .append seq n => ∀ r ∈ s.table.sequences.lookup seq,
      AppendOk seq ((List.range n).map fun i => r.length + i) s.table
  | .writeTokenKv seq position _ => WriteOk s.table seq position
  | .appendTokenKv seq _ => ∀ r ∈ s.table.sequences.lookup seq, WriteOk s.table seq r.length
  | _ => True

instance (s : System) (a : Action) : Decidable (s.LeaseOk a) := by
  cases a <;> unfold LeaseOk <;> infer_instance

/-- The pages of a new pool have the layout of a new page. -/
theorem uniform_foldl_new (f : PageId → Page) (l : PageStoreLayout) (hf : ∀ id, (f id).store.layout = l)
    (ids : List PageId) (pages : FiniteMap PageId Page) (h : ∀ id p, pages.lookup id = some p → p.store.layout = l) :
    ∀ id p, (ids.foldl (fun m id => m.insert id (f id)) pages).lookup id = some p → p.store.layout = l := by
  induction ids generalizing pages with
  | nil => exact h
  | cons i ids ih =>
    refine ih _ fun id p hp => ?_
    rw [lookup_insert'] at hp
    split at hp
    · cases hp
      exact hf i
    · exact h id p hp

theorem build_uniform (pageSize numGpuPages : ℕ) (tensorConfig : Option PageTensorConfig)
    (layerConfigs : List LayerTensorConfig) (quantConfig : Option KvQuantConfig) :
    (build pageSize numGpuPages tensorConfig layerConfigs quantConfig).Uniform :=
  uniform_foldl_new _ _ (fun _ => HostPageStore.new_layout _ _) _ ∅ fun id p hp => by
    cases hp

/-- A new leased pool occupies what it leased. -/
theorem newLeased_leased {pageSize numGpuPages : ℕ} {dtype : KvDType} {layerConfigs : List LayerTensorConfig}
    {reserve : ℕ → Bool} {reserveSibling : ℕ → ℕ → Bool} {t : PageTable}
    (h : newLeased pageSize numGpuPages dtype layerConfigs reserve reserveSibling = .ok t) : t.Leased := by
  simp only [newLeased] at h
  split at h
  case isFalse => cases h
  case isTrue =>
    split at h
    · cases h
    · rename_i table htable
      split at h
      · cases h
      · rename_i hsize
        cases h
        have huniform : table.Uniform := by
          unfold newWithLayerStorage at htable
          split at htable
          · cases htable
          · split at htable
            · cases htable
              exact build_uniform _ _ _ _ _
            · cases htable
        exact (leased_iff (by exact huniform)).mpr ⟨_, rfl, (not_not.mp hsize).le⟩

theorem NewLeased.leased {s : System} (h : s.NewLeased) : s.table.Leased := by
  obtain ⟨pageSize, n, dtype, layerConfigs, reserve, reserveSibling, t, ht, rfl⟩ := h
  exact newLeased_leased ht

/-- **One operation keeps the pool within its lease**, if it adds no page the lease does not
cover. -/
theorem leased_step {s : System} (h : s.table.Leased) (codec : Page.QuantCodec) {a : Action} (ha : s.LeaseOk a) :
    (s.step codec a).table.Leased := by
  cases a with
  | append seq n => exact Ensures.final (append_leased h ha)
  | writeTokenKv seq position layers => exact Ensures.final (writeTokenKv_leased h codec layers ha)
  | appendTokenKv seq layers => exact Ensures.final (appendTokenKv_leased h codec layers ha)
  | _ => exact h.sameLayout (sameLayout_step codec rfl)

/-- With room on the hot tier and a page id left, an extension that finds no free page adds one. -/
theorem extend_count {t : PageTable} {seq : SequenceId} {r : Sequence} (hr : t.sequences.lookup seq = some r)
    (hroom : t.hotUsedCount < t.hotCapacity) (hfresh : t.pages.lookup t.nextPageId = none)
    (hnext : t.nextFree (.gpu 0) = none) :
    (final (ensurePageForWrite seq r.pages.length) t).pageCount = t.pageCount + 1 ∧
      Grows t (final (ensurePageForWrite seq r.pages.length) t) 1 := by
  have hready : t.allocate (.gpu 0) = (some t.nextPageId, (t.allocateFresh (.gpu 0)).2) := by
    have hlast : ((t.freePages.lookup (.gpu 0)).getD []).getLast? = none := hnext
    unfold allocate allocateReady allocateFree
    rw [if_neg fun hc => absurd hc.2.2 (not_le.mpr hroom), hlast]
    rw [if_pos ⟨rfl, hroom⟩]
    rfl
  refine Ensures.final (P := fun t' => t'.pageCount = t.pageCount + 1 ∧ Grows t t' 1) ?_
  refine .bind (.get (.bind (.getOr (fun ids hids => ?_) fun hn => ?_)))
  · obtain ⟨r', hr', rfl⟩ := map_eq_some_iff.mp hids
    cases hr.symm.trans hr'
    rw [getElem?_eq_none le_rfl]
    refine .bind (.require (fun _ => ?_) fun hc => absurd rfl hc)
    rw [hready]
    refine .bind (.set (.bind (.getOr (fun id hid => ?_) fun hn => nomatch hn)))
    refine .bind (.modify (.pure ?_))
    refine ⟨length_insert_new _ _ hfresh, ?_⟩
    exact Grows.trans (allocateFresh_grows t (.gpu 0)) (samePool_of_layout (sameLayout_sequences _ _))
  · rw [getSequence, hr] at hn
    cases hn

/-- Whether the pool occupies no more than it leased. -/
def WithinLease (t : PageTable) : Prop := ∃ bytes, t.leasedBytes = some bytes ∧ t.poolBytes ≤ bytes

/-- **A governed pool never occupies more than its lease**, in every run in which no extension
of a sequence has to add a page that the lease does not cover. For an extension with room on the
hot tier the condition is exact. -/
theorem pool_within_lease (codec : Page.QuantCodec) {s : System}
    (h : Reachable NewLeased LeaseOk (step codec) s) :
    WithinLease s.table ∧
      ∀ seq r, s.table.sequences.lookup seq = some r → s.table.hotUsedCount < s.table.hotCapacity →
        s.table.pages.lookup s.table.nextPageId = none →
          (WithinLease (final (ensurePageForWrite seq r.pages.length) s.table) ↔
            ExtendOk s.table seq r.pages.length) := by
  have hs : s.table.Leased := Reachable.invariant (I := fun s => s.table.Leased) (fun _ => NewLeased.leased)
    (fun _ _ hs ha => leased_step hs codec ha) h
  refine ⟨(leased_iff hs.uniform).mp hs, fun seq r hr hroom hfresh => ⟨fun hafter => ?_, fun hok => ?_⟩⟩
  · intro r' hr' _
    cases hnext : s.table.nextFree (.gpu 0) with
    | some id => exact .inl (by rw [hnext]; rfl)
    | none =>
      obtain ⟨hcount, hg⟩ := extend_count hr hroom hfresh hnext
      have hleased := (leased_iff (hg.uniform hs.uniform)).mpr hafter
      refine .inr (hs.uniform.covers_succ.mp ?_)
      rw [← hcount]
      exact hleased.covered.congr hg.lease.symm hg.pageLayout.symm
  · have hleased := Ensures.final (P := PageTable.Leased) (ensurePageForWrite_leased hs hok)
    exact (leased_iff hleased.uniform).mp hleased

/-- A leased pool of one page of two scalars. -/
def onePage : PageTable :=
  { build 1 1 (some ⟨1, 1, 1, 1, .f32⟩) [⟨1, 1⟩] (some (KvQuantConfig.homogeneous .f32 1)) with
    poolLease := some ⟨8, fun _ _ => true, 0⟩ }

theorem newLeased_onePage : newLeased 1 1 .f32 [⟨1, 1⟩] (fun _ => true) (fun _ _ => true) = .ok onePage := rfl

def onePageSystem : System := ⟨⟨onePage, 0⟩, PrefixCache.new, []⟩

theorem newLeased_onePageSystem : NewLeased onePageSystem :=
  ⟨1, 1, .f32, [⟨1, 1⟩], fun _ => true, fun _ _ => true, onePage, newLeased_onePage, rfl⟩

/-- A sequence gets its first token. -/
def firstToken : List Action := [.create, .append 0 1]

theorem pool_within_lease_appended : WithinLease (firstToken.foldl (step noCodec) onePageSystem).table :=
  (pool_within_lease noCodec (Reachable.foldl firstToken (.start newLeased_onePageSystem) (by decide))).1

/-- A second token needs a second page: the first page is evicted, and a new one is added to
the pool, but not to the lease. -/
def secondToken : List Action := firstToken ++ [.append 0 1]

theorem extended_beyond_lease : ∃ s, Reachable NewLeased (fun _ _ => True) (step noCodec) s ∧
    s.table.leasedBytes = some 8 ∧ s.table.poolBytes = 16 :=
  ⟨secondToken.foldl (step noCodec) onePageSystem,
    Reachable.foldl secondToken (.start newLeased_onePageSystem) (by decide), by decide, by decide⟩

end System

end OnnxGenai.Kv
