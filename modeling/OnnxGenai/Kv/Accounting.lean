import OnnxGenai.Kv.Operations

/-!
# Every operation accounts for its references

From the descriptions in `Operations`: each operation of the cache takes a table that
accounts for its references to one that does, and touches no sequence but the one it is
called for. The one proviso is that page ids do not run out: `next_page_id` saturates at
`u32::MAX`, and then names one page over and over.
-/

namespace OnnxGenai.Kv

open Lib List FiniteMap Nat

namespace PagedKvCache

open PageTable

/-- No sequence appeared. -/
def Keys (t t' : PageTable) : Prop := ∀ seq, t.sequences.lookup seq = none → t'.sequences.lookup seq = none

theorem Keys.refl (t : PageTable) : Keys t t := fun _ h => h

variable {t u v t' : PageTable} {seq : SequenceId} {r : Sequence} {n pageSize position pageIndex tokenOffset : ℕ}
  {held : List PageId} {p : Page} {codec : Page.QuantCodec}

theorem Keys.trans (h₁ : Keys t u) (h₂ : Keys u v) : Keys t v :=
  fun seq h => h₂ seq (h₁ seq h)

theorem Keys.of_eq (h : t'.sequences = t.sequences) : Keys t t' := fun seq hs => by rw [h, hs]

theorem keys_adjustSequence (t : PageTable) (seq : SequenceId) (f : Sequence → Sequence) :
    Keys t (t.adjustSequence seq f) := by
  intro j hj
  unfold adjustSequence
  rw [lookup_adjust]
  by_cases h : j = seq
  · subst h
    simp [hj]
  · simp [h, hj]

theorem keys_withSequence (hr : t.sequences.lookup seq = some r) (r' : Sequence) :
    Keys t (withSequence t seq r') := by
  intro j hj
  by_cases h : j = seq
  · subst h
    rw [hr] at hj
    cases hj
  · simp [h, hj]

theorem allocate_sequences {d : Device} {o : Option PageId} (ha : t.allocate d = (o, t')) :
    t'.sequences = t.sequences := by
  cases allocation_of ha with
  | reused | missing => rfl
  | added _ hroom => exact (moved_of_room hroom.eq).sequences
  | failed _ hroom => exact (moved_of_room hroom).sequences

theorem WritePage.keys {id : PageId} (hw : WritePage t seq pageIndex id t') : Keys t t' := by
  cases hw with
  | owned _ _ _ _ hm => exact Keys.of_eq hm.sequences
  | copied lease _ _ _ _ hm ha =>
    refine (Keys.of_eq ((allocate_sequences ha).trans hm.sequences)).trans ?_
    intro j hj
    unfold withCopy
    rw [free_sequences]
    exact keys_adjustSequence _ seq _ j hj
  | added _ _ ha => exact (Keys.of_eq (allocate_sequences ha)).trans (keys_adjustSequence _ seq _)

/-- The table accounts for the same held references, and no sequence appeared, unless
page ids ran out. -/
def Good (t : PageTable) (held : List PageId) (t' : PageTable) : Prop :=
  t'.nextPageId < u32Max → Counted t' held ∧ Keys t t'

/-- An operation keeps the account, whether it succeeds or fails. -/
abbrev KeepsGood {α : Type} (x : TableM α) (t : PageTable) (held : List PageId) : Prop :=
  Ensures x t (fun _ t' => Good t held t') fun _ t' => Good t held t'

theorem Good.moved (h : Good t held u) (hm : Moved u v) : Good t held v := by
  intro hfit
  rw [hm.nextPageId] at hfit
  obtain ⟨hc, hk⟩ := h hfit
  exact ⟨hc.moved hm, hk.trans (Keys.of_eq hm.sequences)⟩

theorem Good.of_counted (h : Counted t held) : Good t held t :=
  fun _ => ⟨h, Keys.refl t⟩

theorem Good.trans (h : Good t held u) (hn : NextMono u v) (hv : Counted u held → Good u held v) : Good t held v := by
  intro hfit
  obtain ⟨hc, hk⟩ := h (lt_of_le_of_lt (hn hfit) hfit)
  obtain ⟨hc', hk'⟩ := hv hc hfit
  exact ⟨hc', hk.trans hk'⟩

theorem Good.adjustSequence (h : Good t held u) (seq : SequenceId) (f : Sequence → Sequence)
    (hf : ∀ r, (f r).pages = r.pages) : Good t held (u.adjustSequence seq f) := by
  intro hfit
  obtain ⟨hc, hk⟩ := h hfit
  exact ⟨hc.adjustSequence_same seq f hf, hk.trans (keys_adjustSequence u seq f)⟩

theorem Good.adjustPage (h : Good t held u) (id : PageId) (f : Page → Page) (hc : ∀ p, (f p).refCount = p.refCount)
    (hr : ∀ p, (f p).residency = p.residency) : Good t held (u.adjustPage id f) := by
  intro hfit
  obtain ⟨hcount, hk⟩ := h hfit
  refine ⟨?_, hk⟩
  cases hp : u.pages.lookup id with
  | none =>
    have : u.adjustPage id f = u := by simp [PageTable.adjustPage, adjust, hp]
    rwa [this]
  | some p =>
    have : u.adjustPage id f = { u with pages := u.pages.insert id (f p) } := by
      simp [PageTable.adjustPage, adjust, hp]
    rw [this]
    exact hcount.update hp (hc p) (hr p)

/-! ### Writing -/

/-- Page `p` with other bytes in buffers of the same lengths. -/
def Stored (p p' : Page) : Prop :=
  ∃ store, p' = { p with store := store } ∧ store.residency = p.store.residency ∧ store.layout = p.store.layout

theorem Stored.refl (p : Page) : Stored p p := ⟨p.store, rfl, rfl, rfl⟩

theorem Stored.trans {q r : Page} (h₁ : Stored p q) (h₂ : Stored q r) : Stored p r := by
  obtain ⟨s₁, rfl, hr₁, hl₁⟩ := h₁
  obtain ⟨s₂, rfl, hr₂, hl₂⟩ := h₂
  exact ⟨s₂, rfl, hr₂.trans hr₁, hl₂.trans hl₁⟩

theorem writeSlice_length {α : Type} {xs ys zs : List α} {offset : ℕ}
    (h : Page.writeSlice xs offset ys = .ok zs) : zs.length = xs.length := by
  unfold Page.writeSlice at h
  split_ifs at h with hle
  cases h
  simp only [length_append, length_take, length_drop]
  omega

/-- Writing to a page changes its bytes only. -/
theorem writeHeadToken_stored {p' : Page} {headDim component head : ℕ} {values : List F32}
    (h : p.writeHeadToken codec pageSize headDim component head tokenOffset values = .ok p') : Stored p p' := by
  obtain ⟨storage, -, h⟩ := bind_eq_ok.mp h
  split at h
  · obtain ⟨data, hd, h⟩ := bind_eq_ok.mp h
    cases h
    exact ⟨_, rfl, rfl, by simp [HostPageStore.layout, writeSlice_length hd]⟩
  · obtain ⟨scales, hs, h⟩ := bind_eq_ok.mp h
    obtain ⟨bytes, hb, h⟩ := bind_eq_ok.mp h
    cases h
    exact ⟨_, rfl, rfl, by simp [HostPageStore.layout, writeSlice_length hs, writeSlice_length hb]⟩
  · obtain ⟨scales, hs, h⟩ := bind_eq_ok.mp h
    obtain ⟨bytes, hb, h⟩ := bind_eq_ok.mp h
    cases h
    exact ⟨_, rfl, rfl, by simp [HostPageStore.layout, writeSlice_length hs, writeSlice_length hb]⟩

theorem writeHead_stored {layerIdx head : ℕ} {geom : LayerTensorConfig} {layer : LayerKv} {p' : Page}
    (h : writeHead codec pageSize layerIdx geom layer tokenOffset p head = .ok p') : Stored p p' := by
  obtain ⟨key, -, h⟩ := bind_eq_ok.mp h
  obtain ⟨value, -, h⟩ := bind_eq_ok.mp h
  obtain ⟨q, hq, h⟩ := bind_eq_ok.mp h
  exact (writeHeadToken_stored hq).trans (writeHeadToken_stored h)

theorem writeLayers_stored :
    ∀ {layerIdx : ℕ} {geoms : List LayerTensorConfig} {layers : List LayerKv} {p p' : Page},
      writeLayers codec pageSize tokenOffset layerIdx geoms layers p = .ok p' → Stored p p'
  | layerIdx, geom :: geoms, layer :: layers, p, p', h => by
    obtain ⟨q, hq, h⟩ := bind_eq_ok.mp h
    refine Stored.trans ?_ (writeLayers_stored h)
    exact foldlM_stays Stored.refl Stored.trans (fun _ _ _ => writeHead_stored) _ _ _ hq
  | _, [], _, p, p', h => by
    obtain rfl : p = p' := by simpa [writeLayers] using h
    exact Stored.refl p
  | _, _ :: _, [], p, p', h => by
    obtain rfl : p = p' := by simpa [writeLayers] using h
    exact Stored.refl p

theorem Ready.good (h : Counted t held) {id : PageId} (hr : Ready t seq pageIndex id t') : Good t held t' := by
  obtain ⟨t₁, hw, hm⟩ := hr
  exact Good.moved (fun hfit => ⟨hw.counted h hfit, hw.keys⟩) hm

theorem WriteFailed.good (h : Counted t held) (hw : WriteFailed t seq pageIndex t') : Good t held t' := by
  rcases hw with hm | ⟨id, hr⟩
  · exact (Good.of_counted h).moved hm
  · exact hr.good h

theorem Written.good (h : Counted t held) {layers : List LayerKv} (hw : Written codec t seq position layers t' r) :
    Good t held t' := by
  obtain ⟨id, u, page, page', v, hready, hpage, hwrite, hm, rfl⟩ := hw.run
  have hv : Good t held v := by
    refine Good.moved (fun hfit => ?_) hm
    obtain ⟨hc, hk⟩ := hready.good h hfit
    obtain ⟨store, rfl, hres, -⟩ := writeLayers_stored hwrite
    refine ⟨?_, hk⟩
    refine hc.update hpage ?_ ?_
    · rfl
    · exact hres
  split
  · exact hv.adjustSequence seq _ fun _ => rfl
  · exact hv

theorem writeTokenKv_good (codec : Page.QuantCodec) (h : Counted t held) (seq : SequenceId) (position : ℕ)
    (layers : List LayerKv) :
    KeepsGood (writeTokenKv codec seq position layers) t held := by
  refine .mono (writeTokenKv_spec codec h seq position layers) ?_ ?_
  · rintro _ t' ⟨r, hw⟩
    exact hw.good h
  · rintro _ t' ⟨pageIndex, hw⟩
    exact hw.good h

theorem appendTokenKv_good (codec : Page.QuantCodec) (h : Counted t held) (seq : SequenceId) (layers : List LayerKv) :
    KeepsGood (appendTokenKv codec seq layers) t held := by
  refine .mono (appendTokenKv_spec codec h seq layers) ?_ ?_
  · rintro _ t' ⟨r, -, hw⟩
    exact hw.good h
  · rintro _ t' ⟨pageIndex, hw⟩
    exact hw.good h

theorem appendOne_good (h : Counted t held) (seq : SequenceId) (position : ℕ) :
    KeepsGood (appendOne seq position) t held := by
  have hfail := Good.of_counted h
  refine .bind (.get (.bind (.require (fun _ => ?_) fun _ => hfail)))
  refine .bind (.bind (sequence_ensures (fun r hr => .pure ?_) fun _ => hfail))
  refine .mono (ensure_promote h seq _ fun id u hu => ?_) (fun _ _ hQ => hQ) fun _ _ hE => hE.good h
  exact .modify (Good.adjustPage (hu.good h) id _ (fun _ => rfl) fun _ => rfl)

theorem appendOne_next (seq : SequenceId) (position : ℕ) (t : PageTable) :
    Stays NextMono (appendOne seq position) t := by
  have hrefl : NextMono t t := SameNext.mono rfl
  refine Ensures.bind (Ensures.get (Ensures.bind (Ensures.require (fun _ => ?_) fun _ => hrefl)))
  refine .bind (.bind (sequence_ensures (fun r hr => .pure ?_) fun _ => hrefl))
  refine Stays.bind NextMono.trans (ensurePageForWrite_next _ _ t) fun id u _ _ => ?_
  refine Stays.bind NextMono.trans (Ensures.mono (promoteToHot_tiered id u) (fun _ _ h => SameNext.mono h.sameLayout.nextPageId)
    fun _ _ h => SameNext.mono h.sameLayout.nextPageId)
    fun _ v _ _ => ?_
  exact .modify (SameNext.mono rfl)

theorem append_good (h : Counted t held) (seq : SequenceId) (numTokens : ℕ) :
    KeepsGood (append seq numTokens) t held := by
  refine .bind (.bind (sequence_ensures (fun r hr => .pure ?_) fun _ => Good.of_counted h))
  -- the ids handed out so far stay below the bound if those at the end do
  have hstep : ∀ position (rest : List ℕ) u, Good t held u →
      Ensures (appendOne seq position) u (fun _ v => Good t held v) fun _ v => Good t held v := by
    intro position _ u hu
    unfold Ensures
    cases hx : appendOne seq position u with
    | ok a v =>
      exact hu.trans (Stays.of_ok (appendOne_next seq position u) hx) fun hc =>
        (appendOne_good hc seq position).ok hx
    | error e v =>
      exact hu.trans (Stays.of_error (appendOne_next seq position u) hx) fun hc =>
        (appendOne_good hc seq position).error hx
  refine .bind (.mono (.each (I := fun _ u => Good t held u) hstep _ t
    (Good.of_counted h)) (fun _ u hu => ?_) fun _ _ hu => hu)
  exact .modify (hu.adjustSequence seq _ fun _ => rfl)

/-! ### Giving pages up -/

/-- A sequence that names fewer pages gives the others up. -/
theorem freeAll_good {ids : List PageId} (h : Counted t held) {r' : Sequence} (hr : t.sequences.lookup seq = some r)
    (hids : ∀ id, r'.pages.count id + ids.count id = r.pages.count id) :
    Good t held (withSequence (t.freeAll ids) seq r') := by
  intro _
  refine ⟨?_, (Keys.of_eq (freeAll_sequences ids t)).trans (keys_withSequence (by rw [freeAll_sequences, hr]) r')⟩
  have hseq : Counted (withSequence t seq r') (ids ++ held) := by
    rw [← adjustSequence_eq hr fun _ => r']
    refine h.adjustSequence hr _ fun id => ?_
    have := hids id
    rw [count_append]
    omega
  rw [← withSequence_freeAll]
  exact hseq.freeAll

theorem Good.markFilled (h : Good t held u) (ids : List PageId) (n m : ℕ) : Good t held (markFilled u ids n m) := by
  unfold PagedKvCache.markFilled
  split
  · cases ids.getLast? with
    | none => exact h
    | some id => exact h.adjustPage id _ (fun _ => rfl) fun _ => rfl
  · exact h

section

variable (h : Counted t held)

include h

theorem Rewound.good (hw : Rewound t seq position t' r) : Good t held t' := by
  rw [hw.run, ← withSequence_markFilled]
  refine (freeAll_good h hw.record fun id => ?_).markFilled _ _ _
  rw [rewound_pages, ← count_append]
  unfold keptPages droppedPages
  rw [take_append_drop]

theorem rewindTo_good (seq : SequenceId) (position : ℕ) :
    KeepsGood (rewindTo seq position) t held := by
  refine .mono (rewindTo_spec seq position t) ?_ ?_
  · rintro _ t' ⟨r, hw⟩
    exact hw.good h
  · rintro _ t' rfl
    exact Good.of_counted h

theorem slid_good (hr : t.sequences.lookup seq = some r) (a k start sinkLen : ℕ) :
    Good t held (slid t seq r a k start sinkLen) := by
  refine freeAll_good h hr fun id => ?_
  have hsplit : r.pages.count id = (r.pages.take a).count id + (((r.pages.drop a).take k).count id +
      (r.pages.drop (a + k)).count id) := by
    rw [← drop_drop, ← count_append, ← count_append, take_append_drop, take_append_drop]
  rw [hsplit, count_append]
  omega

theorem applySlidingWindow_good (seq : SequenceId) (windowSize : ℕ) :
    KeepsGood (applySlidingWindow seq windowSize) t held := by
  refine .mono (applySlidingWindow_spec seq windowSize t) ?_ ?_
  · rintro _ t' (rfl | ⟨r, hr, rfl⟩)
    · exact Good.of_counted h
    · exact slid_good h hr _ _ _ _
  · rintro _ t' rfl
    exact Good.of_counted h

theorem applySlidingWindowWithSinks_good (seq : SequenceId) (windowSize sinkTokens : ℕ) :
    KeepsGood (applySlidingWindowWithSinks seq windowSize sinkTokens) t held := by
  by_cases hsink : sinkTokens = 0
  · unfold applySlidingWindowWithSinks
    rw [if_pos hsink]
    refine .bind (.require (fun _ => ?_) fun _ => Good.of_counted h)
    exact applySlidingWindow_good h seq windowSize
  · refine .mono (applySlidingWindowWithSinks_spec seq windowSize hsink t) ?_ ?_
    · rintro _ t' (rfl | ⟨r, hw⟩)
      · exact Good.of_counted h
      · rw [hw.run]
        exact slid_good h hw.record _ _ _ _
    · rintro _ t' rfl
      exact Good.of_counted h

theorem remove_counted (seq : SequenceId) : Counted (remove t seq) held ∧ Keys t (remove t seq) := by
  refine ⟨(h.removeSequence seq).freeAll, fun j hj => ?_⟩
  unfold remove
  simp only [freeAll_sequences, PageTable.removeSequence, lookup_erase', hj]
  split <;> rfl

end

/-! ### Sharing pages -/

@[simp] theorem retainAll_sequences : ∀ (ids : List PageId) (t : PageTable),
    (ids.foldl PageTable.retain t).sequences = t.sequences
  | [], _ => rfl
  | id :: ids, t => (retainAll_sequences ids (t.retain id)).trans (retain_sequences t id)

/-- Retaining pages that are referenced, as long as their counts can hold it. -/
theorem retainAll_counted : ∀ {ids : List PageId} {t : PageTable} {held : List PageId}, Counted t held →
    (∀ id ∈ ids, 0 < t.seqRefs id + held.count id) →
    (∀ id, t.seqRefs id + held.count id + ids.count id ≤ u32Max) →
    Counted (ids.foldl PageTable.retain t) (ids ++ held)
  | [], _, _, h, _, _ => h
  | id :: ids, t, held, h, hpos, hmax => by
    have hid := hmax id
    rw [count_cons_self] at hid
    have h₁ := h.retain (hpos id mem_cons_self) (by omega)
    have hrefs : ∀ j, (t.retain id).seqRefs j = t.seqRefs j := seqRefs_congr (retain_sequences t id)
    have h₂ := retainAll_counted h₁
      (fun j hj => by
        have := hpos j (mem_cons_of_mem _ hj)
        rw [hrefs, count_cons]
        omega)
      (fun j => by
        have := hmax j
        rw [hrefs]
        simp only [count_cons] at this ⊢
        omega)
    refine h₂.perm fun j => ?_
    simp only [count_cons, count_append, cons_append]
    omega

/-- The references of a new sequence. -/
theorem seqRefs_addSequence (hs : t.sequences.lookup seq = none) (r : Sequence) (id : PageId) :
    (withSequence t seq r).seqRefs id = t.seqRefs id + r.pages.count id := by
  have := total_insert t.sequences (fun r => r.pages.count id) seq r
  rw [hs] at this
  simpa [seqRefs, withSequence] using this

/-- A new sequence takes held references over. -/
theorem addSequence_counted (h : Counted t (r.pages ++ held)) (hs : t.sequences.lookup seq = none) :
    Counted (withSequence t seq r) held := by
  have hrefs : ∀ id, (withSequence t seq r).seqRefs id + held.count id =
      t.seqRefs id + (r.pages ++ held).count id := by
    intro id
    rw [seqRefs_addSequence hs, count_append, add_assoc]
  refine ⟨fun id p hp => ?_, fun id hpos => ?_, h.idle, h.free_named, h.fresh⟩
  · rw [hrefs]
    exact h.refCount id p hp
  · rw [hrefs] at hpos
    exact h.named id hpos

/-- A fork accounts for the pages it shares, as long as their counts can hold it. -/
theorem Forked.counted (h : Counted t held) {source newSeq : SequenceId} (hw : Forked t source position newSeq t' r)
    (hnew : t.sequences.lookup newSeq = none) (hmax : ∀ id, t'.seqRefs id + held.count id ≤ u32Max) :
    Counted t' held := by
  have hret : Counted ((keptPages r t.pageSize position).foldl PageTable.retain t)
      (keptPages r t.pageSize position ++ held) := by
    refine retainAll_counted h (fun id hid => ?_) fun id => ?_
    · have := seqRefs_pos hw.record (mem_of_mem_take hid)
      omega
    · have := hmax id
      rw [hw.run, seqRefs_addSequence (by rw [retainAll_sequences, hnew]),
        seqRefs_congr (retainAll_sequences _ t)] at this
      simp only at this
      omega
  rw [hw.run]
  exact addSequence_counted hret (by rw [retainAll_sequences, hnew])

/-! ### A new cache -/

theorem build_ids (hn : n < u32Max) : ((List.range n).map fun i => i % 2 ^ 32) = List.range n := by
  conv_rhs => rw [← map_id (range n)]
  refine map_congr_left fun i hi => mod_eq_of_lt ?_
  have := mem_range.mp hi
  unfold u32Max at hn
  omega

theorem lookup_foldl_insert (f : PageId → Page) (id : PageId) : ∀ n : ℕ,
    ((List.range n).foldl (fun m id => m.insert id (f id)) (∅ : FiniteMap PageId Page)).lookup id =
      if id < n then some (f id) else none
  | 0 => rfl
  | n + 1 => by
    rw [range_succ, foldl_append, foldl_cons, foldl_nil, lookup_insert',
      lookup_foldl_insert f id n]
    by_cases h : id = n
    · subst h
      rw [if_pos rfl, if_pos (lt_succ_self _)]
    · rw [if_neg h]
      by_cases hlt : id < n
      · rw [if_pos hlt, if_pos (lt_succ_of_lt hlt)]
      · rw [if_neg hlt, if_neg fun hc => h (le_antisymm (le_of_lt_succ hc) (not_lt.mp hlt))]

/-- The pages of a new table. -/
theorem build_lookup {tensorConfig : Option PageTensorConfig} {layerConfigs : List LayerTensorConfig}
    {quantConfig : Option KvQuantConfig} (hn : n < u32Max) (id : PageId) :
    (build pageSize n tensorConfig layerConfigs quantConfig).pages.lookup id =
      if id < n then some (Page.new id (.gpu 0) pageSize layerConfigs quantConfig) else none := by
  unfold build
  simp only [build_ids hn]
  exact lookup_foldl_insert _ id n

/-- A new table accounts for its references: there are none. -/
theorem build_counted {tensorConfig : Option PageTensorConfig} {layerConfigs : List LayerTensorConfig}
    {quantConfig : Option KvQuantConfig} (hn : n < u32Max) :
    Counted (build pageSize n tensorConfig layerConfigs quantConfig) [] := by
  have hfree : ∀ d, (build pageSize n tensorConfig layerConfigs quantConfig).freeList d =
      if d = .gpu 0 then range n else [] := by
    intro d
    unfold freeList build
    simp only [build_ids hn, lookup_insert']
    by_cases hd : d = .gpu 0
    · rw [if_pos hd, if_pos hd, Option.getD_some]
    · rw [if_neg hd, if_neg hd]
      rfl
  have hpage : ∀ id p, (build pageSize n tensorConfig layerConfigs quantConfig).pages.lookup id = some p →
      id < n ∧ p = Page.new id (.gpu 0) pageSize layerConfigs quantConfig := by
    intro id p hp
    rw [build_lookup hn] at hp
    split_ifs at hp with hid
    exact ⟨hid, (Option.some.inj hp).symm⟩
  refine ⟨fun id p hp => ?_, fun id hpos => ?_, fun d id p hp => ?_, fun d id hid => ?_, fun id p hp => ?_⟩
  · obtain ⟨-, rfl⟩ := hpage id p hp
    rfl
  · exact absurd hpos (lt_irrefl 0)
  · obtain ⟨hid, rfl⟩ := hpage id p hp
    rw [hfree]
    by_cases hd : d = .gpu 0
    · rw [if_pos hd, if_pos ⟨rfl, hd.symm⟩, count_eq_one_of_mem nodup_range (mem_range.mpr hid)]
    · rw [if_neg hd, if_neg fun hi => hd hi.2.symm, count_nil]
  · rw [hfree] at hid
    by_cases hd : d = .gpu 0
    · rw [if_pos hd] at hid
      exact ⟨_, (build_lookup hn id).trans (if_pos (mem_range.mp hid))⟩
    · rw [if_neg hd] at hid
      cases hid
  · obtain ⟨hid, -⟩ := hpage id p hp
    show id < n % 2 ^ 32
    rw [mod_eq_of_lt]
    · exact hid
    · unfold u32Max at hn
      omega

/-! ### Beyond the range of a `u32`

A sequence of one page, forked `n` times. The page is then referenced `n + 1` times, but
its count stops at `u32::MAX`. -/

/-- A codec for runs that quantize nothing. -/
def noCodec : Page.QuantCodec := ⟨fun _ _ => F32.one, fun _ _ _ => 0, fun _ _ _ => F32.zero⟩

/-- The record of a sequence whose one page is page `0`. -/
def onePage : Sequence := ⟨[0], 1, 0, 0⟩

/-- Sequence `0` and `n` forks of it share page `0`, which otherwise is `page`. -/
structure Crowd (page : Page) (n : ℕ) (cache : PagedKvCache) : Prop where
  record : ∀ seq, cache.pageTable.sequences.lookup seq = if seq ≤ n then some onePage else none
  pageSize : cache.pageTable.pageSize = 1
  page : ∃ a, cache.pageTable.pages.lookup 0 = some { page with refCount := min (n + 1) u32Max, lastAccess := a }
  refs : cache.pageTable.seqRefs 0 = n + 1
  next : cache.nextSeqId = n + 1

theorem Crowd.fork {page : Page} {cache : PagedKvCache} (h : Crowd page n cache) :
    Crowd page (n + 1) (cache.fork 0 1).2 := by
  have hr : cache.pageTable.sequences.lookup 0 = some onePage := (h.record 0).trans (if_pos (zero_le n))
  obtain ⟨t', hx, hw⟩ := forkInto_ok cache.nextSeqId hr (show onePage.start ≤ 1 from zero_le 1) le_rfl
    (by rw [h.pageSize]; exact one_ne_zero)
  have hnone : cache.pageTable.sequences.lookup cache.nextSeqId = none := by
    rw [h.record, h.next, if_neg (not_succ_le_self n)]
  obtain ⟨a, hp⟩ := h.page
  have hkept : keptPages onePage cache.pageTable.pageSize 1 = [0] := by
    rw [h.pageSize]
    rfl
  have hrun : t' = withSequence (cache.pageTable.retain 0) cache.nextSeqId onePage := by
    rw [hw.run, hkept]
    rfl
  have hfork : (cache.fork 0 1).2 = ⟨withSequence (cache.pageTable.retain 0) cache.nextSeqId onePage, n + 1 + 1⟩ := by
    unfold PagedKvCache.fork
    rw [hx, hrun, ← h.next]
  have hret : cache.pageTable.retain 0 = { cache.pageTable with
      clock := cache.pageTable.clock + 1
      pages := cache.pageTable.pages.insert 0
        { page with refCount := min (min (n + 1) u32Max + 1) u32Max, lastAccess := cache.pageTable.clock + 1 } } := by
    unfold PageTable.retain
    rw [hp]
  rw [hfork]
  refine ⟨fun seq => ?_, ?_, ⟨cache.pageTable.clock + 1, ?_⟩, ?_, rfl⟩
  · unfold withSequence
    rw [lookup_insert', retain_sequences, h.record, h.next]
    by_cases hs : seq = n + 1
    · rw [if_pos hs, if_pos (le_of_eq hs)]
    · rw [if_neg hs]
      by_cases hle : seq ≤ n
      · rw [if_pos hle, if_pos (le_succ_of_le hle)]
      · rw [if_neg hle, if_neg fun hc => hs (Nat.le_antisymm hc (Nat.lt_of_not_le hle))]
  · rw [hret]
    exact h.pageSize
  · rw [hret]
    refine (AList.lookup_insert _).trans ?_
    rw [show min (min (n + 1) u32Max + 1) u32Max = min (n + 1 + 1) u32Max by omega]
  · rw [seqRefs_addSequence (by rw [retain_sequences]; exact hnone), seqRefs_congr (retain_sequences _ 0), h.refs]
    rfl

end PagedKvCache

end OnnxGenai.Kv
