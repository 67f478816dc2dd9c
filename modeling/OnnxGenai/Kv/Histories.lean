import OnnxGenai.Kv.Content
import OnnxGenai.Lib.Runs

/-!
# The cache refines the histories of its sequences

A run of the cache next to the histories of its sequences (`Traced`). A history changes
only with the operations on its own sequence: a write that succeeds records its row, a
rewind truncates, a fork starts with the rows of its source. The cache shares, copies,
moves and reuses pages. In every state of every run, what it materializes for a live
sequence is what the history says (`materialized_faithful`).

As for the reference counts, a run is required to stay in the range of a `u32` (`InRange`).
Out of it a page is reset while a sequence still names it (`reset_beyond_u32`).
-/

namespace OnnxGenai.Kv

open Lib PageTable PagedKvCache List FiniteMap Nat

/-- The history after a rewind, and the one a fork starts with. -/
def History.truncate (h : History) (position : ℕ) : History := ⟨h.rows.take position, h.sinkTokens⟩

/-- The histories of the sequences of a cache. -/
def Histories := SequenceId → Option History

/-- Change the history of one sequence. -/
def Histories.adjust (hs : Histories) (seq : SequenceId) (f : Option History → Option History) : Histories :=
  fun s => if s = seq then f (hs s) else hs s

theorem Histories.adjust_self (hs : Histories) (seq : SequenceId) (f : Option History → Option History) :
    hs.adjust seq f seq = f (hs seq) := if_pos rfl

variable {seq : SequenceId} {r : Sequence} {t : PageTable} {hs : Histories}

theorem Histories.adjust_ne (hs : Histories) {s : SequenceId} (f : Option History → Option History) (hne : s ≠ seq) :
    hs.adjust seq f s = hs s := if_neg hne

/-- The table is an `f32` table that accounts for its references, and every sequence
refines its history. -/
structure Consistent (t : PageTable) (hs : Histories) : Prop where
  counted : Counted t []
  configured : t.tensorConfig.isSome
  quantized : t.quantConfig = some (KvQuantConfig.homogeneous .f32 t.layerConfigs.length)
  pageSize : t.pageSize ≠ 0
  formed : AllFormed t
  refines : ∀ seq r, t.sequences.lookup seq = some r → ∃ h, hs seq = some h ∧ Refines t r h

namespace Consistent

variable {t t' : PageTable} {hs hs' : Histories}

section

variable (h : Consistent t hs)

include h

/-- The parts of the configuration go with it. -/
theorem of_same (hsame : SameConfig t t') (hc : Counted t' []) (hl : Laid t')
    (href : AllFormed t' → ∀ seq r, t'.sequences.lookup seq = some r → ∃ h, hs' seq = some h ∧ Refines t' r h) :
    Consistent t' hs' := by
  have hq : t'.quantConfig = some (KvQuantConfig.homogeneous .f32 t'.layerConfigs.length) := by
    rw [hsame.quantConfig, hsame.layerConfigs]
    exact h.quantized
  have hf := (allFormed_iff_laid hq).mpr hl
  exact ⟨hc, by rw [hsame.tensorConfig]; exact h.configured, hq, by rw [hsame.pageSize]; exact h.pageSize, hf, href hf⟩

theorem laid : Laid t := (allFormed_iff_laid h.quantized).mp h.formed

/-- **Operations that write no row.** Every record afterwards names pages that were named
before, and already refined its new history over the old pages. -/
theorem kept (hsame : SamePages t t') (hc : Counted t' []) (hk : Kept t t')
    (hrec : ∀ s r', t'.sequences.lookup s = some r' →
      (∀ id ∈ r'.pages, ∃ s r, t.sequences.lookup s = some r ∧ id ∈ r.pages) ∧
        ∃ h', hs' s = some h' ∧ Refines t r' h') : Consistent t' hs' := by
  refine h.of_same hsame.config hc (h.laid.same hsame) fun hf s r' hr' => ?_
  obtain ⟨hnamed, h', hh', href⟩ := hrec s r' hr'
  refine ⟨h', hh', href.frame hsame.config hf fun id hid p hp => ?_⟩
  obtain ⟨s₀, r₀, hr₀, hid₀⟩ := hnamed id hid
  exact hk.live h.counted hc hr₀ hr' hid₀ hid hp

theorem moved (hm : Moved t t') : Consistent t' hs := by
  refine h.kept (samePages_moved hm) (h.counted.moved hm) (kept_moved hm) fun s r hr => ?_
  rw [hm.sequences] at hr
  exact ⟨fun id hid => ⟨s, r, hr, hid⟩, h.refines s r hr⟩

/-- Operations that change the record of one sequence, which then names fewer pages. -/
theorem kept_one {r' : Sequence} {hist : History} {f : Option History → Option History}
    (hsame : SameLayout t t') (hc : Counted t' []) (hk : Kept t t')
    (hs₁ : t'.sequences = t.sequences.insert seq r') {src : SequenceId} (hr : t.sequences.lookup src = some r)
    (hsub : ∀ id ∈ r'.pages, id ∈ r.pages) (hhist : f (hs seq) = some hist) (href : Refines t r' hist) :
    Consistent t' (hs.adjust seq f) := by
  refine h.kept hsame.toSamePages hc hk fun s r₁ hr₁ => ?_
  rw [hs₁, lookup_insert'] at hr₁
  split_ifs at hr₁ with hseq
  · subst hseq
    cases hr₁
    exact ⟨fun id hid => ⟨src, r, hr, hsub id hid⟩, hist, by rw [Histories.adjust_self, hhist], href⟩
  · obtain ⟨h', hh', href'⟩ := h.refines s r₁ hr₁
    exact ⟨fun id hid => ⟨s, r₁, hr₁, hid⟩, h', by rw [Histories.adjust_ne _ _ hseq, hh'], href'⟩

end

/-! ### Giving pages up, and sharing them -/

theorem create (h : Consistent t hs) (hnone : t.sequences.lookup seq = none) (sinkTokens : ℕ) :
    Consistent (t.createSequence seq) (hs.adjust seq fun _ => some ⟨[], sinkTokens⟩) := by
  refine h.kept (sameLayout_sequences t _).toSamePages (addSequence_counted h.counted hnone) (fun id p p' hp hp' _ _ => ?_) fun s r hr => ?_
  · cases hp.symm.trans hp'
    rfl
  · rw [show (t.createSequence seq).sequences = t.sequences.insert seq ⟨[], 0, 0, 0⟩ from rfl,
      lookup_insert'] at hr
    split_ifs at hr with hseq
    · subst hseq
      cases hr
      refine ⟨fun id hid => (not_mem_nil hid).elim, ⟨[], sinkTokens⟩, Histories.adjust_self _ _ _,
        rfl, fun row hrow => (not_mem_nil hrow).elim, ?_, fun i hi => (not_lt_zero i hi).elim⟩
      exact ⟨dvd_zero _, .inl rfl, le_rfl, le_rfl, fun _ _ => rfl⟩
    · obtain ⟨h', hh', href⟩ := h.refines s r hr
      exact ⟨fun id hid => ⟨s, r, hr, hid⟩, h', by rw [Histories.adjust_ne _ _ hseq, hh'], href⟩

variable {position : ℕ}

theorem rewound (h : Consistent t hs) (hw : Rewound t seq position t' r) (hc : Counted t' []) :
    Consistent t' (hs.adjust seq fun o => o.map (History.truncate · position)) := by
  obtain ⟨hist, hhist, href⟩ := h.refines seq r hw.record
  have hrun := hw.run
  have hkept : Kept t t' := by
    rw [hrun]
    exact (kept_freeAll t _).markFilled _ _ _
  refine h.kept_one hw.sameLayout hc hkept ?_ hw.record ?_ (by rw [hhist]; rfl)
    (href.rewound h.pageSize hw.retained hw.bound)
  · rw [hrun, ← withSequence_markFilled, markFilled_sequences]
    rw [withSequence_sequences, freeAll_sequences]
  · intro id hid
    rw [rewound_pages] at hid
    exact mem_of_mem_take hid

theorem slid (h : Consistent t hs) {hist : History} {a k start sinkLen : ℕ} (hr : t.sequences.lookup seq = some r)
    (hhist : hs seq = some hist)
    (href : Refines t ⟨r.pages.take a ++ r.pages.drop (a + k), r.length, start, sinkLen⟩ hist)
    (hc : Counted (slid t seq r a k start sinkLen) []) : Consistent (slid t seq r a k start sinkLen) hs := by
  have hadjust : hs.adjust seq id = hs := by
    funext s
    exact ite_self _
  rw [← hadjust]
  refine h.kept_one (sameLayout_slid t seq r a k start sinkLen) hc (kept_freeAll t _) ?_ hr ?_ hhist href
  · show (withSequence _ _ _).sequences = _
    rw [withSequence_sequences, freeAll_sequences]
  · intro id hid
    rcases mem_append.mp hid with hid | hid
    · exact mem_of_mem_take hid
    · exact mem_of_mem_drop hid

theorem forked (h : Consistent t hs) {source newSeq : SequenceId} (hw : Forked t source position newSeq t' r)
    (hc : Counted t' []) :
    Consistent t' (hs.adjust newSeq fun _ => (hs source).map (History.truncate · position)) := by
  obtain ⟨hist, hhist, href⟩ := h.refines source r hw.record
  have hlayout := hw.sameLayout
  obtain rfl := hw.run
  refine h.kept_one hlayout hc (kept_retainAll t _) ?_ hw.record
    (fun id hid => mem_of_mem_take hid) (by rw [hhist]; rfl) (href.forked h.pageSize hw.retained hw.bound)
  rw [withSequence_sequences, retainAll_sequences]

theorem removed (h : Consistent t hs) (seq : SequenceId) :
    Consistent (remove t seq) (hs.adjust seq fun _ => none) := by
  have hlayout : SameLayout t (remove t seq) := (sameLayout_sequences t _).trans (sameLayout_freeAll _ _)
  refine h.kept hlayout.toSamePages (remove_counted h.counted seq).1 ?_ fun s r hr => ?_
  · exact kept_freeAll (t.removeSequence seq).2 _
  · unfold remove at hr
    simp only [freeAll_sequences, PageTable.removeSequence, lookup_erase'] at hr
    split_ifs at hr with hseq
    obtain ⟨h', hh', href⟩ := h.refines s r hr
    exact ⟨fun id hid => ⟨s, r, hr, hid⟩, h', by rw [Histories.adjust_ne _ _ hseq, hh'], href⟩

/-! ### Writing -/

/-- A sequence that got a page of its own to write to holds what it held. -/
theorem ready (h : Consistent t hs) {pageIndex : ℕ} {id : PageId} (hw : Ready t seq pageIndex id t')
    (hc : Counted t' []) : Consistent t' hs := by
  refine h.of_same hw.sameConfig hc (hw.laid h.laid h.counted) fun hf s r hr => ?_
  by_cases hs : s = seq
  · subst hs
    obtain ⟨r₀, pages, ho⟩ := hw.owns
    obtain ⟨hist, hhist, href⟩ := h.refines s r₀ ho.record
    cases ho.record'.symm.trans hr
    exact ⟨hist, hhist, hw.refines_self h.counted hc hf ho href⟩
  · obtain ⟨r₀, pages, ho⟩ := hw.owns
    obtain ⟨hist, hhist, href⟩ := h.refines s r (by rw [← ho.elsewhere s hs, hr])
    exact ⟨hist, hhist, hw.refines_other h.counted hc hf hs hr href⟩

theorem writeFailed (h : Consistent t hs) {pageIndex : ℕ} (hw : WriteFailed t seq pageIndex t') (hc : Counted t' []) :
    Consistent t' hs := by
  rcases hw with hm | ⟨id, hr⟩
  · exact h.moved hm
  · exact h.ready hr hc

/-- A successful write records its row. -/
theorem written (h : Consistent t hs) {codec : Page.QuantCodec} {layers : List LayerKv}
    (hw : Written codec t seq position layers t' r) (hfit : t'.nextPageId < u32Max) :
    Consistent t' (hs.adjust seq fun o => o.map (History.write · position layers)) := by
  have hc := (hw.good h.counted hfit).1
  obtain ⟨id, u, page, page', v, hready, hpage, hwrite, hm, hrun⟩ := hw.run
  -- the page to write to is there, and only `seq` names it
  have hfit_u : u.nextPageId < u32Max := by
    have hnext : t'.nextPageId = v.nextPageId := by
      rw [hrun]
      split <;> rfl
    rw [hnext, hm.nextPageId] at hfit
    exact hfit
  have hu := h.ready hready (hready.good h.counted hfit_u).1
  obtain ⟨r₀, pages, ho⟩ := hready.owns
  cases hw.record.symm.trans ho.record
  obtain ⟨p, hp, h1, -⟩ := hready.lookup_self h.counted
  cases hpage.symm.trans hp
  obtain ⟨honce, hnone⟩ := named_once hu.counted hpage h1 ho.record' ho.self
  obtain ⟨hist, hhist, href⟩ := hu.refines seq _ ho.record'
  have hsame := hready.sameConfig
  have hlen : layers.length = u.layerConfigs.length := by
    rw [hsame.layerConfigs]
    exact length_of_validateLayers hw.valid
  rw [← hsame.pageSize, ← hsame.layerConfigs] at hwrite
  rw [← hsame.pageSize] at hm
  have hself : pages[r.bufferIndex position / u.pageSize]? = some id := by rw [hsame.pageSize, ho.self]
  have honce' : ∀ j, pages[j]? = some id → j = r.bufferIndex position / u.pageSize := by
    rw [hsame.pageSize]
    exact honce
  have hnew := href.wrote hu.pageSize hu.formed hw.retained hw.bound hself honce' hpage hlen hwrite
  -- what follows the write only moves pages and sets the length
  have hseq : t'.sequences.lookup seq = some { r with pages := pages, length := max r.length (position + 1) } := by
    have hv : v.sequences.lookup seq = some { r with pages := pages } := by rw [hm.sequences]; exact ho.record'
    rw [hrun]
    split_ifs with hend
    · rw [PageTable.setSequenceLen, adjustSequence_eq hv, withSequence_sequences, AList.lookup_insert, hend,
        max_eq_right (le_succ _)]
    · have := hw.bound
      rw [hv, max_eq_left (by omega)]
  have helse : ∀ s, s ≠ seq → t'.sequences.lookup s = u.sequences.lookup s := by
    intro s hs
    rw [hrun, show u.sequences = v.sequences from hm.sequences.symm]
    split_ifs
    · exact lookup_adjust_ne _ _ hs
    · rfl
  have hpages : t'.pages = v.pages := by
    rw [hrun]
    split <;> rfl
  have hsame_v : SameConfig v t' := by
    rw [hrun]
    split_ifs
    · exact ⟨rfl, rfl, rfl, rfl⟩
    · exact SameConfig.refl v
  have hsame' : SameConfig (wrote u id page' (r.bufferIndex position % u.pageSize)) t' :=
    (sameConfig_moved hm).trans hsame_v
  have hl : Laid t' :=
    ((hu.laid.same (samePages_wrote hpage hwrite)).same (samePages_moved hm)).same (samePages_of_pages hsame_v hpages)
  have hkeep : ∀ j q, (wrote u id page' (r.bufferIndex position % u.pageSize)).pages.lookup j = some q →
      ∃ q', t'.pages.lookup j = some q' ∧ payload q' = payload q := by
    intro j q hq
    obtain ⟨q', hq', hs⟩ := hm.lookup hq
    exact ⟨q', by rw [hpages, hq'], payload_tierStep hs⟩
  refine hu.of_same ((sameConfig_wrote u id page' _).trans hsame') hc hl fun hf s r' hr' => ?_
  by_cases hs : s = seq
  · subst hs
    cases hseq.symm.trans hr'
    exact ⟨_, by rw [Histories.adjust_self, hhist]; rfl, hnew.frame hsame' hf fun j _ q hq => hkeep j q hq⟩
  · have hr₁ : u.sequences.lookup s = some r' := by rw [← helse s hs, hr']
    obtain ⟨h', hh', href'⟩ := hu.refines s r' hr₁
    refine ⟨h', by rw [Histories.adjust_ne _ _ hs, hh'], ?_⟩
    refine href'.frame ((sameConfig_wrote u id page' _).trans hsame') hf fun j hj q hq => hkeep j q ?_
    rw [wrote_lookup, if_neg, hq]
    rintro rfl
    exact hnone s r' hs hr₁ hj

end Consistent

/-! ### Reading back -/

/-- What the cache gives back for a sequence is what its history says. -/
structure Faithful (codec : Page.QuantCodec) (t : PageTable) (seq : SequenceId) (r : Sequence) (h : History) :
    Prop where
  length : h.rows.length = r.length
  /-- The scalars of a slot are those of the row at the position it denotes. -/
  materialized : ∃ layers, materializeSequence codec t seq = .ok ⟨r.start, r.sinkLen, r.bufferLen, layers⟩ ∧
    layers.length = t.layerConfigs.length ∧
    ∀ l g, t.layerConfigs[l]? = some g → ∃ out, layers[l]? = some out ∧ out.Sized g r.bufferLen ∧
      ∀ slot, slot < r.bufferLen → ∃ row, h.rows[r.position slot]? = some row ∧
        ∀ kind head dim, kind < 2 → head < g.numKvHeads → dim < g.headDim →
          out.scalar r.bufferLen ⟨l, kind, head, slot, dim⟩ = rowScalar row g ⟨l, kind, head, slot, dim⟩
  /-- So are those of one head at a retained position. -/
  headRow : ∀ position, position < r.length → ¬ (r.sinkLen ≤ position ∧ position < r.start) →
    ∃ row, h.rows[position]? = some row ∧ ∀ l g (kind : KvKind) head, t.layerConfigs[l]? = some g →
      head < g.numKvHeads → ∃ vs, headTokenRow t seq l kind head position = .ok (some vs) ∧
        vs.length = g.headDim ∧ ∀ dim, dim < g.headDim → vs[dim]? =
          rowScalar row g ⟨l, if kind = .key then 0 else 1, head, r.bufferIndex position % t.pageSize, dim⟩

/-- The row a slot holds is in the history. -/
theorem rowAt_eq {pageSize : ℕ} {h : History} (hlen : h.rows.length = r.length)
    (hplaced : WellPlaced pageSize r h.sinkTokens) {slot : ℕ} (hs : slot < r.bufferLen) :
    h.rows[r.position slot]? = some (h.rowAt r slot) := by
  have hlt := position_lt hplaced.order hplaced.bound hs
  rw [← hlen] at hlt
  unfold History.rowAt
  rw [getD_eq_getElem?_getD, getElem?_eq_getElem hlt, Option.getD_some]

theorem Consistent.faithful (hc : Consistent t hs) (codec : Page.QuantCodec) (hr : t.sequences.lookup seq = some r) :
    ∃ h, hs seq = some h ∧ Faithful codec t seq r h := by
  obtain ⟨h, hh, href⟩ := hc.refines seq r hr
  have hplaced := href.placed
  have hconf : t.tensorConfig.isNone = false := by
    rw [Option.isNone_eq_false_iff]
    exact hc.configured
  refine ⟨h, hh, href.length, ?_, fun position hp hret => ?_⟩
  · obtain ⟨outs, hrun, hlen, hlayers⟩ := materializeTokens_ok codec hc.pageSize href.backs
    refine ⟨outs, ?_, hlen, fun l g hl => ?_⟩
    · have hbuf : r.sinkLen + (r.length - r.start) = r.bufferLen := rfl
      have hsink : ¬ (0 < r.sinkLen ∧ r.length < r.sinkLen) := by
        have := hplaced.order
        have := hplaced.bound
        omega
      unfold materializeSequence PageTable.sequenceLen materializeSequenceTo
      simp only [hr, Option.map_some, hconf, Bool.false_eq_true, if_false, gt_iff_lt, lt_irrefl, hsink,
        not_lt.mpr hplaced.bound, hbuf, hrun]
      rfl
    · obtain ⟨out, hout, hsized, hget⟩ := hlayers l g hl
      refine ⟨out, hout, hsized, fun slot hslot => ⟨_, rowAt_eq href.length hplaced hslot, ?_⟩⟩
      intro kind head dim hk hh hd
      exact hget ⟨l, kind, head, slot, dim⟩ rfl ⟨hk, hh, hslot, hd⟩ hslot
  · have hslot := bufferIndex_lt hret hp
    have hrow := rowAt_eq href.length hplaced hslot
    rw [position_bufferIndex hret] at hrow
    obtain ⟨id, page, hid, hpage, hf, hscalar⟩ := href.backs _ hslot
    refine ⟨_, hrow, fun l g kind head hl hhead => ?_⟩
    have hkind : (if kind = .key then 0 else 1) < 2 := by split <;> decide
    have hoff := mod_lt (r.bufferIndex position) (pos_of_ne_zero hc.pageSize)
    obtain ⟨vs, hvs, hlen, hget⟩ := headTokenF32_ok hf hl hkind hhead hoff
    refine ⟨vs, ?_, hlen, fun dim hd => ?_⟩
    · unfold headTokenRow
      simp only [hconf, Bool.false_eq_true, if_false, hr, ge_iff_le, not_le.mpr hp, hret, hl, hc.pageSize,
        hid, hpage, hvs]
    · rw [hget dim hd]
      exact hscalar _ g ⟨hl, hkind, hhead, hoff, hd⟩ rfl

/-! ### Runs -/

/-- A cache next to the histories of its sequences. -/
structure Traced where
  cache : PagedKvCache
  histories : Histories

/-- The operations on a cache. A sequence is created with the sink tokens its window will
be used with. -/
inductive CacheAction where
  | create (sinkTokens : ℕ)
  | writeTokenKv (seq : SequenceId) (position : ℕ) (layers : List LayerKv)
  | appendTokenKv (seq : SequenceId) (layers : List LayerKv)
  | rewindTo (seq : SequenceId) (position : ℕ)
  | fork (source : SequenceId) (position : ℕ)
  | applySlidingWindowWithSinks (seq : SequenceId) (windowSize sinkTokens : ℕ)
  | preemptSequence (seq : SequenceId)
  | restoreSequence (seq : SequenceId)
  | prefetch (seq : SequenceId) (start stop : ℕ)
  | evict (target : ℕ)
  | remove (seq : SequenceId)

namespace Traced

def table (s : Traced) : PageTable := s.cache.pageTable

/-- Run an operation of the cache. The histories change if it succeeds. -/
def run (s : Traced) {α : Type} (x : TableM α) (record : α → Histories → Histories) : Traced :=
  match x s.table with
  | .ok a t => ⟨⟨t, s.cache.nextSeqId⟩, record a s.histories⟩
  | .error _ t => ⟨⟨t, s.cache.nextSeqId⟩, s.histories⟩

/-- Fork a sequence. The fork has the rows of its source below the position. -/
def fork (s : Traced) (source : SequenceId) (position : ℕ) : Traced :=
  match s.cache.fork source position with
  | (.ok seq, cache) =>
    ⟨cache, s.histories.adjust seq fun _ => (s.histories source).map (History.truncate · position)⟩
  | (.error _, cache) => ⟨cache, s.histories⟩

/-- What an action does to the cache and to the histories. -/
def step (codec : Page.QuantCodec) (s : Traced) : CacheAction → Traced
  | .create sinkTokens =>
    let (seq, cache) := s.cache.createSequence
    ⟨cache, s.histories.adjust seq fun _ => some ⟨[], sinkTokens⟩⟩
  | .writeTokenKv seq position layers => s.run (writeTokenKv codec seq position layers)
      fun _ hs => hs.adjust seq fun h => h.map (History.write · position layers)
  | .appendTokenKv seq layers => s.run (appendTokenKv codec seq layers)
      fun position hs => hs.adjust seq fun h => h.map (History.write · position layers)
  | .rewindTo seq position => s.run (rewindTo seq position)
      fun _ hs => hs.adjust seq fun h => h.map (History.truncate · position)
  | .fork source position => s.fork source position
  | .applySlidingWindowWithSinks seq windowSize sinkTokens =>
    s.run (applySlidingWindowWithSinks seq windowSize sinkTokens) fun _ hs => hs
  | .preemptSequence seq => s.run (preemptSequence seq) fun _ hs => hs
  | .restoreSequence seq => s.run (restoreSequence seq) fun _ hs => hs
  | .prefetch seq start stop => s.run (prefetch seq start stop) fun _ hs => hs
  | .evict target => ⟨⟨(evict target s.table).2, s.cache.nextSeqId⟩, s.histories⟩
  | .remove seq => ⟨⟨remove s.table seq, s.cache.nextSeqId⟩, s.histories.adjust seq fun _ => none⟩

/-- The window of a sequence is always used with the same sink tokens. -/
def Allowed (s : Traced) : CacheAction → Prop
  | .applySlidingWindowWithSinks seq _ sinkTokens => ∀ h, s.histories seq = some h → sinkTokens = h.sinkTokens
  | _ => True

/-- A new `f32` cache, of any geometry. -/
def Initial (s : Traced) : Prop :=
  ∃ pageSize numGpuPages layerConfigs t lease, 0 < pageSize ∧ numGpuPages < u32Max ∧
    newWithLayerConfigs pageSize numGpuPages .f32 layerConfigs = some t ∧
    s = ⟨⟨{ t with poolLease := lease }, 0⟩, fun _ => none⟩

/-- The counts and the page ids are in the range of a `u32`. -/
def InRange (s : Traced) : Prop := (∀ id, s.table.seqRefs id ≤ u32Max) ∧ s.table.nextPageId < u32Max

/-- The invariant of a run. -/
structure Inv (s : Traced) : Prop where
  consistent : Consistent s.table s.histories
  numbered : ∀ seq, s.cache.nextSeqId ≤ seq → s.table.sequences.lookup seq = none

/-- What an operation has to keep, if the ids stay in range. -/
def Keeps (t t' : PageTable) (hs : Histories) : Prop :=
  t'.nextPageId < u32Max → Consistent t' hs ∧ Keys t t'

variable {s : Traced} {k n : ℕ}

theorem Inv.run (h : Inv s) {α : Type} {x : TableM α} {record : α → Histories → Histories}
    (hspec : Ensures x s.table (fun a t => Keeps s.table t (record a s.histories))
      fun _ t => Keeps s.table t s.histories) (hfit : InRange (s.run x record)) : Inv (s.run x record) := by
  unfold Traced.run at hfit ⊢
  cases hx : x s.table with
  | ok a t =>
    rw [hx] at hfit
    obtain ⟨hc, hk⟩ := hspec.ok hx hfit.2
    exact ⟨hc, fun seq hs => hk seq (h.numbered seq hs)⟩
  | error e t =>
    rw [hx] at hfit
    obtain ⟨hc, hk⟩ := hspec.error hx hfit.2
    exact ⟨hc, fun seq hs => hk seq (h.numbered seq hs)⟩

theorem Keeps.moved {t' : PageTable} (h : Consistent t hs) (hm : Moved t t') : Keeps t t' hs :=
  fun _ => ⟨h.moved hm, Keys.of_eq hm.sequences⟩

theorem Keeps.refl (h : Consistent t hs) : Keeps t t hs :=
  fun _ => ⟨h, Keys.refl t⟩

/-- An operation that only moves pages between the tiers. -/
theorem Inv.run_moved (h : Inv s) {α : Type} {x : TableM α} (hx : Stays Moved x s.table)
    (hfit : InRange (s.run x fun _ hs => hs)) : Inv (s.run x fun _ hs => hs) :=
  h.run (.mono hx (fun _ _ hm => Keeps.moved h.consistent hm) fun _ _ hm => Keeps.moved h.consistent hm) hfit

theorem Inv.writeTokenKv (h : Inv s) (codec : Page.QuantCodec) (seq : SequenceId) (position : ℕ)
    (layers : List LayerKv) (hfit : InRange (s.step codec (.writeTokenKv seq position layers))) :
    Inv (s.step codec (.writeTokenKv seq position layers)) := by
  have hc := h.consistent
  refine h.run (.mono (writeTokenKv_spec codec hc.counted seq position layers) ?_ ?_) hfit
  · rintro _ t' ⟨r, hw⟩ hnext
    exact ⟨hc.written hw hnext, (hw.good hc.counted hnext).2⟩
  · rintro _ t' ⟨pageIndex, hw⟩ hnext
    obtain ⟨hcount, hk⟩ := hw.good hc.counted hnext
    exact ⟨hc.writeFailed hw hcount, hk⟩

theorem Inv.appendTokenKv (h : Inv s) (codec : Page.QuantCodec) (seq : SequenceId) (layers : List LayerKv)
    (hfit : InRange (s.step codec (.appendTokenKv seq layers))) : Inv (s.step codec (.appendTokenKv seq layers)) := by
  have hc := h.consistent
  refine h.run (.mono (appendTokenKv_spec codec hc.counted seq layers) ?_ ?_) hfit
  · rintro position t' ⟨r, -, hw⟩ hnext
    exact ⟨hc.written hw hnext, (hw.good hc.counted hnext).2⟩
  · rintro _ t' ⟨pageIndex, hw⟩ hnext
    obtain ⟨hcount, hk⟩ := hw.good hc.counted hnext
    exact ⟨hc.writeFailed hw hcount, hk⟩

theorem Inv.rewindTo (h : Inv s) (codec : Page.QuantCodec) (seq : SequenceId) (position : ℕ)
    (hfit : InRange (s.step codec (.rewindTo seq position))) : Inv (s.step codec (.rewindTo seq position)) := by
  have hc := h.consistent
  refine h.run (.mono (rewindTo_spec seq position s.table) ?_ ?_) hfit
  · rintro _ t' ⟨r, hw⟩ hnext
    obtain ⟨hcount, hk⟩ := hw.good hc.counted hnext
    exact ⟨hc.rewound hw hcount, hk⟩
  · rintro _ t' rfl
    exact Keeps.refl hc

/-- A window that slid. -/
theorem Keeps.slid (h : Consistent t hs) {hist : History} {a start sinkLen : ℕ}
    (hr : t.sequences.lookup seq = some r) (hhist : hs seq = some hist)
    (href : Refines t ⟨r.pages.take a ++ r.pages.drop (a + k), r.length, start, sinkLen⟩ hist) :
    Keeps t (PagedKvCache.slid t seq r a k start sinkLen) hs := by
  intro hnext
  obtain ⟨hcount, hk⟩ := slid_good h.counted hr a k start sinkLen hnext
  exact ⟨h.slid hr hhist href hcount, hk⟩

theorem Inv.applySlidingWindowWithSinks (h : Inv s) (codec : Page.QuantCodec) (seq : SequenceId)
    (windowSize sinkTokens : ℕ) (ha : Allowed s (.applySlidingWindowWithSinks seq windowSize sinkTokens))
    (hfit : InRange (s.step codec (.applySlidingWindowWithSinks seq windowSize sinkTokens))) :
    Inv (s.step codec (.applySlidingWindowWithSinks seq windowSize sinkTokens)) := by
  have hc := h.consistent
  refine h.run ?_ hfit
  by_cases h0 : sinkTokens = 0
  · -- without sinks, a plain window
    unfold PagedKvCache.applySlidingWindowWithSinks
    rw [if_pos h0]
    refine .bind (.require (fun _ => ?_) fun _ => Keeps.refl hc)
    refine .mono (applySlidingWindow_spec seq windowSize s.table) ?_ ?_
    · rintro _ t' (rfl | ⟨r, hr, rfl⟩)
      · exact Keeps.refl hc
      · obtain ⟨hist, hhist, href⟩ := hc.refines seq r hr
        exact Keeps.slid hc hr hhist (href.slidWindow hc.pageSize (by rw [← ha hist hhist, h0]) windowSize)
    · rintro _ t' rfl
      exact Keeps.refl hc
  · refine .mono (applySlidingWindowWithSinks_spec seq windowSize h0 s.table) ?_ ?_
    · rintro _ t' (rfl | ⟨r, hw⟩)
      · exact Keeps.refl hc
      · obtain ⟨hist, hhist, href⟩ := hc.refines seq r hw.record
        obtain rfl := ha hist hhist
        rw [hw.run]
        exact Keeps.slid hc hw.record hhist (href.slidPastSinks h0 hw)
    · rintro _ t' rfl
      exact Keeps.refl hc

theorem Inv.create (h : Inv s) (codec : Page.QuantCodec) (sinkTokens : ℕ) :
    Inv (s.step codec (.create sinkTokens)) := by
  refine ⟨h.consistent.create (h.numbered _ le_rfl) sinkTokens, fun seq hs => ?_⟩
  have hne : seq ≠ s.cache.nextSeqId := ne_of_gt (lt_of_succ_le hs)
  exact (AList.lookup_insert_ne hne).trans (h.numbered seq (le_of_succ_le hs))

theorem Inv.fork (h : Inv s) (source : SequenceId) (position : ℕ) (hfit : InRange (s.fork source position)) :
    Inv (s.fork source position) := by
  have hnone := h.numbered s.cache.nextSeqId le_rfl
  have hspec := forkInto_spec source position s.cache.nextSeqId s.cache.pageTable
  unfold Traced.fork PagedKvCache.fork at hfit ⊢
  cases hx : forkInto source position s.cache.nextSeqId s.cache.pageTable with
  | error e t =>
    obtain rfl := hspec.error hx
    exact ⟨h.consistent, h.numbered⟩
  | ok _ t =>
    rw [hx] at hfit
    obtain ⟨r, hw⟩ := hspec.ok hx
    refine ⟨h.consistent.forked hw (hw.counted h.consistent.counted hnone hfit.1), fun seq hs => ?_⟩
    have hne : seq ≠ s.cache.nextSeqId := ne_of_gt (lt_of_succ_le hs)
    show t.sequences.lookup seq = none
    rw [hw.run, withSequence_sequences, AList.lookup_insert_ne hne, retainAll_sequences]
    exact h.numbered seq (le_of_succ_le hs)

theorem Inv.initial (h : Initial s) : Inv s := by
  obtain ⟨pageSize, numGpuPages, layerConfigs, t, lease, hps, hn, ht, rfl⟩ := h
  obtain ⟨conf, rfl⟩ : ∃ conf, t = build pageSize numGpuPages (some conf) layerConfigs
      (some (KvQuantConfig.homogeneous .f32 layerConfigs.length)) := by
    unfold newWithLayerConfigs newWithLayerStorage at ht
    split at ht
    · cases ht
    · split_ifs at ht
      exact ⟨_, (Option.some.inj ht).symm⟩
  refine ⟨⟨(build_counted hn).moved (moved_of_asks ⟨lease, rfl⟩), rfl, rfl, ne_of_gt hps, ?_, ?_⟩, fun _ _ => rfl⟩
  · intro id p hp
    have hlook : (build pageSize numGpuPages (some conf) layerConfigs
        (some (KvQuantConfig.homogeneous .f32 layerConfigs.length))).pages.lookup id = some p := hp
    rw [build_lookup hn] at hlook
    split_ifs at hlook
    cases hlook
    exact formed_new _ _ _ _
  · intro seq r hr
    cases hr

theorem Inv.step (h : Inv s) (codec : Page.QuantCodec) {a : CacheAction} (ha : Allowed s a)
    (hfit : InRange (s.step codec a)) : Inv (s.step codec a) := by
  have href := allReferenced h.consistent.counted
  cases a with
  | create sinkTokens => exact h.create codec sinkTokens
  | writeTokenKv seq position layers => exact h.writeTokenKv codec seq position layers hfit
  | appendTokenKv seq layers => exact h.appendTokenKv codec seq layers hfit
  | rewindTo seq position => exact h.rewindTo codec seq position hfit
  | fork source position => exact h.fork source position hfit
  | applySlidingWindowWithSinks seq w n => exact h.applySlidingWindowWithSinks codec seq w n ha hfit
  | preemptSequence seq => exact h.run_moved (preemptSequence_moved href seq) hfit
  | restoreSequence seq => exact h.run_moved (restoreSequence_moved href seq) hfit
  | prefetch seq start stop => exact h.run_moved (prefetch_moved href seq start stop) hfit
  | evict target =>
    have hm := evict_moved target s.table
    refine ⟨h.consistent.moved hm, fun seq hs => ?_⟩
    show (PagedKvCache.evict target s.table).2.sequences.lookup seq = none
    rw [hm.sequences]
    exact h.numbered seq hs
  | remove seq =>
    obtain ⟨-, hk⟩ := remove_counted h.consistent.counted seq
    exact ⟨h.consistent.removed seq, fun j hj => hk j (h.numbered j hj)⟩

/-- The runs in which the counts and the page ids stay in range. -/
def Reaches (codec : Page.QuantCodec) : Traced → Prop :=
  Reachable Initial (fun s a => Allowed s a ∧ InRange (s.step codec a)) (step codec)

/-- **Contents.** In every state of every run that stays in the range of a `u32`, a live
sequence is read back as its own history says, whatever the sequences it shares pages with
did. -/
theorem materialized_faithful (codec : Page.QuantCodec) {s : Traced} (h : Reaches codec s) {seq : SequenceId}
    {r : Sequence} (hr : s.table.sequences.lookup seq = some r) :
    ∃ hist, s.histories seq = some hist ∧ Faithful codec s.table seq r hist :=
  (h.invariant (fun _ => Inv.initial) fun _ _ hi ha => hi.step codec ha.1 ha.2).consistent.faithful codec hr

/-! ### A short run -/

/-- One layer with one head of dimension one. -/
def scalarLayer : List LayerTensorConfig := [⟨1, 1⟩]

/-- The row of a token: a key and a value. -/
def scalarRow (key value : F32) : List LayerKv := [⟨[key], [value]⟩]

/-- A new cache of `n` pages with room for one token each. -/
def scalarCache (n : ℕ) : Traced :=
  ⟨⟨(newWithLayerConfigs 1 n .f32 scalarLayer).getD (build 1 n none [] none), 0⟩, fun _ => none⟩

theorem scalarCache_initial (hn : n < u32Max) : Initial (scalarCache n) :=
  ⟨1, n, scalarLayer, _, none, one_pos, hn, rfl, rfl⟩

/-- A cache of `n` pages with one sequence of one token. -/
def stored (n : ℕ) : Traced :=
  ((scalarCache n).step noCodec (.create 0)).step noCodec (.appendTokenKv 0 (scalarRow F32.one F32.one))

/-- A fork overwrote the token it shares with sequence `0`. -/
def overwritten : Traced :=
  ((stored 2).step noCodec (.fork 0 1)).step noCodec (.writeTokenKv 1 0 (scalarRow F32.zero F32.zero))

/-- A state with few references and few pages is in range. -/
theorem inRange_of_small (hlen : s.table.sequences.total (fun r => r.pages.length) ≤ u32Max)
    (hnext : s.table.nextPageId < u32Max) : InRange s :=
  ⟨fun id => le_trans (s.table.seqRefs_le id) hlen, hnext⟩

example : (overwritten.table.sequences.lookup 0).map Sequence.pages = some [1] ∧
    (overwritten.table.sequences.lookup 1).map Sequence.pages = some [0] := by decide +kernel

/-- Sequence `0` keeps its row when its fork overwrites the shared token. -/
theorem materialized_faithful_overwritten : ∃ hist, overwritten.histories 0 = some hist ∧
    Faithful noCodec overwritten.table 0 ⟨[1], 1, 0, 0⟩ hist := by
  have hcreate : Reaches noCodec ((scalarCache 2).step noCodec (.create 0)) := by
    refine Reachable.next (a := CacheAction.create 0) (.start (scalarCache_initial (by decide))) ⟨trivial, ?_⟩
    exact inRange_of_small (zero_le u32Max) (by decide +kernel)
  have hstored : Reaches noCodec (stored 2) :=
    Reachable.next (a := CacheAction.appendTokenKv 0 _) hcreate
      ⟨trivial, inRange_of_small (by decide +kernel) (by decide +kernel)⟩
  have hforked : Reaches noCodec ((stored 2).step noCodec (.fork 0 1)) :=
    Reachable.next (a := CacheAction.fork 0 1) hstored
      ⟨trivial, inRange_of_small (by decide +kernel) (by decide +kernel)⟩
  refine materialized_faithful noCodec (Reachable.next (a := CacheAction.writeTokenKv 1 0 _) hforked ⟨trivial, ?_⟩) ?_
  · exact inRange_of_small (by decide +kernel) (by decide +kernel)
  · decide +kernel

/-! ### Beyond the range of a `u32` -/

/-- `stored 1` with `n` forks of the sequence. -/
def crowd : ℕ → Traced
  | 0 => stored 1
  | n + 1 => (crowd n).step noCodec (.fork 0 1)

/-- `crowd n` without its first `k` forks. -/
def thinned (n : ℕ) : ℕ → Traced
  | 0 => crowd n
  | k + 1 => (thinned n k).step noCodec (.remove (k + 1))

/-- The page of `stored 1`. -/
def storedPage : Page :=
  let page := Page.new 0 (.gpu 0) 1 scalarLayer (some (KvQuantConfig.homogeneous .f32 1))
  { page with filled := 1, store := { page.store with data := [F32.one, F32.one] } }

theorem fork_cache (s : Traced) (source : SequenceId) (position : ℕ) :
    (s.fork source position).cache = (s.cache.fork source position).2 := by
  unfold Traced.fork
  cases (s.cache.fork source position) with
  | mk result cache => cases result <;> rfl

theorem fork_history (s : Traced) {source : SequenceId} {position : ℕ} (hne : seq ≠ s.cache.nextSeqId) :
    (s.fork source position).histories seq = s.histories seq := by
  unfold Traced.fork PagedKvCache.fork
  cases forkInto source position s.cache.nextSeqId s.cache.pageTable with
  | ok _ t => exact if_neg hne
  | error e t => rfl

theorem sameConfig_fork (cache : PagedKvCache) (source : SequenceId) (position : ℕ) :
    SameConfig cache.pageTable (cache.fork source position).2.pageTable := by
  have hspec := forkInto_spec source position cache.nextSeqId cache.pageTable
  unfold PagedKvCache.fork
  cases hx : forkInto source position cache.nextSeqId cache.pageTable with
  | ok _ t =>
    obtain ⟨r, hw⟩ := hspec.ok hx
    exact hw.sameLayout.config
  | error e t =>
    rw [hspec.error hx]
    exact SameConfig.refl _

theorem stored_crowd : Crowd storedPage 0 (stored 1).cache := by
  refine ⟨fun seq => ?_, ?_, ⟨3, ?_⟩, ?_, rfl⟩
  · cases seq with
    | zero | succ => rfl
  · decide +kernel
  · decide +kernel
  · decide +kernel

theorem crowd_crowd : ∀ n, Crowd storedPage n (crowd n).cache ∧
    SameConfig (stored 1).table (crowd n).table ∧ (crowd n).histories 0 = (stored 1).histories 0
  | 0 => ⟨stored_crowd, SameConfig.refl _, rfl⟩
  | n + 1 => by
    obtain ⟨hc, hsame, hh⟩ := crowd_crowd n
    have hcache : (crowd (n + 1)).cache = ((crowd n).cache.fork 0 1).2 := fork_cache _ _ _
    refine ⟨?_, ?_, ?_⟩
    · rw [hcache]
      exact hc.fork
    · unfold Traced.table
      rw [hcache]
      exact hsame.trans (sameConfig_fork _ _ _)
    · rw [← hh]
      refine fork_history _ ?_
      rw [hc.next]
      exact (succ_ne_zero n).symm

/-- Removing a sequence of one page frees it. -/
theorem remove_onePage (hr : t.sequences.lookup seq = some onePage) :
    remove t seq = ({ t with sequences := t.sequences.erase seq } : PageTable).free 0 := by
  unfold remove PageTable.removeSequence PageTable.getSequence
  rw [hr]
  rfl

theorem remove_onePage_pages (hr : t.sequences.lookup seq = some onePage) :
    (remove t seq).pages = (t.free 0).pages := by
  rw [remove_onePage hr]
  unfold PageTable.free
  cases t.pages.lookup 0 with
  | none => rfl
  | some p =>
    simp only
    split <;> rfl

/-- After `k` removals: the count is `u32::MAX - k`, with `n + 1 - k` references left. -/
structure Thinned (n k : ℕ) (s : Traced) : Prop where
  record : s.table.sequences.lookup 0 = some onePage
  forks : ∀ seq, k < seq → seq ≤ n → s.table.sequences.lookup seq = some onePage
  config : SameConfig (stored 1).table s.table
  history : s.histories 0 = (stored 1).histories 0

theorem Thinned.remove (h : Thinned n k s) (hk : k < n) : Thinned n (k + 1) (s.step noCodec (.remove (k + 1))) := by
  have hrun : (s.step noCodec (.remove (k + 1))).table =
      ({ s.table with sequences := s.table.sequences.erase (k + 1) } : PageTable).free 0 :=
    remove_onePage (h.forks (k + 1) (lt_succ_self k) hk)
  refine ⟨?_, fun seq hlt hle => ?_, ?_, ?_⟩
  · rw [hrun, free_sequences, lookup_erase', if_neg (succ_ne_zero k).symm, h.record]
  · rw [hrun, free_sequences, lookup_erase', if_neg (ne_of_gt hlt)]
    exact h.forks seq (lt_of_succ_lt hlt) hle
  · rw [hrun]
    exact h.config.trans ((sameLayout_sequences s.table _).trans (sameLayout_free _ 0)).config
  · rw [← h.history]
    exact Histories.adjust_ne s.histories (fun _ => none) (succ_ne_zero k).symm

/-- While references are left, the page only loses counts. -/
theorem thinned_page (hn : u32Max ≤ n) : ∀ {k}, k < u32Max → Thinned n k (thinned n k) ∧
    ∃ a, (thinned n k).table.pages.lookup 0 = some { storedPage with refCount := u32Max - k, lastAccess := a }
  | 0, _ => by
    obtain ⟨hc, hsame, hh⟩ := crowd_crowd n
    refine ⟨⟨(hc.record 0).trans (if_pos (zero_le n)), fun seq _ hle => (hc.record seq).trans (if_pos hle),
      hsame, hh⟩, ?_⟩
    obtain ⟨a, hp⟩ := hc.page
    rw [min_eq_right (le_succ_of_le hn)] at hp
    exact ⟨a, hp⟩
  | k + 1, hk => by
    obtain ⟨ht, a, hp⟩ := thinned_page hn (lt_of_succ_lt hk)
    have hlt : k < n := lt_of_lt_of_le (lt_of_succ_lt hk) hn
    refine ⟨ht.remove hlt, a, ?_⟩
    show (PagedKvCache.remove (thinned n k).table (k + 1)).pages.lookup 0 = _
    rw [remove_onePage_pages (ht.forks (k + 1) (lt_succ_self k) hlt),
      free_lookup_self hp (show 1 < u32Max - k by omega)]
    rfl

/-- With the last count the page is reset, and sequence `0` still names it. -/
theorem thinned_reset (hn : u32Max ≤ n) : Thinned n u32Max (thinned n u32Max) ∧
    ∃ a, (thinned n u32Max).table.pages.lookup 0 =
      some ({ storedPage with refCount := 0, lastAccess := a } : Page).resetStorage := by
  obtain ⟨m, hm⟩ : ∃ m, u32Max = m + 1 := ⟨u32Max - 1, rfl⟩
  obtain ⟨ht, a, hp⟩ := thinned_page hn (k := m) (by omega)
  have hlt : m < n := by omega
  rw [hm]
  refine ⟨ht.remove hlt, a, ?_⟩
  show (PagedKvCache.remove (thinned n m).table (m + 1)).pages.lookup 0 = _
  rw [remove_onePage_pages (ht.forks (m + 1) (lt_succ_self m) hlt),
    free_lookup_last hp (show u32Max - m = 1 by omega)]

theorem crowd_reachable : ∀ n, Reachable Initial Allowed (step noCodec) (crowd n)
  | 0 => by
    have hcreate : Reachable Initial Allowed (step noCodec) ((scalarCache 1).step noCodec (.create 0)) :=
      Reachable.next (a := CacheAction.create 0) (.start (scalarCache_initial (by decide))) trivial
    exact Reachable.next (a := CacheAction.appendTokenKv 0 (scalarRow F32.one F32.one)) hcreate trivial
  | n + 1 => Reachable.next (a := CacheAction.fork 0 1) (crowd_reachable n) trivial

theorem thinned_reachable (n : ℕ) : ∀ k, Reachable Initial Allowed (step noCodec) (thinned n k)
  | 0 => crowd_reachable n
  | k + 1 => Reachable.next (a := CacheAction.remove (k + 1)) (thinned_reachable n k) trivial

/-- Sequence `0` reads zeros where it wrote ones. -/
theorem Thinned.unfaithful {a : ℕ} (ht : Thinned n k s) (hp : s.table.pages.lookup 0 =
      some ({ storedPage with refCount := 0, lastAccess := a } : Page).resetStorage) {hist : History}
    (hh : s.histories 0 = some hist) : ¬ Faithful noCodec s.table 0 onePage hist := by
  intro hf
  obtain rfl : hist = ⟨[scalarRow F32.one F32.one], 0⟩ := by
    have hstored : (stored 1).histories 0 = some ⟨[scalarRow F32.one F32.one], 0⟩ := rfl
    exact Option.some.inj (hh.symm.trans (ht.history.trans hstored))
  have hgeom : s.table.layerConfigs = scalarLayer := ht.config.layerConfigs.trans rfl
  have hsize : s.table.pageSize = 1 := ht.config.pageSize.trans rfl
  have hconf : s.table.tensorConfig.isNone = false := by
    rw [ht.config.tensorConfig]
    rfl
  obtain ⟨row, hrow, hget⟩ := hf.headRow 0 one_pos (by decide)
  cases hrow
  obtain ⟨vs, hvs, -, hval⟩ := hget 0 ⟨1, 1⟩ .key 0 (by rw [hgeom]; rfl) one_pos
  have hread : headTokenRow s.table 0 0 .key 0 0 = .ok (some [F32.zero]) := by
    unfold headTokenRow
    simp only [hconf, Bool.false_eq_true, if_false, ht.record, hgeom, hsize]
    simp [onePage, scalarLayer, Sequence.bufferIndex, hp]
    rfl
  rw [hread] at hvs
  cases Except.ok.inj hvs
  have hone : some F32.zero = some F32.one := hval 0 one_pos
  exact absurd hone (by decide)

/-- Out of the range of a `u32` a page is reset while a sequence names it: of a sequence
that was forked `2 ^ 32` times, `u32::MAX` forks are removed. -/
theorem reset_beyond_u32 : ∃ s r, Reachable Initial Allowed (step noCodec) s ∧
    s.table.sequences.lookup 0 = some r ∧
    ¬ ∃ hist, s.histories 0 = some hist ∧ Faithful noCodec s.table 0 r hist := by
  have hn : u32Max ≤ 2 ^ 32 := by decide
  obtain ⟨ht, a, hp⟩ := thinned_reset hn
  refine ⟨thinned (2 ^ 32) u32Max, onePage, thinned_reachable _ _, ht.record, ?_⟩
  rintro ⟨hist, hh, hf⟩
  exact ht.unfaithful hp hh hf

end Traced

end OnnxGenai.Kv
