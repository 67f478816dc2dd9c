import OnnxGenai.Kv.CopyOnWrite

/-!
# What the cache operations do

For each operation of the cache that changes a sequence, the states it can end in. A
success is described by the state it ends in, written with the small updates of the
page table; a failure leaves the table as it was, up to a move between the tiers. What
the cache keeps (the reference counts, the contents) is then proved from these
descriptions, without looking at the operations again.
-/

namespace OnnxGenai.Kv

open Lib List

namespace PagedKvCache

open PageTable

/-! ### Writing -/

/-- A table in which `seq` got a page of its own to write to, and perhaps moved tiers
since. -/
def Ready (t : PageTable) (seq : SequenceId) (pageIndex : ℕ) (id : PageId) (t' : PageTable) : Prop :=
  ∃ t₁, WritePage t seq pageIndex id t₁ ∧ Moved t₁ t'

/-- How a write can fail: before it had a page to write to, or after. -/
def WriteFailed (t : PageTable) (seq : SequenceId) (pageIndex : ℕ) (t' : PageTable) : Prop :=
  Moved t t' ∨ ∃ id, Ready t seq pageIndex id t'

/-- The page of a write, and the promotion that follows. -/
theorem ensure_promote {t : PageTable} {held : List PageId} (h : Counted t held)
    (seq : SequenceId) (pageIndex : ℕ) {α : Type} {f : PageId → TableM α} {Q : α → PageTable → Prop}
    (hf : ∀ id t', Ready t seq pageIndex id t' →
      Ensures (f id) t' Q fun _ t' => WriteFailed t seq pageIndex t') :
    Ensures (do
      let id ← ensurePageForWrite seq pageIndex
      promoteToHot id
      f id) t Q fun _ t' => WriteFailed t seq pageIndex t' := by
  refine .bind (.mono (ensurePageForWrite_spec h seq pageIndex) ?_ fun _ _ hm => .inl hm)
  intro id t₁ hw
  have hmoved : Stays Moved (promoteToHot id) t₁ := by
    obtain ⟨p', hp', hc, -⟩ := hw.lookup_self h
    refine promoteToHot_moved fun p hp => ?_
    cases hp'.symm.trans hp
    omega
  refine .bind (.mono hmoved ?_ fun _ u hm => .inr ⟨id, t₁, hw, hm⟩)
  exact fun _ u hm => hf id u ⟨t₁, hw, hm⟩

/-- The table after the rows of a token were written to page `id`. -/
def wrote (t : PageTable) (id : PageId) (page : Page) (tokenOffset : ℕ) : PageTable :=
  { t with pages := t.pages.insert id { page with filled := max page.filled (tokenOffset + 1) } }

/-- What a successful write did. -/
structure Written (codec : Page.QuantCodec) (t : PageTable) (seq : SequenceId) (position : ℕ)
    (layers : List LayerKv) (t' : PageTable) (r : Sequence) : Prop where
  configured : t.tensorConfig.isSome
  valid : validateLayers t.layerConfigs layers = .ok ()
  record : t.sequences.lookup seq = some r
  retained : ¬ (r.sinkLen ≤ position ∧ position < r.start)
  bound : position ≤ r.length
  pageSize : t.pageSize ≠ 0
  run : ∃ id u page page' v, Ready t seq (r.bufferIndex position / t.pageSize) id u ∧
    u.pages.lookup id = some page ∧
    writeLayers codec t.pageSize (r.bufferIndex position % t.pageSize) 0 t.layerConfigs layers page = .ok page' ∧
    Moved (wrote u id page' (r.bufferIndex position % t.pageSize)) v ∧
    t' = if position = r.length then v.setSequenceLen seq (r.length + 1) else v

theorem writeTokenKv_spec (codec : Page.QuantCodec) {t : PageTable} {held : List PageId}
    (h : Counted t held) (seq : SequenceId) (position : ℕ) (layers : List LayerKv) :
    Ensures (writeTokenKv codec seq position layers) t
      (fun _ t' => ∃ r, Written codec t seq position layers t' r)
      fun _ t' => ∃ pageIndex, WriteFailed t seq pageIndex t' := by
  have hfail : ∃ pageIndex, WriteFailed t seq pageIndex t := ⟨0, .inl (Moved.refl t)⟩
  refine .bind (.get (.bind (.require (fun hconf => ?_) fun _ => hfail)))
  refine .bind (.liftResult (fun _ hvalid => ?_) fun _ _ => hfail)
  refine .bind (sequence_ensures (fun r hr => ?_) fun _ => hfail)
  refine .bind (.require (fun hret => ?_) fun _ => hfail)
  refine .bind (.require (fun hbound => ?_) fun _ => hfail)
  refine .bind (.require (fun hps => ?_) fun _ => hfail)
  refine .bind (.bind (sequence_ensures (fun r' hr' => .pure ?_) fun _ => hfail))
  cases hr.symm.trans hr'
  refine .mono (ensure_promote h seq _ fun id u hu => ?_) (fun _ _ hQ => hQ) fun _ _ hE => ⟨_, hE⟩
  refine .bind (.get (.bind (.getOr (fun page hpage => ?_) fun _ => .inr ⟨id, hu⟩)))
  refine .bind (.liftResult (fun page' hpage' => ?_) fun _ _ => .inr ⟨id, hu⟩)
  refine .bind (.modify (.bind (.modify ?_)))
  have hrun := fun t' ht' => (⟨hconf, hvalid, hr, hret, hbound, hps, id, u, page, page', _, hu, hpage, hpage',
    moved_touch _ id, ht'⟩ : Written codec t seq position layers t' r)
  by_cases hend : position = r.length
  · rw [if_pos hend]
    exact .modify ⟨r, hrun _ (if_pos hend).symm⟩
  · rw [if_neg hend]
    exact .pure ⟨r, hrun _ (if_neg hend).symm⟩

/-- An append is a write at the end. -/
theorem appendTokenKv_spec (codec : Page.QuantCodec) {t : PageTable} {held : List PageId}
    (h : Counted t held) (seq : SequenceId) (layers : List LayerKv) :
    Ensures (appendTokenKv codec seq layers) t
      (fun position t' => ∃ r, position = r.length ∧ Written codec t seq position layers t' r)
      fun _ t' => ∃ pageIndex, WriteFailed t seq pageIndex t' := by
  refine .bind (.bind (sequence_ensures (fun r hr => .pure ?_) fun _ => ?_))
  · refine .bind (.mono (writeTokenKv_spec codec h seq r.length layers) ?_ fun _ _ hE => hE)
    rintro _ t' ⟨r', hw⟩
    cases hr.symm.trans hw.record
    exact .pure ⟨r, rfl, hw⟩
  · exact ⟨0, .inl (Moved.refl t)⟩

/-! ### Records of sequences -/

/-- The table with the record of one sequence replaced. -/
def withSequence (t : PageTable) (seq : SequenceId) (r : Sequence) : PageTable :=
  { t with sequences := t.sequences.insert seq r }

@[simp] theorem withSequence_sequences (t : PageTable) (seq : SequenceId) (r : Sequence) :
    (withSequence t seq r).sequences = t.sequences.insert seq r := rfl

theorem adjustSequence_eq {t : PageTable} {seq : SequenceId} {r : Sequence}
    (hr : t.sequences.lookup seq = some r) (f : Sequence → Sequence) :
    t.adjustSequence seq f = withSequence t seq (f r) := by
  unfold adjustSequence FiniteMap.adjust withSequence
  rw [hr]

section

variable (t : PageTable) (seq : SequenceId) (r : Sequence)

include t seq r

@[simp] theorem withSequence_adjust (f : Sequence → Sequence) : (withSequence t seq r).adjustSequence seq f = withSequence t seq (f r) := by
  rw [adjustSequence_eq (AList.lookup_insert t.sequences)]
  unfold withSequence
  simp only [AList.insert_insert]

@[simp] theorem withSequence_len (n : ℕ) :
    (withSequence t seq r).setSequenceLen seq n = withSequence t seq { r with length := n } :=
  withSequence_adjust t seq r _

@[simp] theorem withSequence_start (n : ℕ) :
    (withSequence t seq r).setSequenceStart seq n = withSequence t seq { r with start := n } :=
  withSequence_adjust t seq r _

@[simp] theorem withSequence_sinkLen (n : ℕ) :
    (withSequence t seq r).setSequenceSinkLen seq n = withSequence t seq { r with sinkLen := n } :=
  withSequence_adjust t seq r _

@[simp] theorem withSequence_pushPage (id : PageId) :
    (withSequence t seq r).pushPage seq id = withSequence t seq { r with pages := r.pages ++ [id] } :=
  withSequence_adjust t seq r _

@[simp] theorem withSequence_free (id : PageId) :
    (withSequence t seq r).free id = withSequence (t.free id) seq r := by
  unfold PageTable.free withSequence
  cases t.pages.lookup id with
  | none => rfl
  | some p =>
    simp only
    split <;> rfl

end

@[simp] theorem withSequence_freeAll (seq : SequenceId) (r : Sequence) : ∀ (ids : List PageId) (t : PageTable),
    (withSequence t seq r).freeAll ids = withSequence (t.freeAll ids) seq r
  | [], _ => rfl
  | id :: ids, t => by
    show ((withSequence t seq r).free id).freeAll ids = _
    rw [withSequence_free, withSequence_freeAll seq r ids]
    rfl

@[simp] theorem withSequence_retain (t : PageTable) (seq : SequenceId) (r : Sequence) (id : PageId) :
    (withSequence t seq r).retain id = withSequence (t.retain id) seq r := by
  unfold PageTable.retain withSequence
  cases t.pages.lookup id <;> rfl

@[simp] theorem freeAll_sequences : ∀ (ids : List PageId) (t : PageTable),
    (t.freeAll ids).sequences = t.sequences
  | [], _ => rfl
  | id :: ids, t => (freeAll_sequences ids (t.free id)).trans (free_sequences t id)

@[simp] theorem freeAll_pageSize (ids : List PageId) (t : PageTable) : (t.freeAll ids).pageSize = t.pageSize :=
  (sameLayout_freeAll ids t).config.pageSize

/-! ### Rewinding -/

/-- Note how far the last page of `ids` is filled. -/
def markFilled (t : PageTable) (ids : List PageId) (pageSize retainedPosition : ℕ) : PageTable :=
  if 0 < retainedPosition then
    match ids.getLast? with
    | some id =>
      t.adjustPage id fun page => { page with filled := (retainedPosition - 1) % pageSize + 1 }
    | none => t
  else t

theorem markFilled_sequences (t : PageTable) (ids : List PageId) (n m : ℕ) :
    (markFilled t ids n m).sequences = t.sequences := by
  unfold markFilled
  split
  · cases ids.getLast? <;> rfl
  · rfl

theorem sameLayout_markFilled (t : PageTable) (ids : List PageId) (n m : ℕ) : SameLayout t (markFilled t ids n m) := by
  unfold markFilled
  split
  · cases ids.getLast? with
    | none => exact .refl t
    | some id => exact sameLayout_adjustPage t id _ fun _ => ⟨rfl, rfl, rfl⟩
  · exact .refl t

@[simp] theorem withSequence_markFilled (t : PageTable) (seq : SequenceId) (r : Sequence)
    (ids : List PageId) (n m : ℕ) :
    markFilled (withSequence t seq r) ids n m = withSequence (markFilled t ids n m) seq r := by
  unfold markFilled
  split_ifs
  · cases ids.getLast? <;> rfl
  · rfl

/-- The pages a rewind keeps. -/
def keptPages (r : Sequence) (pageSize position : ℕ) : List PageId :=
  r.pages.take (divCeil (r.bufferIndex position) pageSize)

/-- The pages a rewind gives up. -/
def droppedPages (r : Sequence) (pageSize position : ℕ) : List PageId :=
  r.pages.drop (divCeil (r.bufferIndex position) pageSize)

/-- The record of a sequence after a rewind. -/
def rewound (r : Sequence) (pageSize position : ℕ) : Sequence :=
  if position < r.sinkLen then ⟨keptPages r pageSize position, position, 0, 0⟩
  else { r with pages := keptPages r pageSize position, length := position }

theorem rewound_pages (r : Sequence) (pageSize position : ℕ) :
    (rewound r pageSize position).pages = keptPages r pageSize position := by
  unfold rewound
  split <;> rfl

/-- What a successful rewind did. -/
structure Rewound (t : PageTable) (seq : SequenceId) (position : ℕ) (t' : PageTable) (r : Sequence) : Prop where
  record : t.sequences.lookup seq = some r
  retained : ¬ (position < r.start ∧ (r.sinkLen = 0 ∨ r.sinkLen ≤ position))
  bound : position ≤ r.length
  pageSize : t.pageSize ≠ 0
  run : t' = withSequence (markFilled (t.freeAll (droppedPages r t.pageSize position))
    (keptPages r t.pageSize position) t.pageSize (r.bufferIndex position)) seq (rewound r t.pageSize position)

theorem Rewound.sameLayout {t t' : PageTable} {seq : SequenceId} {position : ℕ} {r : Sequence}
    (h : Rewound t seq position t' r) : SameLayout t t' := by
  rw [h.run]
  exact ((sameLayout_freeAll _ t).trans (sameLayout_markFilled _ _ _ _)).trans (sameLayout_sequences _ _)

theorem rewindTo_spec (seq : SequenceId) (position : ℕ) (t : PageTable) :
    Ensures (rewindTo seq position) t (fun _ t' => ∃ r, Rewound t seq position t' r) fun _ t' => t' = t := by
  refine .bind (.bind (sequence_ensures (fun r hr => ?_) fun _ => rfl))
  refine .bind (.require (fun hret => ?_) fun _ => rfl)
  refine .require (fun hbound => ?_) fun _ => rfl
  refine .bind (sequence_ensures (fun r' hr' => ?_) fun _ => rfl)
  cases hr.symm.trans hr'
  refine .bind (.get (.bind (.require (fun hps => ?_) fun _ => rfl)))
  refine .bind (.modify (.bind (.modify ?_)))
  have hr₁ : (t.freeAll (droppedPages r t.pageSize position)).sequences.lookup seq = some r := by
    rw [freeAll_sequences, hr]
  rw [show drop (divCeil (r.bufferIndex position) t.pageSize) r.pages =
    droppedPages r t.pageSize position from rfl, adjustSequence_eq hr₁]
  -- the record, once the last page is marked
  have hrest : Ensures (do
      modify fun t => t.setSequenceLen seq position
      if position < r.sinkLen then modify fun t => (t.setSequenceSinkLen seq 0).setSequenceStart seq 0
      else pure () : TableM Unit)
      (markFilled (withSequence (t.freeAll (droppedPages r t.pageSize position)) seq
        { r with pages := keptPages r t.pageSize position }) (keptPages r t.pageSize position) t.pageSize
          (r.bufferIndex position))
      (fun _ t' => ∃ r, Rewound t seq position t' r) fun _ t' => t' = t := by
    refine .bind (.modify ?_)
    by_cases hsink : position < r.sinkLen
    · rw [if_pos hsink]
      refine .modify ⟨r, hr, hret, hbound, hps, ?_⟩
      simp [rewound, hsink]
    · rw [if_neg hsink]
      refine .pure ⟨r, hr, hret, hbound, hps, ?_⟩
      simp [rewound, hsink]
  unfold markFilled keptPages at hrest
  by_cases hpos : 0 < r.bufferIndex position
  · rw [if_pos hpos] at hrest ⊢
    cases hlast : (take (divCeil (r.bufferIndex position) t.pageSize) r.pages).getLast? with
    | none =>
      simp only [hlast] at hrest
      exact hrest
    | some id =>
      simp only [hlast] at hrest
      refine .bind (.modify ?_)
      rw [show (withSequence (t.freeAll (droppedPages r t.pageSize position)) seq _).pageSize = t.pageSize from
        freeAll_pageSize _ t]
      exact hrest
  · rw [if_neg hpos] at hrest ⊢
    exact hrest

/-! ### Sliding windows -/

/-- The table after `k` pages of a sequence, from index `a` on, were given up. -/
def slid (t : PageTable) (seq : SequenceId) (r : Sequence) (a k start sinkLen : ℕ) : PageTable :=
  withSequence (t.freeAll ((r.pages.drop a).take k)) seq
    ⟨r.pages.take a ++ r.pages.drop (a + k), r.length, start, sinkLen⟩

theorem sameLayout_slid (t : PageTable) (seq : SequenceId) (r : Sequence) (a k start sinkLen : ℕ) :
    SameLayout t (slid t seq r a k start sinkLen) := (sameLayout_freeAll _ t).trans (sameLayout_sequences _ _)

/-- The number of pages a window without sinks gives up. -/
def windowEvict (r : Sequence) (pageSize windowSize : ℕ) : ℕ :=
  min ((r.length - windowSize - r.start) / pageSize) r.pages.length

theorem applySlidingWindow_spec (seq : SequenceId) (windowSize : ℕ) (t : PageTable) :
    Ensures (applySlidingWindow seq windowSize) t
      (fun _ t' => t' = t ∨ ∃ r, t.sequences.lookup seq = some r ∧ t' = slid t seq r 0
        (windowEvict r t.pageSize windowSize)
        (r.start + windowEvict r t.pageSize windowSize * t.pageSize) r.sinkLen)
      fun _ t' => t' = t := by
  refine .bind (.require (fun _ => ?_) fun _ => rfl)
  refine .bind (sequence_ensures (fun r hr => ?_) fun _ => rfl)
  refine .bind (.get ?_)
  by_cases h0 : (r.length - windowSize - r.start) / t.pageSize = 0
  · rw [if_pos h0]
    exact .pure (.inl rfl)
  rw [if_neg h0]
  refine .bind (.modify (.bind (.modify (.bind (.modify ?_)))))
  refine .pure (.inr ⟨r, hr, ?_⟩)
  rw [adjustSequence_eq hr, withSequence_freeAll, withSequence_start]
  have htake : r.pages.take ((r.length - windowSize - r.start) / t.pageSize) =
      r.pages.take (windowEvict r t.pageSize windowSize) := by
    unfold windowEvict
    rw [← take_eq_take_min]
  have hdrop : r.pages.drop ((r.length - windowSize - r.start) / t.pageSize) =
      r.pages.drop (windowEvict r t.pageSize windowSize) := by
    unfold windowEvict
    rw [← drop_eq_drop_min]
  have hlen : (r.pages.take (windowEvict r t.pageSize windowSize)).length =
      windowEvict r t.pageSize windowSize := by
    rw [length_take]
    exact min_eq_left (min_le_right _ _)
  unfold slid
  rw [htake, hdrop, hlen, show (withSequence _ seq _).pageSize = t.pageSize from freeAll_pageSize _ t]
  simp

/-- `⌈sink_tokens / page_size⌉`. -/
def sinkPages (pageSize sinkTokens : ℕ) : ℕ := divCeil sinkTokens pageSize

/-- The first position after the sinks that is still there. -/
def curWindowStart (r : Sequence) (pageSize sinkTokens : ℕ) : ℕ :=
  if 0 < r.sinkLen then r.start else sinkPages pageSize sinkTokens * pageSize

/-- The number of pages a window with sinks gives up. -/
def sinkEvict (r : Sequence) (pageSize windowSize sinkTokens : ℕ) : ℕ :=
  min (((r.length - windowSize) / pageSize * pageSize - curWindowStart r pageSize sinkTokens) / pageSize)
    (r.pages.length - sinkPages pageSize sinkTokens - 1)

/-- What a window with sinks did, when it did anything. -/
structure SlidPastSinks (t : PageTable) (seq : SequenceId) (windowSize sinkTokens : ℕ) (t' : PageTable)
    (r : Sequence) : Prop where
  record : t.sequences.lookup seq = some r
  pageSize : t.pageSize ≠ 0
  past : sinkPages t.pageSize sinkTokens * t.pageSize < r.length - windowSize
  run : t' = slid t seq r (sinkPages t.pageSize sinkTokens) (sinkEvict r t.pageSize windowSize sinkTokens)
    (curWindowStart r t.pageSize sinkTokens + sinkEvict r t.pageSize windowSize sinkTokens * t.pageSize)
    (sinkPages t.pageSize sinkTokens * t.pageSize)

theorem applySlidingWindowWithSinks_spec (seq : SequenceId) (windowSize : ℕ) {sinkTokens : ℕ}
    (hsink : sinkTokens ≠ 0) (t : PageTable) :
    Ensures (applySlidingWindowWithSinks seq windowSize sinkTokens) t
      (fun _ t' => t' = t ∨ ∃ r, SlidPastSinks t seq windowSize sinkTokens t' r) fun _ t' => t' = t := by
  refine .bind (.require (fun _ => ?_) fun _ => rfl)
  rw [if_neg hsink]
  refine .bind (.get (.bind (.require (fun hps => ?_) fun _ => rfl)))
  refine .bind (sequence_ensures (fun r hr => ?_) fun _ => rfl)
  change Ensures (if r.length - windowSize ≤ sinkPages t.pageSize sinkTokens * t.pageSize then _ else _) t _ _
  by_cases hkeep : r.length - windowSize ≤ sinkPages t.pageSize sinkTokens * t.pageSize
  · rw [if_pos hkeep]
    exact .pure (.inl rfl)
  rw [if_neg hkeep]
  change Ensures (if (r.length - windowSize) / t.pageSize * t.pageSize ≤
    curWindowStart r t.pageSize sinkTokens then _ else _) t _ _
  have hdone : ∀ t', t' = _ → t' = t ∨ ∃ r, SlidPastSinks t seq windowSize sinkTokens t' r :=
    fun t' ht' => .inr ⟨r, hr, hps, Nat.not_le.mp hkeep, ht'⟩
  by_cases hnew : (r.length - windowSize) / t.pageSize * t.pageSize ≤ curWindowStart r t.pageSize sinkTokens
  · -- nothing to give up, but the sinks are pinned from now on
    rw [if_pos hnew]
    refine .bind (.modify (.pure (hdone _ ?_)))
    have hzero : sinkEvict r t.pageSize windowSize sinkTokens = 0 := by
      unfold sinkEvict
      rw [Nat.sub_eq_zero_of_le hnew, Nat.zero_div, Nat.zero_min]
    unfold slid
    rw [hzero]
    simp only [setSequenceSinkLen, adjustSequence_eq hr, withSequence_start, take_zero, Nat.add_zero,
      take_append_drop, Nat.zero_mul]
    rfl
  · rw [if_neg hnew]
    refine .bind (.require (fun hlen => ?_) fun _ => rfl)
    refine .bind (.modify (.bind (.modify (.bind (.modify ?_)))))
    refine .pure (hdone _ ?_)
    have hremoved : ((r.pages.drop (sinkPages t.pageSize sinkTokens)).take
        (sinkEvict r t.pageSize windowSize sinkTokens)).length = sinkEvict r t.pageSize windowSize sinkTokens := by
      rw [length_take, length_drop]
      refine min_eq_left ?_
      exact (min_le_right _ _).trans (Nat.sub_le _ _)
    rw [adjustSequence_eq hr, withSequence_freeAll, withSequence_sinkLen, withSequence_start,
      show (withSequence _ seq _).pageSize = t.pageSize from freeAll_pageSize _ t]
    exact congrArg (fun n => withSequence _ seq ⟨_, _, curWindowStart r t.pageSize sinkTokens + n * t.pageSize, _⟩) hremoved

/-! ### Forking -/

/-- The loop of `fork`: retain each page, and name it in the new sequence. -/
theorem forkLoop_eq (newSeq : SequenceId) : ∀ (ids : List PageId) (t : PageTable) (r : Sequence),
    ids.foldl (fun t id => (t.retain id).pushPage newSeq id) (withSequence t newSeq r) =
      withSequence (ids.foldl PageTable.retain t) newSeq { r with pages := r.pages ++ ids }
  | [], t, r => by simp
  | id :: ids, t, r => by
    rw [foldl_cons, withSequence_retain, withSequence_pushPage, forkLoop_eq newSeq ids]
    simp

/-- What a successful fork did. -/
structure Forked (t : PageTable) (source : SequenceId) (position : ℕ) (newSeq : SequenceId)
    (t' : PageTable) (r : Sequence) : Prop where
  record : t.sequences.lookup source = some r
  retained : r.start ≤ position
  bound : position ≤ r.length
  pageSize : t.pageSize ≠ 0
  run : t' = withSequence ((keptPages r t.pageSize position).foldl PageTable.retain t) newSeq
    ⟨keptPages r t.pageSize position, position, r.start, r.sinkLen⟩

theorem Forked.sameLayout {t t' : PageTable} {source newSeq : SequenceId} {position : ℕ} {r : Sequence}
    (h : Forked t source position newSeq t' r) : SameLayout t t' := by
  rw [h.run]
  exact (sameLayout_retainAll _ t).trans (sameLayout_sequences _ _)

theorem forkInto_spec (source : SequenceId) (position : ℕ) (newSeq : SequenceId) (t : PageTable) :
    Ensures (forkInto source position newSeq) t
      (fun _ t' => ∃ r, Forked t source position newSeq t' r) fun _ t' => t' = t := by
  refine .bind (.bind (sequence_ensures (fun r hr => ?_) fun _ => rfl))
  refine .bind (.require (fun hret => ?_) fun _ => rfl)
  refine .require (fun hbound => ?_) fun _ => rfl
  refine .bind (sequence_ensures (fun r' hr' => ?_) fun _ => rfl)
  cases hr.symm.trans hr'
  refine .bind (.get (.bind (.require (fun hps => ?_) fun _ => rfl)))
  refine .bind (.modify (.bind (.modify (.modify ?_))))
  refine ⟨r, hr, hret, hbound, hps, ?_⟩
  rw [show t.createSequence newSeq = withSequence t newSeq ⟨[], 0, 0, 0⟩ from rfl, withSequence_start,
    withSequence_sinkLen, forkLoop_eq, withSequence_len]
  rfl

/-- A fork within the retained range succeeds. -/
theorem forkInto_ok {t : PageTable} {source : SequenceId} (newSeq : SequenceId) {position : ℕ} {r : Sequence}
    (hr : t.sequences.lookup source = some r) (hs : r.start ≤ position) (hl : position ≤ r.length)
    (hps : t.pageSize ≠ 0) :
    ∃ t', forkInto source position newSeq t = .ok () t' ∧ Forked t source position newSeq t' r := by
  have hspec := forkInto_spec source position newSeq t
  have hok : Ensures (forkInto source position newSeq) t (fun _ _ => True) fun _ _ => False := by
    refine .bind (.bind (sequence_ensures (fun r' hr' => ?_) fun hn => ?_))
    · cases hr.symm.trans hr'
      refine .bind (.require (fun _ => ?_) fun hc => hc hs)
      refine .require (fun _ => ?_) fun hc => hc hl
      refine .bind (sequence_ensures (fun _ _ => ?_) fun hn => ?_)
      · refine .bind (.get (.bind (.require (fun _ => ?_) fun hc => hc hps)))
        exact .bind (.modify (.bind (.modify (.modify trivial))))
      · cases hr.symm.trans hn
    · cases hr.symm.trans hn
  cases hx : forkInto source position newSeq t with
  | ok _ t' =>
    obtain ⟨r', hw⟩ := hspec.ok hx
    cases hr.symm.trans hw.record
    exact ⟨t', rfl, hw⟩
  | error e t' => exact (hok.error hx).elim

end PagedKvCache

end OnnxGenai.Kv
