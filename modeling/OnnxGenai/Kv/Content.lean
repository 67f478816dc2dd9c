import OnnxGenai.Kv.Frames

/-!
# Sequences and their histories

What a sequence is for: a list of rows, one for each token position, of which the cache
retains the positions of the sinks and of the window (`History`). `Refines` says that a
record of the page table and the pages it names hold the retained rows of a history. Each
operation is proved to keep it, for the sequence it works on and for every other.
-/

namespace OnnxGenai.Kv

open Lib List FiniteMap Nat

/-- The rows written along the history of a sequence, one for each position up to its
length, and the attention-sink tokens it was created with. -/
structure History where
  rows : List (List LayerKv)
  sinkTokens : ℕ

/-- The absolute position a buffer slot denotes. -/
def Sequence.position (r : Sequence) (slot : ℕ) : ℕ :=
  if slot < r.sinkLen then slot else r.start + (slot - r.sinkLen)

/-- The row of a history that a buffer slot holds. -/
def History.rowAt (h : History) (r : Sequence) (slot : ℕ) : List LayerKv := h.rows.getD (r.position slot) []

/-- The history after a token was written at `position`, at most the length. -/
def History.write (h : History) (position : ℕ) (row : List LayerKv) : History :=
  { h with rows := if position = h.rows.length then h.rows ++ [row] else h.rows.set position row }

variable {h : History} {position : ℕ} {row : List LayerKv}

theorem History.write_length (hle : position ≤ h.rows.length) (row : List LayerKv) :
    (h.write position row).rows.length = max h.rows.length (position + 1) := by
  unfold History.write
  split
  · rw [length_append, length_singleton]
    omega
  · rw [length_set]
    omega

theorem getElem?_concat_ne {α : Type} {l : List α} {a : α} {i : ℕ} (h : i ≠ l.length) : (l ++ [a])[i]? = l[i]? := by
  grind

theorem History.write_getD (hle : position ≤ h.rows.length) (row : List LayerKv) (i : ℕ) :
    (h.write position row).rows.getD i [] = if i = position then row else h.rows.getD i [] := by
  unfold History.write
  simp only [getD_eq_getElem?_getD]
  split
  · subst position
    split
    · subst i
      rw [getElem?_concat_length, Option.getD_some]
    · rw [getElem?_concat_ne ‹_›]
  · split
    · subst i
      rw [getElem?_set_self (by omega), Option.getD_some]
    · rw [getElem?_set_ne (by omega)]

theorem History.mem_write {row' : List LayerKv} (hmem : row' ∈ (h.write position row).rows) :
    row' = row ∨ row' ∈ h.rows := by
  unfold History.write at hmem
  split at hmem
  · rcases mem_append.mp hmem with hold | hnew
    · exact .inr hold
    · exact .inl (mem_singleton.mp hnew)
  · exact (mem_or_eq_of_mem_set hmem).symm

namespace PagedKvCache

open PageTable

/-- The window of a record is where it should be. -/
structure WellPlaced (pageSize : ℕ) (r : Sequence) (sinkTokens : ℕ) : Prop where
  start : pageSize ∣ r.start
  sink : r.sinkLen = 0 ∨ sinkTokens ≠ 0 ∧ r.sinkLen = sinkPages pageSize sinkTokens * pageSize
  order : r.sinkLen ≤ r.start
  bound : r.start ≤ r.length
  /-- Until the sinks are pinned, nothing is evicted. -/
  unpinned : sinkTokens ≠ 0 → r.sinkLen = 0 → r.start = 0

/-- A record and the pages it names hold the retained rows of a history. -/
structure Refines (t : PageTable) (r : Sequence) (h : History) : Prop where
  length : h.rows.length = r.length
  width : ∀ row ∈ h.rows, row.length = t.layerConfigs.length
  placed : WellPlaced t.pageSize r h.sinkTokens
  backs : Backs t r.pages r.bufferLen (h.rowAt r)

/-! ### Positions and slots -/

variable {r : Sequence} {p : Page} {t t' : PageTable} {pages : List PageId} {seq : SequenceId} {id : PageId}
  {i pageIndex : ℕ}

theorem bufferIndex_position (h : r.sinkLen ≤ r.start) (slot : ℕ) : r.bufferIndex (r.position slot) = slot := by
  unfold Sequence.bufferIndex Sequence.position
  by_cases hs : slot < r.sinkLen
  · rw [if_pos hs, if_pos hs]
  · rw [if_neg hs, if_neg (by omega)]
    omega

theorem position_bufferIndex (hr : ¬ (r.sinkLen ≤ position ∧ position < r.start)) :
    r.position (r.bufferIndex position) = position := by
  unfold Sequence.bufferIndex Sequence.position
  by_cases hs : position < r.sinkLen
  · rw [if_pos hs, if_pos hs]
  · rw [if_neg hs, if_neg (by omega)]
    omega

theorem position_lt {slot : ℕ} (ho : r.sinkLen ≤ r.start) (hb : r.start ≤ r.length) (h : slot < r.bufferLen) :
    r.position slot < r.length := by
  unfold Sequence.bufferLen at h
  unfold Sequence.position
  split <;> omega

theorem bufferIndex_lt (hr : ¬ (r.sinkLen ≤ position ∧ position < r.start)) (hb : position < r.length) :
    r.bufferIndex position < r.bufferLen := by
  unfold Sequence.bufferIndex Sequence.bufferLen
  split <;> omega

/-- The slot after the last is that of the next position. -/
theorem bufferIndex_length (ho : r.sinkLen ≤ r.start) (hb : r.start ≤ r.length) :
    r.bufferIndex r.length = r.bufferLen := by
  unfold Sequence.bufferIndex Sequence.bufferLen
  rw [if_neg (by omega)]

/-! ### Frames -/

/-- The payload decides the scalars. -/
theorem scalarAt_payload {pageSize : ℕ} {geoms : List LayerTensorConfig} {g : LayerTensorConfig} {p' : Page}
    (h : payload p' = payload p) (x : Scalar) : scalarAt pageSize geoms g p' x = scalarAt pageSize geoms g p x := by
  have hdata : (payload p').data = (payload p).data := congrArg HostPageStore.data h
  exact congrArg (fun data : List F32 => data[x.cell pageSize geoms g]?) hdata

/-- A buffer whose pages keep their payload holds the same rows. -/
theorem Backs.frame {len : ℕ} {rows : ℕ → List LayerKv} (hb : Backs t pages len rows) (hc : SameConfig t t')
    (hf : AllFormed t') (hk : ∀ id ∈ pages, ∀ p, t.pages.lookup id = some p →
      ∃ p', t'.pages.lookup id = some p' ∧ payload p' = payload p) : Backs t' pages len rows := by
  intro i hi
  obtain ⟨id, p, hid, hp, -, hrow⟩ := hb i hi
  obtain ⟨p', hp', hpay⟩ := hk id (mem_of_getElem? hid) p hp
  refine ⟨id, p', by rw [hc.pageSize, hid], hp', hf id p' hp', ?_⟩
  rw [hc.pageSize, hc.layerConfigs]
  intro x g hx hslot
  rw [scalarAt_payload hpay, hrow x g hx hslot]

theorem Refines.frame (hr : Refines t r h) (hc : SameConfig t t') (hf : AllFormed t')
    (hk : ∀ id ∈ r.pages, ∀ p, t.pages.lookup id = some p →
      ∃ p', t'.pages.lookup id = some p' ∧ payload p' = payload p) : Refines t' r h :=
  ⟨hr.length, by rw [hc.layerConfigs]; exact hr.width, by rw [hc.pageSize]; exact hr.placed,
    hr.backs.frame hc hf hk⟩

/-- Pages that sequences name before and after keep their payload. -/
theorem Kept.live (hk : Kept t t') (hc : Counted t []) (hc' : Counted t' []) {seq' : SequenceId} {r' : Sequence}
    (hr : t.sequences.lookup seq = some r) (hr' : t'.sequences.lookup seq' = some r') (hid : id ∈ r.pages)
    (hid' : id ∈ r'.pages) (hp : t.pages.lookup id = some p) :
    ∃ p', t'.pages.lookup id = some p' ∧ payload p' = payload p := by
  obtain ⟨p', hp'⟩ := hc'.named id (lt_of_lt_of_le (seqRefs_pos hr' hid') (le_add_right _ _))
  exact ⟨p', hp', hk id p p' hp hp' (allReferenced hc seq r hr id hid p hp)
    (allReferenced hc' seq' r' hr' id hid' p' hp')⟩

/-! ### Shorter and shifted buffers -/

/-- A buffer whose slots are slots of another, at the same place of their pages. -/
theorem Backs.reindex {pages' : List PageId} {len len' : ℕ} {rows rows' : ℕ → List LayerKv}
    (hb : Backs t pages len rows) (f : ℕ → ℕ) (hf : ∀ i, i < len' → f i < len)
    (hpages : ∀ i, i < len' → pages'[i / t.pageSize]? = pages[f i / t.pageSize]?)
    (hslot : ∀ i, i < len' → f i % t.pageSize = i % t.pageSize) (hrows : ∀ i, i < len' → rows' i = rows (f i)) :
    Backs t pages' len' rows' := by
  intro i hi
  obtain ⟨id, p, hid, hp, hformed, hrow⟩ := hb (f i) (hf i hi)
  refine ⟨id, p, by rw [hpages i hi, hid], hp, hformed, fun x g hx hx' => ?_⟩
  rw [hrows i hi]
  exact hrow x g hx (by rw [hx', hslot i hi])

theorem div_lt_divCeil {n d : ℕ} (hd : 0 < d) (h : i < n) : i / d < divCeil n d := by
  unfold divCeil
  have hle : i / d * d ≤ i := div_mul_le_self i d
  rw [lt_div_iff_mul_lt hd]
  omega

/-- A record of the positions below `position`: the prefix of a rewind or of a fork. -/
theorem Refines.prefix {r' : Sequence} (hr : Refines t r h) (hps : t.pageSize ≠ 0) (hp : position ≤ r.length)
    (hpages : r'.pages = keptPages r t.pageSize position) (hlen : r'.length = position)
    (hplaced : WellPlaced t.pageSize r' h.sinkTokens) (hbuf : r'.bufferLen = r.bufferIndex position)
    (hfit : r.bufferIndex position ≤ r.bufferLen) (hpos : ∀ i, i < r'.bufferLen → r'.position i = r.position i) :
    Refines t r' ⟨h.rows.take position, h.sinkTokens⟩ := by
  have hlt := pos_of_ne_zero hps
  refine ⟨?_, fun row hrow => hr.width row (mem_of_mem_take hrow), hplaced, ?_⟩
  · rw [hlen, length_take, hr.length]
    omega
  · refine hr.backs.reindex id (fun i hi => ?_) (fun i hi => ?_) (fun _ _ => rfl) fun i hi => ?_
    · simp only [id]
      omega
    · rw [hpages]
      rw [hbuf] at hi
      exact getElem?_take_of_lt (div_lt_divCeil hlt hi)
    · have hposlt := position_lt hplaced.order hplaced.bound hi
      rw [hlen] at hposlt
      unfold History.rowAt
      simp only [id]
      rw [← hpos i hi, getD_eq_getElem?_getD, getD_eq_getElem?_getD, getElem?_take_of_lt hposlt]

/-- The record of a fork. -/
theorem Refines.forked (hr : Refines t r h) (hps : t.pageSize ≠ 0) (hstart : r.start ≤ position)
    (hp : position ≤ r.length) :
    Refines t ⟨keptPages r t.pageSize position, position, r.start, r.sinkLen⟩
      ⟨h.rows.take position, h.sinkTokens⟩ := by
  have hplaced := hr.placed
  have horder := hplaced.order
  have hsink : ¬ position < r.sinkLen := by omega
  refine hr.prefix hps hp rfl rfl ?_ ?_ ?_ fun _ _ => rfl
  · exact ⟨hplaced.start, hplaced.sink, horder, hstart, hplaced.unpinned⟩
  · exact (if_neg hsink).symm
  · unfold Sequence.bufferIndex Sequence.bufferLen
    rw [if_neg hsink]
    omega

/-- The record after a rewind. -/
theorem Refines.rewound (hr : Refines t r h) (hps : t.pageSize ≠ 0)
    (hret : ¬ (position < r.start ∧ (r.sinkLen = 0 ∨ r.sinkLen ≤ position))) (hp : position ≤ r.length) :
    Refines t (rewound r t.pageSize position) ⟨h.rows.take position, h.sinkTokens⟩ := by
  by_cases hsink : position < r.sinkLen
  · -- into the sinks: the window is discarded
    have hidx : r.bufferIndex position = position := if_pos hsink
    have hrew : PagedKvCache.rewound r t.pageSize position = ⟨keptPages r t.pageSize position, position, 0, 0⟩ :=
      if_pos hsink
    rw [hrew]
    refine hr.prefix hps hp rfl rfl ?_ ?_ ?_ fun i hi => ?_
    · exact ⟨dvd_zero _, .inl rfl, le_rfl, zero_le _, fun _ _ => rfl⟩
    · rw [hidx]
      exact zero_add _
    · unfold Sequence.bufferLen
      omega
    · have hi' : i < position := by
        unfold Sequence.bufferLen at hi
        simp only at hi
        omega
      unfold Sequence.position
      rw [if_pos (show i < r.sinkLen by omega)]
      simp
  · have hstart : r.start ≤ position := by omega
    have hrew : PagedKvCache.rewound r t.pageSize position =
        { r with pages := keptPages r t.pageSize position, length := position } := if_neg hsink
    rw [hrew]
    exact hr.forked hps hstart hp

/-! ### Sliding windows -/

theorem add_mul_div {k d : ℕ} (hd : 0 < d) : (i + k * d) / d = i / d + k := add_mul_div_right i k hd

/-- A window without sinks: the slots move down by the pages given up. -/
theorem Refines.slidWindow (hr : Refines t r h) (hps : t.pageSize ≠ 0) (h0 : h.sinkTokens = 0) (windowSize : ℕ) :
    Refines t ⟨r.pages.take 0 ++ r.pages.drop (0 + windowEvict r t.pageSize windowSize), r.length,
      r.start + windowEvict r t.pageSize windowSize * t.pageSize, r.sinkLen⟩ h := by
  have hplaced := hr.placed
  have hlt := pos_of_ne_zero hps
  have hsink : r.sinkLen = 0 := by
    rcases hplaced.sink with hz | ⟨hne, -⟩
    · exact hz
    · exact absurd h0 hne
  -- the pages given up lie before the window
  have hk : r.start + windowEvict r t.pageSize windowSize * t.pageSize ≤ r.length := by
    have hmin : windowEvict r t.pageSize windowSize ≤ (r.length - windowSize - r.start) / t.pageSize := min_le_left _ _
    have hmul := mul_le_mul_right t.pageSize hmin
    have hdiv := div_mul_le_self (r.length - windowSize - r.start) t.pageSize
    have := hplaced.bound
    omega
  refine ⟨hr.length, hr.width, ?_, ?_⟩
  · refine ⟨(Nat.dvd_add_right hplaced.start).mpr (Dvd.intro_left _ rfl), .inl hsink, ?_, hk, fun hne => absurd h0 hne⟩
    rw [hsink]
    exact zero_le _
  · refine hr.backs.reindex (fun i => i + windowEvict r t.pageSize windowSize * t.pageSize)
      (fun i hi => ?_) (fun i hi => ?_) (fun i _ => add_mul_mod_self_right _ _ _) fun i hi => ?_
    · unfold Sequence.bufferLen at hi ⊢
      simp only at hi
      omega
    · rw [add_mul_div hlt]
      simp only [take_zero, nil_append, zero_add, getElem?_drop]
      rw [add_comm]
    · unfold History.rowAt Sequence.position
      simp only [hsink, Nat.not_lt_zero, if_false, Nat.sub_zero]
      congr 1
      omega

/-- A window past the sinks: the sinks stay, and the slots after them move down by the
pages given up. -/
theorem Refines.slidPastSinks (hr : Refines t r h) {windowSize : ℕ} (hne : h.sinkTokens ≠ 0)
    (hw : SlidPastSinks t seq windowSize h.sinkTokens t' r) :
    Refines t ⟨r.pages.take (sinkPages t.pageSize h.sinkTokens) ++ r.pages.drop
        (sinkPages t.pageSize h.sinkTokens + sinkEvict r t.pageSize windowSize h.sinkTokens), r.length,
      curWindowStart r t.pageSize h.sinkTokens + sinkEvict r t.pageSize windowSize h.sinkTokens * t.pageSize,
      sinkPages t.pageSize h.sinkTokens * t.pageSize⟩ h := by
  have hplaced := hr.placed
  have hlt := pos_of_ne_zero hw.pageSize
  have hpast := hw.past
  generalize ha : sinkPages t.pageSize h.sinkTokens = a at *
  generalize hk : sinkEvict r t.pageSize windowSize h.sinkTokens = k at *
  generalize hcur : curWindowStart r t.pageSize h.sinkTokens = cur at *
  have hapos : 0 < a := by
    rw [← ha]
    exact div_pos (by omega) hlt
  have hTpos : t.pageSize ≤ a * t.pageSize := Nat.le_mul_of_pos_left _ hapos
  -- either the sinks are pinned already, or nothing was evicted yet
  have hcases : r.sinkLen = a * t.pageSize ∧ cur = r.start ∨ r.sinkLen = 0 ∧ r.start = 0 ∧ cur = a * t.pageSize := by
    rw [← hcur]
    unfold curWindowStart
    rcases hplaced.sink with hz | ⟨-, hT⟩
    · right
      rw [if_neg (by omega), ha]
      exact ⟨hz, hplaced.unpinned hne hz, rfl⟩
    · left
      rw [ha] at hT
      rw [if_pos (by omega)]
      exact ⟨hT, rfl⟩
  have horder := hplaced.order
  have hbound := hplaced.bound
  have hstart : cur + k * t.pageSize ≤ r.length := by
    have hmin : k ≤ ((r.length - windowSize) / t.pageSize * t.pageSize - cur) / t.pageSize := by
      rw [← hk, ← hcur]
      exact min_le_left _ _
    have hmul := mul_le_mul_right t.pageSize hmin
    have hdiv := div_mul_le_self ((r.length - windowSize) / t.pageSize * t.pageSize - cur) t.pageSize
    have hnew := div_mul_le_self (r.length - windowSize) t.pageSize
    omega
  have hsplit : a ≤ r.pages.length := by
    obtain ⟨id, -, hid, -⟩ := hr.backs (a * t.pageSize - 1) (by unfold Sequence.bufferLen; omega)
    have hdiv : (a * t.pageSize - 1) / t.pageSize = a - 1 := by
      rw [show a * t.pageSize - 1 = (t.pageSize - 1) + (a - 1) * t.pageSize by
        obtain ⟨b, rfl⟩ : ∃ b, a = b + 1 := ⟨a - 1, by omega⟩
        rw [Nat.succ_mul, Nat.add_sub_cancel]
        omega, add_mul_div hlt, div_eq_of_lt (by omega), zero_add]
    have := (List.getElem?_eq_some_iff.mp hid).1
    omega
  refine ⟨hr.length, hr.width, ⟨?_, .inr ⟨hne, by rw [ha]⟩, ?_, hstart, fun _ hz => ?_⟩, ?_⟩
  · have hdvd : t.pageSize ∣ cur := by
      rcases hcases with ⟨-, hc⟩ | ⟨-, -, hc⟩
      · rw [hc]
        exact hplaced.start
      · rw [hc]
        exact Dvd.intro_left _ rfl
    exact (Nat.dvd_add_right hdvd).mpr (Dvd.intro_left _ rfl)
  · show a * t.pageSize ≤ cur + k * t.pageSize
    omega
  · have hz' : a * t.pageSize = 0 := hz
    omega
  · refine hr.backs.reindex (fun i => if i < a * t.pageSize then i else i + k * t.pageSize)
      (fun i hi => ?_) (fun i hi => ?_) (fun i hi => ?_) fun i hi => ?_
    · unfold Sequence.bufferLen at hi ⊢
      simp only at hi
      split <;> omega
    · by_cases hi' : i < a * t.pageSize
      · have hdiv : i / t.pageSize < a := (div_lt_iff_lt_mul hlt).mpr hi'
        simp only [hi', if_true]
        rw [getElem?_append_left (by rw [length_take]; omega), getElem?_take_of_lt hdiv]
      · have hdiv : a ≤ i / t.pageSize := (le_div_iff_mul_le hlt).mpr (by omega)
        simp only [hi', if_false]
        rw [getElem?_append_right (by rw [length_take]; omega), length_take, getElem?_drop,
          add_mul_div hlt]
        congr 1
        omega
    · split
      · rfl
      · exact add_mul_mod_self_right _ _ _
    · unfold History.rowAt Sequence.position
      simp only
      congr 1
      split <;> split <;> omega

/-! ### Writing -/

/-- The records after `seq` got a page of its own at `pageIndex`. -/
structure Owns (t : PageTable) (seq : SequenceId) (pageIndex : ℕ) (id : PageId) (t' : PageTable)
    (r : Sequence) (pages : List PageId) : Prop where
  record : t.sequences.lookup seq = some r
  record' : t'.sequences.lookup seq = some { r with pages := pages }
  self : pages[pageIndex]? = some id
  others : ∀ j, j ≠ pageIndex → pages[j]? = r.pages[j]?
  elsewhere : ∀ s, s ≠ seq → t'.sequences.lookup s = t.sequences.lookup s

/-- Only the sequence's entry for the page changes. -/
theorem Owns.of_adjust {f : Sequence → Sequence} (hr : t.sequences.lookup seq = some r)
    (hf : f r = { r with pages := pages }) (hs : t'.sequences = t.sequences.adjust seq f)
    (hself : pages[pageIndex]? = some id) (hothers : ∀ j, j ≠ pageIndex → pages[j]? = r.pages[j]?) :
    Owns t seq pageIndex id t' r pages where
  record := hr
  record' := by rw [hs, lookup_adjust_self, hr, Option.map_some, hf]
  self := hself
  others := hothers
  elsewhere s hne := by rw [hs, lookup_adjust_ne _ _ hne]

theorem WritePage.owns (hw : WritePage t seq pageIndex id t') : ∃ r pages, Owns t seq pageIndex id t' r pages := by
  cases hw with
  | @owned r _ p _ hr hid hp hc hm =>
    exact ⟨r, r.pages, hr, by rw [hm.sequences, hr], hid, fun _ _ => rfl, fun _ _ => by rw [hm.sequences]⟩
  | @copied r pageId _ t₁ t₂ p old new lease hr hid hp hc hm ha hold hnew =>
    have hlt := (List.getElem?_eq_some_iff.mp hid).1
    refine ⟨r, r.pages.set pageIndex id, Owns.of_adjust hr (f := fun r => { r with pages := r.pages.set pageIndex id })
      rfl ?_ (getElem?_set_self hlt) fun j hj => getElem?_set_ne (Ne.symm hj)⟩
    unfold withCopy
    rw [free_sequences]
    show adjust t₂.sequences seq _ = _
    rw [allocate_sequences ha, hm.sequences]
  | @added r _ t₁ hr hlen ha =>
    refine ⟨r, r.pages ++ [id], Owns.of_adjust hr (f := fun r => { r with pages := r.pages ++ [id] }) rfl ?_ ?_ ?_⟩
    · show adjust t₁.sequences seq _ = _
      rw [allocate_sequences ha]
    · rw [hlen, getElem?_concat_length]
    · exact fun j hj => getElem?_concat_ne (hlen ▸ hj)

theorem Ready.owns (hw : Ready t seq pageIndex id t') : ∃ r pages, Owns t seq pageIndex id t' r pages := by
  obtain ⟨u, hw, hm⟩ := hw
  obtain ⟨r, pages, ho⟩ := hw.owns
  refine ⟨r, pages, ho.record, ?_, ho.self, ho.others, fun s hs => ?_⟩
  · rw [hm.sequences, ho.record']
  · rw [hm.sequences, ho.elsewhere s hs]

theorem Ready.lookup_self (h : Counted t []) (hw : Ready t seq pageIndex id t') :
    ∃ p', t'.pages.lookup id = some p' ∧ p'.refCount = 1 ∧
      ∀ r j p, t.sequences.lookup seq = some r → r.pages[pageIndex]? = some j →
        t.pages.lookup j = some p → payload p' = payload p := by
  obtain ⟨u, hw, hm⟩ := hw
  obtain ⟨p, hp, hc, hpay⟩ := hw.lookup_self h
  obtain ⟨p', hp', hs⟩ := hm.lookup hp
  refine ⟨p', hp', by rw [hs.refCount, hc], fun r j q hr hj hq => ?_⟩
  rw [payload_tierStep hs, hpay r j q hr hj hq]

theorem Ready.lookup_ne {j : PageId} (hw : Ready t seq pageIndex id t') (hj : j ≠ id)
    (hp : t.pages.lookup j = some p) : ∃ p', t'.pages.lookup j = some p' ∧ payload p' = payload p := by
  obtain ⟨u, hw, hm⟩ := hw
  obtain ⟨q, hq, hpay⟩ := hw.lookup_ne hj hp
  obtain ⟨p', hp', hs⟩ := hm.lookup hq
  exact ⟨p', hp', by rw [payload_tierStep hs, hpay]⟩

/-- A page with one reference is named by one entry of one sequence. -/
theorem named_once (hc : Counted t []) (hp : t.pages.lookup id = some p) (h1 : p.refCount = 1)
    (hr : t.sequences.lookup seq = some r) (hi : r.pages[i]? = some id) :
    (∀ j, r.pages[j]? = some id → j = i) ∧
      ∀ s r', s ≠ seq → t.sequences.lookup s = some r' → id ∉ r'.pages := by
  have hrefs := hc.refCount id p hp
  exact named_once_of_le (by omega) hr hi

/-- A sequence that did not ask for the page keeps its rows. -/
theorem Ready.refines_other {s : SequenceId} (hw : Ready t seq pageIndex id t') (hc : Counted t [])
    (hc' : Counted t' []) (hf : AllFormed t') (hne : s ≠ seq) (hr : t'.sequences.lookup s = some r)
    (href : Refines t r h) : Refines t' r h := by
  obtain ⟨p, hp, h1, -⟩ := hw.lookup_self hc
  obtain ⟨r₀, pages, ho⟩ := hw.owns
  have honce := (named_once hc' hp h1 ho.record' ho.self).2 s r hne hr
  refine href.frame hw.sameConfig hf fun j hj p hp => hw.lookup_ne ?_ hp
  rintro rfl
  exact honce hj

/-- The sequence that asked for it keeps its rows too: the page holds what the old one
held. -/
theorem Ready.refines_self (hw : Ready t seq pageIndex id t') (hc : Counted t []) (hc' : Counted t' [])
    (hf : AllFormed t') (ho : Owns t seq pageIndex id t' r pages) (href : Refines t r h) :
    Refines t' { r with pages := pages } h := by
  have hsame := hw.sameConfig
  obtain ⟨p, hp, h1, hpay⟩ := hw.lookup_self hc
  have honce := (named_once hc' hp h1 ho.record' ho.self).1
  refine ⟨href.length, by rw [hsame.layerConfigs]; exact href.width, ?_, ?_⟩
  · rw [hsame.pageSize]
    exact ⟨href.placed.start, href.placed.sink, href.placed.order, href.placed.bound, href.placed.unpinned⟩
  · intro i hi
    obtain ⟨j, q, hj, hq, -, hrow⟩ := href.backs i hi
    have hpage : ∃ j' q', pages[i / t.pageSize]? = some j' ∧ t'.pages.lookup j' = some q' ∧ payload q' = payload q := by
      by_cases hidx : i / t.pageSize = pageIndex
      · exact ⟨id, p, by rw [hidx, ho.self], hp, hpay r j q ho.record (by rw [← hidx, hj]) hq⟩
      · have hj' : pages[i / t.pageSize]? = some j := by rw [ho.others _ hidx, hj]
        obtain ⟨q', hq', hpay'⟩ := hw.lookup_ne (fun heq : j = id => hidx (honce _ (heq ▸ hj'))) hq
        exact ⟨j, q', hj', hq', hpay'⟩
    obtain ⟨j', q', hj', hq', hpay'⟩ := hpage
    refine ⟨j', q', by rw [hsame.pageSize]; exact hj', hq', hf j' q' hq', ?_⟩
    rw [hsame.pageSize, hsame.layerConfigs]
    intro x g hx hslot
    rw [scalarAt_payload hpay', hrow x g hx hslot]
    rfl

theorem length_of_validateLayers {layerConfigs : List LayerTensorConfig} {layers : List LayerKv}
    (h : validateLayers layerConfigs layers = .ok ()) : layers.length = layerConfigs.length := by
  unfold validateLayers at h
  by_contra hne
  rw [if_pos hne] at h
  cases h

theorem sameConfig_wrote (t : PageTable) (id : PageId) (page : Page) (o : ℕ) : SameConfig t (wrote t id page o) :=
  ⟨rfl, rfl, rfl, rfl⟩

/-- A page that was written to keeps its buffers. -/
theorem samePages_wrote {codec : Page.QuantCodec} {page page' : Page} {o : ℕ} (hp : t.pages.lookup id = some page)
    (hw : writeLayers codec t.pageSize o 0 t.layerConfigs row page = .ok page') : SamePages t (wrote t id page' o) := by
  obtain ⟨store, rfl, -, hl⟩ := writeLayers_stored hw
  exact samePages_of_insert hp rfl ⟨rfl, rfl, hl⟩ (sameConfig_wrote t id _ o)

theorem wrote_lookup (t : PageTable) (id j : PageId) (page : Page) (o : ℕ) :
    (wrote t id page o).pages.lookup j =
      if j = id then some { page with filled := max page.filled (o + 1) } else t.pages.lookup j :=
  lookup_insert' _ _ _ _


/-- **A write** puts its row at its position, in a page no other slot block uses. -/
theorem Refines.wrote {codec : Page.QuantCodec} {u : PageTable} (href : Refines u r h) (hps : u.pageSize ≠ 0)
    (hf : AllFormed u) (hret : ¬ (r.sinkLen ≤ position ∧ position < r.start)) (hbound : position ≤ r.length)
    (hself : r.pages[r.bufferIndex position / u.pageSize]? = some id)
    (honce : ∀ j, r.pages[j]? = some id → j = r.bufferIndex position / u.pageSize) {page page' : Page}
    (hp : u.pages.lookup id = some page) (hlen : row.length = u.layerConfigs.length)
    (hw : writeLayers codec u.pageSize (r.bufferIndex position % u.pageSize) 0 u.layerConfigs row page = .ok page') :
    Refines (wrote u id page' (r.bufferIndex position % u.pageSize)) { r with length := max r.length (position + 1) }
      (h.write position row) := by
  have hplaced := href.placed
  have hle : position ≤ h.rows.length := by rw [href.length]; exact hbound
  have hoff : r.bufferIndex position % u.pageSize < u.pageSize := mod_lt _ (pos_of_ne_zero hps)
  have hpage := hf id page hp
  refine ⟨by rw [History.write_length hle, href.length], fun row' hrow' => ?_, ?_, fun i hi => ?_⟩
  · rcases History.mem_write hrow' with rfl | hmem
    · exact hlen
    · exact href.width row' hmem
  · exact ⟨hplaced.start, hplaced.sink, hplaced.order, le_trans hplaced.bound (le_max_left _ _), hplaced.unpinned⟩
  · show ∃ id' q, r.pages[i / u.pageSize]? = some id' ∧ (PagedKvCache.wrote u id page' _).pages.lookup id' = some q ∧ _
    -- the slot of `position` is the only one that denotes it
    have hslot : r.position i = position ↔ i = r.bufferIndex position := by
      constructor
      · rintro rfl
        rw [bufferIndex_position hplaced.order]
      · rintro rfl
        rw [position_bufferIndex hret]
    have hnew : (h.write position row).rowAt { r with length := max r.length (position + 1) } i =
        if i = r.bufferIndex position then row else h.rowAt r i := by
      show (h.write position row).rows.getD (r.position i) [] = _
      rw [History.write_getD hle]
      simp only [hslot]
      rfl
    rw [hnew]
    by_cases hib : i = r.bufferIndex position
    · rw [if_pos hib, hib]
      refine ⟨id, _, hself, by rw [wrote_lookup, if_pos rfl], ?_, fun x g hx hxs => ?_⟩
      · exact (hpage.stored (writeLayers_stored hw)).of_layout rfl rfl rfl
      · have hput := writeLayers_scalar hpage hlen hoff hw hx
        have hat : x.slot = r.bufferIndex position % u.pageSize := hxs
        rw [if_pos hat] at hput
        exact hput
    · rw [if_neg hib]
      have hlt : i < r.bufferLen := by
        have hlast := bufferIndex_length hplaced.order hplaced.bound
        unfold Sequence.bufferLen at hi hlast ⊢
        simp only at hi
        rcases lt_or_ge position r.length with hlt | hge
        · omega
        · obtain rfl : position = r.length := by omega
          omega
      obtain ⟨j, q, hj, hq, hformed, hrow⟩ := href.backs i hlt
      by_cases hdiv : i / u.pageSize = r.bufferIndex position / u.pageSize
      · rw [hdiv, hself] at hj
        cases hj
        cases hp.symm.trans hq
        refine ⟨id, _, by rw [hdiv, hself], by rw [wrote_lookup, if_pos rfl], ?_, fun x g hx hxs => ?_⟩
        · exact (hpage.stored (writeLayers_stored hw)).of_layout rfl rfl rfl
        · have hat : x.slot = i % u.pageSize := hxs
          have hne : x.slot ≠ r.bufferIndex position % u.pageSize := by
            intro heq
            refine hib ?_
            rw [← div_add_mod i u.pageSize, hdiv, ← hat, heq, div_add_mod]
          have hkeep := writeLayers_scalar hpage hlen hoff hw hx
          rw [if_neg hne] at hkeep
          exact hkeep.trans (hrow x g hx hxs)
      · have hne : j ≠ id := fun heq => hdiv (honce _ (heq ▸ hj))
        exact ⟨j, q, hj, by rw [wrote_lookup, if_neg hne, hq], hformed, hrow⟩

end PagedKvCache

end OnnxGenai.Kv
