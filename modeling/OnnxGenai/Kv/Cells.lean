import OnnxGenai.Kv.Accounting

/-!
# The cells of a page

Where the scalar of a layer, of its key or value, of a head, of a token slot and of a
dimension lies in the buffer of an `f32` page (`cell`), from the layout that `Page::new`
computes. Distinct scalars have distinct cells, all within the buffer, so that writing the
rows of one token slot sets those cells and leaves the cells of the other slots alone
(`writeLayers_cell`).
-/

namespace OnnxGenai.Kv

open Lib List Nat

/-! ### The layout of an `f32` page -/

/-- The scalars of one component of a layer. -/
def LayerTensorConfig.componentLen (geom : LayerTensorConfig) (pageSize : ℕ) : ℕ :=
  geom.numKvHeads * pageSize * geom.headDim

/-- Where layer `l` starts: after the keys and the values of the layers before it. -/
def layerBase (pageSize : ℕ) (geoms : List LayerTensorConfig) (l : ℕ) : ℕ :=
  ((geoms.take l).map fun g => 2 * g.componentLen pageSize).sum

/-- The layout `Page::new` computes when every component is `f32`. -/
def f32Layout (pageSize : ℕ) (geoms : List LayerTensorConfig) : List ComponentStorage × PageStoreLayout :=
  Page.layoutOf pageSize geoms (some (KvQuantConfig.homogeneous .f32 geoms.length))

/-- The components of some layers, when the buffers so far have the lengths `lens`. -/
def f32Components (pageSize : ℕ) : List LayerTensorConfig → PageStoreLayout → List ComponentStorage
  | [], _ => []
  | g :: gs, lens =>
    ⟨.f32, lens.f32Len, lens.int8Len, lens.fp8Len, lens.scaleLen⟩ ::
      ⟨.f32, lens.f32Len + g.componentLen pageSize, lens.int8Len, lens.fp8Len, lens.scaleLen⟩ ::
      f32Components pageSize gs { lens with f32Len := lens.f32Len + 2 * g.componentLen pageSize }

theorem layoutFrom_f32 (pageSize n : ℕ) : ∀ (geoms : List LayerTensorConfig) (layer : ℕ)
    (comps : List ComponentStorage) (lens : PageStoreLayout),
    Page.layoutFrom pageSize (KvQuantConfig.homogeneous .f32 n) layer geoms (comps, lens) =
      (comps ++ f32Components pageSize geoms lens,
        { lens with f32Len := lens.f32Len + layerBase pageSize geoms geoms.length })
  | [], _, comps, lens => by simp [Page.layoutFrom, f32Components, layerBase]
  | g :: gs, layer, comps, lens => by
    have hlen : lens.f32Len + g.numKvHeads * pageSize * g.headDim + g.numKvHeads * pageSize * g.headDim =
        lens.f32Len + 2 * g.componentLen pageSize := by
      unfold LayerTensorConfig.componentLen
      omega
    unfold Page.layoutFrom Page.pushComponent
    simp only [KvQuantConfig.dtype_homogeneous_f32]
    rw [layoutFrom_f32 pageSize n gs, hlen]
    simp [f32Components, layerBase, LayerTensorConfig.componentLen, add_assoc]

theorem f32Layout_eq (pageSize : ℕ) (geoms : List LayerTensorConfig) : f32Layout pageSize geoms =
    (f32Components pageSize geoms ⟨0, 0, 0, 0⟩, ⟨layerBase pageSize geoms geoms.length, 0, 0, 0⟩) := by
  unfold f32Layout Page.layoutOf
  simp [layoutFrom_f32]

/-- The component of a layer's keys (`k = 0`) or values (`k = 1`). -/
theorem f32Components_get {pageSize : ℕ} : ∀ {geoms : List LayerTensorConfig} {lens : PageStoreLayout}
    {l k : ℕ} {g : LayerTensorConfig}, geoms[l]? = some g → k < 2 →
    ∃ s, (f32Components pageSize geoms lens)[l * 2 + k]? = some s ∧ s.dtype = .f32 ∧
      s.dataOffset = lens.f32Len + layerBase pageSize geoms l + k * g.componentLen pageSize
  | [], _, l, _, _, hg, _ => by simp at hg
  | g' :: gs, lens, 0, k, g, hg, hk => by
    obtain rfl : g' = g := by simpa using hg
    obtain rfl | rfl : k = 0 ∨ k = 1 := by omega
    · exact ⟨_, rfl, rfl, by simp [layerBase]⟩
    · exact ⟨_, rfl, rfl, by simp [layerBase]⟩
  | g' :: gs, lens, l + 1, k, g, hg, hk => by
    have hrest : gs[l]? = some g := by simpa using hg
    obtain ⟨s, hs, hd, ho⟩ : ∃ s, (f32Components pageSize gs { lens with
        f32Len := lens.f32Len + 2 * g'.componentLen pageSize })[l * 2 + k]? = some s ∧ s.dtype = .f32 ∧ _ :=
      f32Components_get hrest hk
    refine ⟨s, ?_, hd, ?_⟩
    · rw [show (l + 1) * 2 + k = l * 2 + k + 1 + 1 by omega]
      exact hs
    · rw [ho]
      simp only [layerBase, take_succ_cons, map_cons, sum_cons]
      omega

/-! ### Cells -/

/-- A number has one decomposition into a multiple of `n` and a rest below it. -/
theorem digits_unique {n a b a' b' : ℕ} (hb : b < n) (hb' : b' < n) (h : a * n + b = a' * n + b') :
    a = a' ∧ b = b' := by
  have hn : 0 < n := lt_of_le_of_lt (zero_le b) hb
  have hdiv : ∀ x y, y < n → (x * n + y) / n = x := by
    intro x y hy
    rw [add_comm, add_mul_div_right _ _ hn, div_eq_of_lt hy, zero_add]
  have ha : a = a' := by rw [← hdiv a b hb, h, hdiv a' b' hb']
  subst ha
  exact ⟨rfl, by omega⟩

theorem digits_lt {n m a b : ℕ} (ha : a < m) (hb : b < n) : a * n + b < m * n := by
  have : (a + 1) * n ≤ m * n := mul_le_mul_right n ha
  rw [succ_mul] at this
  omega

/-- A scalar of a page: which layer, its key (`kind = 0`) or value (`kind = 1`), which
head, token slot and dimension. -/
structure Scalar where
  layer : ℕ
  kind : ℕ
  head : ℕ
  slot : ℕ
  dim : ℕ

variable {pageSize : ℕ} {geoms : List LayerTensorConfig}

/-- The scalars a page has. -/
structure Scalar.Valid (pageSize : ℕ) (geoms : List LayerTensorConfig) (x : Scalar)
    (g : LayerTensorConfig) : Prop where
  layer : geoms[x.layer]? = some g
  kind : x.kind < 2
  head : x.head < g.numKvHeads
  slot : x.slot < pageSize
  dim : x.dim < g.headDim

/-- The place of a scalar in its component. -/
def Scalar.within (pageSize : ℕ) (g : LayerTensorConfig) (x : Scalar) : ℕ :=
  x.head * (pageSize * g.headDim) + x.slot * g.headDim + x.dim

/-- The place of a scalar in the buffer of its page. -/
def Scalar.cell (pageSize : ℕ) (geoms : List LayerTensorConfig) (g : LayerTensorConfig) (x : Scalar) : ℕ :=
  layerBase pageSize geoms x.layer + x.kind * g.componentLen pageSize + x.within pageSize g

variable {x : Scalar} {g g' : LayerTensorConfig} {l o : ℕ} {p p' : Page} {codec : Page.QuantCodec}

theorem Scalar.within_lt (h : x.Valid pageSize geoms g) : x.within pageSize g < g.componentLen pageSize := by
  unfold within LayerTensorConfig.componentLen
  have hrow := digits_lt h.slot h.dim
  rw [mul_assoc, add_assoc]
  exact digits_lt h.head hrow

/-- A layer ends where the next begins. -/
theorem layerBase_succ (h : geoms[l]? = some g) :
    layerBase pageSize geoms (l + 1) = layerBase pageSize geoms l + 2 * g.componentLen pageSize := by
  unfold layerBase
  rw [take_add_one, h]
  simp

theorem layerBase_mono {l' : ℕ} (h : l ≤ l') : layerBase pageSize geoms l ≤ layerBase pageSize geoms l' := by
  induction h with
  | refl => exact le_rfl
  | @step m _ ih =>
    refine ih.trans ?_
    unfold layerBase
    rw [take_add_one, map_append, sum_append]
    exact le_add_right _ _

/-- The cell of a scalar lies in its layer. -/
theorem Scalar.cell_bounds (h : x.Valid pageSize geoms g) :
    layerBase pageSize geoms x.layer ≤ x.cell pageSize geoms g ∧
      x.cell pageSize geoms g < layerBase pageSize geoms (x.layer + 1) := by
  have hw := within_lt h
  have hk := digits_lt h.kind hw
  rw [layerBase_succ h.layer]
  unfold cell
  omega

/-- The cell of a scalar lies in the buffer. -/
theorem Scalar.cell_lt (h : x.Valid pageSize geoms g) :
    x.cell pageSize geoms g < layerBase pageSize geoms geoms.length := by
  have hl : x.layer + 1 ≤ geoms.length := (List.getElem?_eq_some_iff.mp h.layer).1
  exact lt_of_lt_of_le (cell_bounds h).2 (layerBase_mono hl)

/-- **Distinct scalars have distinct cells.** -/
theorem Scalar.cell_injective {y : Scalar} (hx : x.Valid pageSize geoms g) (hy : y.Valid pageSize geoms g')
    (h : x.cell pageSize geoms g = y.cell pageSize geoms g') : x = y := by
  have hlayer : x.layer = y.layer := by
    have bx := cell_bounds hx
    have by' := cell_bounds hy
    rcases lt_trichotomy x.layer y.layer with hlt | heq | hlt
    · have hle : layerBase pageSize geoms (x.layer + 1) ≤ layerBase pageSize geoms y.layer := layerBase_mono hlt
      omega
    · exact heq
    · have hle : layerBase pageSize geoms (y.layer + 1) ≤ layerBase pageSize geoms x.layer := layerBase_mono hlt
      omega
  have hg : g = g' := by
    have := hx.layer
    rw [hlayer, hy.layer] at this
    exact (Option.some.inj this).symm
  subst hg
  have hin : x.kind * g.componentLen pageSize + x.within pageSize g =
      y.kind * g.componentLen pageSize + y.within pageSize g := by
    unfold cell at h
    rw [hlayer] at h
    omega
  obtain ⟨hkind, hwithin⟩ := digits_unique (within_lt hx) (within_lt hy) hin
  unfold within at hwithin
  obtain ⟨hhead, hrow⟩ := digits_unique (digits_lt hx.slot hx.dim) (digits_lt hy.slot hy.dim)
    (by rwa [add_assoc, add_assoc] at hwithin)
  obtain ⟨hslot, hdim⟩ := digits_unique hx.dim hy.dim hrow
  cases x
  cases y
  simp_all

/-! ### Well-formed pages -/

/-- A page whose buffers are those of an `f32` page. -/
structure Formed (pageSize : ℕ) (geoms : List LayerTensorConfig) (p : Page) : Prop where
  components : p.storageLayout = (f32Layout pageSize geoms).1
  planned : p.storeLayout = (f32Layout pageSize geoms).2
  buffers : p.store.layout = (f32Layout pageSize geoms).2

theorem Formed.length (h : Formed pageSize geoms p) :
    p.store.data.length = layerBase pageSize geoms geoms.length := by
  have := congrArg PageStoreLayout.f32Len h.buffers
  rwa [f32Layout_eq] at this

theorem Formed.component (h : Formed pageSize geoms p) {k : ℕ} (hg : geoms[l]? = some g) (hk : k < 2) :
    ∃ s, p.storageLayout[l * 2 + k]? = some s ∧ s.dtype = .f32 ∧
      s.dataOffset = layerBase pageSize geoms l + k * g.componentLen pageSize := by
  obtain ⟨s, hs, hd, ho⟩ : ∃ s, (f32Components pageSize geoms ⟨0, 0, 0, 0⟩)[l * 2 + k]? = some s ∧ _ :=
    f32Components_get hg hk
  refine ⟨s, ?_, hd, by rw [ho, zero_add]⟩
  rw [h.components, f32Layout_eq]
  exact hs

theorem Formed.stored (h : Formed pageSize geoms p) (hs : PagedKvCache.Stored p p') : Formed pageSize geoms p' := by
  obtain ⟨store, rfl, -, hl⟩ := hs
  exact ⟨h.components, h.planned, hl.trans h.buffers⟩

/-- The same buffers, elsewhere, cleared or with other counts, are well formed. -/
theorem Formed.of_layout {q : Page} (h : Formed pageSize geoms p) (hc : q.storageLayout = p.storageLayout)
    (hp : q.storeLayout = p.storeLayout) (hb : q.store.layout = p.store.layout) : Formed pageSize geoms q :=
  ⟨hc.trans h.components, hp.trans h.planned, hb.trans h.buffers⟩

theorem formed_new (id : PageId) (d : Device) (pageSize : ℕ) (geoms : List LayerTensorConfig) :
    Formed pageSize geoms (Page.new id d pageSize geoms (some (KvQuantConfig.homogeneous .f32 geoms.length))) :=
  ⟨rfl, rfl, HostPageStore.new_layout d _⟩

/-- The scalar of a page. -/
def scalarAt (pageSize : ℕ) (geoms : List LayerTensorConfig) (g : LayerTensorConfig) (p : Page)
    (x : Scalar) : Option F32 := p.store.data[x.cell pageSize geoms g]?

/-- Every scalar of a well-formed page is there. -/
theorem Formed.scalarAt (h : Formed pageSize geoms p) (hx : x.Valid pageSize geoms g) :
    ∃ v, scalarAt pageSize geoms g p x = some v := by
  have hlt := Scalar.cell_lt hx
  rw [← h.length] at hlt
  exact ⟨_, getElem?_eq_getElem hlt⟩

theorem readAt_ok {α : Type} {xs : List α} {i : ℕ} {a : α} (h : xs[i]? = some a) : Page.readAt xs i = .ok a := by
  unfold Page.readAt
  rw [h]

/-- Reading a scalar. -/
theorem Formed.valueAtSlot (h : Formed pageSize geoms p) (codec : Page.QuantCodec) (hx : x.Valid pageSize geoms g)
    {v : F32} (hv : Kv.scalarAt pageSize geoms g p x = some v) :
    p.valueAtSlot codec pageSize g.headDim (x.layer * 2 + x.kind) x.head x.slot x.dim = .ok v := by
  obtain ⟨s, hs, hd, ho⟩ := h.component hx.layer hx.kind
  refine bind_eq_ok.mpr ⟨s, readAt_ok hs, ?_⟩
  rw [hd]
  refine readAt_ok ?_
  rw [ho]
  exact hv

/-! ### Writing -/

/-- What a slice holds after a copy into it. -/
theorem writeSlice_get {α : Type} {xs ys zs : List α} {offset : ℕ}
    (h : Page.writeSlice xs offset ys = .ok zs) (i : ℕ) :
    zs[i]? = if offset ≤ i ∧ i < offset + ys.length then ys[i - offset]? else xs[i]? := by
  unfold Page.writeSlice at h
  split_ifs at h with hle
  cases h
  have htake : (xs.take offset).length = offset := by
    rw [length_take]
    omega
  by_cases hlo : offset ≤ i
  · by_cases hhi : i < offset + ys.length
    · rw [if_pos ⟨hlo, hhi⟩, append_assoc, getElem?_append_right (by omega), htake,
        getElem?_append_left (by omega)]
    · rw [if_neg (by omega), getElem?_append_right (by rw [length_append, htake]; omega),
        getElem?_drop, length_append, htake]
      congr 1
      omega
  · rw [if_neg (by omega), append_assoc, getElem?_append_left (by omega), getElem?_take_of_lt (by omega)]

theorem readSlice_get {α : Type} {xs ys : List α} {offset len : ℕ}
    (h : Page.readSlice xs offset len = .ok ys) :
    ys.length = len ∧ ∀ i, i < len → ys[i]? = xs[offset + i]? := by
  unfold Page.readSlice at h
  split_ifs at h with hle
  cases h
  refine ⟨?_, fun i hi => ?_⟩
  · rw [length_take, length_drop]
    omega
  · rw [getElem?_take_of_lt hi, getElem?_drop]

/-- Writing one head's values of one token slot sets those scalars, and no others. -/
theorem writeHeadToken_scalar (hf : Formed pageSize geoms p) {k h : ℕ} (hl : geoms[l]? = some g) (hk : k < 2)
    (hh : h < g.numKvHeads) (ho : o < pageSize) {values : List F32} (hv : values.length = g.headDim)
    (hw : p.writeHeadToken codec pageSize g.headDim (l * 2 + k) h o values = .ok p')
    (hx : x.Valid pageSize geoms g') :
    scalarAt pageSize geoms g' p' x =
      if x.layer = l ∧ x.kind = k ∧ x.head = h ∧ x.slot = o then values[x.dim]?
      else scalarAt pageSize geoms g' p x := by
  obtain ⟨s, hs, hd, hoff⟩ := hf.component hl hk
  obtain ⟨s', hs', hw⟩ := bind_eq_ok.mp hw
  obtain rfl : s = s' := by
    rw [readAt_ok hs] at hs'
    exact Except.ok.inj hs'
  simp only [hd] at hw
  obtain ⟨data, hdata, hw⟩ := bind_eq_ok.mp hw
  cases hw
  unfold scalarAt
  rw [writeSlice_get hdata]
  -- the range written is that of the scalars `⟨l, k, h, o, _⟩`
  have hcell : ∀ d, (⟨l, k, h, o, d⟩ : Scalar).cell pageSize geoms g =
      s.dataOffset + (h * (pageSize * g.headDim) + o * g.headDim) + d := by
    intro d
    unfold Scalar.cell Scalar.within
    simp only
    omega
  by_cases hxs : x.layer = l ∧ x.kind = k ∧ x.head = h ∧ x.slot = o
  · rw [if_pos hxs]
    obtain ⟨rfl, rfl, rfl, rfl⟩ := hxs
    cases hl.symm.trans hx.layer
    have hc := hcell x.dim
    have hdim := hx.dim
    rw [show x.cell pageSize geoms g = _ from hc, if_pos (by omega)]
    congr 1
    omega
  · rw [if_neg hxs, if_neg]
    rintro ⟨hlo, hhi⟩
    refine hxs ?_
    have hd' : x.cell pageSize geoms g' - (s.dataOffset + (h * (pageSize * g.headDim) + o * g.headDim)) < g.headDim := by
      omega
    have heq := Scalar.cell_injective hx (⟨hl, hk, hh, ho, hd'⟩ : Scalar.Valid pageSize geoms ⟨l, k, h, o, _⟩ g)
      (by rw [hcell]; omega)
    rw [heq]
    exact ⟨rfl, rfl, rfl, rfl⟩

/-- The scalar that a token's K/V tensors give a place in its row. -/
def LayerKv.scalar (layer : LayerKv) (g : LayerTensorConfig) (x : Scalar) : Option F32 :=
  (if x.kind = 0 then layer.key else layer.value)[x.head * g.headDim + x.dim]?

/-- The scalar that the per-layer tensors of a token give a place. -/
def rowScalar (row : List LayerKv) (g : LayerTensorConfig) (x : Scalar) : Option F32 :=
  (row[x.layer]?).bind fun layer => layer.scalar g x

namespace PagedKvCache

/-- One turn of the head loop sets the scalars of that head. -/
theorem writeHead_scalar (hf : Formed pageSize geoms p) {h : ℕ} {layer : LayerKv} (hl : geoms[l]? = some g)
    (hh : h < g.numKvHeads) (ho : o < pageSize) (hw : writeHead codec pageSize l g layer o p h = .ok p')
    (hx : x.Valid pageSize geoms g') :
    scalarAt pageSize geoms g' p' x =
      if x.layer = l ∧ x.head = h ∧ x.slot = o then layer.scalar g x else scalarAt pageSize geoms g' p x := by
  obtain ⟨key, hkey, hw⟩ := bind_eq_ok.mp hw
  obtain ⟨value, hvalue, hw⟩ := bind_eq_ok.mp hw
  obtain ⟨q, hq, hw⟩ := bind_eq_ok.mp hw
  obtain ⟨hklen, hkget⟩ := readSlice_get hkey
  obtain ⟨hvlen, hvget⟩ := readSlice_get hvalue
  have hf' := hf.stored (writeHeadToken_stored hq)
  rw [writeHeadToken_scalar hf' hl (by omega : 1 < 2) hh ho hvlen hw hx,
    writeHeadToken_scalar hf hl (by omega : 0 < 2) hh ho hklen hq hx]
  by_cases hxs : x.layer = l ∧ x.head = h ∧ x.slot = o
  · obtain ⟨rfl, rfl, rfl⟩ := hxs
    cases hl.symm.trans hx.layer
    have hkind := hx.kind
    obtain h0 | h1 : x.kind = 0 ∨ x.kind = 1 := by omega
    · simp [LayerKv.scalar, h0, hkget x.dim hx.dim]
    · simp [LayerKv.scalar, h1, hvget x.dim hx.dim]
  · rw [if_neg hxs, if_neg fun hc => hxs ⟨hc.1, hc.2.2.1, hc.2.2.2⟩,
      if_neg fun hc => hxs ⟨hc.1, hc.2.2.1, hc.2.2.2⟩]

/-- The head loop sets the scalars of a layer. -/
theorem writeHeads_scalar (hf : Formed pageSize geoms p) {layer : LayerKv} (hl : geoms[l]? = some g)
    (ho : o < pageSize) (hw : (List.range g.numKvHeads).foldlM (writeHead codec pageSize l g layer o) p = .ok p')
    (hx : x.Valid pageSize geoms g') :
    scalarAt pageSize geoms g' p' x =
      if x.layer = l ∧ x.slot = o then layer.scalar g x else scalarAt pageSize geoms g' p x := by
  -- before turn `m` the heads below `m` are written
  have hinv := foldlM_range_inv (I := fun m q => Formed pageSize geoms q ∧ scalarAt pageSize geoms g' q x =
      if x.layer = l ∧ x.slot = o ∧ x.head < m then layer.scalar g x else scalarAt pageSize geoms g' p x)
    (fun m q q' hm hI hq => by
      refine ⟨hI.1.stored (writeHead_stored hq), ?_⟩
      rw [writeHead_scalar hI.1 hl hm ho hq hx, hI.2]
      by_cases hls : x.layer = l ∧ x.slot = o
      · by_cases hhead : x.head = m
        · rw [if_pos ⟨hls.1, hhead, hls.2⟩, if_pos ⟨hls.1, hls.2, by omega⟩]
        · rw [if_neg fun hc => hhead hc.2.1]
          by_cases hlt : x.head < m
          · rw [if_pos ⟨hls.1, hls.2, hlt⟩, if_pos ⟨hls.1, hls.2, by omega⟩]
          · rw [if_neg fun hc => hlt hc.2.2, if_neg fun hc => hlt (by omega)]
      · rw [if_neg fun hc => hls ⟨hc.1, hc.2.2⟩, if_neg fun hc => hls ⟨hc.1, hc.2.1⟩,
          if_neg fun hc => hls ⟨hc.1, hc.2.1⟩])
    ⟨hf, by simp⟩ hw
  rw [hinv.2]
  by_cases hls : x.layer = l ∧ x.slot = o
  · have hhead : x.head < g.numKvHeads := by
      obtain rfl := hls.1
      cases hl.symm.trans hx.layer
      exact hx.head
    rw [if_pos hls, if_pos ⟨hls.1, hls.2, hhead⟩]
  · rw [if_neg hls, if_neg fun hc => hls ⟨hc.1, hc.2.1⟩]

/-- The layer loop, from layer `i` on, sets the scalars of those layers. -/
theorem writeLayersFrom_scalar {row : List LayerKv} (hrow : row.length = geoms.length) (ho : o < pageSize)
    (hx : x.Valid pageSize geoms g) : ∀ (n i : ℕ), n + i = geoms.length → ∀ {p p' : Page},
    Formed pageSize geoms p → writeLayers codec pageSize o i (geoms.drop i) (row.drop i) p = .ok p' →
    scalarAt pageSize geoms g p' x =
      if i ≤ x.layer ∧ x.slot = o then rowScalar row g x else scalarAt pageSize geoms g p x
  | 0, i, hi, p, p', _, hw => by
    rw [drop_eq_nil_of_le (by omega)] at hw
    obtain rfl : p = p' := by simpa [writeLayers] using hw
    have hlt := (List.getElem?_eq_some_iff.mp hx.layer).1
    rw [if_neg (by omega)]
  | n + 1, i, hi, p, p', hf, hw => by
    have hgi : i < geoms.length := by omega
    have hri : i < row.length := by omega
    rw [drop_eq_getElem_cons hgi, drop_eq_getElem_cons hri] at hw
    obtain ⟨q, hq, hw⟩ := bind_eq_ok.mp hw
    have hget : geoms[i]? = some geoms[i] := getElem?_eq_getElem hgi
    have hfq : Formed pageSize geoms q :=
      hf.stored (foldlM_stays Stored.refl Stored.trans (fun _ _ _ => writeHead_stored) _ _ _ hq)
    rw [writeLayersFrom_scalar hrow ho hx n (i + 1) (by omega) hfq hw, writeHeads_scalar hf hget ho hq hx]
    by_cases hslot : x.slot = o
    · rcases lt_trichotomy x.layer i with hlt | heq | hgt
      · rw [if_neg (by omega), if_neg (by omega), if_neg (by omega)]
      · rw [if_neg (by omega), if_pos ⟨heq, hslot⟩, if_pos ⟨by omega, hslot⟩]
        have hg : geoms[i] = g := by
          have := hx.layer
          rw [heq, hget] at this
          exact Option.some.inj this
        unfold rowScalar
        rw [heq, getElem?_eq_getElem hri, hg]
        rfl
      · rw [if_pos ⟨by omega, hslot⟩, if_pos ⟨by omega, hslot⟩]
    · rw [if_neg (by omega), if_neg (by omega), if_neg (by omega)]

/-- **Writing a token** sets the scalars of its slot to those of its row, and no others. -/
theorem writeLayers_scalar (hf : Formed pageSize geoms p) {row : List LayerKv} (hrow : row.length = geoms.length)
    (ho : o < pageSize) (hw : writeLayers codec pageSize o 0 geoms row p = .ok p') (hx : x.Valid pageSize geoms g) :
    scalarAt pageSize geoms g p' x = if x.slot = o then rowScalar row g x else scalarAt pageSize geoms g p x := by
  have := writeLayersFrom_scalar hrow ho hx geoms.length 0 (by omega) hf
    (by rwa [drop_zero, drop_zero])
  simpa using this

end PagedKvCache

end OnnxGenai.Kv
