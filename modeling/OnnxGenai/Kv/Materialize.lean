import OnnxGenai.Kv.Cells

/-!
# Reading a sequence

`materializeSequenceTo` copies the rows of a sequence, token by token, layer by layer,
head by head and scalar by scalar, into buffers indexed by head, token and dimension.
When every scalar of the pages it reads can be read, it returns (`materializeToken_ok`); when
they are `f32` pages, each scalar of its result is the scalar of the page slot that backs its
token (`materializeTokens_ok`). `headTokenRow` reads the same scalars of one head
(`headTokenF32_ok`).
-/

namespace OnnxGenai.Kv

open Lib List Nat

variable {pageSize n : ℕ} {geoms : List LayerTensorConfig} {codec : Page.QuantCodec}

/-- The scalar a page has at a place, if it can be read. -/
def Page.scalar? (codec : Page.QuantCodec) (pageSize : ℕ) (g : LayerTensorConfig) (page : Page) (x : Scalar) : Option F32 :=
  (page.valueAtSlot codec pageSize g.headDim (x.layer * 2 + x.kind) x.head x.slot x.dim).toOption

/-- Every scalar of the page can be read. -/
def Page.Reads (codec : Page.QuantCodec) (pageSize : ℕ) (geoms : List LayerTensorConfig) (page : Page) : Prop :=
  ∀ (x : Scalar) (g : LayerTensorConfig), x.Valid pageSize geoms g →
    ∃ v, page.valueAtSlot codec pageSize g.headDim (x.layer * 2 + x.kind) x.head x.slot x.dim = .ok v

theorem Formed.reads {page : Page} (hf : Formed pageSize geoms page) (codec : Page.QuantCodec) :
    page.Reads codec pageSize geoms := by
  intro x g hx
  obtain ⟨v, hv⟩ := hf.scalarAt hx
  exact ⟨v, hf.valueAtSlot codec hx hv⟩

theorem Formed.scalar?_eq {page : Page} (hf : Formed pageSize geoms page) {x : Scalar} {g : LayerTensorConfig}
    (hx : x.Valid pageSize geoms g) : page.scalar? codec pageSize g x = Kv.scalarAt pageSize geoms g page x := by
  obtain ⟨v, hv⟩ := hf.scalarAt hx
  rw [Page.scalar?, hf.valueAtSlot codec hx hv, hv]
  rfl

/-- The scalar of a materialized layer of `n` tokens; the slot of `x` is the token. -/
def MaterializedLayerKv.scalar (out : MaterializedLayerKv) (n : ℕ) (x : Scalar) : Option F32 :=
  (if x.kind = 0 then out.key else out.value)[(x.head * n + x.slot) * out.headDim + x.dim]?

/-- The buffers of a materialized layer have their sizes. -/
structure MaterializedLayerKv.Sized (out : MaterializedLayerKv) (g : LayerTensorConfig) (n : ℕ) : Prop where
  numKvHeads : out.numKvHeads = g.numKvHeads
  headDim : out.headDim = g.headDim
  key : out.key.length = g.numKvHeads * n * g.headDim
  value : out.value.length = g.numKvHeads * n * g.headDim

/-- The scalars of a materialized layer of `n` tokens. -/
structure Scalar.InRange (x : Scalar) (g : LayerTensorConfig) (n : ℕ) : Prop where
  kind : x.kind < 2
  head : x.head < g.numKvHeads
  slot : x.slot < n
  dim : x.dim < g.headDim

/-- The place of a scalar in a buffer of `n` tokens. -/
def Scalar.place (x : Scalar) (g : LayerTensorConfig) (n : ℕ) : ℕ := (x.head * n + x.slot) * g.headDim + x.dim

theorem Scalar.place_injective {x y : Scalar} {g : LayerTensorConfig} (hx : x.InRange g n) (hy : y.InRange g n)
    (h : x.place g n = y.place g n) : x.head = y.head ∧ x.slot = y.slot ∧ x.dim = y.dim := by
  obtain ⟨hrow, hdim⟩ := digits_unique hx.dim hy.dim h
  obtain ⟨hhead, hslot⟩ := digits_unique hx.slot hy.slot hrow
  exact ⟨hhead, hslot, hdim⟩

namespace PagedKvCache

theorem storeAt_ok {α : Type} {xs : List α} {i : ℕ} (h : i < xs.length) (a : α) :
    storeAt xs i a = .ok (xs.set i a) := if_pos h

/-- The scalars that a page has for token `i` of layer `l`. -/
def tokenScalar (codec : Page.QuantCodec) (pageSize : ℕ) (g : LayerTensorConfig) (page : Page) (l i : ℕ) (x : Scalar) :
    Option F32 :=
  page.scalar? codec pageSize g { x with layer := l, slot := i % pageSize }

/-- The scalars at the places `P` are those of `f`, the others as before. -/
structure Copies (f : Scalar → Option F32) (g : LayerTensorConfig) (n : ℕ) (P : Scalar → Prop)
    (out out' : MaterializedLayerKv) : Prop where
  sized : out'.Sized g n
  copied : ∀ x : Scalar, x.InRange g n → P x → out'.scalar n x = f x
  kept : ∀ x : Scalar, x.InRange g n → ¬ P x → out'.scalar n x = out.scalar n x

variable {page : Page} {out out₁ out₂ : MaterializedLayerKv} {g : LayerTensorConfig} {l i h d : ℕ}
  {f : Scalar → Option F32} {P Q R : Scalar → Prop}

theorem copies_none (hs : out.Sized g n) (hP : ∀ x, ¬ P x) : Copies f g n P out out :=
  ⟨hs, fun x _ hp => absurd hp (hP x), fun _ _ _ => rfl⟩

/-- Copying `P`, then `Q`. -/
theorem Copies.then (h : Copies f g n P out out₁) (h' : Copies f g n Q out₁ out₂)
    (hR : ∀ x : Scalar, x.InRange g n → (R x ↔ P x ∨ Q x)) : Copies f g n R out out₂ where
  sized := h'.sized
  copied := by
    intro x hx hr
    by_cases hq : Q x
    · exact h'.copied x hx hq
    · rw [h'.kept x hx hq]
      exact h.copied x hx (((hR x hx).mp hr).resolve_right hq)
  kept := by
    intro x hx hr
    rw [hR x hx, not_or] at hr
    rw [h'.kept x hx hr.2, h.kept x hx hr.1]

section

variable (hs : out.Sized g n) (hr : page.Reads codec pageSize geoms) (hl : geoms[l]? = some g) (hps : 0 < pageSize)
  (hi : i < n)

include hs hr hl hps hi

/-- One turn of the innermost loop sets the key and the value scalar of its place. -/
theorem materializeScalar_ok (hh : h < g.numKvHeads) (hd : d < g.headDim) :
    ∃ out', materializeScalar codec page pageSize n i l h out d = .ok out' ∧
      Copies (tokenScalar codec pageSize g page l i) g n (fun x => x.slot = i ∧ x.head = h ∧ x.dim = d) out out' := by
  have hmod : i % pageSize < pageSize := mod_lt i hps
  obtain ⟨kv, hk⟩ := hr ⟨l, 0, h, i % pageSize, d⟩ g ⟨hl, zero_lt_two, hh, hmod, hd⟩
  obtain ⟨vv, hv⟩ := hr ⟨l, 1, h, i % pageSize, d⟩ g ⟨hl, one_lt_two, hh, hmod, hd⟩
  have hlt : (h * n + i) * g.headDim + d < g.numKvHeads * n * g.headDim := digits_lt (digits_lt hh hi) hd
  refine ⟨{ out with
    key := out.key.set ((h * n + i) * g.headDim + d) kv
    value := out.value.set ((h * n + i) * g.headDim + d) vv }, ?_, ?_, fun x hx hxs => ?_, fun x hx hxs => ?_⟩
  · unfold materializeScalar
    simp only [hs.headDim]
    refine bind_eq_ok.mpr ⟨kv, hk, bind_eq_ok.mpr ⟨_, storeAt_ok (by rw [hs.key]; exact hlt) kv, ?_⟩⟩
    refine bind_eq_ok.mpr ⟨vv, hv, bind_eq_ok.mpr ⟨_, storeAt_ok (by rw [hs.value]; exact hlt) vv, ?_⟩⟩
    rfl
  · exact ⟨hs.numKvHeads, hs.headDim, by rw [length_set, hs.key], by rw [length_set, hs.value]⟩
  · have hkind := hx.kind
    obtain ⟨l', kind, head, slot, dim⟩ := x
    obtain ⟨rfl, rfl, rfl⟩ : slot = i ∧ head = h ∧ dim = d := hxs
    simp only [MaterializedLayerKv.scalar, hs.headDim, tokenScalar, Page.scalar?]
    obtain rfl | rfl : kind = 0 ∨ kind = 1 := by
      dsimp only at hkind
      omega
    · rw [if_pos rfl, hk]
      exact getElem?_set_self (by rw [hs.key]; exact hlt)
    · rw [if_neg one_ne_zero, hv]
      exact getElem?_set_self (by rw [hs.value]; exact hlt)
  · have hne : (h * n + i) * g.headDim + d ≠ (x.head * n + x.slot) * g.headDim + x.dim := by
      intro hc
      obtain ⟨h₁, h₂, h₃⟩ := Scalar.place_injective
        (⟨hx.kind, hh, hi, hd⟩ : Scalar.InRange ⟨l, x.kind, h, i, d⟩ g n) hx hc
      exact hxs ⟨h₂.symm, h₁.symm, h₃.symm⟩
    simp only [MaterializedLayerKv.scalar, hs.headDim]
    split
    · rw [getElem?_set_ne hne]
    · rw [getElem?_set_ne hne]

/-- The loops over heads and dimensions set the scalars of their token. -/
theorem materializeLayer_ok :
    ∃ out', materializeLayer codec page pageSize n i l out = .ok out' ∧
      Copies (tokenScalar codec pageSize g page l i) g n (fun x => x.slot = i) out out' := by
  -- before dimension `m` of head `h`, its dimensions below `m` are set
  have hdims : ∀ h out₀, h < g.numKvHeads → MaterializedLayerKv.Sized out₀ g n →
      ∃ out', (range g.headDim).foldlM (materializeScalar codec page pageSize n i l h) out₀ = .ok out' ∧
        Copies (tokenScalar codec pageSize g page l i) g n
          (fun x => x.slot = i ∧ x.head = h ∧ x.dim < g.headDim) out₀ out' := by
    intro h out₀ hh hs₀
    refine foldlM_range_ok (I := fun (m : ℕ) out' => Copies (tokenScalar codec pageSize g page l i) g n
      (fun x => x.slot = i ∧ x.head = h ∧ x.dim < m) out₀ out') (fun m q hm hI => ?_) (copies_none hs₀ (by simp))
    obtain ⟨q', hq', hcopies⟩ := materializeScalar_ok hI.sized hr hl hps hi hh hm
    refine ⟨q', hq', hI.then hcopies fun x _ => ?_⟩
    omega
  unfold materializeLayer
  rw [hs.numKvHeads]
  obtain ⟨out', hout', hcopies⟩ := foldlM_range_ok (n := g.numKvHeads)
    (f := fun (out : MaterializedLayerKv) head => (range out.headDim).foldlM (materializeScalar codec page pageSize n i l head) out)
    (I := fun (m : ℕ) out' => Copies (tokenScalar codec pageSize g page l i) g n
      (fun x => x.slot = i ∧ x.head < m) out out')
    (fun m q hm hI => by
      obtain ⟨q', hq', hcopies⟩ := hdims m q hm hI.sized
      refine ⟨q', by rw [hI.sized.headDim]; exact hq', hI.then hcopies fun x hx => ?_⟩
      have hdim := hx.dim
      omega)
    (copies_none hs (by simp))
  refine ⟨out', hout', (copies_none hs fun _ => not_false).then hcopies fun x hx => ?_⟩
  simp [hx.head]

end

/-- The layer loop materializes each layer. -/
theorem materializeLayers_eq :
    ∀ {outs : List MaterializedLayerKv} {j : ℕ},
      (∀ k out, outs[k]? = some out → ∃ out', materializeLayer codec page pageSize n i (j + k) out = .ok out') →
      ∃ outs', materializeLayers codec page pageSize n i j outs = .ok outs' ∧ outs'.length = outs.length ∧
        ∀ k out, outs[k]? = some out → ∃ out', outs'[k]? = some out' ∧
          materializeLayer codec page pageSize n i (j + k) out = .ok out'
  | [], j, _ => ⟨[], rfl, rfl, fun k out h => by simp at h⟩
  | out :: outs, j, h => by
    obtain ⟨out', hout'⟩ := h 0 out rfl
    have htail : ∀ k o, outs[k]? = some o →
        ∃ out', materializeLayer codec page pageSize n i (j + 1 + k) o = .ok out' := by
      intro k o hk
      rw [show j + 1 + k = j + (k + 1) by omega]
      exact h (k + 1) o (by simpa using hk)
    obtain ⟨outs', hrest, hlen, hget⟩ := materializeLayers_eq htail
    refine ⟨out' :: outs', ?_, by simp [hlen], fun k o hk => ?_⟩
    · exact bind_eq_ok.mpr ⟨out', hout', bind_eq_ok.mpr ⟨outs', hrest, rfl⟩⟩
    · cases k with
      | zero =>
        obtain rfl : out = o := by simpa using hk
        exact ⟨out', rfl, hout'⟩
      | succ k =>
        obtain ⟨o', ho', hm⟩ := hget k o (by simpa using hk)
        refine ⟨o', by simpa using ho', ?_⟩
        rwa [show j + (k + 1) = j + 1 + k by omega]

/-- The slots of a page buffer below `len`: slot `i` is backed by a well-formed page, and
its scalars are those of `rows i`. -/
def Backs (t : PageTable) (pages : List PageId) (len : ℕ) (rows : ℕ → List LayerKv) : Prop :=
  ∀ i, i < len → ∃ id page, pages[i / t.pageSize]? = some id ∧ t.pages.lookup id = some page ∧
    Formed t.pageSize t.layerConfigs page ∧
    ∀ (x : Scalar) (g : LayerTensorConfig), x.Valid t.pageSize t.layerConfigs g → x.slot = i % t.pageSize →
      scalarAt t.pageSize t.layerConfigs g page x = rowScalar (rows i) g x

/-- The materialized layers hold the rows of the tokens below `m`. -/
def HoldsTokens (geoms : List LayerTensorConfig) (n : ℕ) (rows : ℕ → List LayerKv) (m : ℕ)
    (outs : List MaterializedLayerKv) : Prop :=
  outs.length = geoms.length ∧ ∀ l g, geoms[l]? = some g → ∃ out, outs[l]? = some out ∧ out.Sized g n ∧
    ∀ x : Scalar, x.layer = l → x.InRange g n → x.slot < m → out.scalar n x = rowScalar (rows x.slot) g x

theorem holdsTokens_zero (geoms : List LayerTensorConfig) (n : ℕ) (rows : ℕ → List LayerKv) :
    HoldsTokens geoms n rows 0 (zeroLayers geoms n) := by
  refine ⟨by simp [zeroLayers], fun l g hg => ?_⟩
  refine ⟨_, by rw [zeroLayers, getElem?_map, hg]; rfl, ⟨rfl, rfl, ?_, ?_⟩, fun x _ _ hx => ?_⟩
  · simp
  · simp
  · exact absurd hx (not_lt_zero _)

variable {t : PageTable} {pages : List PageId}

/-- The materialized layers have their sizes. -/
def AllSized (geoms : List LayerTensorConfig) (n : ℕ) (outs : List MaterializedLayerKv) : Prop :=
  outs.length = geoms.length ∧ ∀ (l : ℕ) g, geoms[l]? = some g → ∃ out, outs[l]? = some out ∧ out.Sized g n

theorem HoldsTokens.allSized {rows : ℕ → List LayerKv} {m : ℕ} {outs : List MaterializedLayerKv}
    (h : HoldsTokens geoms n rows m outs) : AllSized geoms n outs := by
  refine ⟨h.1, fun l g hg => ?_⟩
  obtain ⟨out, hout, hs, -⟩ := h.2 l g hg
  exact ⟨out, hout, hs⟩

/-- **One turn of the token loop** returns, with the scalars of its token set. -/
theorem materializeToken_ok {outs : List MaterializedLayerKv} {id : PageId}
    (hps : t.pageSize ≠ 0) (hi : i < n) (hid : pages[i / t.pageSize]? = some id) (hpage : t.pages.lookup id = some page)
    (hr : page.Reads codec t.pageSize t.layerConfigs) (hs : AllSized t.layerConfigs n outs) :
    ∃ outs', materializeToken codec t pages n outs i = .ok outs' ∧ outs'.length = t.layerConfigs.length ∧
      ∀ l g out, t.layerConfigs[l]? = some g → outs[l]? = some out → ∃ out', outs'[l]? = some out' ∧
        Copies (tokenScalar codec t.pageSize g page l i) g n (fun x => x.slot = i) out out' := by
  have hpos := pos_of_ne_zero hps
  obtain ⟨hlen, hget⟩ := hs
  have hsized : ∀ (l : ℕ) g (out : MaterializedLayerKv), t.layerConfigs[l]? = some g → outs[l]? = some out →
      out.Sized g n := by
    intro l g out hg hout
    obtain ⟨out₁, hout₁, hs⟩ := hget l g hg
    cases hout.symm.trans hout₁
    exact hs
  have hlayers : ∀ k out, outs[k]? = some out →
      ∃ out', materializeLayer codec page t.pageSize n i (0 + k) out = .ok out' := by
    intro k out hk
    have hlt := (List.getElem?_eq_some_iff.mp hk).1
    have hg := getElem?_eq_getElem (show k < t.layerConfigs.length by omega)
    obtain ⟨out', hout', -⟩ := materializeLayer_ok (hsized k _ out hg hk) hr hg hpos hi
    rw [zero_add]
    exact ⟨out', hout'⟩
  obtain ⟨outs', houts', hlen', hget'⟩ := materializeLayers_eq hlayers
  refine ⟨outs', ?_, by rw [hlen', hlen], fun l g out hg hout => ?_⟩
  · unfold materializeToken
    rw [if_neg hps]
    refine bind_eq_ok.mpr ⟨id, readAt_ok hid, ?_⟩
    rw [hpage]
    exact houts'
  · obtain ⟨out', hout', hmat⟩ := hget' l out hout
    obtain ⟨out₂, hout₂, hcopies⟩ := materializeLayer_ok (hsized l g out hg hout) hr hg hpos hi
    rw [zero_add, hout₂] at hmat
    cases hmat
    exact ⟨out', hout', hcopies⟩

/-- **The token loop** returns, with the rows of all tokens. -/
theorem materializeTokens_ok (codec : Page.QuantCodec) {len : ℕ} {rows : ℕ → List LayerKv} (hps : t.pageSize ≠ 0)
    (hb : Backs t pages len rows) :
    ∃ outs, (List.range len).foldlM (materializeToken codec t pages len) (zeroLayers t.layerConfigs len) = .ok outs ∧
      HoldsTokens t.layerConfigs len rows len outs := by
  refine foldlM_range_ok (fun i outs hi hI => ?_) (holdsTokens_zero t.layerConfigs len rows)
  obtain ⟨id, page, hid, hpage, hf, hrow⟩ := hb i hi
  obtain ⟨outs', houts', hlen', hget'⟩ := materializeToken_ok hps hi hid hpage (hf.reads codec) hI.allSized
  refine ⟨outs', houts', hlen', fun l g hg => ?_⟩
  obtain ⟨out, hout, -, hold⟩ := hI.2 l g hg
  obtain ⟨out₂, hout₂, hcopies⟩ := hget' l g out hg hout
  refine ⟨out₂, hout₂, hcopies.sized, fun x hxl hx hlt => ?_⟩
  by_cases hslot : x.slot = i
  · have hvalid : ({ x with layer := l, slot := i % t.pageSize } : Scalar).Valid t.pageSize t.layerConfigs g :=
      ⟨hg, hx.kind, hx.head, mod_lt i (pos_of_ne_zero hps), hx.dim⟩
    rw [hcopies.copied x hx hslot, hslot, tokenScalar, hf.scalar?_eq hvalid, hrow _ g hvalid rfl, ← hxl]
    rfl
  · rw [hcopies.kept x hx hslot]
    exact hold x hxl hx (by omega)

/-- Borrowing the row of one head and token slot. -/
theorem headTokenF32_ok {p : Page} (hf : Formed pageSize geoms p) {l k h o : ℕ} {g : LayerTensorConfig}
    (hl : geoms[l]? = some g) (hk : k < 2) (hh : h < g.numKvHeads) (ho : o < pageSize) :
    ∃ vs, p.headTokenF32 pageSize g.headDim (l * 2 + k) h o = .ok (some vs) ∧ vs.length = g.headDim ∧
      ∀ d, d < g.headDim → vs[d]? = scalarAt pageSize geoms g p ⟨l, k, h, o, d⟩ := by
  obtain ⟨s, hs, hd, hoff⟩ := hf.component hl hk
  -- the row ends where its component ends, or before
  have hend : s.dataOffset + (h * (pageSize * g.headDim) + o * g.headDim) + g.headDim ≤ p.store.data.length := by
    have hrow : (o + 1) * g.headDim ≤ pageSize * g.headDim := mul_le_mul_right _ ho
    have hhead : (h + 1) * (pageSize * g.headDim) ≤ g.numKvHeads * (pageSize * g.headDim) :=
      mul_le_mul_right _ hh
    have hkind : (k + 1) * g.componentLen pageSize ≤ 2 * g.componentLen pageSize := mul_le_mul_right _ hk
    have hbase : layerBase pageSize geoms (l + 1) = layerBase pageSize geoms l + 2 * g.componentLen pageSize :=
      layerBase_succ hl
    have hlen : l + 1 ≤ geoms.length := (List.getElem?_eq_some_iff.mp hl).1
    have htotal : layerBase pageSize geoms (l + 1) ≤ layerBase pageSize geoms geoms.length := layerBase_mono hlen
    have hcomp : g.componentLen pageSize = g.numKvHeads * (pageSize * g.headDim) := by
      unfold LayerTensorConfig.componentLen
      rw [mul_assoc]
    rw [hf.length, hoff]
    rw [succ_mul] at hrow hhead hkind
    omega
  have hread : Page.readSlice p.store.data (s.dataOffset + (h * (pageSize * g.headDim) + o * g.headDim)) g.headDim =
      .ok ((p.store.data.drop (s.dataOffset + (h * (pageSize * g.headDim) + o * g.headDim))).take g.headDim) :=
    if_pos hend
  obtain ⟨hlen, hget⟩ := readSlice_get hread
  refine ⟨_, ?_, hlen, fun d hd' => ?_⟩
  · refine bind_eq_ok.mpr ⟨s, readAt_ok hs, ?_⟩
    rw [if_neg (by rw [hd]; exact fun hc => hc rfl)]
    exact bind_eq_ok.mpr ⟨_, hread, rfl⟩
  · rw [hget d hd', hoff]
    unfold scalarAt Scalar.cell Scalar.within
    congr 1
    simp only
    omega

end PagedKvCache

end OnnxGenai.Kv
