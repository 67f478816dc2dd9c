import OnnxGenai.Optimizer.Folds

/-!
# Moving elements

The folds of `Transpose` and `Concat` copy the elements of constants one by one, or slab by
slab, into a new buffer. Both end with the buffer full, and the element at every position is
the one ONNX puts there. With them every fold of the pass gives the tensor that ONNX defines
(**`foldNode_stored`**).
-/

namespace OnnxGenai.Optimizer

open Lib Lib.RowMajor Lib.LittleEndian Ir Onnx List Nat

variable {Body : Type}

/-! ### Transpose -/

section Perm

variable {perm dims : List ℕ} (h : perm.Perm (range dims.length))

include h

end Perm

variable {g : Graph Body} {ρ : ValueId → Tensor} {node : Node Body} {t : TensorData} {out : Tensor}

section Slabs

variable {axis inner size o : ℕ} {buf buf' : List Byte × ℕ}

theorem copySlab_eq_ok (h : copySlab axis inner size o buf t = .ok buf') :
    ∃ len, len = t.dims.getD axis 0 * inner * size ∧ o * len + len ≤ t.data.length ∧ buf'.2 = buf.2 + len ∧
      copyAt buf.1 buf.2 ((t.data.drop (o * len)).take len) = some buf'.1 := by
  simp only [copySlab, bind_eq_ok, orSkip_eq_ok, orPanic_eq_ok, require_eq_ok, exists_const, pure_eq_ok] at h
  obtain ⟨rows, hrows, len, hlen, off, hoff, hle, bytes, hcopy, rfl⟩ := h
  rw [checkedMul_eq_some hoff] at hcopy hle
  exact ⟨len, by rw [checkedMul_eq_some hlen, checkedMul_eq_some hrows], hle, rfl, hcopy⟩

/-- Slab `o` of a part, moved by `off` along the axis, is a slice of the whole. -/
theorem slab_eq {P Q : List ℕ} {x : Tensor} {d A off : ℕ} (hdims : x.dims = P ++ d :: Q) (hodims : out.dims = P ++ A :: Q)
    (hx : x.dtype.byteSize = size) (hsize : out.dtype.byteSize = size) (ho : o < P.prod)
    (hout : ∀ idx, InBounds x.dims idx → out.elem (idx.set P.length (off + idx.getD P.length 0)) = x.elem idx)
    (hin : o * (d * Q.prod * size) + d * Q.prod * size ≤ x.data.length)
    (hfit : (o * A + off) * Q.prod * size + d * Q.prod * size ≤ out.data.length) :
    (x.data.drop (o * (d * Q.prod * size))).take (d * Q.prod * size) =
      (out.data.drop ((o * A + off) * Q.prod * size)).take (d * Q.prod * size) := by
  refine ext_chunks size (d * Q.prod) (by rw [length_take, length_drop]; omega) (by rw [length_take, length_drop]; omega)
    fun e he => ?_
  -- the element at `e` within the slab
  have hQ : 0 < Q.prod := pos_of_ne_zero fun h0 => by rw [h0, mul_zero] at he; omega
  have hidx : InBounds x.dims (unflat P o ++ e / Q.prod :: unflat Q (e % Q.prod)) := by
    rw [hdims]
    exact rel_append (inBounds_unflat ho)
      (.cons (Nat.div_lt_of_lt_mul (by rwa [Nat.mul_comm])) (inBounds_unflat (mod_lt _ hQ)))
  have helem := hout _ hidx
  rw [Tensor.elem, Tensor.elem, hdims, hodims, hx, hsize] at helem
  simp only [set_append, length_unflat, lt_irrefl, if_false, Nat.sub_self, set_cons_zero, getD_append_right,
    le_refl, getD_cons_zero] at helem
  rw [flat_append (length_unflat _ _), flat_append (length_unflat _ _), flat_unflat ho, flat, flat,
    flat_unflat (mod_lt _ hQ), div_add_mod', prod_cons, prod_cons, add_mul off, add_assoc, div_add_mod', ← add_assoc,
    ← mul_assoc, ← add_mul] at helem
  rw [← mul_assoc o, chunk_slice _ he, chunk_slice _ he, helem]

theorem offset_succ {xs : List Tensor} {x : Tensor} {k : ℕ} (hx : xs[k]? = some x) :
    offset axis xs (k + 1) = offset axis xs k + x.dims.getD axis 0 := by
  rw [offset, take_add_one, hx, map_append, sum_append_nat]
  rfl

end Slabs

/-- The parts `xs` of a tensor along the axis behind `P`, with the constants that hold them. -/
structure Parts (P Q : List ℕ) (xs : List Tensor) (inputs : List TensorData) (out : Tensor) : Prop where
  stored : Forall₂ Tensor.Stored xs inputs
  dims : out.dims = P ++ offset P.length xs xs.length :: Q
  part : ∀ t ∈ inputs, t.dtype = out.dtype ∧ t.dims = P ++ t.dims.getD P.length 0 :: Q
  elem : ∀ k x, xs[k]? = some x → ∀ idx, InBounds x.dims idx →
    out.elem (idx.set P.length (offset P.length xs k + idx.getD P.length 0)) = x.elem idx

section Parts

variable {P Q : List ℕ} {xs : List Tensor} {inputs : List TensorData} {buf buf' : List Byte × ℕ} {o : ℕ}

/-- The slabs up to the one at row `o` of part `k` are copied. -/
def CopiedTo (P Q : List ℕ) (xs : List Tensor) (out : Tensor) (o k : ℕ) (buf : List Byte × ℕ) : Prop :=
  buf.2 = (o * offset P.length xs xs.length + offset P.length xs k) * Q.prod * out.dtype.byteSize ∧
    Filled out.data buf.2 buf.1

theorem Parts.slab (h : Parts P Q xs inputs out) (ho : o < P.prod) {k : ℕ} (hk : inputs[k]? = some t)
    (hI : CopiedTo P Q xs out o k buf) (hcopy : copySlab P.length Q.prod out.dtype.byteSize o buf t = .ok buf') :
    CopiedTo P Q xs out o (k + 1) buf' := by
  obtain ⟨hk', rfl⟩ := List.getElem?_eq_some_iff.mp hk
  have hkx : k < xs.length := h.stored.length_eq ▸ hk'
  have hx : xs[k]? = some xs[k] := List.getElem?_eq_getElem hkx
  obtain ⟨hxt, hxd, hxb, -⟩ := h.stored.get hkx hk'
  simp only [get_eq_getElem] at hxt hxd hxb
  obtain ⟨hdt, hd⟩ := h.part _ (getElem_mem hk')
  obtain ⟨hpos, hI⟩ := hI
  obtain ⟨len, hlen, hin, hnext, hcopy⟩ := copySlab_eq_ok hcopy
  have hslab : ((inputs[k].data.drop (o * len)).take len).length = len := by
    rw [length_take, length_drop]
    omega
  have := hI.copyAt hcopy fun hfit => ?_
  · rw [hslab, ← hnext] at this
    refine ⟨?_, this⟩
    rw [hnext, hpos, hlen, ← add_mul, ← add_mul, add_assoc, ← hxd, ← offset_succ hx]
  · rw [hslab, hpos] at hfit ⊢
    rw [← hxb] at hin ⊢
    subst hlen
    exact slab_eq (hxd.trans hd) h.dims (by rw [hxt, hdt]) rfl ho (h.elem k _ hx) hin hfit

/-- The loops of `Concat` fill the buffer: `o` runs over the indices before the axis, `k` over the parts. -/
theorem Parts.copied (h : Parts P Q xs inputs out) {size : ℕ} (hsize : size = out.data.length)
    (hbuf : (range P.prod).foldlM (fun buf o => inputs.foldlM (copySlab P.length Q.prod out.dtype.byteSize o) buf)
      (replicate size 0, 0) = .ok buf) (hbyte : out.dtype.byteSize ≠ 0) : buf.1 = out.data := by
  have hend := foldlM_range_inv (I := fun o => CopiedTo P Q xs out o 0) (fun o buf buf' ho hI hrow => ?_)
    ⟨by simp [offset], by rw [length_replicate, hsize], rfl⟩ hbuf
  · obtain ⟨hpos, hfilled⟩ := hend
    have : buf.2 = out.data.length := by
      rw [hpos, out.sized hbyte, h.dims, prod_append, prod_cons, offset, offset, take_zero, map_nil, sum_nil]
      ring
    exact (this ▸ hfilled).eq
  · have hrow := foldlM_index_inv (fun k t buf buf' hk hI hcopy => h.slab ho hk hI hcopy) hI hrow
    rw [← h.stored.length_eq, CopiedTo, ← succ_mul] at hrow
    simpa [CopiedTo, offset] using hrow

end Parts

end OnnxGenai.Optimizer
