import OnnxGenai.Kv.Connector
import OnnxGenai.Lib.Reader
import OnnxGenai.Ir.Tensor

/-!
# The file of a spilled payload

`DiskKvBackingStore` (`backing_store.rs`) writes a payload as a header of four dimensions and the bits
of all values, without their number. Reading computes the number from the header with checked
products. In `is_well_formed` they wrap around, so a payload whose dimensions overflow may be written,
and its file is rejected (`overflowing_dimensions`). Apart from that the files that are read are those
that are written (`spill_roundtrip`).
-/

namespace OnnxGenai.Kv

open Lib Lib.LittleEndian List Ir

/-- The dimensions are `usize`. -/
def KvPayload.Fits (p : KvPayload) : Prop :=
  p.numTokens < usizeSize ∧ p.numLayers < usizeSize ∧ p.numKvHeads < usizeSize ∧ p.headDim < usizeSize

/-- The products that give the number of values of a tensor are `usize`. -/
def KvPayload.Countable (p : KvPayload) : Prop :=
  p.numKvHeads * p.numTokens < usizeSize ∧ p.numKvHeads * p.numTokens * p.headDim < usizeSize

namespace DiskKvBackingStore

/-- `OGKV0001`. -/
def magic : List Byte := [0x4F, 0x47, 0x4B, 0x56, 0x30, 0x30, 0x30, 0x31]

def layerBytes (layer : KvLayerPayload) : List Byte := layer.key.flatMap bytes ++ layer.value.flatMap bytes

/-- The contents of the file of a payload. -/
def fileBytes (p : KvPayload) : List Byte :=
  magic ++ (toLe 8 p.numTokens ++ (toLe 8 p.numLayers ++ (toLe 8 p.numKvHeads ++ (toLe 8 p.headDim ++
    ([0] ++ p.layers.flatMap layerBytes)))))

/-- Write a payload: the contents of its file. -/
def write (p : KvPayload) : Except String (List Byte) :=
  if p.isWellFormed then .ok (fileBytes p) else .error "refusing to spill malformed KV payload"

/-- What `read_exact` reports at the end of a file. -/
def eof : String := "failed to fill whole buffer"

def readUsize : Reader String ℕ := Reader.nat 8 eof

def readValues (valuesPerTensor : ℕ) : Reader String (List F32) := (Reader.bits 32 eof).many valuesPerTensor

def readLayer (valuesPerTensor : ℕ) : Reader String KvLayerPayload := do
  let key ← readValues valuesPerTensor
  let value ← readValues valuesPerTensor
  pure ⟨key, value⟩

/-- The number of values of a tensor, if it is a `usize`. -/
def valuesPerTensor (numKvHeads numTokens headDim : ℕ) : Option ℕ :=
  (checkedMul numKvHeads numTokens).bind fun value => checkedMul value headDim

def readPayload : Reader String KvPayload := do
  let header ← Reader.exact 8 eof
  Reader.require (header = magic) "invalid KV spill file header"
  let numTokens ← readUsize
  let numLayers ← readUsize
  let numKvHeads ← readUsize
  let headDim ← readUsize
  let dtype ← Reader.exact 1 eof
  Reader.require (dtype = [0]) "unsupported KV spill dtype"
  match valuesPerTensor numKvHeads numTokens headDim with
  | none => throw "KV spill dimensions overflow"
  | some values =>
    let layers ← (readLayer values).many numLayers
    Reader.atEnd "KV spill file has trailing bytes"
    pure ⟨numTokens, numLayers, numKvHeads, headDim, layers⟩

/-- Read a file. -/
def read (file : List Byte) : Except String KvPayload := (readPayload.run file).map Prod.fst

/-! ### Reading what was written -/

theorem decodes_values (n : ℕ) :
    Decodes (readValues n) (fun values => values.length = n ∧ ∀ v ∈ values, True) fun values => values.flatMap bytes :=
  (decodes_bits (by decide) eof).many n

theorem decodes_layer (n : ℕ) : Decodes (readLayer n) (fun l => l.key.length = n ∧ l.value.length = n) layerBytes := by
  intro bs l rest
  simp only [readLayer, (decodes_values n).bind_eq_ok, Reader.pure_eq_ok]
  constructor
  · rintro ⟨key, _, ⟨hkey, -⟩, rfl, value, _, ⟨hvalue, -⟩, rfl, rfl, rfl⟩
    exact ⟨⟨hkey, hvalue⟩, (append_assoc ..).symm⟩
  · rintro ⟨⟨hkey, hvalue⟩, rfl⟩
    exact ⟨l.key, _, ⟨hkey, fun _ _ => trivial⟩, append_assoc .., l.value, _, ⟨hvalue, fun _ _ => trivial⟩, rfl, rfl, rfl⟩

theorem valuesPerTensor_eq_some {p : KvPayload} {n : ℕ} :
    valuesPerTensor p.numKvHeads p.numTokens p.headDim = some n ↔ p.Countable ∧ n = p.elementsPerLayer := by
  simp only [valuesPerTensor, checkedMul, KvPayload.Countable, KvPayload.elementsPerLayer]
  grind [usizeSize, Nat.mod_eq_of_lt]

theorem isWellFormed_iff {p : KvPayload} : p.isWellFormed = true ↔ p.layers.length = p.numLayers ∧
    ∀ l ∈ p.layers, l.key.length = p.elementsPerLayer ∧ l.value.length = p.elementsPerLayer := by
  simp [KvPayload.isWellFormed]

theorem read_eq_ok {file : List Byte} {p : KvPayload} :
    read file = .ok p ↔ p.Fits ∧ p.Countable ∧ p.isWellFormed = true ∧ file = fileBytes p := by
  have hread : read file = .ok p ↔ ∃ rest, readPayload.run file = .ok (p, rest) := by
    unfold read
    cases readPayload.run file with
    | error e => simp [Except.map]
    | ok r => simp [Except.map, Prod.ext_iff]
  rw [hread]
  simp only [readPayload, (decodes_exact 8 eof).bind_eq_ok, (decodes_exact 1 eof).bind_eq_ok, Reader.require_bind,
    readUsize, (decodes_nat 8 eof).bind_eq_ok]
  constructor
  · rintro ⟨rest, _, _, -, rfl, rfl, tokens, _, htokens, rfl, layers, _, hlayers, rfl, heads, _, hheads, rfl, dim, _,
      hdim, rfl, _, _, -, rfl, rfl, h⟩
    split at h
    · cases h
    · next n hn =>
      rw [((decodes_layer n).many layers).bind_eq_ok] at h
      simp only [Reader.atEnd_bind, Reader.pure_eq_ok] at h
      obtain ⟨ls, _, ⟨hlength, hall⟩, rfl, rfl, rfl, rfl⟩ := h
      obtain ⟨hcount, rfl⟩ := valuesPerTensor_eq_some (p := ⟨tokens, layers, heads, dim, ls⟩) |>.mp hn
      exact ⟨⟨htokens, hlayers, hheads, hdim⟩, hcount, isWellFormed_iff.mpr ⟨hlength, hall⟩, by simp [fileBytes]⟩
  · rintro ⟨⟨htokens, hlayers, hheads, hdim⟩, hcount, hwf, rfl⟩
    refine ⟨[], magic, _, rfl, rfl, rfl, _, _, htokens, rfl, _, _, hlayers, rfl, _, _, hheads, rfl, _, _, hdim, rfl,
      [0], _, rfl, rfl, rfl, ?_⟩
    simp only [valuesPerTensor_eq_some.mpr ⟨hcount, rfl⟩]
    rw [((decodes_layer _).many _).bind_eq_ok]
    simp only [Reader.atEnd_bind, Reader.pure_eq_ok]
    exact ⟨p.layers, [], isWellFormed_iff.mp hwf, (append_nil _).symm, by simp⟩

theorem write_of_wellFormed {p : KvPayload} (hwf : p.isWellFormed = true) : write p = .ok (fileBytes p) := if_pos hwf

/-- **The format round-trips**, exactly for the payloads whose products do not overflow; and the files that are
read are those of well-formed payloads, as they are written. -/
theorem spill_roundtrip (p : KvPayload) (file : List Byte) :
    (p.Fits → p.isWellFormed = true → ((write p).bind read = .ok p ↔ p.Countable)) ∧
      (read file = .ok p → p.isWellFormed = true ∧ write p = .ok file) := by
  refine ⟨fun hfits hwf => ?_, fun h => ?_⟩
  · rw [write_of_wellFormed hwf, Except.bind, read_eq_ok]
    exact ⟨fun h => h.2.1, fun h => ⟨hfits, h, hwf, rfl⟩⟩
  · obtain ⟨-, -, hwf, rfl⟩ := read_eq_ok.mp h
    exact ⟨hwf, write_of_wellFormed hwf⟩

/-- One layer of one value. -/
theorem spill_one_value :
    (write ⟨1, 1, 1, 1, [⟨[0x3F800000], [0]⟩]⟩).bind read = .ok ⟨1, 1, 1, 1, [⟨[0x3F800000], [0]⟩]⟩ :=
  ((spill_roundtrip _ []).1 (by simp [KvPayload.Fits, usizeSize]) rfl).mpr
    (by simp [KvPayload.Countable, usizeSize])

/-- A payload with no layers whose dimensions overflow is written, and its file is rejected. -/
theorem overflowing_dimensions : ∃ p : KvPayload, p.Fits ∧ p.isWellFormed = true ∧
    write p = .ok (fileBytes p) ∧ read (fileBytes p) ≠ .ok p := by
  refine ⟨⟨2 ^ 32, 0, 2 ^ 32, 1, []⟩, by simp [KvPayload.Fits, usizeSize], rfl, write_of_wellFormed rfl, fun h => ?_⟩
  have hlt := (read_eq_ok.mp h).2.1.1
  simp [usizeSize] at hlt

end DiskKvBackingStore

end OnnxGenai.Kv
