import OnnxGenai.Speculative.Tree

/-!
# Ancestor matrices

Row `q` of the attention mask of a tree marks node `q` and its ancestors. A proposer may send the
matrix instead of the parents: `fromAncestorMask` takes the last marked node before the diagonal
for the parent, builds the tree and compares its mask with the matrix. It accepts a matrix for a
tree exactly if it is the mask of that tree.
-/

namespace OnnxGenai.Speculative

open Lib List

/-- One entry of a matrix. -/
def maskAt (mask : List (List Bool)) (q k : ℕ) : Bool := (mask[q]?.bind (·[k]?)).getD false

/-- The tree attention mask: a node sees itself and its ancestors. -/
def ancestorAttentionMask (t : SpecTree) : List (List Bool) :=
  (List.range t.len).map fun q =>
    (t.ancestors q).foldl (fun row ancestor => row.set ancestor true) ((List.replicate t.len false).set q true)

namespace SpecTree

/-- The checks on one row: its length, the diagonal, and nothing after it. -/
def checkRow (n row : ℕ) (values : List Bool) : Except TreeError Unit := do
  ensure (values.length = n) (.maskColumns row values.length n)
  ensure (values[row]? = some true) (.maskSelf row)
  (values.zipIdx.drop (row + 1)).forM fun (value, column) => ensure (value = false) (.maskLater column row)

/-- The parent a row gives its node: the other marked nodes must be marked in the parent's row. -/
def maskParent (mask : List (List Bool)) (node : ℕ) : Except TreeError (Option ℕ) := do
  let ancestors := (List.range node).filter fun ancestor => maskAt mask node ancestor
  let parent := ancestors.getLast?
  ancestors.forM fun ancestor =>
    ensure (some ancestor = parent ∨ ∃ p ∈ parent, maskAt mask p ancestor) (.maskBranches node ancestor (parent.getD 0))
  return parent

/-- Build a tree from an ancestor matrix. -/
def fromAncestorMask (tokens : List TokenId) (mask : List (List Bool)) : Except TreeError SpecTree := do
  ensure (mask.length = tokens.length) (.maskRows mask.length tokens.length)
  mask.zipIdx.forM fun (values, row) => checkRow tokens.length row values
  let parents ← (List.range tokens.length).mapM (maskParent mask)
  let tree ← fromParentIndices tokens parents
  ensure (ancestorAttentionMask tree = mask) .maskMismatch
  return tree

/-! ### What the mask of a tree marks -/

variable {t : SpecTree} {q k : ℕ}

theorem getElem?_setAll (marks : List ℕ) (row : List Bool) (k : ℕ) :
    (marks.foldl (fun row a => row.set a true) row)[k]? = if k ∈ marks ∧ k < row.length then some true else row[k]? := by
  induction marks generalizing row with
  | nil => simp
  | cons a marks ih =>
    rw [foldl_cons, ih, length_set]
    by_cases hlen : k < row.length
    · by_cases hk : k ∈ marks
      · simp [hk, hlen]
      · by_cases ha : a = k
        · simp [ha, hlen]
        · simp [hk, ha, Ne.symm ha]
    · rw [if_neg fun h => hlen h.2, if_neg fun h => hlen h.2, getElem?_eq_none, getElem?_eq_none]
      · exact not_lt.mp hlen
      · rw [length_set]
        exact not_lt.mp hlen

theorem length_setAll (marks : List ℕ) (row : List Bool) :
    (marks.foldl (fun row a => row.set a true) row).length = row.length := by
  induction marks generalizing row with
  | nil => rfl
  | cons a marks ih => rw [foldl_cons, ih, length_set]

/-- A row of the mask. -/
theorem mask_row (hq : q < t.len) :
    ∃ row, (ancestorAttentionMask t)[q]? = some row ∧ row.length = t.len ∧
      ∀ k < t.len, row[k]? = some (decide (k ∈ t.path q)) := by
  refine ⟨_, by rw [ancestorAttentionMask, getElem?_map, getElem?_range hq]; rfl, ?_, ?_⟩
  · rw [length_setAll, length_set, length_replicate]
  · intro k hk
    rw [getElem?_setAll, length_set, length_replicate, getElem?_set, path]
    by_cases hanc : k ∈ t.ancestors q
    · simp [hanc, hk]
    · by_cases hqk : q = k
      · simp [hqk, hk]
      · simp [hanc, hqk, Ne.symm hqk, hk]

theorem maskAt_mask (hq : q < t.len) (hk : k < t.len) : maskAt (ancestorAttentionMask t) q k = decide (k ∈ t.path q) := by
  obtain ⟨row, hrow, -, hval⟩ := mask_row hq
  rw [maskAt, hrow, Option.bind_some, hval k hk, Option.getD_some]

theorem length_mask (t : SpecTree) : (ancestorAttentionMask t).length = t.len := by
  rw [ancestorAttentionMask, length_map, length_range]

/-! ### The mask of a tree is accepted -/

theorem checkRow_mask {row : ℕ} {values : List Bool} (h : (ancestorAttentionMask t)[row]? = some values) :
    checkRow t.len row values = .ok () := by
  have hrow : row < t.len := by
    rw [← length_mask t]
    exact (List.getElem?_eq_some_iff.mp h).1
  obtain ⟨values', hvalues', hlen, hval⟩ := mask_row hrow
  cases h.symm.trans hvalues'
  rw [checkRow, bind_eq_ok]
  refine ⟨(), ensure_eq_ok.mpr hlen, bind_eq_ok.mpr ⟨(), ensure_eq_ok.mpr ?_, forM_eq_ok.mpr ?_⟩⟩
  · rw [hval row hrow]
    simp [path]
  · rintro ⟨value, column⟩ hmem
    obtain ⟨i, hi⟩ := mem_iff_getElem?.mp hmem
    rw [getElem?_drop] at hi
    have hentry := mk_mem_zipIdx_iff_getElem?.mp (mem_of_getElem? hi)
    have hcol : column = row + 1 + i := by
      rw [getElem?_zipIdx] at hi
      obtain ⟨v, -, hv⟩ := Option.map_eq_some_iff.mp hi
      have := congrArg Prod.snd hv
      simpa using this.symm
    have hlt : column < t.len := by
      rw [← hlen]
      exact (List.getElem?_eq_some_iff.mp hentry).1
    rw [hval column hlt] at hentry
    rw [ensure_eq_ok, ← Option.some.inj hentry, decide_eq_false_iff_not]
    intro hpath
    have := (path_pairwise row).2 column hpath
    omega

/-- The marked nodes before the diagonal are the ancestors, in order. -/
theorem filter_mask (hq : q < t.len) :
    (List.range q).filter (fun a => maskAt (ancestorAttentionMask t) q a) = t.ancestors q := by
  have hsorted : (t.ancestors q).Pairwise (· < ·) := by
    have := (path_pairwise (t := t) q).1
    rw [path, pairwise_append] at this
    exact this.1
  have hrange : ((range q).filter fun a => maskAt (ancestorAttentionMask t) q a).Pairwise (· < ·) :=
    pairwise_lt_range.filter _
  apply List.Perm.eq_of_pairwise (fun a b _ _ hab hba => absurd hab (lt_asymm hba)) hrange hsorted
  · apply (perm_ext_iff_of_nodup (nodup_range.filter _) (hsorted.imp ne_of_lt)).mpr
    intro a
    rw [mem_filter, mem_range]
    constructor
    · rintro ⟨hlt, hmask⟩
      rw [maskAt_mask hq (hlt.trans hq), decide_eq_true_eq, path, mem_append, mem_singleton] at hmask
      exact hmask.resolve_right hlt.ne
    · intro ha
      have hlt := lt_of_mem_ancestors ha
      refine ⟨hlt, ?_⟩
      rw [maskAt_mask hq (hlt.trans hq), decide_eq_true_eq, path]
      exact mem_append_left _ ha

theorem maskParent_mask (hq : q < t.len) : maskParent (ancestorAttentionMask t) q = .ok (t.parentOf q) := by
  have hlast : (t.ancestors q).getLast? = t.parentOf q := by
    cases hp : t.parentOf q with
    | none => rw [ancestors_of_root hp, getLast?_nil]
    | some p => rw [ancestors_of_child hp, path, getLast?_concat]
  rw [maskParent]
  simp only [filter_mask hq, hlast]
  refine bind_eq_ok.mpr ⟨(), forM_eq_ok.mpr fun a ha => ensure_eq_ok.mpr ?_, rfl⟩
  cases hp : t.parentOf q with
  | none =>
    rw [ancestors_of_root hp] at ha
    cases ha
  | some p =>
    have hlt := (parentOf_lt hp).trans hq
    rw [ancestors_of_child hp] at ha
    refine .inr ⟨p, rfl, ?_⟩
    have ha_lt := (path_pairwise p).2 a ha
    rw [maskAt_mask hlt (ha_lt.trans_lt hlt), decide_eq_true_eq]
    exact ha

theorem length_tokens (t : SpecTree) : t.tokens.length = t.len := length_map _

/-- **A matrix is accepted for a tree exactly if it is the mask of that tree.** -/
theorem fromAncestorMask_eq_ok {tokens : List TokenId} {mask : List (List Bool)} :
    fromAncestorMask tokens mask = .ok t ↔ t.tokens = tokens ∧ ancestorAttentionMask t = mask := by
  constructor
  · intro h
    obtain ⟨-, -, h⟩ := bind_eq_ok.mp h
    obtain ⟨-, -, h⟩ := bind_eq_ok.mp h
    obtain ⟨parents, -, h⟩ := bind_eq_ok.mp h
    obtain ⟨tree, htree, h⟩ := bind_eq_ok.mp h
    obtain ⟨⟨⟩, hmask, h⟩ := bind_eq_ok.mp h
    cases h
    exact ⟨(fromParentIndices_eq_ok.mp htree).1, ensure_eq_ok.mp hmask⟩
  · rintro ⟨rfl, rfl⟩
    refine bind_eq_ok.mpr ⟨(), ensure_eq_ok.mpr ?_, bind_eq_ok.mpr ⟨(), forM_eq_ok.mpr ?_, bind_eq_ok.mpr ⟨t.parents, ?_,
      bind_eq_ok.mpr ⟨t, fromParentIndices_eq_ok.mpr ⟨rfl, rfl⟩, bind_eq_ok.mpr ⟨(), ensure_eq_ok.mpr rfl, rfl⟩⟩⟩⟩⟩
    · rw [length_mask, length_tokens]
    · rintro ⟨values, row⟩ hmem
      rw [length_tokens]
      exact checkRow_mask (mk_mem_zipIdx_iff_getElem?.mp hmem)
    · rw [mapM_eq_ok, forall₂_iff_get, length_tokens]
      refine ⟨by simp [parents, len], fun i hi hi' => ?_⟩
      rw [length_range] at hi
      rw [get_eq_getElem, getElem_range, maskParent_mask hi]
      simp only [parentOf, get_eq_getElem, parents, getElem_map, getElem?_eq_getElem (l := t.nodes) hi]
      rfl

end SpecTree

end OnnxGenai.Speculative
