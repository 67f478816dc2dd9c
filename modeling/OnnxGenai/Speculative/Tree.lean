import OnnxGenai.Lib.Fallible

/-!
# Speculative draft trees

The candidate continuations of a speculative step, as a vector of nodes with parent pointers. Every
parent comes before its children; a root hangs on the committed context, which is not a node. The
depth of a node is the one its parent gives it. `SpecTree` carries both facts, so that a value which
breaks them cannot be built: the three ways to make a tree (a parent vector, an ancestor matrix, the
builder) all go through `push`.

The ancestors of a node are found by following the parent pointers. The loop ends because parents
come first; `ancestors_eq` unrolls it once, and everything else about paths follows from that
equation.
-/

namespace OnnxGenai.Speculative

open List

/-- A token number, `u32` in the source. -/
abbrev TokenId := ℕ

structure TreeNode where
  token : TokenId
  parent : Option ℕ
  depth : ℕ
  deriving DecidableEq

/-- The depth of a node under `parent`, if that is one of `nodes`. -/
def depthUnder (nodes : List TreeNode) : Option ℕ → Option ℕ
  | none => some 0
  | some p => nodes[p]?.map (·.depth + 1)

/-- A tree: the parent of each node precedes it, and gives it its depth. -/
structure SpecTree where
  nodes : List TreeNode
  topological : ∀ i node, nodes[i]? = some node → depthUnder (nodes.take i) node.parent = some node.depth

/-- Why a tree could not be built or verified. -/
inductive TreeError where
  | parentCount (tokens parents : ℕ)
  | parentNotPreceding (parent node : ℕ)
  | maskRows (rows tokens : ℕ)
  | maskColumns (row columns tokens : ℕ)
  | maskSelf (row : ℕ)
  | maskLater (column row : ℕ)
  | maskBranches (row ancestor parent : ℕ)
  | maskMismatch
  | budget (budget : ℕ)
  | noParent (parent : ℕ)
  | emptyLogits
  | tokenRange
  | needsDistributions
  | scorer (message : String)
  deriving DecidableEq

namespace SpecTree

theorem ext {t u : SpecTree} (h : t.nodes = u.nodes) : t = u := by
  cases t
  cases u
  cases h
  rfl

instance : DecidableEq SpecTree := fun t u => decidable_of_iff (t.nodes = u.nodes) ⟨ext, fun h => h ▸ rfl⟩

/-! ### Building -/

/-- A tree without candidates. -/
def empty : SpecTree := ⟨[], fun i node h => (nomatch h)⟩

theorem topological_push {nodes : List TreeNode}
    (h : ∀ i node, nodes[i]? = some node → depthUnder (nodes.take i) node.parent = some node.depth) {node : TreeNode}
    (hnode : depthUnder nodes node.parent = some node.depth) :
    ∀ i n, (nodes ++ [node])[i]? = some n → depthUnder ((nodes ++ [node]).take i) n.parent = some n.depth := by
  intro i n hn
  rcases lt_trichotomy i nodes.length with hlt | rfl | hgt
  · rw [getElem?_append_left hlt] at hn
    rw [take_append_of_le_length hlt.le]
    exact h i n hn
  · rw [getElem?_concat_length] at hn
    cases hn
    rw [take_left']
    · exact hnode
    · rfl
  · rw [getElem?_eq_none] at hn
    · cases hn
    · simp only [length_append, length_singleton]
      omega

/-- Append a candidate; `none` if its parent is not there. -/
def push (t : SpecTree) (token : TokenId) (parent : Option ℕ) : Option SpecTree :=
  match h : depthUnder t.nodes parent with
  | some depth => some ⟨t.nodes ++ [⟨token, parent, depth⟩], topological_push t.topological h⟩
  | none => none

/-- Number of candidates. -/
def len (t : SpecTree) : ℕ := t.nodes.length

def tokens (t : SpecTree) : List TokenId := t.nodes.map (·.token)

def parents (t : SpecTree) : List (Option ℕ) := t.nodes.map (·.parent)

/-- Append candidates one after the other. -/
def pushAll (t : SpecTree) : List (TokenId × Option ℕ) → Except TreeError SpecTree
  | [] => .ok t
  | (token, parent) :: rest =>
    match t.push token parent with
    | some t => t.pushAll rest
    | none => .error (.parentNotPreceding (parent.getD 0) t.len)

/-- Build a tree from the proposed tokens and their parents. -/
def fromParentIndices (tokens : List TokenId) (parents : List (Option ℕ)) : Except TreeError SpecTree :=
  if tokens.length ≠ parents.length then .error (.parentCount tokens.length parents.length)
  else empty.pushAll (tokens.zip parents)

end SpecTree

/-- A tree under construction, with an optional bound on its size. -/
structure SpecTreeBuilder where
  tree : SpecTree
  budget : Option ℕ

namespace SpecTreeBuilder

def new (budget : Option ℕ) : SpecTreeBuilder := ⟨.empty, budget⟩

def checkBudget (b : SpecTreeBuilder) : Except TreeError Unit :=
  match b.budget with
  | some budget => if budget ≤ b.tree.len then .error (.budget budget) else .ok ()
  | none => .ok ()

/-- Add a root candidate; the result is its index. -/
def addRoot (b : SpecTreeBuilder) (token : TokenId) : Except TreeError (ℕ × SpecTreeBuilder) := do
  b.checkBudget
  match b.tree.push token none with
  | some tree => return (b.tree.len, { b with tree })
  | none => throw (.noParent 0)

/-- Add a child of `parent`; the result is its index. -/
def addChild (b : SpecTreeBuilder) (parent : ℕ) (token : TokenId) : Except TreeError (ℕ × SpecTreeBuilder) :=
  match b.tree.push token (some parent) with
  | none => .error (.noParent parent)
  | some tree => do
    b.checkBudget
    return (b.tree.len, { b with tree })

/-- Append a chain of tokens as a single branch. -/
def addChain (b : SpecTreeBuilder) (tokens : List TokenId) (parent : Option ℕ) : Except TreeError (List ℕ × SpecTreeBuilder) :=
  match tokens with
  | [] => .ok ([], b)
  | token :: tokens => do
    let (index, b) ← match parent with
      | none => b.addRoot token
      | some p => b.addChild p token
    let (indices, b) ← b.addChain tokens (some index)
    return (index :: indices, b)

def build (b : SpecTreeBuilder) : SpecTree := b.tree

end SpecTreeBuilder

namespace SpecTree

variable {t : SpecTree} {i p : ℕ}

/-! ### Reading -/

/-- The parent of a node. -/
def parentOf (t : SpecTree) (i : ℕ) : Option ℕ := t.nodes[i]?.bind (·.parent)

def tokenAt (t : SpecTree) (i : ℕ) : Option TokenId := t.nodes[i]?.map (·.token)

/-- The nodes under `parent`, or under the anchor. -/
def under (t : SpecTree) (parent : Option ℕ) : List ℕ :=
  (List.range t.len).filter fun i => t.parentOf i = parent

def roots (t : SpecTree) : List ℕ := t.under none

def children (t : SpecTree) (node : ℕ) : List ℕ := t.under (some node)

/-- The chain of parents from `cursor` up. -/
def climb (t : SpecTree) : ℕ → Option ℕ → List ℕ
  | 0, _ => []
  | _ + 1, none => []
  | fuel + 1, some p => p :: t.climb fuel (t.parentOf p)

/-- Proper ancestors of a node, from the root down. -/
def ancestors (t : SpecTree) (node : ℕ) : List ℕ := (t.climb t.len (t.parentOf node)).reverse

/-- The path from the root down to a node. -/
def path (t : SpecTree) (node : ℕ) : List ℕ := t.ancestors node ++ [node]

/-- The tokens of a list of nodes. -/
def spell (t : SpecTree) (nodes : List ℕ) : List TokenId := nodes.filterMap t.tokenAt

/-- The tokens from the root down to a node. -/
def pathTokens (t : SpecTree) (node : ℕ) : List TokenId := t.spell (t.path node)

/-! ### Parents come first -/

theorem parentOf_lt (h : t.parentOf i = some p) : p < i := by
  obtain ⟨node, hnode, hp⟩ := Option.bind_eq_some_iff.mp h
  have := t.topological i node hnode
  rw [hp] at this
  obtain ⟨parent, hparent, -⟩ := Option.map_eq_some_iff.mp this
  have hlt := (List.getElem?_eq_some_iff.mp hparent).1
  rw [length_take] at hlt
  omega

theorem lt_len_of_parentOf (h : t.parentOf i = some p) : i < t.len := by
  obtain ⟨node, hnode, -⟩ := Option.bind_eq_some_iff.mp h
  exact (List.getElem?_eq_some_iff.mp hnode).1

theorem mem_under {parent : Option ℕ} : i ∈ t.under parent ↔ i < t.len ∧ t.parentOf i = parent := by
  simp [under]

theorem tokenAt_isSome (h : i < t.len) : ∃ token, t.tokenAt i = some token :=
  ⟨t.nodes[i].token, by rw [tokenAt, getElem?_eq_getElem h]; rfl⟩

/-- Enough fuel is enough. -/
theorem climb_eq {fuel fuel' : ℕ} (h : p < fuel) (h' : p < fuel') : t.climb fuel (some p) = t.climb fuel' (some p) := by
  induction fuel generalizing fuel' p with
  | zero => omega
  | succ fuel ih =>
    cases fuel' with
    | zero => omega
    | succ fuel' =>
      simp only [climb, cons.injEq, true_and]
      cases hp : t.parentOf p with
      | none => cases fuel <;> cases fuel' <;> rfl
      | some q =>
        have hlt := parentOf_lt hp
        exact ih (by omega) (by omega)

/-- The ancestors of a node are those of its parent, and the parent. -/
theorem ancestors_eq (t : SpecTree) (i : ℕ) :
    t.ancestors i = (t.parentOf i).elim [] fun p => t.ancestors p ++ [p] := by
  unfold ancestors
  cases hp : t.parentOf i with
  | none => cases t.len <;> rfl
  | some p =>
    have hlt := parentOf_lt hp
    have hlen := lt_len_of_parentOf hp
    obtain ⟨n, hn⟩ := Nat.exists_eq_add_one_of_ne_zero (Nat.pos_iff_ne_zero.mp (Nat.zero_lt_of_lt hlen))
    rw [hn]
    simp only [climb, reverse_cons, Option.elim_some, append_cancel_right_eq, reverse_inj]
    cases hq : t.parentOf p with
    | none => cases n <;> rfl
    | some q =>
      have hlt' := parentOf_lt hq
      exact climb_eq (by omega) (by omega)

theorem ancestors_of_root (h : t.parentOf i = none) : t.ancestors i = [] := by
  rw [ancestors_eq, h, Option.elim_none]

theorem ancestors_of_child (h : t.parentOf i = some p) : t.ancestors i = t.path p := by
  rw [ancestors_eq, h, Option.elim_some, path]

theorem path_of_root (h : t.parentOf i = none) : t.path i = [i] := by
  rw [path, ancestors_of_root h, nil_append]

theorem path_of_child (h : t.parentOf i = some p) : t.path i = t.path p ++ [i] := by
  rw [path, ancestors_of_child h]

/-- Induction from the roots down. -/
theorem path_induction {P : ℕ → Prop} (hroot : ∀ i, t.parentOf i = none → P i)
    (hchild : ∀ i p, t.parentOf i = some p → P p → P i) (i : ℕ) : P i := by
  induction i using Nat.strong_induction_on with
  | _ i ih =>
    cases hp : t.parentOf i with
    | none => exact hroot i hp
    | some p => exact hchild i p hp (ih p (parentOf_lt hp))

/-- Ancestors are in increasing order. -/
theorem path_pairwise (i : ℕ) : (t.path i).Pairwise (· < ·) ∧ ∀ a ∈ t.path i, a ≤ i := by
  induction i using t.path_induction with
  | hroot i hp => simp [path_of_root hp]
  | hchild i p hp ih =>
    have hlt := parentOf_lt hp
    rw [path_of_child hp]
    constructor
    · rw [pairwise_append]
      refine ⟨ih.1, pairwise_singleton _ _, fun a ha b hb => ?_⟩
      obtain rfl := mem_singleton.mp hb
      exact (ih.2 a ha).trans_lt hlt
    · intro a ha
      rcases mem_append.mp ha with ha | ha
      · exact (ih.2 a ha).trans hlt.le
      · exact (mem_singleton.mp ha).le

theorem lt_of_mem_ancestors {a : ℕ} (h : a ∈ t.ancestors i) : a < i := by
  cases hp : t.parentOf i with
  | none =>
    rw [ancestors_of_root hp] at h
    cases h
  | some p =>
    rw [ancestors_of_child hp] at h
    exact ((path_pairwise p).2 a h).trans_lt (parentOf_lt hp)

/-! ### Every tree comes from its parent vector -/

theorem push_eq_some {token : TokenId} {parent : Option ℕ} {u : SpecTree} :
    t.push token parent = some u ↔
      ∃ depth, depthUnder t.nodes parent = some depth ∧ u.nodes = t.nodes ++ [⟨token, parent, depth⟩] := by
  unfold push
  split
  case h_1 depth hdepth =>
    constructor
    · intro h
      cases h
      exact ⟨depth, hdepth, rfl⟩
    · rintro ⟨depth', hdepth', hu⟩
      cases hdepth.symm.trans hdepth'
      exact congrArg some (ext hu.symm)
  case h_2 hnone =>
    simp [hnone]

/-- A node that some tree has at this place can be appended. -/
theorem push_of_prefix {u : SpecTree} {node : TreeNode} {new : List TreeNode} (hu : u.nodes = t.nodes ++ node :: new) :
    ∃ v, t.push node.token node.parent = some v ∧ v.nodes = t.nodes ++ [node] := by
  have htop := u.topological t.nodes.length node (by rw [hu]; simp)
  rw [hu, take_left' rfl] at htop
  exact ⟨⟨t.nodes ++ [node], topological_push t.topological htop⟩, push_eq_some.mpr ⟨node.depth, htop, rfl⟩, rfl⟩

theorem pushAll_eq_ok {rest : List (TokenId × Option ℕ)} {u : SpecTree} :
    t.pushAll rest = .ok u ↔ ∃ new, u.nodes = t.nodes ++ new ∧ new.map (fun n => (n.token, n.parent)) = rest := by
  induction rest generalizing t with
  | nil =>
    constructor
    · intro h
      cases h
      exact ⟨[], by simp, rfl⟩
    · rintro ⟨new, hu, hnew⟩
      obtain rfl := map_eq_nil_iff.mp hnew
      exact congrArg Except.ok (ext (by simpa using hu.symm))
  | cons pair rest ih =>
    obtain ⟨token, parent⟩ := pair
    simp only [pushAll]
    constructor
    · intro h
      split at h
      case h_1 v hpush =>
        obtain ⟨depth, -, hv⟩ := push_eq_some.mp hpush
        obtain ⟨new, hu, rfl⟩ := ih.mp h
        exact ⟨⟨token, parent, depth⟩ :: new, by rw [hu, hv]; simp, rfl⟩
      case h_2 => cases h
    · rintro ⟨new, hu, hnew⟩
      obtain ⟨node, new, rfl, hpair, rfl⟩ := map_eq_cons_iff.mp hnew
      cases hpair
      obtain ⟨v, hpush, hv⟩ := push_of_prefix hu
      rw [hpush]
      exact ih.mpr ⟨new, by rw [hu, hv]; simp, rfl⟩

/-- The parent vector is the complete topology. -/
theorem fromParentIndices_eq_ok {tokens : List TokenId} {parents : List (Option ℕ)} :
    fromParentIndices tokens parents = .ok t ↔ t.tokens = tokens ∧ t.parents = parents := by
  unfold fromParentIndices
  split
  case isTrue hne =>
    constructor
    · intro h
      cases h
    · rintro ⟨rfl, rfl⟩
      exact absurd (by simp [SpecTree.tokens, SpecTree.parents]) hne
  case isFalse heq =>
    rw [pushAll_eq_ok]
    constructor
    · rintro ⟨new, hnodes, hnew⟩
      have hlen : tokens.length = parents.length := not_not.mp heq
      subst hnodes
      have hfst := congrArg (map Prod.fst) hnew
      have hsnd := congrArg (map Prod.snd) hnew
      rw [map_fst_zip hlen.le, map_map] at hfst
      rw [map_snd_zip hlen.ge, map_map] at hsnd
      exact ⟨hfst, hsnd⟩
    · rintro ⟨rfl, rfl⟩
      refine ⟨t.nodes, by simp [empty], ?_⟩
      simp [SpecTree.tokens, SpecTree.parents, zip_map']

end SpecTree

end OnnxGenai.Speculative
