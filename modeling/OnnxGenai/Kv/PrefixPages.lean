import OnnxGenai.Kv.PrefixCache

/-!
# The pages of a trie

How the operations of the prefix cache change the pages its nodes name and their
borrow counts. A trie is seen through `entry`, the pages and the borrow count at the
end of a path (nothing, where there is no node), and through `allPages`, all the
references its nodes hold. Walking down a path, to stamp its nodes or to create
them, changes neither; changing the node at the end of a path changes both there.
-/

namespace OnnxGenai.Kv

open Option

open List

namespace TrieNode

/-- The pages and the borrow count at the end of a path. -/
def entry (path : List TokenId) (root : TrieNode) : List PageId × ℕ :=
  ((find path root).map fun n => (n.pageIds, n.refCount)).getD ([], 0)

theorem entry_of_find {path : List TokenId} {root node : TrieNode} (h : find path root = some node) :
    entry path root = (node.pageIds, node.refCount) := by
  unfold entry
  rw [h]
  rfl

@[simp] theorem pageIds_setChildren (n : TrieNode) (cs) : (n.setChildren cs).pageIds = n.pageIds := by
  cases n; rfl

@[simp] theorem refCount_setChildren (n : TrieNode) (cs) : (n.setChildren cs).refCount = n.refCount := by
  cases n; rfl

@[simp] theorem children_setChildren (n : TrieNode) (cs) : (n.setChildren cs).children = cs := by
  cases n; rfl

@[simp] theorem pageIds_setLastAccess (n : TrieNode) (a : ℕ) : (n.setLastAccess a).pageIds = n.pageIds := by
  cases n; rfl

@[simp] theorem refCount_setLastAccess (n : TrieNode) (a : ℕ) : (n.setLastAccess a).refCount = n.refCount := by
  cases n; rfl

@[simp] theorem children_setLastAccess (n : TrieNode) (a : ℕ) : (n.setLastAccess a).children = n.children := by
  cases n; rfl

/-- The child at `token` among `cs`. -/
def childIn (token : TokenId) (cs : List (TokenId × TrieNode)) : Option TrieNode :=
  (cs.find? fun c => c.1 = token).map Prod.snd

theorem child?_eq (n : TrieNode) (token : TokenId) : n.child? token = childIn token n.children := rfl

theorem childIn_cons (token k : TokenId) (c : TrieNode) (cs : List (TokenId × TrieNode)) :
    childIn token ((k, c) :: cs) = if k = token then some c else childIn token cs := by
  unfold childIn
  by_cases h : k = token <;> simp [h]

/-- Updating a child changes what is at its token only. -/
theorem childIn_modifyChild (token j : TokenId) (f : TrieNode → TrieNode) :
    ∀ cs : List (TokenId × TrieNode), childIn j (modifyChild token f cs) =
      if j = token then (childIn token cs).map f else childIn j cs
  | [] => by
    unfold modifyChild childIn
    by_cases h : j = token <;> simp [h]
  | (k, c) :: cs => by
    have ih := childIn_modifyChild token j f cs
    unfold modifyChild
    by_cases hk : k = token
    · subst hk
      by_cases hj : j = k
      · simp [childIn_cons, hj]
      · simp [childIn_cons, hj, Ne.symm hj]
    · simp only [hk, if_false, childIn_cons, ih]
      by_cases hj : j = token
      · subst hj
        simp [hk]
      · simp [hj]

theorem childIn_ensureChild (now : ℕ) (token j : TokenId) (cs : List (TokenId × TrieNode)) :
    childIn j (ensureChild now token cs) =
      if j = token then some ((childIn token cs).getD (new now)) else childIn j cs := by
  unfold ensureChild
  cases hf : cs.find? fun c => c.1 = token with
  | some c =>
    have hc : childIn token cs = some c.2 := by
      unfold childIn
      rw [hf]
      rfl
    by_cases hj : j = token
    · subst hj
      simp [hc]
    · simp [hj]
  | none =>
    have hc : childIn token cs = none := by
      unfold childIn
      rw [hf]
      rfl
    simp only [isSome_none, Bool.false_eq_true, if_false, hc, getD_none]
    unfold childIn
    rw [find?_append]
    by_cases hj : j = token
    · subst hj
      rw [hf]
      simp
    · simp [hj, Ne.symm hj]

theorem find_cons (token : TokenId) (path : List TokenId) (root : TrieNode) :
    find (token :: path) root = (childIn token root.children).bind (find path) := rfl

theorem entry_cons (token : TokenId) (path : List TokenId) (root : TrieNode) :
    entry (token :: path) root = ((childIn token root.children).map (entry path)).getD ([], 0) := by
  unfold entry
  rw [find_cons]
  cases childIn token root.children <;> rfl

@[simp] theorem entry_nil (root : TrieNode) : entry [] root = (root.pageIds, root.refCount) := rfl

/-- A new node has nothing, and nothing below. -/
theorem entry_new (now : ℕ) : ∀ path : List TokenId, entry path (new now) = ([], 0)
  | [] => rfl
  | _ :: _ => rfl

/-- An entry depends on the children only below the node. -/
theorem entry_setLastAccess (a : ℕ) (n : TrieNode) : ∀ path : List TokenId,
    entry path (n.setLastAccess a) = entry path n
  | [] => by simp
  | token :: path => by rw [entry_cons, entry_cons, children_setLastAccess]

/-! ### Walks change no entry -/

theorem entry_stampPath (now : ℕ) : ∀ (tokens q : List TokenId) (root : TrieNode),
    entry q (stampPath now tokens root) = entry q root
  | [], _, _ => rfl
  | token :: tokens, [], root => by
    unfold stampPath
    simp
  | token :: tokens, j :: q, root => by
    unfold stampPath
    rw [entry_cons, entry_cons, children_setChildren, childIn_modifyChild]
    by_cases hj : j = token
    · subst hj
      rw [if_pos rfl]
      cases childIn j root.children with
      | none => rfl
      | some c =>
        simp only [map_some, getD_some]
        rw [entry_stampPath now tokens q, entry_setLastAccess]
    · rw [if_neg hj]

theorem entry_ensurePath (now : ℕ) : ∀ (tokens q : List TokenId) (root : TrieNode),
    entry q (ensurePath now tokens root) = entry q root
  | [], _, _ => rfl
  | token :: tokens, [], root => by
    unfold ensurePath
    simp
  | token :: tokens, j :: q, root => by
    unfold ensurePath
    rw [entry_cons, entry_cons, children_setChildren, childIn_modifyChild]
    by_cases hj : j = token
    · subst hj
      rw [if_pos rfl, childIn_ensureChild, if_pos rfl]
      simp only [map_some, getD_some]
      rw [entry_ensurePath now tokens q, entry_setLastAccess]
      cases childIn j root.children with
      | none => exact entry_new now q
      | some c => rfl
    · rw [if_neg hj, childIn_ensureChild, if_neg hj]

/-- The path is there once it has been made. -/
theorem find_ensurePath (now : ℕ) : ∀ (tokens : List TokenId) (root : TrieNode),
    ∃ node, find tokens (ensurePath now tokens root) = some node
  | [], root => ⟨root, rfl⟩
  | token :: tokens, root => by
    unfold ensurePath
    rw [find_cons, children_setChildren, childIn_modifyChild, if_pos rfl, childIn_ensureChild, if_pos rfl]
    exact find_ensurePath now tokens _

/-! ### Changing the node at the end of a path -/

/-- An update of a node that leaves its children alone. -/
def Local (f : TrieNode → TrieNode) : Prop := ∀ n, (f n).children = n.children

/-- The entry of an updated node, and no other, changes. -/
theorem entry_modifyAt {f : TrieNode → TrieNode} (hf : Local f) : ∀ {path : List TokenId} {root node : TrieNode},
    find path root = some node → ∀ q, entry q (modifyAt f path root) =
      if q = path then ((f node).pageIds, (f node).refCount) else entry q root
  | [], root, node, h, [] => by
    obtain rfl : root = node := some.inj h
    rfl
  | [], root, node, h, j :: q => by
    unfold modifyAt
    rw [entry_cons, entry_cons, hf]
    simp
  | token :: path, root, node, h, [] => by
    unfold modifyAt
    simp
  | token :: path, root, node, h, j :: q => by
    unfold modifyAt
    rw [find_cons] at h
    rw [entry_cons, entry_cons, children_setChildren, childIn_modifyChild]
    by_cases hj : j = token
    · subst hj
      cases hc : childIn j root.children with
      | none => simp [hc] at h
      | some c =>
        rw [hc] at h
        simp only [map_some, getD_some, cons.injEq, true_and]
        exact entry_modifyAt hf h q
    · simp [hj]

/-- A node with pages or borrows is there. -/
theorem find_of_entry {path : List TokenId} {root : TrieNode} (h : (entry path root).1 ≠ []) :
    ∃ node, find path root = some node := by
  cases hf : find path root with
  | some node => exact ⟨node, rfl⟩
  | none =>
    unfold entry at h
    rw [hf] at h
    exact absurd rfl h

theorem local_setPageIds (ids : List PageId) : Local (setPageIds ids) := fun n => by cases n; rfl

theorem local_setRefCount (g : ℕ → ℕ) : Local fun n => n.setRefCount (g n.refCount) := fun n => by cases n; rfl

theorem local_clear : Local clear := fun n => by cases n; rfl

@[simp] theorem pageIds_setRefCount (n : TrieNode) (k : ℕ) : (n.setRefCount k).pageIds = n.pageIds := by
  cases n; rfl

@[simp] theorem refCount_setRefCount (n : TrieNode) (k : ℕ) : (n.setRefCount k).refCount = k := by
  cases n; rfl

@[simp] theorem pageIds_setPageIds (n : TrieNode) (ids : List PageId) : (n.setPageIds ids).pageIds = ids := by
  cases n; rfl

@[simp] theorem refCount_setPageIds (n : TrieNode) (ids : List PageId) :
    (n.setPageIds ids).refCount = n.refCount := by
  cases n; rfl

@[simp] theorem pageIds_clear (n : TrieNode) : (clear n).pageIds = [] := by
  cases n; rfl

@[simp] theorem refCount_clear (n : TrieNode) : (clear n).refCount = n.refCount := by
  cases n; rfl

/-! ### All the references of a trie -/

theorem allPages_eq (n : TrieNode) : allPages n = n.pageIds ++ allPagesChildren n.children := by
  cases n
  rfl

@[simp] theorem allPages_setLastAccess (n : TrieNode) (a : ℕ) : allPages (n.setLastAccess a) = allPages n := by
  rw [allPages_eq, allPages_eq, pageIds_setLastAccess, children_setLastAccess]

/-- An update of a child changes the references by what it changes there. -/
theorem count_modifyChild {token : TokenId} {f : TrieNode → TrieNode} {c : TrieNode} (id : PageId) :
    ∀ {cs : List (TokenId × TrieNode)}, childIn token cs = some c →
      (allPagesChildren (modifyChild token f cs)).count id + (allPages c).count id =
        (allPagesChildren cs).count id + (allPages (f c)).count id
  | [], h => by simp [childIn] at h
  | (k, c') :: cs, h => by
    rw [childIn_cons] at h
    unfold modifyChild
    by_cases hk : k = token
    · rw [if_pos hk] at h ⊢
      cases h
      simp only [allPagesChildren, count_append]
      omega
    · rw [if_neg hk] at h ⊢
      have ih := count_modifyChild (f := f) id h
      simp only [allPagesChildren, count_append]
      omega

/-- An update of no child changes nothing. -/
theorem modifyChild_none {token : TokenId} (f : TrieNode → TrieNode) :
    ∀ {cs : List (TokenId × TrieNode)}, childIn token cs = none → modifyChild token f cs = cs
  | [], _ => rfl
  | (k, c) :: cs, h => by
    rw [childIn_cons] at h
    split_ifs at h with hk
    unfold modifyChild
    rw [if_neg hk, modifyChild_none f h]

theorem count_modifyAt {f : TrieNode → TrieNode} (hf : Local f) (id : PageId) :
    ∀ {path : List TokenId} {root node : TrieNode}, find path root = some node →
      (allPages (modifyAt f path root)).count id + node.pageIds.count id =
        (allPages root).count id + (f node).pageIds.count id
  | [], root, node, h => by
    obtain rfl : root = node := some.inj h
    unfold modifyAt
    rw [allPages_eq (f root), allPages_eq root, hf, count_append, count_append]
    omega
  | token :: path, root, node, h => by
    obtain ⟨c, hc, hfind⟩ := bind_eq_some_iff.mp h
    have ih := count_modifyAt hf id hfind
    have hmod := count_modifyChild (f := modifyAt f path) id hc
    unfold modifyAt
    rw [allPages_eq, allPages_eq root, pageIds_setChildren, children_setChildren, count_append,
      count_append]
    omega

theorem count_stampPath (now : ℕ) (id : PageId) : ∀ (tokens : List TokenId) (root : TrieNode),
    (allPages (stampPath now tokens root)).count id = (allPages root).count id
  | [], _ => rfl
  | token :: tokens, root => by
    unfold stampPath
    rw [allPages_eq, allPages_eq root, pageIds_setChildren, children_setChildren, count_append,
      count_append]
    cases hc : childIn token root.children with
    | none => rw [modifyChild_none _ hc]
    | some c =>
      have hmod := count_modifyChild (f := fun c => stampPath now tokens (c.setLastAccess now)) id hc
      simp only [count_stampPath now id tokens, allPages_setLastAccess] at hmod
      omega

theorem count_ensureChild (now : ℕ) (token : TokenId) (id : PageId) (cs : List (TokenId × TrieNode)) :
    (allPagesChildren (ensureChild now token cs)).count id = (allPagesChildren cs).count id := by
  have happ : ∀ cs : List (TokenId × TrieNode),
      (allPagesChildren (cs ++ [(token, new now)])).count id = (allPagesChildren cs).count id := by
    intro cs
    induction cs with
    | nil => simp [allPagesChildren, new, allPages]
    | cons c cs ih => simp only [cons_append, allPagesChildren, count_append, ih]
  unfold ensureChild
  split
  · rfl
  · exact happ cs

theorem count_ensurePath (now : ℕ) (id : PageId) : ∀ (tokens : List TokenId) (root : TrieNode),
    (allPages (ensurePath now tokens root)).count id = (allPages root).count id
  | [], _ => rfl
  | token :: tokens, root => by
    unfold ensurePath
    rw [allPages_eq, allPages_eq root, pageIds_setChildren, children_setChildren, count_append,
      count_append, ← count_ensureChild now token id root.children]
    have hc : childIn token (ensureChild now token root.children) =
        some ((childIn token root.children).getD (new now)) := by
      rw [childIn_ensureChild, if_pos rfl]
    have hmod := count_modifyChild (f := fun c => ensurePath now tokens (c.setLastAccess now)) id hc
    simp only [count_ensurePath now id tokens, allPages_setLastAccess] at hmod
    omega

/-- A node at the end of a path is among those whose references are counted. -/
theorem count_entry_le (id : PageId) {path : List TokenId} {root node : TrieNode}
    (h : find path root = some node) : node.pageIds.count id ≤ (allPages root).count id := by
  have := count_modifyAt local_clear id h
  rw [pageIds_clear, count_nil] at this
  omega

/-- The walk of `lookup` ends at the last node on the path that holds pages. -/
theorem longest_spec : ∀ (tokens : List TokenId) (depth : ℕ) (node : TrieNode) (best : ℕ × List PageId),
    longest tokens depth node best = best ∨ ∃ k n, 0 < k ∧ k ≤ tokens.length ∧
      find (tokens.take k) node = some n ∧ n.pageIds ≠ [] ∧
      longest tokens depth node best = (depth + k, n.pageIds)
  | [], _, _, _ => .inl rfl
  | token :: tokens, depth, node, best => by
    unfold longest
    cases hc : node.child? token with
    | none => exact .inl rfl
    | some c =>
      simp only
      rcases longest_spec tokens (depth + 1) c (if c.pageIds = [] then best else (depth + 1, c.pageIds)) with
        h | ⟨k, n, hk, hle, hfind, hne, h⟩
      · rw [h]
        by_cases he : c.pageIds = []
        · rw [if_pos he]
          exact .inl rfl
        · rw [if_neg he]
          refine .inr ⟨1, c, Nat.one_pos, by simp, ?_, he, rfl⟩
          rw [take_succ_cons, take_zero, find_cons, ← child?_eq, hc]
          rfl
      · rw [h]
        refine .inr ⟨k + 1, n, Nat.succ_pos k, by simpa using hle, ?_, hne, by rw [Nat.add_right_comm]; rfl⟩
        rw [take_succ_cons, find_cons, ← child?_eq, hc]
        exact hfind

end TrieNode

end OnnxGenai.Kv
