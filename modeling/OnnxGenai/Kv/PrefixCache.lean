import OnnxGenai.Kv.PageTable

/-!
# The prefix cache

`PrefixCache` (`prefix_cache.rs`): a trie over tokens whose nodes name the pages of the
prefix that ends there. Inserting a prefix retains its pages for the cache;
`lookupShared` retains them once more for the borrower, until `releaseShared`.

The children of a node are a list of pairs: a `HashMap` whose order of iteration is
unspecified. The only traversal that depends on an order, `visit_evictable`, sorts.
-/

namespace OnnxGenai.Kv

open Lib

/-- A node of the trie. -/
inductive TrieNode where
  /-- The pages of the prefix ending here, an optional snapshot attached to it (by
  handle), the number of active borrows, the last access time, and the children. -/
  | mk (pageIds : List PageId) (snapshot : Option ℕ) (refCount lastAccess : ℕ)
      (children : List (TokenId × TrieNode))

namespace TrieNode

def pageIds : TrieNode → List PageId
  | mk ids _ _ _ _ => ids

def refCount : TrieNode → ℕ
  | mk _ _ r _ _ => r

def lastAccess : TrieNode → ℕ
  | mk _ _ _ a _ => a

def children : TrieNode → List (TokenId × TrieNode)
  | mk _ _ _ _ cs => cs

/-- A new node, last accessed at `now`. -/
def new (now : ℕ) : TrieNode := mk [] none 0 now []

def setPageIds (ids : List PageId) : TrieNode → TrieNode
  | mk _ s r a cs => mk ids s r a cs

def setRefCount (n : ℕ) : TrieNode → TrieNode
  | mk ids s _ a cs => mk ids s n a cs

def setLastAccess (now : ℕ) : TrieNode → TrieNode
  | mk ids s r _ cs => mk ids s r now cs

def setChildren (cs : List (TokenId × TrieNode)) : TrieNode → TrieNode
  | mk ids s r a _ => mk ids s r a cs

/-- Take the pages and the snapshot out of a node. -/
def clear : TrieNode → TrieNode
  | mk _ _ r a cs => mk [] none r a cs

/-- `children.get(&token)`. -/
def child? (node : TrieNode) (token : TokenId) : Option TrieNode :=
  (node.children.find? fun c => c.1 = token).map Prod.snd

/-- Update the child at `token`, if there is one. -/
def modifyChild (token : TokenId) (f : TrieNode → TrieNode) :
    List (TokenId × TrieNode) → List (TokenId × TrieNode)
  | [] => []
  | (k, c) :: cs => if k = token then (k, f c) :: cs else (k, c) :: modifyChild token f cs

/-- `find_node_mut`: the node at the end of a path. -/
def find : List TokenId → TrieNode → Option TrieNode
  | [], node => some node
  | token :: path, node => (node.child? token).bind (find path)

/-- Update the node at the end of a path, if the path is there. -/
def modifyAt (f : TrieNode → TrieNode) : List TokenId → TrieNode → TrieNode
  | [], node => f node
  | token :: path, node => node.setChildren (modifyChild token (modifyAt f path) node.children)

/-- `entry(token).or_insert_with(..)`: the children with one at `token`. -/
def ensureChild (now : ℕ) (token : TokenId) (cs : List (TokenId × TrieNode)) :
    List (TokenId × TrieNode) :=
  if (cs.find? fun c => c.1 = token).isSome then cs else cs ++ [(token, new now)]

/-- The loop of `insert_inner`: make every node on the path, and stamp it. -/
def ensurePath (now : ℕ) : List TokenId → TrieNode → TrieNode
  | [], node => node
  | token :: path, node =>
    node.setChildren (modifyChild token (fun c => ensurePath now path (c.setLastAccess now))
      (ensureChild now token node.children))

/-- The loop of `lookup_shared`: stamp every node on the path as far as it goes. -/
def stampPath (now : ℕ) : List TokenId → TrieNode → TrieNode
  | [], node => node
  | token :: path, node =>
    node.setChildren (modifyChild token (fun c => stampPath now path (c.setLastAccess now))
      node.children)

/-- The loop of `lookup`: walk down from `node`, which is at depth `depth`, remembering
the last node that holds pages. -/
def longest : List TokenId → ℕ → TrieNode → ℕ × List PageId → ℕ × List PageId
  | [], _, _, best => best
  | token :: path, depth, node, best =>
    match node.child? token with
    | none => best
    | some c => longest path (depth + 1) c (if c.pageIds = [] then best else (depth + 1, c.pageIds))

mutual

/-- The nodes `visit_evictable` considers, with their access time and path. -/
def evictable (path : List TokenId) : TrieNode → List (ℕ × List TokenId)
  | mk ids _ r a cs =>
    (if ids ≠ [] ∧ r = 0 then [(a, path)] else []) ++ evictableChildren path cs

/-- `evictable` for the children of a node. -/
def evictableChildren (path : List TokenId) : List (TokenId × TrieNode) → List (ℕ × List TokenId)
  | [] => []
  | (token, c) :: cs => evictable (path ++ [token]) c ++ evictableChildren path cs

end

mutual

/-- All page references held by the nodes of a trie. -/
def allPages : TrieNode → List PageId
  | mk ids _ _ _ cs => ids ++ allPagesChildren cs

/-- `allPages` for the children of a node. -/
def allPagesChildren : List (TokenId × TrieNode) → List PageId
  | [] => []
  | (_, c) :: cs => allPages c ++ allPagesChildren cs

end

end TrieNode

/-- Longest-prefix cache lookup result. -/
structure PrefixMatch where
  matchedTokens : ℕ
  pageIds : List PageId
  deriving DecidableEq, Repr

/-- Radix trie for prefix caching. -/
structure PrefixCache where
  root : TrieNode
  clock : ℕ

namespace PrefixCache

open TrieNode

def new : PrefixCache := ⟨TrieNode.new 0, 0⟩

/-- Find the longest cached prefix without changing page-table refcounts. -/
def lookup (cache : PrefixCache) (tokens : List TokenId) : ℕ × List PageId :=
  longest tokens 0 cache.root (0, [])

def insertInner (cache : PrefixCache) (tokens : List TokenId) (ids : List PageId) :
    PrefixMatch × PrefixCache :=
  let now := cache.clock + 1
  (⟨tokens.length, ids⟩,
    ⟨modifyAt (setPageIds ids) tokens (ensurePath now tokens cache.root), now⟩)

/-- Insert a prefix without page-table refcount changes. -/
def insert (cache : PrefixCache) (tokens : List TokenId) (ids : List PageId) : PrefixCache :=
  (cache.insertInner tokens ids).2

/-- Take the pages of a prefix out, whether or not it is shared. -/
def remove (cache : PrefixCache) (tokens : List TokenId) : List PageId × PrefixCache :=
  match find tokens cache.root with
  | none => ([], cache)
  | some node => (node.pageIds, ⟨modifyAt (fun n => n.clear.setRefCount 0) tokens cache.root, cache.clock⟩)

/-- Insert a prefix and retain the physical pages for cache ownership. -/
def insertPages (cache : PrefixCache) (tokens : List TokenId) (ids : List PageId) (t : PageTable) :
    PrefixMatch × PrefixCache × PageTable :=
  let (found, cache) := cache.insertInner tokens ids
  (found, cache, ids.foldl PageTable.retain t)

/-- Find the longest cached prefix and retain its pages for a sharing sequence. -/
def lookupShared (cache : PrefixCache) (tokens : List TokenId) (t : PageTable) :
    PrefixMatch × PrefixCache × PageTable :=
  let now := cache.clock + 1
  let (bestDepth, bestPages) := longest tokens 0 cache.root (0, [])
  let root := stampPath now tokens cache.root
  if 0 < bestDepth then
    (⟨bestDepth, bestPages⟩,
      ⟨modifyAt (fun n => n.setRefCount (n.refCount + 1)) (tokens.take bestDepth) root, now⟩,
      bestPages.foldl PageTable.retain t)
  else (⟨bestDepth, bestPages⟩, ⟨root, now⟩, t)

/-- Release a previously shared prefix returned by `lookup_shared`. -/
def releaseShared (cache : PrefixCache) (tokens : List TokenId) (matchedTokens : ℕ) (t : PageTable) :
    List PageId × PrefixCache × PageTable :=
  if matchedTokens = 0 ∨ matchedTokens > tokens.length then ([], cache, t)
  else
    match find (tokens.take matchedTokens) cache.root with
    | none => ([], cache, t)
    | some node =>
      if 0 < node.refCount then
        (node.pageIds,
          ⟨modifyAt (fun n => n.setRefCount (n.refCount - 1)) (tokens.take matchedTokens) cache.root,
            cache.clock⟩,
          t.freeAll node.pageIds)
      else (node.pageIds, cache, t)

/-- `find_lru_evictable_path`: among the nodes in the order of their paths, the first
with the least access time. -/
def findLruEvictablePath (cache : PrefixCache) : Option (List TokenId) :=
  (((evictable [] cache.root).mergeSort fun a b => decide (a.2 ≤ b.2)).argmin Prod.fst).map Prod.snd

/-- The loop of `evict_lru`. Every turn releases at least one page, so `targetPages` turns
are enough; `released` are the pages released so far. -/
def evictLruLoop (targetPages : ℕ) :
    ℕ → List PageId → PrefixCache → PageTable → List PageId × PrefixCache × PageTable
  | 0, released, cache, t => (released, cache, t)
  | fuel + 1, released, cache, t =>
    if released.length < targetPages then
      match cache.findLruEvictablePath with
      | none => (released, cache, t)
      | some path =>
        match find path cache.root with
        | none => (released, cache, t)
        | some node =>
          if node.refCount ≠ 0 ∨ node.pageIds = [] then (released, cache, t)
          else
            evictLruLoop targetPages fuel (released ++ node.pageIds)
              ⟨modifyAt clear path cache.root, cache.clock⟩ (t.freeAll node.pageIds)
    else (released, cache, t)

/-- Evict least-recently-used inactive cached prefixes until at least `targetPages` page
references have been released from the cache. -/
def evictLru (cache : PrefixCache) (targetPages : ℕ) (t : PageTable) :
    List PageId × PrefixCache × PageTable :=
  evictLruLoop targetPages targetPages [] cache t

end PrefixCache

end OnnxGenai.Kv
