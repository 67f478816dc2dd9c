import OnnxGenai.Kv.Accounting
import OnnxGenai.Kv.PrefixPages
import OnnxGenai.Lib.Runs

/-!
# Page references are conserved

A cache and a prefix cache over its page table, with the borrows that `lookupShared` gave
out and nobody released yet, as one system (`System`). Its actions are the operations of
both, in any order. In every state of every run, each page's count is the number of
references to it (`references_conserved`): in the page lists of the sequences, in the
nodes of the trie, and in the outstanding borrows.

The counts and the page ids are `u32`s that saturate. So a run is required to stay in
their range: no page is referenced more than `u32::MAX` times, and the page ids do not run
out (`Fits`). Without that the statement is false (`forked_beyond_u32`).
-/

namespace OnnxGenai.Kv

open Lib PageTable PagedKvCache TrieNode List Nat

/-- A prefix handed out by `lookupShared`, until it is released. -/
structure Borrow where
  tokens : List TokenId
  found : PrefixMatch
  deriving DecidableEq, Repr

/-- The path of the node a borrow was counted at. -/
def Borrow.path (b : Borrow) : List TokenId := b.tokens.take b.found.matchedTokens

/-- A cache with a prefix cache over its page table. -/
structure System where
  cache : PagedKvCache
  prefixCache : PrefixCache
  borrows : List Borrow

/-- The operations on the two caches. -/
inductive Action where
  | create
  | append (seq : SequenceId) (numTokens : ℕ)
  | writeTokenKv (seq : SequenceId) (position : ℕ) (layers : List LayerKv)
  | appendTokenKv (seq : SequenceId) (layers : List LayerKv)
  | rewindTo (seq : SequenceId) (position : ℕ)
  | fork (source : SequenceId) (position : ℕ)
  | applySlidingWindow (seq : SequenceId) (windowSize : ℕ)
  | applySlidingWindowWithSinks (seq : SequenceId) (windowSize sinkTokens : ℕ)
  | preemptSequence (seq : SequenceId)
  | restoreSequence (seq : SequenceId)
  | prefetch (seq : SequenceId) (start stop : ℕ)
  | evict (target : ℕ)
  | remove (seq : SequenceId)
  | insertPages (tokens : List TokenId) (ids : List PageId)
  | lookupShared (tokens : List TokenId)
  | releaseShared (borrow : Borrow)
  | evictLru (targetPages : ℕ)

namespace System

/-- The page table both caches work on. -/
def table (s : System) : PageTable := s.cache.pageTable

def withTable (s : System) (t : PageTable) : System := { s with cache := ⟨t, s.cache.nextSeqId⟩ }

/-- What an action does; one that fails keeps what it did before failing. -/
def step (codec : Page.QuantCodec) (s : System) : Action → System
  | .create => { s with cache := s.cache.createSequence.2 }
  | .append seq n => s.withTable (final (append seq n) s.table)
  | .writeTokenKv seq position layers => s.withTable (final (writeTokenKv codec seq position layers) s.table)
  | .appendTokenKv seq layers => s.withTable (final (appendTokenKv codec seq layers) s.table)
  | .rewindTo seq position => s.withTable (final (rewindTo seq position) s.table)
  | .fork source position => { s with cache := (s.cache.fork source position).2 }
  | .applySlidingWindow seq w => s.withTable (final (applySlidingWindow seq w) s.table)
  | .applySlidingWindowWithSinks seq w n => s.withTable (final (applySlidingWindowWithSinks seq w n) s.table)
  | .preemptSequence seq => s.withTable (final (preemptSequence seq) s.table)
  | .restoreSequence seq => s.withTable (final (restoreSequence seq) s.table)
  | .prefetch seq start stop => s.withTable (final (prefetch seq start stop) s.table)
  | .evict target => s.withTable (evict target s.table).2
  | .remove seq => s.withTable (remove s.table seq)
  | .insertPages tokens ids =>
    let (_, prefixCache, t) := s.prefixCache.insertPages tokens ids s.table
    { s.withTable t with prefixCache := prefixCache }
  | .lookupShared tokens =>
    let (found, prefixCache, t) := s.prefixCache.lookupShared tokens s.table
    { s.withTable t with prefixCache := prefixCache, borrows := ⟨tokens, found⟩ :: s.borrows }
  | .releaseShared b =>
    let (_, prefixCache, t) := s.prefixCache.releaseShared b.tokens b.found.matchedTokens s.table
    { s.withTable t with prefixCache := prefixCache, borrows := s.borrows.erase b }
  | .evictLru target =>
    let (_, prefixCache, t) := s.prefixCache.evictLru target s.table
    { s.withTable t with prefixCache := prefixCache }

/-- How the engine calls the prefix cache: it inserts pages of a live sequence for a
prefix whose node holds none, and releases a borrow it has. -/
def Allowed (s : System) : Action → Prop
  | .insertPages tokens ids => (entry tokens s.prefixCache.root).1 = [] ∧
      ∃ seq r, s.table.sequences.lookup seq = some r ∧ ∀ id ∈ ids, id ∈ r.pages
  | .releaseShared b => b ∈ s.borrows
  | _ => True

/-- The pages of the outstanding borrows. -/
def borrowed (s : System) : List PageId := s.borrows.flatMap fun b => b.found.pageIds

/-- The references to a page: in sequences, in the trie, and borrowed. -/
def references (s : System) (id : PageId) : ℕ :=
  s.table.seqRefs id + s.prefixCache.root.allPages.count id + s.borrowed.count id

/-- The counts and the page ids are in the range of a `u32`. -/
def Fits (s : System) : Prop := (∀ id, s.references id ≤ u32Max) ∧ s.table.nextPageId < u32Max

/-- A new cache, of any configuration, with a new prefix cache. -/
def Initial (s : System) : Prop :=
  ∃ pageSize numGpuPages tensorConfig layerConfigs quantConfig lease, numGpuPages < u32Max ∧
    s = ⟨⟨{ PageTable.build pageSize numGpuPages tensorConfig layerConfigs quantConfig with poolLease := lease }, 0⟩,
      PrefixCache.new, []⟩

/-- Every reference is counted, and the free lists hold exactly the pages without one. -/
structure Conserved (s : System) : Prop where
  /-- A page's count is the number of references to it. -/
  counted : ∀ id p, s.table.pages.lookup id = some p → p.refCount = s.references id
  /-- A page without references is on the free list of its own residency, once. -/
  free : ∀ id p, s.table.pages.lookup id = some p → p.refCount = 0 →
    (s.table.freeList p.residency).count id = 1
  /-- What a free list names is a page without references, of that residency. -/
  idle : ∀ d, ∀ id ∈ s.table.freeList d, ∃ p, s.table.pages.lookup id = some p ∧ p.refCount = 0 ∧ p.residency = d
  /-- What is referenced is a page with a count above zero. -/
  live : ∀ id, 0 < s.references id → ∃ p, s.table.pages.lookup id = some p ∧ p.refCount ≠ 0

/-! ### Borrows -/

/-- How many borrows are counted at a path. -/
def borrowsAt (path : List TokenId) (borrows : List Borrow) : ℕ :=
  borrows.countP fun b => decide (0 < b.found.matchedTokens ∧ b.path = path)

/-- A borrow names the pages of its node, unless it found none. -/
def Backed (root : TrieNode) (b : Borrow) : Prop :=
  b.found.matchedTokens = 0 ∧ b.found.pageIds = [] ∨
    0 < b.found.matchedTokens ∧ b.found.matchedTokens ≤ b.tokens.length ∧ b.found.pageIds ≠ [] ∧
      (entry b.path root).1 = b.found.pageIds

/-- The trie counts the outstanding borrows, and keeps their pages. -/
structure Lends (root : TrieNode) (borrows : List Borrow) : Prop where
  active : ∀ path, (entry path root).2 = borrowsAt path borrows
  backed : ∀ b ∈ borrows, Backed root b

variable {root root' : TrieNode} {borrows : List Borrow} {b : Borrow} {s : System}

section

variable (h : Lends root borrows)

include h

theorem Lends.congr (he : ∀ path, entry path root' = entry path root) : Lends root' borrows :=
  ⟨fun path => by rw [he, h.active], fun b hb => by
    have := h.backed b hb
    unfold Backed at this ⊢
    rwa [he]⟩

/-- Where a node holds no pages, nothing is borrowed. -/
theorem Lends.path_ne {path : List TokenId}
    (hn : (entry path root).1 = [] ∨ (entry path root).2 = 0) (hb : b ∈ borrows) (hpos : 0 < b.found.matchedTokens) :
    b.path ≠ path := by
  rintro rfl
  rcases hn with he | he
  · rcases h.backed b hb with ⟨h0, -⟩ | ⟨-, -, hne, hp⟩
    · omega
    · exact hne (hp.symm.trans he)
  · rw [h.active] at he
    have := countP_eq_zero.mp he b hb
    simp [hpos] at this

/-- Changing the pages of a node nobody borrows. -/
theorem Lends.setPages {path : List TokenId}
    (hn : (entry path root).1 = [] ∨ (entry path root).2 = 0) (hself : (entry path root').2 = (entry path root).2)
    (he : ∀ q, q ≠ path → entry q root' = entry q root) : Lends root' borrows := by
  refine ⟨fun q => ?_, fun b hb => ?_⟩
  · by_cases hq : q = path
    · rw [hq, hself, h.active]
    · rw [he q hq, h.active]
  · rcases h.backed b hb with h0 | ⟨hpos, hle, hne, hp⟩
    · exact .inl h0
    · refine .inr ⟨hpos, hle, hne, ?_⟩
      rw [he _ (h.path_ne hn hb hpos), hp]

/-- A new borrow at a path is counted there. -/
theorem Lends.borrow (hb : Backed root b) (hpos : 0 < b.found.matchedTokens)
    (he : ∀ q, entry q root' = if q = b.path then ((entry q root).1, (entry q root).2 + 1) else entry q root) :
    Lends root' (b :: borrows) := by
  have hpages : ∀ q, (entry q root').1 = (entry q root).1 := by
    intro q
    rw [he]
    split <;> rfl
  refine ⟨fun q => ?_, fun b' hb' => ?_⟩
  · unfold borrowsAt
    rw [countP_cons, ← borrowsAt, ← h.active, he]
    by_cases hq : q = b.path
    · simp [hq, hpos]
    · simp [hq, Ne.symm hq]
  · have hback : Backed root b' := by
      rcases mem_cons.mp hb' with rfl | hmem
      · exact hb
      · exact h.backed b' hmem
    unfold Backed at hback ⊢
    rwa [hpages]

/-- A borrow that found nothing is counted nowhere. -/
theorem Lends.borrow_nothing (h0 : b.found.matchedTokens = 0) (hnil : b.found.pageIds = []) :
    Lends root (b :: borrows) := by
  refine ⟨fun q => ?_, fun b' hb' => ?_⟩
  · unfold borrowsAt
    rw [countP_cons, ← borrowsAt, ← h.active]
    simp [h0]
  · rcases mem_cons.mp hb' with rfl | hmem
    · exact .inl ⟨h0, hnil⟩
    · exact h.backed b' hmem

end

theorem borrowsAt_erase (hb : b ∈ borrows) (path : List TokenId) :
    borrowsAt path borrows = borrowsAt path (borrows.erase b) +
      if 0 < b.found.matchedTokens ∧ b.path = path then 1 else 0 := by
  unfold borrowsAt
  rw [(perm_cons_erase hb).countP_eq, countP_cons]
  simp

/-- A released borrow is no longer counted. -/
theorem Lends.release (h : Lends root borrows) (hb : b ∈ borrows)
    (he : ∀ q, entry q root' = if 0 < b.found.matchedTokens ∧ b.path = q then
      ((entry q root).1, (entry q root).2 - 1) else entry q root) : Lends root' (borrows.erase b) := by
  have hpages : ∀ q, (entry q root').1 = (entry q root).1 := by
    intro q
    rw [he]
    split <;> rfl
  refine ⟨fun q => ?_, fun b' hb' => ?_⟩
  · have hq := borrowsAt_erase hb q
    rw [he]
    split_ifs at hq ⊢ with hc
    · simp only [h.active]
      omega
    · rw [h.active, hq, add_zero]
  · have hback := h.backed b' (mem_of_mem_erase hb')
    unfold Backed at hback ⊢
    rwa [hpages]

/-! ### The invariant -/

/-- What holds in every state of a run. -/
structure Inv (s : System) : Prop where
  counted : Counted s.table (s.prefixCache.root.allPages ++ s.borrowed)
  lends : Lends s.prefixCache.root s.borrows
  numbered : ∀ seq, s.cache.nextSeqId ≤ seq → s.table.sequences.lookup seq = none

/-- The invariant says what is to be conserved. -/
theorem Inv.conserved (h : Inv s) : Conserved s := by
  have hrefs : ∀ id, s.table.seqRefs id + (s.prefixCache.root.allPages ++ s.borrowed).count id =
      s.references id := by
    intro id
    unfold references
    rw [count_append, add_assoc]
  refine ⟨fun id p hp => ?_, fun id p hp h0 => ?_, fun d id hid => ?_, fun id hpos => ?_⟩
  · rw [h.counted.refCount id p hp, hrefs]
  · rw [h.counted.idle p.residency id p hp, if_pos ⟨h0, rfl⟩]
  · obtain ⟨p, hp⟩ := h.counted.free_named d id hid
    have hcount := h.counted.idle d id p hp
    have hmem := count_pos_iff.mpr hid
    by_cases hi : Idle d p
    · exact ⟨p, hp, hi.1, hi.2⟩
    · rw [if_neg hi] at hcount
      omega
  · rw [← hrefs] at hpos
    obtain ⟨p, hp⟩ := h.counted.named id hpos
    refine ⟨p, hp, ?_⟩
    rw [h.counted.refCount id p hp]
    omega

/-- An operation of the cache on the page table alone. -/
theorem Inv.withTable (h : Inv s) {t : PageTable} (hg : Good s.table (s.prefixCache.root.allPages ++ s.borrowed) t)
    (hfit : t.nextPageId < u32Max) : Inv (s.withTable t) := by
  obtain ⟨hc, hk⟩ := hg hfit
  exact ⟨hc, h.lends, fun seq hs => hk seq (h.numbered seq hs)⟩

theorem Inv.final (h : Inv s) {α : Type} {x : TableM α}
    (hx : Ensures x s.table (fun _ t => Good s.table (s.prefixCache.root.allPages ++ s.borrowed) t)
      fun _ t => Good s.table (s.prefixCache.root.allPages ++ s.borrowed) t)
    (hfit : (final x s.table).nextPageId < u32Max) : Inv (s.withTable (Lib.final x s.table)) :=
  h.withTable (Ensures.final (P := fun t => Good s.table (s.prefixCache.root.allPages ++ s.borrowed) t) hx) hfit

/-- A move between the tiers. -/
theorem Inv.moved (h : Inv s) {t : PageTable} (hm : Moved s.table t) : Inv (s.withTable t) :=
  ⟨h.counted.moved hm, h.lends, fun seq hs => by
    show t.sequences.lookup seq = none
    rw [hm.sequences]
    exact h.numbered seq hs⟩

theorem Inv.create (h : Inv s) : Inv { s with cache := s.cache.createSequence.2 } := by
  have hnone := h.numbered s.cache.nextSeqId le_rfl
  refine ⟨addSequence_counted h.counted hnone, h.lends, fun seq hs => ?_⟩
  have hne : seq ≠ s.cache.nextSeqId := ne_of_gt (lt_of_succ_le hs)
  exact (AList.lookup_insert_ne hne).trans (h.numbered seq (le_of_succ_le hs))

theorem Inv.fork (h : Inv s) (source : SequenceId) (position : ℕ)
    (hfit : Fits { s with cache := (s.cache.fork source position).2 }) :
    Inv { s with cache := (s.cache.fork source position).2 } := by
  have hnone := h.numbered s.cache.nextSeqId le_rfl
  have hspec := forkInto_spec source position s.cache.nextSeqId s.cache.pageTable
  unfold PagedKvCache.fork at hfit ⊢
  cases hx : forkInto source position s.cache.nextSeqId s.cache.pageTable with
  | error e t =>
    obtain rfl := hspec.error hx
    exact h
  | ok _ t =>
    rw [hx] at hfit
    obtain ⟨r, hw⟩ := hspec.ok hx
    refine ⟨?_, h.lends, fun seq hs => ?_⟩
    · refine hw.counted h.counted hnone fun id => ?_
      have := hfit.1 id
      rw [count_append, ← add_assoc]
      exact this
    · have hne : seq ≠ s.cache.nextSeqId := ne_of_gt (lt_of_succ_le hs)
      show t.sequences.lookup seq = none
      rw [hw.run]
      unfold withSequence
      simp only [AList.lookup_insert_ne hne, retainAll_sequences]
      exact h.numbered seq (le_of_succ_le hs)

/-! ### The prefix cache -/

/-- Pages that are referenced get one more reference each. -/
theorem Inv.retained (h : Inv s) {s' : System} {ids : List PageId}
    (hcache : s'.cache = ⟨ids.foldl PageTable.retain s.table, s.cache.nextSeqId⟩)
    (hids : ∀ id ∈ ids, 0 < s.table.seqRefs id + (s.prefixCache.root.allPages ++ s.borrowed).count id)
    (hcount : ∀ id, (s'.prefixCache.root.allPages ++ s'.borrowed).count id =
      (ids ++ (s.prefixCache.root.allPages ++ s.borrowed)).count id)
    (hlends : Lends s'.prefixCache.root s'.borrows) (hfit : Fits s') : Inv s' := by
  have htable : s'.table = ids.foldl PageTable.retain s.table := congrArg PagedKvCache.pageTable hcache
  refine ⟨?_, hlends, fun j hj => ?_⟩
  · rw [htable]
    refine (retainAll_counted h.counted hids fun id => ?_).perm hcount
    have hle := hfit.1 id
    rw [references, htable, seqRefs_congr (retainAll_sequences ids s.table), add_assoc, ← count_append, hcount,
      count_append] at hle
    omega
  · rw [htable, retainAll_sequences]
    rw [hcache] at hj
    exact h.numbered j hj

/-- Pages give up references that are not those of sequences. -/
theorem Inv.freed (h : Inv s) {s' : System} {ids : List PageId}
    (hcache : s'.cache = ⟨s.table.freeAll ids, s.cache.nextSeqId⟩)
    (hcount : ∀ id, (ids ++ (s'.prefixCache.root.allPages ++ s'.borrowed)).count id =
      (s.prefixCache.root.allPages ++ s.borrowed).count id)
    (hlends : Lends s'.prefixCache.root s'.borrows) : Inv s' := by
  have htable : s'.table = s.table.freeAll ids := congrArg PagedKvCache.pageTable hcache
  refine ⟨?_, hlends, fun j hj => ?_⟩
  · rw [htable]
    exact Counted.freeAll (h.counted.perm hcount)
  · rw [htable, freeAll_sequences]
    rw [hcache] at hj
    exact h.numbered j hj

theorem Inv.insertPages (h : Inv s) {tokens : List TokenId} {ids : List PageId}
    (hempty : (entry tokens s.prefixCache.root).1 = []) {seq : SequenceId} {r : Sequence}
    (hr : s.table.sequences.lookup seq = some r) (hids : ∀ id ∈ ids, id ∈ r.pages) {s' : System}
    (hs' : s' = { s.withTable (ids.foldl PageTable.retain s.table) with
      prefixCache := (s.prefixCache.insertInner tokens ids).2 }) (hfit : Fits s') : Inv s' := by
  obtain ⟨node, hnode⟩ := find_ensurePath (s.prefixCache.clock + 1) tokens s.prefixCache.root
  have hentry := entry_ensurePath (s.prefixCache.clock + 1) tokens
  have hnil : node.pageIds = [] := by
    rw [← hempty, ← hentry tokens, entry_of_find hnode]
  -- the references of the new trie
  have hcount : ∀ id, s'.prefixCache.root.allPages.count id =
      s.prefixCache.root.allPages.count id + ids.count id := by
    intro id
    have := count_modifyAt (local_setPageIds ids) id hnode
    rw [count_ensurePath, hnil, pageIds_setPageIds] at this
    rw [hs']
    exact this
  have hafter := entry_modifyAt (local_setPageIds ids) hnode
  refine h.retained (by rw [hs']; rfl) (fun id hid => ?_) (fun id => ?_) ?_ hfit
  · have := seqRefs_pos hr (hids id hid)
    omega
  · rw [count_append, hcount, count_append, count_append, hs']
    show _ + s.borrowed.count id = _
    omega
  · rw [hs']
    refine h.lends.setPages (.inl hempty) ?_ fun q hq => ?_
    · show (entry tokens (modifyAt (setPageIds ids) tokens _)).2 = _
      rw [hafter, if_pos rfl, refCount_setPageIds, ← hentry tokens, entry_of_find hnode]
    · show entry q (modifyAt (setPageIds ids) tokens _) = _
      rw [hafter, if_neg hq, hentry]

theorem Inv.lookupShared (h : Inv s) (codec : Page.QuantCodec) (tokens : List TokenId)
    (hfit : Fits (s.step codec (.lookupShared tokens))) : Inv (s.step codec (.lookupShared tokens)) := by
  have hstamp := entry_stampPath (s.prefixCache.clock + 1) tokens
  rcases longest_spec tokens 0 s.prefixCache.root (0, []) with hnone | ⟨k, n, hk, hle, hfind, hne, hsome⟩
  · -- nothing found: the walk only stamped nodes
    unfold step PrefixCache.lookupShared
    simp only [hnone, lt_irrefl, if_false]
    refine ⟨h.counted.perm fun id => ?_, ?_, h.numbered⟩
    · rw [count_append, count_append]
      rw [count_stampPath]
      rfl
    · exact (h.lends.congr fun q => hstamp q s.prefixCache.root).borrow_nothing rfl rfl
  · unfold step PrefixCache.lookupShared at hfit ⊢
    simp only [hsome, zero_add, hk, if_true] at hfit ⊢
    have hpath : (⟨tokens, ⟨k, n.pageIds⟩⟩ : Borrow).path = tokens.take k := rfl
    have hentry := entry_of_find hfind
    have hstamped : (entry (tokens.take k) (stampPath (s.prefixCache.clock + 1) tokens
        s.prefixCache.root)).1 ≠ [] := by
      rw [hstamp, hentry]
      exact hne
    obtain ⟨n', hn'⟩ := find_of_entry hstamped
    have hentry' := entry_of_find hn'
    rw [hstamp, hentry] at hentry'
    obtain ⟨hids, hcnt⟩ := Prod.mk.inj hentry'
    have hafter := entry_modifyAt (local_setRefCount (· + 1)) hn'
    have hcount : ∀ id, (allPages (modifyAt (fun n => n.setRefCount (n.refCount + 1)) (tokens.take k)
        (stampPath (s.prefixCache.clock + 1) tokens s.prefixCache.root))).count id =
        s.prefixCache.root.allPages.count id := by
      intro id
      have := count_modifyAt (local_setRefCount (· + 1)) id hn'
      rw [count_stampPath, pageIds_setRefCount] at this
      omega
    refine h.retained rfl (fun id hid => ?_) (fun id => ?_) ?_ hfit
    · have := count_entry_le id hfind
      have := count_pos_iff.mpr hid
      rw [count_append]
      omega
    · show (allPages (modifyAt _ _ _) ++ (n.pageIds ++ s.borrowed)).count id = _
      rw [count_append, count_append, count_append, count_append, hcount]
      omega
    · refine h.lends.borrow (.inr ⟨hk, hle, hne, ?_⟩) hk fun q => ?_
      · rw [hpath, hentry]
      · rw [hafter, hpath]
        by_cases hq : q = tokens.take k
        · rw [if_pos hq, if_pos hq, hq, hentry, pageIds_setRefCount, refCount_setRefCount, ← hids, ← hcnt]
        · rw [if_neg hq, if_neg hq, hstamp]

/-- The pages of a borrow are among those borrowed. -/
theorem borrowed_erase (hb : b ∈ s.borrows) (id : PageId) :
    s.borrowed.count id = b.found.pageIds.count id +
      ((s.borrows.erase b).flatMap fun b => b.found.pageIds).count id := by
  unfold borrowed
  rw [((perm_cons_erase hb).flatMap_right _).count_eq, flatMap_cons, count_append]

theorem Inv.releaseShared (h : Inv s) (codec : Page.QuantCodec) (hb : b ∈ s.borrows) :
    Inv (s.step codec (.releaseShared b)) := by
  unfold step PrefixCache.releaseShared
  rcases h.lends.backed b hb with ⟨h0, hnil⟩ | ⟨hpos, hle, hne, hpages⟩
  · -- nothing was found, so nothing was retained
    simp only [h0, true_or, if_true]
    refine ⟨h.counted.perm fun id => ?_, h.lends.release hb fun q => ?_, h.numbered⟩
    · rw [count_append, count_append, borrowed_erase hb, hnil, count_nil, zero_add]
      rfl
    · rw [if_neg (by omega)]
  · have hguard : ¬ (b.found.matchedTokens = 0 ∨ b.found.matchedTokens > b.tokens.length) := by omega
    have hheld : (entry b.path s.prefixCache.root).1 ≠ [] := by
      rw [hpages]
      exact hne
    obtain ⟨node, hnode⟩ := find_of_entry hheld
    have hentry := entry_of_find hnode
    have hids : node.pageIds = b.found.pageIds := by rw [← hpages, hentry]
    have hactive : 0 < node.refCount := by
      have hact := h.lends.active b.path
      rw [hentry, borrowsAt_erase hb, if_pos ⟨hpos, rfl⟩] at hact
      omega
    simp only [hguard, if_false]
    rw [show b.tokens.take b.found.matchedTokens = b.path from rfl, hnode]
    simp only [hactive, if_true]
    have hcount : ∀ id, (allPages (modifyAt (fun n => n.setRefCount (n.refCount - 1)) b.path
        s.prefixCache.root)).count id = s.prefixCache.root.allPages.count id := by
      intro id
      have := count_modifyAt (local_setRefCount (· - 1)) id hnode
      rw [pageIds_setRefCount] at this
      omega
    refine h.freed rfl (fun id => ?_) (h.lends.release hb fun q => ?_)
    · show (node.pageIds ++ (allPages (modifyAt _ _ _) ++ (s.borrows.erase b).flatMap _)).count id = _
      rw [count_append, count_append, count_append, hcount, hids, borrowed_erase hb]
      omega
    · rw [entry_modifyAt (local_setRefCount (· - 1)) hnode]
      by_cases hq : q = b.path
      · rw [if_pos hq, if_pos ⟨hpos, hq.symm⟩, hq, hentry, pageIds_setRefCount, refCount_setRefCount]
      · rw [if_neg hq, if_neg fun hc => hq hc.2.symm]

/-- The loop of `evict_lru` gives references of nodes nobody borrows back. -/
theorem evictLruLoop_inv (target : ℕ) : ∀ (fuel : ℕ) (released : List PageId) {s : System}, Inv s →
    Inv { s.withTable (PrefixCache.evictLruLoop target fuel released s.prefixCache s.table).2.2 with
      prefixCache := (PrefixCache.evictLruLoop target fuel released s.prefixCache s.table).2.1 }
  | 0, _, _, h => h
  | fuel + 1, released, s, h => by
    unfold PrefixCache.evictLruLoop
    by_cases hlt : released.length < target
    · rw [if_pos hlt]
      cases hp : s.prefixCache.findLruEvictablePath with
      | none => exact h
      | some path =>
        simp only
        cases hnode : find path s.prefixCache.root with
        | none => exact h
        | some node =>
          simp only
          by_cases hc : node.refCount ≠ 0 ∨ node.pageIds = []
          · rw [if_pos hc]
            exact h
          · rw [if_neg hc]
            have h0 : node.refCount = 0 := by
              by_contra hne
              exact hc (.inl hne)
            have hentry := entry_of_find hnode
            -- the state after this turn
            have hturn : Inv { s.withTable (s.table.freeAll node.pageIds) with
                prefixCache := ⟨modifyAt clear path s.prefixCache.root, s.prefixCache.clock⟩ } := by
              refine h.freed rfl (fun id => ?_)
                (h.lends.setPages (.inr (by rw [hentry]; exact h0)) ?_ fun q hq => ?_)
              · have := count_modifyAt local_clear id hnode
                rw [pageIds_clear, count_nil] at this
                show (node.pageIds ++ (allPages (modifyAt clear path s.prefixCache.root) ++ s.borrowed)).count id = _
                rw [count_append, count_append, count_append]
                omega
              · rw [entry_modifyAt local_clear hnode, if_pos rfl, refCount_clear, hentry]
              · rw [entry_modifyAt local_clear hnode, if_neg hq]
            exact evictLruLoop_inv target fuel (released ++ node.pageIds) hturn
    · rw [if_neg hlt]
      exact h

/-! ### Runs -/

theorem Inv.initial (h : Initial s) : Inv s := by
  obtain ⟨pageSize, numGpuPages, tensorConfig, layerConfigs, quantConfig, lease, hn, rfl⟩ := h
  refine ⟨?_, ⟨fun path => ?_, fun b hb => by cases hb⟩, fun _ _ => rfl⟩
  · exact (build_counted hn).moved (moved_of_asks ⟨lease, rfl⟩)
  · show (entry path (TrieNode.new 0)).2 = 0
    rw [entry_new]

theorem Inv.step (h : Inv s) (codec : Page.QuantCodec) {a : Action} (ha : Allowed s a)
    (hfit : Fits (s.step codec a)) : Inv (s.step codec a) := by
  have href := allReferenced h.counted
  cases a with
  | create => exact h.create
  | append seq n => exact h.final (append_good h.counted seq n) hfit.2
  | writeTokenKv seq position layers => exact h.final (writeTokenKv_good codec h.counted seq position layers) hfit.2
  | appendTokenKv seq layers => exact h.final (appendTokenKv_good codec h.counted seq layers) hfit.2
  | rewindTo seq position => exact h.final (rewindTo_good h.counted seq position) hfit.2
  | fork source position => exact h.fork source position hfit
  | applySlidingWindow seq w => exact h.final (applySlidingWindow_good h.counted seq w) hfit.2
  | applySlidingWindowWithSinks seq w n =>
    exact h.final (applySlidingWindowWithSinks_good h.counted seq w n) hfit.2
  | preemptSequence seq => exact h.moved (Ensures.final (preemptSequence_moved href seq))
  | restoreSequence seq => exact h.moved (Ensures.final (restoreSequence_moved href seq))
  | prefetch seq start stop => exact h.moved (Ensures.final (prefetch_moved href seq start stop))
  | evict target => exact h.moved (evict_moved target s.table)
  | remove seq =>
    obtain ⟨hc, hk⟩ := remove_counted h.counted seq
    exact ⟨hc, h.lends, fun j hj => hk j (h.numbered j hj)⟩
  | insertPages tokens ids =>
    obtain ⟨hempty, seq, r, hr, hids⟩ := ha
    exact h.insertPages hempty hr hids rfl hfit
  | lookupShared tokens => exact h.lookupShared codec tokens hfit
  | releaseShared b => exact h.releaseShared codec ha
  | evictLru target => exact evictLruLoop_inv target target [] h

/-- The runs in which the counts and the page ids stay in range. -/
def Reaches (codec : Page.QuantCodec) : System → Prop :=
  Reachable Initial (fun s a => Allowed s a ∧ Fits (s.step codec a)) (step codec)

/-- A table of one page with room for one token. -/
def small : System := ⟨⟨PageTable.build 1 1 none [] none, 0⟩, PrefixCache.new, []⟩

/-- `small` with one sequence of one token. -/
def single (codec : Page.QuantCodec) : System := (small.step codec .create).step codec (.append 0 1)

/-- `single` with `n` forks of the sequence. -/
def crowded (codec : Page.QuantCodec) : ℕ → System
  | 0 => single codec
  | n + 1 => (crowded codec n).step codec (.fork 0 1)

/-- A state with few references and few pages is in range. -/
theorem fits_of_small (hlen : s.table.sequences.total (fun r => r.pages.length) +
    s.prefixCache.root.allPages.length + s.borrowed.length ≤ u32Max) (hnext : s.table.nextPageId < u32Max) :
    Fits s := by
  refine ⟨fun id => ?_, hnext⟩
  have h₁ := s.table.seqRefs_le id
  have h₂ := count_le_length (a := id) (l := s.prefixCache.root.allPages)
  have h₃ := count_le_length (a := id) (l := s.borrowed)
  unfold references
  omega

theorem small_initial : Initial small := ⟨1, 1, none, [], none, none, by decide, rfl⟩

/-- Neither action of `single` reads the codec. -/
theorem single_eq (codec : Page.QuantCodec) : single codec =
    ⟨⟨final (append 0 1) small.cache.createSequence.2.pageTable, 1⟩, PrefixCache.new, []⟩ := rfl

theorem single_crowd (codec : Page.QuantCodec) :
    Crowd { Page.new 0 (.gpu 0) 1 [] none with filled := 1 } 0 (single codec).cache := by
  rw [single_eq]
  refine ⟨fun seq => ?_, ?_, ⟨2, ?_⟩, ?_, rfl⟩
  · cases seq with
    | zero | succ => rfl
  · decide +kernel
  · decide +kernel
  · decide +kernel

theorem crowded_crowd (codec : Page.QuantCodec) : ∀ n,
    Crowd { Page.new 0 (.gpu 0) 1 [] none with filled := 1 } n (crowded codec n).cache
  | 0 => single_crowd codec
  | n + 1 => (crowded_crowd codec n).fork

theorem crowded_reachable (codec : Page.QuantCodec) (n : ℕ) :
    Reachable Initial Allowed (step codec) (crowded codec n) := by
  induction n with
  | zero =>
    have hcreate : Reachable Initial Allowed (step codec) (small.step codec .create) :=
      Reachable.next (a := Action.create) (.start small_initial) trivial
    exact Reachable.next (a := Action.append 0 1) hcreate trivial
  | succ n ih => exact Reachable.next (a := Action.fork 0 1) ih trivial

/-- With more references than a `u32` can count, some are not counted. -/
theorem crowded_not_conserved (codec : Page.QuantCodec) {n : ℕ} (hn : u32Max ≤ n) :
    ¬ Conserved (crowded codec n) := by
  intro h
  have hc := crowded_crowd codec n
  obtain ⟨a, hp⟩ := hc.page
  have hcount := h.counted 0 _ hp
  have hrefs : (crowded codec n).table.seqRefs 0 = n + 1 := hc.refs
  unfold references at hcount
  simp only at hcount
  omega

/-- **Conservation.** In every state of every run that stays in the range of a `u32`, a
page's count is the number of references to it, the free lists hold exactly the pages
without one, and what is referenced has a count above zero. -/
theorem references_conserved (codec : Page.QuantCodec) {s : System} (h : Reaches codec s) : Conserved s :=
  (h.invariant (fun _ => Inv.initial) fun _ _ hi ha => hi.step codec ha.1 ha.2).conserved

/-- The counts after `create` and `append`. -/
theorem references_conserved_single : Conserved (single noCodec) := by
  have hcreate : Reaches noCodec (small.step noCodec .create) := by
    refine Reachable.next (a := Action.create) (.start small_initial) ⟨trivial, ?_⟩
    exact fits_of_small (zero_le u32Max) (show 1 < u32Max by decide)
  refine references_conserved noCodec (Reachable.next (a := Action.append 0 1) hcreate ⟨trivial, ?_⟩)
  refine fits_of_small ?_ ?_
  · decide +kernel
  · decide +kernel

/-- Out of the range of a `u32` references are lost: of the `2 ^ 32 + 1` references to the
page of a sequence that was forked `2 ^ 32` times, `u32::MAX` are counted. -/
theorem forked_beyond_u32 : ∃ s, Reachable Initial Allowed (step noCodec) s ∧ ¬ Conserved s :=
  ⟨crowded noCodec (2 ^ 32), crowded_reachable noCodec _, crowded_not_conserved noCodec (by decide)⟩

end System

end OnnxGenai.Kv
