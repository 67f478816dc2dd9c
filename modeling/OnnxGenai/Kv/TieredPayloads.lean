import OnnxGenai.Kv.LocalTiered
import OnnxGenai.Kv.Tiers
import OnnxGenai.Lib.Runs

/-!
# What a fetch returns

The payload of a chunk is in its entry or, after a spill, in the backing store, and no operation
loses or changes it: every operation leaves each chunk as it is or drops it, but for the chunk
that `store` makes or refreshes (`KeptOrDropped`). So a fetch returns the payload of the store that made the
chunk.

That need not be the store that made the chunk *live*. `store` looks only at whether the key has
an entry, not at whether the entry has expired, so a store after the time-to-live has elapsed
revives the expired entry with its old payload (`expired_payload_revived`). The payloads agree if a
store of a key that has an entry, even an expired one, brings the payload of the entry.
-/

namespace OnnxGenai.Kv

open Lib Option FiniteMap

/-- What a spill does not change of an entry. -/
def ChunkEntry.hints (entry : ChunkEntry) : ChunkEntry := { entry with payload := none }

theorem ChunkEntry.isExpired_of_hints {e e' : ChunkEntry} (h : e'.hints = e.hints) (now : ℕ) :
    e'.isExpired now = e.isExpired now := by
  have httl : e'.hints.ttl = e.hints.ttl := by rw [h]
  have hstored : e'.hints.storedAt = e.hints.storedAt := by rw [h]
  simp only [hints] at httl hstored
  simp only [isExpired, httl, hstored]

/-- An entry that is expired when it is stored is expired at any time. -/
theorem ChunkEntry.isExpired_of_storedAt {e : ChunkEntry} (h : e.isExpired e.storedAt = true) (now : ℕ) :
    e.isExpired now = true := by
  unfold isExpired at h ⊢
  cases httl : e.ttl with
  | none =>
    rw [httl] at h
    cases h
  | some duration =>
    rw [httl] at h
    simp only [Nat.sub_self, decide_eq_true_eq] at h ⊢
    omega

namespace Interior

/-- The payload the connector has for a key, in memory or in the backing store. -/
def payloadOf (s : Interior) (key : KvCacheKey) : Option KvPayload :=
  (s.chunks.lookup key).bind fun entry =>
    entry.payload.or (s.backingStore.bind fun store => store.payloads.lookup key)

/-- There is an entry for the key that has not expired. -/
def live (s : Interior) (key : KvCacheKey) (now : ℕ) : Bool :=
  (s.chunks.lookup key).any fun entry => !entry.isExpired now

/-! ### Chunks are kept or dropped -/

/-- The chunk of `key` is as it was, wherever its payload is. -/
structure KeptAt (s s' : Interior) (key : KvCacheKey) : Prop where
  hints : (s'.chunks.lookup key).map ChunkEntry.hints = (s.chunks.lookup key).map ChunkEntry.hints
  payload : s'.payloadOf key = s.payloadOf key

/-- Each chunk is as it was, or dropped. -/
def KeptOrDropped (s s' : Interior) : Prop := ∀ key, s'.chunks.lookup key = none ∨ KeptAt s s' key

theorem KeptOrDropped.refl (s : Interior) : KeptOrDropped s s := fun _ => .inr ⟨rfl, rfl⟩

variable {s s' : Interior} {key : KvCacheKey}

theorem KeptAt.of_lookup (hchunks : s'.chunks.lookup key = s.chunks.lookup key)
    (hstore : (s'.backingStore.bind fun store => store.payloads.lookup key) =
      s.backingStore.bind fun store => store.payloads.lookup key) : KeptAt s s' key :=
  ⟨by rw [hchunks], by rw [payloadOf, payloadOf, hchunks, hstore]⟩

theorem KeptOrDropped.trans {t u : Interior} (h : KeptOrDropped s t) (h' : KeptOrDropped t u) :
    KeptOrDropped s u := by
  intro key
  rcases h' key with hnone | ⟨hhints', hpayload'⟩
  · exact .inl hnone
  · rcases h key with hnone | ⟨hhints, hpayload⟩
    · left
      rw [hnone] at hhints'
      exact map_eq_none_iff.mp hhints'
    · exact .inr ⟨hhints'.trans hhints, hpayload'.trans hpayload⟩

/-- Only pages, the index and the pins changed. -/
structure SameChunks (s s' : Interior) : Prop where
  chunks : s'.chunks = s.chunks
  backingStore : s'.backingStore = s.backingStore

theorem SameChunks.refl (s : Interior) : SameChunks s s := ⟨rfl, rfl⟩

theorem SameChunks.trans {t u : Interior} (h : SameChunks s t) (h' : SameChunks t u) : SameChunks s u :=
  ⟨h'.chunks.trans h.chunks, h'.backingStore.trans h.backingStore⟩

theorem SameChunks.kept (h : SameChunks s s') : KeptOrDropped s s' :=
  fun _ => .inr (.of_lookup (by rw [h.chunks]) (by rw [h.backingStore]))

/-- An operation on pages; if it fails, it is not for want of a chunk. -/
def OnlyPages {α : Type} (x : ConnectorM α) (s : Interior) : Prop :=
  Ensures x s (fun _ s' => SameChunks s s') fun error s' => error ≠ .notFound ∧ SameChunks s s'

theorem OnlyPages.bind {α β : Type} {x : ConnectorM α} {f : α → ConnectorM β} (h : OnlyPages x s)
    (hf : ∀ a t, OnlyPages (f a) t) : OnlyPages (x >>= f) s := by
  refine Ensures.bind (h.mono (fun a t ht => ?_) fun _ _ he => he)
  exact (hf a t).mono (fun _ _ h' => ht.trans h') fun _ _ he => ⟨he.1, ht.trans he.2⟩

theorem liftTable_pages {α : Type} (x : TableM α) (s : Interior) : OnlyPages (liftTable x) s := by
  unfold OnlyPages Ensures liftTable
  cases x s.pageTable with
  | ok a t => exact ⟨rfl, rfl⟩
  | error error t => exact ⟨(fun h => nomatch h), rfl, rfl⟩

theorem demoteOne_pages (incoming : CachePriority) (s : Interior) : OnlyPages (demoteOne incoming) s := by
  refine Ensures.bind (Ensures.get ?_)
  cases s.demotionVictim incoming with
  | none => exact SameChunks.refl s
  | some id => exact (liftTable_pages _ s).bind fun _ t => SameChunks.refl t

theorem allocatePage_pages (s : Interior) : OnlyPages allocatePage s := by
  unfold OnlyPages Ensures allocatePage
  cases s.pageTable.allocate (.gpu 0) with
  | mk id t =>
    cases id with
    | none => exact ⟨(fun h => nomatch h), rfl, rfl⟩
    | some id => exact ⟨rfl, rfl⟩

theorem allocateHot_pages (priority : CachePriority) (policy : RuntimeTieringPolicy) (s : Interior) :
    OnlyPages (allocateHot priority policy) s := by
  refine Ensures.bind (Ensures.get ?_)
  split
  · exact (demoteOne_pages priority s).bind fun _ t => allocatePage_pages t
  · exact allocatePage_pages s

theorem allocatePages_pages (priority : CachePriority) (policy : RuntimeTieringPolicy) (n : ℕ) (pages : List PageId)
    (s : Interior) : OnlyPages (allocatePages priority policy n pages) s := by
  induction n generalizing pages s with
  | zero => exact SameChunks.refl s
  | succ n ih =>
    refine Ensures.bind (Ensures.attempt ?_)
    refine (allocateHot_pages priority policy s).mono (fun id t ht => ?_) fun error t ht => ?_
    · exact (ih _ t).mono (fun _ _ h => ht.trans h) fun _ _ h => ⟨h.1, ht.trans h.2⟩
    · exact .bind (.modify (.throw ⟨ht.1, ht.2.chunks, ht.2.backingStore⟩))

/-- Dropping a chunk leaves the others. -/
theorem dropChunk_kept (s : Interior) (key : KvCacheKey) : KeptOrDropped s (s.dropChunk key).2 := by
  unfold dropChunk
  cases hentry : s.chunks.lookup key with
  | none => exact KeptOrDropped.refl s
  | some entry =>
    intro k
    by_cases hk : k = key
    · subst hk
      exact .inl (AList.lookup_erase _ _)
    · refine .inr (.of_lookup (AList.lookup_erase_ne hk) ?_)
      cases s.backingStore with
      | none => rfl
      | some store => exact AList.lookup_erase_ne hk

theorem dropChunk_lookup (s : Interior) (key : KvCacheKey) : (s.dropChunk key).2.chunks.lookup key = none := by
  unfold dropChunk
  cases hentry : s.chunks.lookup key with
  | none => exact hentry
  | some entry => exact AList.lookup_erase _ _

theorem dropExpired_kept (s : Interior) (key : KvCacheKey) (now : ℕ) : KeptOrDropped s (s.dropExpired key now) := by
  unfold dropExpired
  split
  · exact dropChunk_kept s key
  · exact KeptOrDropped.refl s

theorem dropExpired_of_live {now : ℕ} (h : s.live key now = true) : s.dropExpired key now = s := by
  cases hentry : s.chunks.lookup key with
  | none => simp [dropExpired, hentry]
  | some entry =>
    simp only [live, hentry, any_some, Bool.not_eq_true_eq_eq_false] at h
    simp [dropExpired, hentry, h]

/-- A chunk that is not live is gone once its expiry was checked. -/
theorem lookup_dropExpired {now : ℕ} (h : s.live key now = false) :
    (s.dropExpired key now).chunks.lookup key = none := by
  cases hentry : s.chunks.lookup key with
  | none => simp [dropExpired, hentry]
  | some entry =>
    simp only [live, hentry, any_some, Bool.not_eq_eq_eq_not, Bool.not_false] at h
    simp [dropExpired, hentry, h, dropChunk_lookup]

theorem evictLoop_kept (policy : RuntimeTieringPolicy) (fuel : ℕ) (s : Interior) :
    KeptOrDropped s (evictLoop policy fuel s) := by
  induction fuel generalizing s with
  | zero => exact KeptOrDropped.refl s
  | succ fuel ih =>
    unfold evictLoop
    split
    · cases s.evictionVictim policy with
      | none => exact KeptOrDropped.refl s
      | some key => exact (dropChunk_kept s key).trans (ih _)
    · exact KeptOrDropped.refl s

/-- A payload that may be spilled is in memory. -/
theorem spillablePayload_some {policy : RuntimeTieringPolicy} {payload : KvPayload}
    (h : s.spillablePayload policy key = some payload) :
    ∃ entry, s.chunks.lookup key = some entry ∧ entry.payload = some payload := by
  unfold spillablePayload at h
  cases hlookup : s.chunks.lookup key with
  | none =>
    rw [hlookup] at h
    cases h
  | some entry =>
    rw [hlookup] at h
    dsimp only at h
    split at h
    · exact ⟨entry, rfl, h⟩
    · cases h

section Spill

variable {s : Interior} {key : KvCacheKey} {entry : ChunkEntry} {payload : KvPayload} {store store' : BackingStore}

section

variable (hstore : s.backingStore = some store) (hlookup : s.chunks.lookup key = some entry) (hentry : entry.payload = some payload) (hother : ∀ k, k ≠ key → store'.payloads.lookup k = store.payloads.lookup k)

include hstore hlookup hentry hother

/-- While a payload is in memory, it does not matter what is stored under its key. -/
theorem kept_of_resident : KeptOrDropped s { s with backingStore := some store' } := by
  intro k
  by_cases hk : k = key
  · subst hk
    exact .inr ⟨rfl, by simp [payloadOf, hlookup, hentry]⟩
  · exact .inr (.of_lookup rfl (by simp only [hstore, bind_some, hother k hk]))

/-- Once a payload is stored, it need not be in memory. -/
theorem kept_of_stored (hwritten : store'.payloads.lookup key = some payload) : KeptOrDropped s { s with
      chunks := FiniteMap.adjust s.chunks key fun entry => { entry with payload := none }
      backingStore := some store' } := by
  intro k
  by_cases hk : k = key
  · subst hk
    refine .inr ⟨?_, ?_⟩
    · simp only [lookup_adjust_self, hlookup, map_some]
      rfl
    · simp [payloadOf, hlookup, hentry, hwritten]
  · exact .inr (.of_lookup (lookup_adjust_ne _ _ hk) (by simp only [hstore, bind_some, hother k hk]))

end

end Spill

/-- **A spill moves a payload and keeps it.** If the write fails, the payload is still in memory. -/
theorem spillChunk_kept (policy : RuntimeTieringPolicy) (key : KvCacheKey) (s : Interior) :
    Stays KeptOrDropped (spillChunk policy key) s := by
  unfold Stays Ensures spillChunk
  cases hstore : s.backingStore with
  | none => exact KeptOrDropped.refl s
  | some store =>
    cases hpayload : s.spillablePayload policy key with
    | none => exact KeptOrDropped.refl s
    | some payload =>
      obtain ⟨entry, hlookup, hentry⟩ := spillablePayload_some hpayload
      have hother : ∀ k, k ≠ key → (store.write key payload).2.payloads.lookup k = store.payloads.lookup k :=
        fun k hk => BackingStore.lookup_write hk
      have hwritten := @BackingStore.lookup_write_ok store key payload
      dsimp only
      generalize store.write key payload = written at hother hwritten
      obtain ⟨message | _, store'⟩ := written
      · exact kept_of_resident hstore hlookup hentry hother
      · exact kept_of_stored hstore hlookup hentry hother (hwritten rfl)

theorem spillColdPayloads_kept (policy : RuntimeTieringPolicy) (s : Interior) :
    Stays KeptOrDropped (spillColdPayloads policy) s :=
  Ensures.bind (Ensures.get (Stays.each KeptOrDropped.refl KeptOrDropped.trans (spillChunk_kept policy) _ s))

end Interior

namespace LocalTieredConnector

open Interior

variable (config : LocalTieredConfig)

/-! ### Each method -/

theorem promotePage_pages (priority : CachePriority) (id : PageId) (s : Interior) :
    OnlyPages (promotePage config priority id) s := by
  have htouch : ∀ t : Interior, OnlyPages
      (modify fun s : Interior => { s with pageTable := s.pageTable.touch id } : ConnectorM PUnit) t :=
    fun t => .modify ⟨rfl, rfl⟩
  refine Ensures.bind (Ensures.get ?_)
  split
  · exact htouch s
  · split
    · exact (demoteOne_pages priority s).bind fun _ t => (liftTable_pages _ t).bind fun _ u => htouch u
    · exact (liftTable_pages _ s).bind fun _ t => htouch t

theorem promoteAll_pages (priority : CachePriority) (ids : List PageId) (s : Interior) :
    OnlyPages (each (promotePage config priority) ids) s := by
  refine .each (I := fun _ t => SameChunks s t) (fun id ids t ht => ?_) ids s (SameChunks.refl s)
  exact (promotePage_pages config priority id t).mono (fun _ _ h => ht.trans h) fun _ _ he => ⟨he.1, ht.trans he.2⟩

/-- Reading a spilled payload. -/
theorem readCold_ensures {key : KvCacheKey} {s : Interior} :
    Ensures (readCold key) s
      (fun payload s' => (∃ store, s.backingStore = some store ∧ store.payloads.lookup key = some payload) ∧
        KeptOrDropped s s')
      fun error s' => error ≠ .notFound ∧ KeptOrDropped s s' := by
  unfold Ensures readCold
  cases hstore : s.backingStore with
  | none => exact ⟨(fun h => nomatch h), KeptOrDropped.refl s⟩
  | some store =>
    have hkept : KeptOrDropped s { s with backingStore := some (store.read key).2 } := fun k =>
      .inr (.of_lookup rfl (by simp only [hstore, bind_some, BackingStore.payloads_read]))
    have hread := @BackingStore.read_ok store key
    dsimp only
    generalize store.read key = result at hkept hread
    obtain ⟨message | payload, store'⟩ := result
    · exact ⟨(fun h => nomatch h), hkept⟩
    · exact ⟨⟨store, rfl, hread rfl⟩, hkept⟩

/-- **What `fetch` returns**: the payload of a live chunk, and `NotFound` exactly without one. -/
theorem fetch_ensures (key : KvCacheKey) (target : Device) (now : ℕ) (s : Interior) :
    Ensures (fetch config key target now) s
      (fun fetched s' => s.live key now = true ∧ s.payloadOf key = some fetched.payload ∧ KeptOrDropped s s')
      fun error s' => (error = .notFound ↔ s.live key now = false) ∧ KeptOrDropped s s' := by
  refine .bind (.modify (.bind (.get (.bind ?_))))
  cases hlive : s.live key now with
  | false =>
    refine .getOr (fun entry hentry => ?_) fun _ => ⟨by simp, dropExpired_kept s key now⟩
    rw [lookup_dropExpired hlive] at hentry
    cases hentry
  | true =>
    rw [dropExpired_of_live hlive]
    refine .getOr (fun entry hentry => ?_) fun hnone => ?_
    · -- the rest of the method moves pages
      have hrest : ∀ payload t, s.payloadOf key = some payload → KeptOrDropped s t →
          Ensures (do
            if target.isGpu then
              each (promotePage config entry.priority) entry.pageIds
            return ⟨key, entry.pageIds, payload⟩ : ConnectorM FetchedKv) t
            (fun fetched s' => true = true ∧ s.payloadOf key = some fetched.payload ∧ KeptOrDropped s s')
            fun error s' => (error = .notFound ↔ true = false) ∧ KeptOrDropped s s' := by
        intro payload t hpayload ht
        split
        · refine .bind ((promoteAll_pages config entry.priority entry.pageIds t).mono (fun _ u hu => ?_)
            fun error u hu => ⟨by simp [hu.1], ht.trans hu.2.kept⟩)
          exact ⟨rfl, hpayload, ht.trans hu.kept⟩
        · exact ⟨rfl, hpayload, ht⟩
      cases hresident : entry.payload with
      | some payload => exact hrest payload s (by simp [payloadOf, hentry, hresident]) (KeptOrDropped.refl s)
      | none =>
        refine .bind (readCold_ensures.mono (fun payload t ht => ?_) fun error t ht => ⟨by simp [ht.1], ht.2⟩)
        obtain ⟨⟨store, hstore, hstored⟩, ht⟩ := ht
        exact hrest payload t (by simp [payloadOf, hentry, hresident, hstore, hstored]) ht
    · simp [live, hnone] at hlive

theorem prefetchLoop_same (priority : CachePriority) (ids : List PageId) (s : Interior) :
    SameChunks s (prefetchLoop config priority ids s) := by
  have hmigrate : ∀ id (t : Interior), SameChunks t (final (liftTable (PageTable.migratePage id (.gpu 0))) t) :=
    fun id t => Ensures.final ((liftTable_pages _ t).mono (fun _ _ h => h) fun _ _ h => h.2)
  induction ids generalizing s with
  | nil => exact SameChunks.refl s
  | cons id ids ih =>
    unfold prefetchLoop
    split
    · exact ih s
    · dsimp only
      split
      · rcases (demoteOne_pages priority s).outcome with ⟨_, t, hresult, hdemote⟩ | ⟨_, t, hresult, -, hdemote⟩
        · rw [hresult]
          dsimp only
          split
          · exact hdemote
          · exact hdemote.trans ((hmigrate id t).trans (ih _))
        · rw [hresult]
          exact hdemote
      · exact (hmigrate id s).trans (ih _)

theorem prefetch_kept (s : Interior) (key : KvCacheKey) (target : Device) :
    KeptOrDropped s (prefetch config s key target) := by
  unfold prefetch
  split
  · cases s.chunks.lookup key with
    | none => exact KeptOrDropped.refl s
    | some entry =>
      exact (prefetchLoop_same config _ _ s).kept.trans (Ensures.final (spillColdPayloads_kept _ _))
  · exact KeptOrDropped.refl s

theorem dropAll_kept (keys : List KvCacheKey) (s : Interior) :
    KeptOrDropped s (keys.foldl (fun s key => (s.dropChunk key).2) s) := by
  induction keys generalizing s with
  | nil => exact KeptOrDropped.refl s
  | cons key keys ih => exact (dropChunk_kept s key).trans (ih _)

theorem evict_kept (key : KvCacheKey) (s : Interior) : KeptOrDropped s (final (evict key) s) := by
  have hdrop := dropChunk_kept s key
  unfold final evict
  generalize s.dropChunk key = dropped at hdrop ⊢
  obtain ⟨found, t⟩ := dropped
  cases found <;> exact hdrop

theorem pagesOf_same (entry : KvStoreEntry) (s : Interior) :
    Ensures (pagesOf config entry) s (fun _ s' => SameChunks s s') fun _ s' => SameChunks s s' := by
  refine .bind (.get ?_)
  dsimp only
  split
  · exact .bind (.modify (.pure ⟨rfl, rfl⟩))
  · refine .bind ((allocatePages_pages _ _ _ _ s).mono (fun pages t ht => ?_) fun _ _ he => he.2)
    exact .bind (.modify ⟨ht.chunks, ht.backingStore⟩)

/-- What a `store` does. -/
inductive Stored (entry : KvStoreEntry) (now : ℕ) (s : Interior) : Interior → Prop where
  /-- It made no chunk. -/
  | nothing {s' : Interior} (h : KeptOrDropped s s') : Stored entry now s s'
  /-- The key had a chunk. -/
  | refreshed {existing : ChunkEntry} (h : s.chunks.lookup entry.key = some existing) :
      Stored entry now s { s with chunks := s.chunks.insert entry.key (refresh existing entry now) }
  /-- It made a chunk, and perhaps dropped it again. -/
  | created (pageIds : List PageId) {t s' : Interior} (hnew : s.chunks.lookup entry.key = none)
      (hchunks : t.chunks = s.chunks.insert entry.key (newChunk entry pageIds now))
      (hbacking : t.backingStore = s.backingStore) (h : KeptOrDropped t s') : Stored entry now s s'

theorem store_stored (entry : KvStoreEntry) (now : ℕ) (s : Interior) :
    Stored entry now s (final (store config entry now) s) := by
  refine Ensures.final (Ensures.bind (Ensures.require (fun _ => ?_) fun _ => .nothing (KeptOrDropped.refl s)))
  refine Ensures.bind (Ensures.require (fun _ => ?_) fun _ => .nothing (KeptOrDropped.refl s))
  refine .bind (.get ?_)
  cases hentry : s.chunks.lookup entry.key with
  | some existing => exact .set (.refreshed hentry)
  | none =>
    refine .bind ((pagesOf_same config entry s).mono (fun pageIds t ht => ?_) fun _ t ht => .nothing ht.kept)
    refine .bind (.modify ?_)
    have hmade : ∀ s', KeptOrDropped { t with chunks := t.chunks.insert entry.key (newChunk entry pageIds now) } s' →
        Stored entry now s s' := by
      intro s' h
      refine .created pageIds hentry ?_ ?_ h
      · rw [ht.chunks]
      · exact ht.backingStore
    refine .bind ((spillColdPayloads_kept config.runtimePolicy _).mono (fun _ u hu => ?_) fun _ u hu => hmade u hu)
    exact .modify (hmade _ (hu.trans (evictLoop_kept _ _ u)))

/-! ### Runs -/

/-- The operations of a connector; those that read the clock say what it shows. -/
inductive Operation where
  | store (entry : KvStoreEntry) (now : ℕ)
  | fetch (key : KvCacheKey) (target : Device) (now : ℕ)
  | prefetch (key : KvCacheKey) (target : Device)
  | lookup (key : KvCacheKey) (now : ℕ)
  | lookupBatch (keys : List KvCacheKey) (now : ℕ)
  | pin (key : KvCacheKey)
  | unpin (key : KvCacheKey)
  | evict (key : KvCacheKey)

/-- The state after an operation, whether or not it failed. -/
def perform (s : Interior) : Operation → Interior
  | .store entry now => final (store config entry now) s
  | .fetch key target now => final (fetch config key target now) s
  | .prefetch key target => prefetch config s key target
  | .lookup key now => final (lookup config key now) s
  | .lookupBatch keys now => final (lookupBatch config keys now) s
  | .pin key => final (pin key) s
  | .unpin key => final (unpin key) s
  | .evict key => final (evict key) s

theorem pin_kept (key : KvCacheKey) (s : Interior) : KeptOrDropped s (final (pin key) s) := by
  refine Ensures.final (Ensures.bind (Ensures.get (Ensures.bind (Ensures.require (fun _ => ?_) fun _ => ?_))))
  · exact Ensures.set (SameChunks.kept ⟨rfl, rfl⟩)
  · exact KeptOrDropped.refl s

theorem unpin_kept (key : KvCacheKey) (s : Interior) : KeptOrDropped s (final (unpin key) s) := by
  refine Ensures.final (Ensures.bind (Ensures.get (Ensures.bind (Ensures.require (fun _ => ?_) fun _ => ?_))))
  · exact Ensures.set (SameChunks.kept ⟨rfl, rfl⟩)
  · exact KeptOrDropped.refl s

/-- Every operation but `store` keeps or drops each chunk. -/
theorem perform_kept (s : Interior) {op : Operation} (hop : ∀ entry now, op ≠ .store entry now) :
    KeptOrDropped s (perform config s op) := by
  cases op with
  | store entry now => exact absurd rfl (hop entry now)
  | fetch key target now =>
    exact Ensures.final ((fetch_ensures config key target now s).mono (fun _ _ h => h.2.2) fun _ _ h => h.2)
  | prefetch key target => exact prefetch_kept config s key target
  | lookup key now => exact dropExpired_kept s key now
  | lookupBatch keys now => exact dropAll_kept _ s
  | pin key => exact pin_kept key s
  | unpin key => exact unpin_kept key s
  | evict key => exact evict_kept key s

end LocalTieredConnector

/-- A connector, and for each key the payload of the store that made its chunk live. -/
structure TieredHistory where
  connector : LocalTieredConnector
  created : KvCacheKey → Option KvPayload

namespace TieredHistory

open Interior LocalTieredConnector

/-- The payload of a store that makes a chunk live is recorded. -/
def record (created : KvCacheKey → Option KvPayload) (s s' : Interior) : Operation → KvCacheKey → Option KvPayload
  | .store entry now =>
    if s.live entry.key now = false ∧ s'.live entry.key now = true then
      Function.update created entry.key (some entry.kvData)
    else created
  | _ => created

def step (h : TieredHistory) (op : Operation) : TieredHistory :=
  let s' := perform h.connector.config h.connector.inner op
  ⟨{ h.connector with inner := s' }, record h.created h.connector.inner s' op⟩

/-- A new connector. -/
def Initial (h : TieredHistory) : Prop :=
  ∃ config backingStore, LocalTieredConnector.new config backingStore = .ok h.connector ∧ h.created = fun _ => none

/-- A store of a live key brings the payload of the store that made it live. -/
def SameIfLive (h : TieredHistory) : Operation → Prop
  | .store entry now =>
    h.connector.inner.live entry.key now = true → h.created entry.key = some entry.kvData
  | _ => True

/-- A store of a key that has an entry, live or not, brings the payload of the entry. -/
def SameIfPresent (h : TieredHistory) : Operation → Prop
  | .store entry _ => (h.connector.inner.payloadOf entry.key).all (fun payload => entry.kvData = payload) = true
  | _ => True

instance (h : TieredHistory) (op : Operation) : Decidable (h.SameIfLive op) := by
  unfold SameIfLive
  split <;> infer_instance

instance (h : TieredHistory) (op : Operation) : Decidable (h.SameIfPresent op) := by
  unfold SameIfPresent
  split <;> infer_instance

/-- A chunk has a payload, and if it can be live, the recorded one. -/
def FaithfulAt (recorded : Option KvPayload) (s : Interior) (key : KvCacheKey) : Prop :=
  ∀ entry, s.chunks.lookup key = some entry → ∃ payload, s.payloadOf key = some payload ∧
    ((∃ now, entry.isExpired now = false) → recorded = some payload)

variable {key : KvCacheKey}

theorem FaithfulAt.kept {recorded : Option KvPayload} {s s' : Interior} (h : FaithfulAt recorded s key)
    (hkept : s'.chunks.lookup key = none ∨ KeptAt s s' key) : FaithfulAt recorded s' key := by
  intro entry' hentry'
  rcases hkept with hnone | ⟨hhints, hpayload⟩
  · rw [hnone] at hentry'
    cases hentry'
  · rw [hentry', map_some] at hhints
    obtain ⟨entry, hentry, heq⟩ := map_eq_some_iff.mp hhints.symm
    obtain ⟨payload, hp, hrecorded⟩ := h entry hentry
    refine ⟨payload, hpayload.trans hp, fun hlive => hrecorded ?_⟩
    obtain ⟨now, hnow⟩ := hlive
    exact ⟨now, by rw [ChunkEntry.isExpired_of_hints heq]; exact hnow⟩

/-- A chunk that was kept is live if it was. -/
theorem live_of_kept {s s' : Interior} (h : KeptOrDropped s s') {now : ℕ} (hlive : s'.live key now = true) :
    s.live key now = true := by
  unfold live at hlive ⊢
  rcases h key with hnone | ⟨hhints, _⟩
  · rw [hnone] at hlive
    cases hlive
  · obtain ⟨entry', hentry', hexpired⟩ := (any_eq_true _ _).mp hlive
    rw [hentry', map_some] at hhints
    obtain ⟨entry, hentry, heq⟩ := map_eq_some_iff.mp hhints.symm
    rw [hentry, any_some, ChunkEntry.isExpired_of_hints heq]
    exact hexpired

section Store

variable {created : KvCacheKey → Option KvPayload} {s s' : Interior} {entry : KvStoreEntry} {now : ℕ}

theorem record_of_ne (h : key ≠ entry.key) : record created s s' (.store entry now) key = created key := by
  simp only [record]
  split
  · exact Function.update_of_ne h _ _
  · rfl

theorem record_of_made_live (h : s.live entry.key now = false) (h' : s'.live entry.key now = true) :
    record created s s' (.store entry now) entry.key = some entry.kvData := by
  simp only [record]
  rw [if_pos ⟨h, h'⟩]
  exact Function.update_self ..

theorem record_of_not (h : ¬ (s.live entry.key now = false ∧ s'.live entry.key now = true)) :
    record created s s' (.store entry now) = created := by
  simp only [record]
  rw [if_neg h]

theorem live_of_refreshed {entry' : ChunkEntry} (h : s'.chunks.lookup entry.key = some entry')
    (hstored : entry'.storedAt = now) (hlive : ∃ n, entry'.isExpired n = false) : s'.live entry.key now = true := by
  obtain ⟨n, hn⟩ := hlive
  unfold live
  rw [h, any_some, Bool.not_eq_true_eq_eq_false, ← hstored]
  by_contra hexpired
  rw [ChunkEntry.isExpired_of_storedAt (eq_true_of_ne_false hexpired)] at hn
  cases hn

/-- A refreshed chunk keeps its payload. -/
theorem payloadOf_refresh {existing : ChunkEntry} (h : s.chunks.lookup entry.key = some existing) (key : KvCacheKey) :
    payloadOf { s with chunks := s.chunks.insert entry.key (refresh existing entry now) } key = s.payloadOf key := by
  unfold payloadOf
  rw [lookup_insert']
  split
  · rename_i hkey
    subst hkey
    rw [h]
    rfl
  · rfl

section

variable (h : ∀ key, FaithfulAt (created key) s key)

include h

theorem faithful_refreshed {existing : ChunkEntry} (hexisting : s.chunks.lookup entry.key = some existing)
    (hsame : ∀ payload, s.payloadOf entry.key = some payload → entry.kvData = payload) (key : KvCacheKey)
    (hs' : s' = { s with chunks := s.chunks.insert entry.key (refresh existing entry now) }) :
    FaithfulAt (record created s s' (.store entry now) key) s' key := by
  have hpayload : s'.payloadOf key = s.payloadOf key := by rw [hs', payloadOf_refresh hexisting]
  have hchunks : s'.chunks.lookup key = if key = entry.key then some (refresh existing entry now) else
      s.chunks.lookup key := by rw [hs']; exact lookup_insert' _ _ _ _
  by_cases hkey : key = entry.key
  · subst hkey
    rw [if_pos rfl] at hchunks
    obtain ⟨payload, hp, hrecorded⟩ := h entry.key existing hexisting
    intro entry' hentry'
    rw [hchunks] at hentry'
    cases hentry'
    refine ⟨payload, hpayload.trans hp, fun hcan => ?_⟩
    have hlive' := live_of_refreshed hchunks rfl hcan
    cases hlive : s.live entry.key now with
    | false => rw [record_of_made_live hlive hlive', hsame payload hp]
    | true =>
      rw [record_of_not (by simp [hlive])]
      unfold live at hlive
      rw [hexisting, any_some, Bool.not_eq_true_eq_eq_false] at hlive
      exact hrecorded ⟨now, hlive⟩
  · rw [if_neg hkey] at hchunks
    rw [record_of_ne hkey]
    exact (h key).kept (.inr ⟨by rw [hchunks], hpayload⟩)

theorem faithful_created {pageIds : List PageId} {t : Interior} (hnew : s.chunks.lookup entry.key = none)
    (hchunks : t.chunks = s.chunks.insert entry.key (newChunk entry pageIds now))
    (hbacking : t.backingStore = s.backingStore) (hkept : KeptOrDropped t s') (key : KvCacheKey) :
    FaithfulAt (record created s s' (.store entry now) key) s' key := by
  by_cases hkey : key = entry.key
  · subst hkey
    have hlookup : t.chunks.lookup entry.key = some (newChunk entry pageIds now) := by
      rw [hchunks]
      exact AList.lookup_insert _
    have hdead : s.live entry.key now = false := by
      unfold live
      rw [hnew]
      rfl
    intro entry' hentry'
    rcases hkept entry.key with hnone | hkept
    · rw [hnone] at hentry'
      cases hentry'
    · have hpayload : s'.payloadOf entry.key = some entry.kvData := by
        rw [hkept.payload, payloadOf, hlookup]
        rfl
      have hhints := hkept.hints
      rw [hentry', hlookup, map_some, map_some, some_inj] at hhints
      have hstored : entry'.hints.storedAt = now := by rw [hhints]; rfl
      refine ⟨entry.kvData, hpayload, fun hcan => ?_⟩
      exact record_of_made_live hdead (live_of_refreshed hentry' hstored hcan)
  · rw [record_of_ne hkey]
    have hlookup : t.chunks.lookup key = s.chunks.lookup key := by
      rw [hchunks]
      exact AList.lookup_insert_ne hkey
    exact ((h key).kept (.inr (.of_lookup hlookup (by rw [hbacking])))).kept (hkept key)

/-- **A store keeps the record**, if it brings the payload of the entry it finds. -/
theorem faithful_store (hstored : Stored entry now s s')
    (hsame : ∀ payload, s.payloadOf entry.key = some payload → entry.kvData = payload) (key : KvCacheKey) :
    FaithfulAt (record created s s' (.store entry now) key) s' key := by
  cases hstored with
  | nothing hkept =>
    rw [record_of_not fun hnot => ?_]
    · exact (h key).kept (hkept key)
    · have hlive := live_of_kept hkept hnot.2
      rw [hnot.1] at hlive
      cases hlive
  | refreshed hexisting => exact faithful_refreshed h hexisting hsame key rfl
  | created pageIds hnew hchunks hbacking hkept => exact faithful_created h hnew hchunks hbacking hkept key

end

end Store

/-- The chunks of a history have the recorded payloads. -/
def Faithful (h : TieredHistory) : Prop := ∀ key, FaithfulAt (h.created key) h.connector.inner key

theorem Faithful.initial {h : TieredHistory} (hi : h.Initial) : h.Faithful := by
  obtain ⟨config, backingStore, hnew, _⟩ := hi
  have hempty : h.connector.inner.chunks = ∅ := by
    unfold LocalTieredConnector.new at hnew
    split at hnew
    · cases hnew
    · cases hnew
    · simp only [Except.ok.injEq] at hnew
      rw [← hnew]
  intro key entry hentry
  rw [hempty] at hentry
  cases hentry

theorem Faithful.step {h : TieredHistory} (hf : h.Faithful) {op : Operation} (hop : h.SameIfPresent op) :
    (h.step op).Faithful := by
  cases op with
  | store entry now =>
    refine faithful_store hf (store_stored _ entry now _) fun payload hpayload => ?_
    simp only [SameIfPresent] at hop
    rw [hpayload, all_some, decide_eq_true_eq] at hop
    exact hop
  | _ =>
    refine fun key => (hf key).kept (perform_kept _ _ ?_ key)
    intro _ _ heq
    cases heq

/-- **A fetch returns what was stored.** In every run in which a store of a key that has an entry,
live or expired, brings the payload of the entry: if a fetch succeeds, the key has a live entry
and the payload is that of the store that made it live; and a fetch says `NotFound` exactly if the
key has no live entry. -/
theorem fetch_returns_stored {h : TieredHistory} (hr : Reachable Initial SameIfPresent step h) (key : KvCacheKey)
    (target : Device) (now : ℕ) :
    (∀ fetched s', fetch h.connector.config key target now h.connector.inner = .ok fetched s' →
      h.connector.inner.live key now = true ∧ h.created key = some fetched.payload) ∧
    ((∃ s', fetch h.connector.config key target now h.connector.inner = .error .notFound s') ↔
      h.connector.inner.live key now = false) := by
  have hf : h.Faithful :=
    Reachable.invariant (I := Faithful) (fun _ => Faithful.initial) (fun _ _ hf hop => hf.step hop) hr
  have hfetch := fetch_ensures h.connector.config key target now h.connector.inner
  refine ⟨fun fetched s' hok => ?_, fun herror => ?_, fun hdead => ?_⟩
  · obtain ⟨hlive, hpayload, _⟩ := hfetch.ok hok
    refine ⟨hlive, ?_⟩
    obtain ⟨entry, hentry, hexpired⟩ := (any_eq_true _ _).mp hlive
    obtain ⟨payload, hp, hrecorded⟩ := hf key entry hentry
    rw [hp] at hpayload
    rw [hrecorded ⟨now, by simpa using hexpired⟩, hpayload]
  · obtain ⟨s', hs'⟩ := herror
    exact (hfetch.error hs').1.mp rfl
  · cases hresult : fetch h.connector.config key target now h.connector.inner with
    | ok fetched s' =>
      have hlive := (hfetch.ok hresult).1
      rw [hdead] at hlive
      cases hlive
    | error error s' =>
      rw [(hfetch.error hresult).1.mpr hdead]
      exact ⟨s', rfl⟩

/-- A new connector with one hot page and a backing store. -/
def fresh : TieredHistory where
  connector :=
    { config := ⟨1, 1, 10, .none, 1⟩
      inner := ⟨PageTable.new 1 1, .new, ∅, ∅, some ⟨∅, fun _ => none, 0⟩⟩ }
  created := fun _ => none

theorem fresh_initial : fresh.Initial := ⟨fresh.connector.config, fresh.connector.inner.backingStore, rfl, rfl⟩

/-- What a fetch returned. -/
def fetched? : EStateM.Result ConnectorError Interior FetchedKv → Option FetchedKv
  | .ok fetched _ => some fetched
  | .error _ _ => none

theorem ok_of_fetched? {r : EStateM.Result ConnectorError Interior FetchedKv} {f : FetchedKv}
    (h : fetched? r = some f) : ∃ s', r = .ok f s' := by
  cases r with
  | ok _ s' =>
    cases h
    exact ⟨s', rfl⟩
  | error e s' => cases h

/-- A chunk of one token. -/
def chunkKey (hash : BitVec 64) : KvCacheKey := ⟨.session 1, [], 0, 1, hash, 0, 1⟩

def chunk (hash : BitVec 64) (x : F32) (ttl : Option ℕ) : KvStoreEntry :=
  ⟨chunkKey hash, ⟨1, 1, 1, 1, [⟨[x], [x]⟩]⟩, .session, ttl, ⟨true, true⟩⟩

/-- Two chunks, of which the first is spilled for the second. -/
def spilling : List Operation := [.store (chunk 1 5 none) 0, .store (chunk 2 6 none) 1]

theorem fetch_returns_stored_spilled :
    ((spilling.foldl step fresh).connector.inner.chunks.lookup (chunkKey 1)).map ChunkEntry.payload = some none ∧
      ∃ s', fetch (spilling.foldl step fresh).connector.config (chunkKey 1) (.gpu 0) 2
        (spilling.foldl step fresh).connector.inner = .ok ⟨chunkKey 1, [0], (chunk 1 5 none).kvData⟩ s' ∧
        (spilling.foldl step fresh).created (chunkKey 1) = some (chunk 1 5 none).kvData := by
  obtain ⟨s', hs'⟩ := ok_of_fetched? (r := fetch (spilling.foldl step fresh).connector.config (chunkKey 1) (.gpu 0) 2
    (spilling.foldl step fresh).connector.inner) (f := ⟨chunkKey 1, [0], (chunk 1 5 none).kvData⟩)
    (by decide +kernel)
  refine ⟨by decide +kernel, s', hs', ?_⟩
  exact ((fetch_returns_stored (Reachable.foldl spilling (.start fresh_initial) (by decide +kernel)) (chunkKey 1)
    (.gpu 0) 2).1 _ _ hs').2

/-- A key is stored again after its entry has expired. -/
def reviving : List Operation := [.store (chunk 1 5 (some 5)) 0, .store (chunk 1 6 (some 5)) 10]

/-- The second store finds the expired entry and keeps its payload, which the fetch returns. -/
theorem expired_payload_revived :
    Reachable Initial SameIfLive step (reviving.foldl step fresh) ∧
      (reviving.foldl step fresh).created (chunkKey 1) = some (chunk 1 6 none).kvData ∧
      (∃ s', fetch (reviving.foldl step fresh).connector.config (chunkKey 1) .cpu 10
        (reviving.foldl step fresh).connector.inner = .ok ⟨chunkKey 1, [0], (chunk 1 5 none).kvData⟩ s') ∧
      (chunk 1 5 none).kvData ≠ (chunk 1 6 none).kvData :=
  ⟨Reachable.foldl reviving (.start fresh_initial) (by decide +kernel), by decide +kernel,
    ok_of_fetched? (by decide +kernel), by decide⟩

end TieredHistory

end OnnxGenai.Kv
