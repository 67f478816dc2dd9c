import OnnxGenai.Kv.TieredPayloads
import OnnxGenai.Kv.TieredRoom

/-!
# Pins and the hot budget of the local tiered connector

The connector makes room in the hot tier by demoting a page of a chunk that is not pinned and not
of a higher priority than the chunk that needs the room. If there is no such page, `demote_one`
does nothing and still succeeds. A store then falls back to the page table's own eviction, which
does not know of pins and may demote a page of a pinned chunk, and a fetch moves its page to the
hot tier all the same, beyond the capacity (`pins_lost`).

`room` counts the pages the connector can make room for at a priority: the unused capacity and the
pages it may demote. In every run whose stores and fetches ask for no more than that (`Roomy`), no
operation on another key demotes a hot page of a pinned chunk or drops the chunk, and the hot
pages in use stay within the capacity. A prefetch looks again after it has made room, and needs no
condition.
-/

namespace OnnxGenai.Kv

open Lib List

namespace Interior

open PageTable

variable {s s' u : Interior} {incoming : CachePriority} {id : PageId} {other : KvCacheKey}

/-! ### Pinned chunks -/

/-- Pinned chunks but that of `other` stay, with their pages, and their hot pages stay hot. -/
def PinsKept (other : KvCacheKey) (s s' : Interior) : Prop :=
  ∀ key entry, key ≠ other → key ∈ s.pinned → s.chunks.lookup key = some entry →
    key ∈ s'.pinned ∧ (∃ entry', s'.chunks.lookup key = some entry' ∧ entry'.pageIds = entry.pageIds) ∧
      ∀ id ∈ entry.pageIds, s.isHot id = true → s'.isHot id = true

theorem PinsKept.refl (other : KvCacheKey) (s : Interior) : PinsKept other s s :=
  fun _ entry _ hpin hentry => ⟨hpin, ⟨entry, hentry, rfl⟩, fun _ _ h => h⟩

theorem PinsKept.trans (h : PinsKept other s s') (h' : PinsKept other s' u) : PinsKept other s u := by
  intro key entry hne hpin hentry
  obtain ⟨hpin', ⟨entry', hentry', hpages⟩, hhot⟩ := h key entry hne hpin hentry
  obtain ⟨hpin'', ⟨entry'', hentry'', hpages'⟩, hhot'⟩ := h' key entry' hne hpin' hentry'
  refine ⟨hpin'', ⟨entry'', hentry'', hpages'.trans hpages⟩, fun id hid h => ?_⟩
  exact hhot' id (hpages ▸ hid) (hhot id hid h)

theorem mem_pinnedPages {key : KvCacheKey} {entry : ChunkEntry} (hpin : key ∈ s.pinned)
    (hentry : s.chunks.lookup key = some entry) (hid : id ∈ entry.pageIds) : id ∈ s.pinnedPages := by
  unfold pinnedPages
  rw [mem_flatMap]
  exact ⟨⟨key, entry⟩, mem_filter.mpr ⟨FiniteMap.mem_entries_of_lookup hentry, by simpa using hpin⟩, hid⟩

theorem Calm.pinsKept (h : Calm incoming s s') (other : KvCacheKey) : PinsKept other s s' := by
  intro key entry _ hpin hentry
  refine ⟨h.pinned ▸ hpin, ⟨entry, h.chunks ▸ hentry, rfl⟩, fun id hid hhot => ?_⟩
  exact h.stays id (mayDemote_of_pinned (mem_pinnedPages hpin hentry hid)) hhot

/-- The pages stay where they are. -/
theorem pinsKept_of_keeps (hpinned : s'.pinned = s.pinned) (hkeeps : Keeps s.pageTable s'.pageTable)
    (hchunks : ∀ key entry, key ≠ other → s.chunks.lookup key = some entry →
      ∃ entry', s'.chunks.lookup key = some entry' ∧ entry'.pageIds = entry.pageIds) : PinsKept other s s' :=
  fun key entry hne hpin hentry =>
    ⟨hpinned ▸ hpin, hchunks key entry hne hentry, fun id _ hhot => hkeeps.onGpu id hhot⟩

end Interior

namespace LocalTieredConnector

open Interior PageTable

variable {config : LocalTieredConfig} {s s' u : Interior} {incoming : CachePriority} {key other : KvCacheKey}

/-- What an operation on `key` keeps: the capacity, and the pinned chunks of other keys. -/
structure Kept (key : KvCacheKey) (s s' : Interior) : Prop where
  fits : s'.Fits
  capacity : s'.pageTable.hotCapacity = s.pageTable.hotCapacity
  pins : PinsKept key s s'

theorem Kept.refl (h : s.Fits) (key : KvCacheKey) : Kept key s s := ⟨h, rfl, .refl key s⟩

theorem Kept.trans (h : Kept key s s') (h' : Kept key s' u) : Kept key s u :=
  ⟨h'.fits, h'.capacity.trans h.capacity, h.pins.trans h'.pins⟩

theorem kept_of_calm (h : Calm incoming s s') (hfits : s'.Fits) (key : KvCacheKey) : Kept key s s' :=
  ⟨hfits, h.capacity, h.pinsKept key⟩

/-! ### Dropping and spilling -/

/-- The table after a chunk is dropped. -/
theorem dropChunk_table (s : Interior) (key : KvCacheKey) :
    Keeps s.pageTable (s.dropChunk key).2.pageTable ∧
      hotOf (s.dropChunk key).2.pageTable.pages ⊆ hotOf s.pageTable.pages := by
  unfold dropChunk
  cases s.chunks.lookup key with
  | none => exact ⟨.refl _, Finset.Subset.refl _⟩
  | some entry => exact freeAll_keeps entry.pageIds s.pageTable

/-- Dropping a chunk leaves the other pinned chunks, and all of them if it is not pinned itself. -/
theorem dropChunk_kept (h : s.Fits) (hkey : key = other ∨ key ∉ s.pinned) : Kept other s (s.dropChunk key).2 := by
  obtain ⟨hkeeps, hsubset⟩ := dropChunk_table s key
  refine ⟨h.of_subset hkeeps hsubset, hkeeps.capacity, fun k entry hne hpin hentry => ?_⟩
  have hk : k ≠ key := by
    rintro rfl
    rcases hkey with heq | hnot
    · exact hne heq
    · exact hnot hpin
  refine ⟨?_, ⟨entry, ?_, rfl⟩, fun id _ hhot => hkeeps.onGpu id hhot⟩
  · unfold dropChunk
    cases s.chunks.lookup key with
    | none => exact hpin
    | some _ => exact Finset.mem_erase.mpr ⟨hk, hpin⟩
  · unfold dropChunk
    cases s.chunks.lookup key with
    | none => exact hentry
    | some _ => exact (AList.lookup_erase_ne hk).trans hentry

theorem dropExpired_kept (h : s.Fits) (key : KvCacheKey) (now : ℕ) : Kept key s (s.dropExpired key now) := by
  unfold dropExpired
  split
  · exact dropChunk_kept h (.inl rfl)
  · exact .refl h key

/-- The chunk that is evicted for the budget is not pinned. -/
theorem evictionVictim_not_pinned {policy : RuntimeTieringPolicy} {key : KvCacheKey}
    (h : s.evictionVictim policy = some key) : key ∉ s.pinned := by
  obtain ⟨e, hmin, rfl⟩ := Option.map_eq_some_iff.mp h
  have hmem := (mem_filter.mp (minBy_mem hmin)).2
  rw [Bool.and_eq_true, decide_eq_true_eq] at hmem
  exact hmem.1

theorem evictLoop_kept (policy : RuntimeTieringPolicy) (other : KvCacheKey) (fuel : ℕ) (h : s.Fits) :
    Kept other s (evictLoop policy fuel s) := by
  induction fuel generalizing s with
  | zero => exact .refl h other
  | succ fuel ih =>
    unfold evictLoop
    split
    · cases hvictim : s.evictionVictim policy with
      | none => exact .refl h other
      | some key =>
        have hdrop : Kept other s (s.dropChunk key).2 :=
          dropChunk_kept h (.inr (evictionVictim_not_pinned hvictim))
        exact hdrop.trans (ih hdrop.fits)
    · exact .refl h other

/-- A spill changes no page and no pin, and of the chunks only where the payload is. -/
structure Spilt (s s' : Interior) : Prop where
  pageTable : s'.pageTable = s.pageTable
  pinned : s'.pinned = s.pinned
  chunks : ∀ key entry, s.chunks.lookup key = some entry →
    ∃ entry', s'.chunks.lookup key = some entry' ∧ entry'.pageIds = entry.pageIds

theorem Spilt.refl (s : Interior) : Spilt s s := ⟨rfl, rfl, fun _ entry h => ⟨entry, h, rfl⟩⟩

theorem Spilt.trans (h : Spilt s s') (h' : Spilt s' u) : Spilt s u where
  pageTable := h'.pageTable.trans h.pageTable
  pinned := h'.pinned.trans h.pinned
  chunks := by
    intro key entry hentry
    obtain ⟨entry', hentry', hpages⟩ := h.chunks key entry hentry
    obtain ⟨entry'', hentry'', hpages'⟩ := h'.chunks key entry' hentry'
    exact ⟨entry'', hentry'', hpages'.trans hpages⟩

theorem kept_of_spilt (h : Spilt s s') (hs : s.Fits) (key : KvCacheKey) : Kept key s s' := by
  have hpins := pinsKept_of_keeps h.pinned (h.pageTable ▸ .refl _) fun k entry (_ : k ≠ key) => h.chunks k entry
  refine ⟨⟨?_, ?_⟩, by rw [h.pageTable], hpins⟩
  · rw [h.pageTable]
    exact hs.within
  · rw [h.pageTable]
    exact hs.keyed

theorem spillChunk_spilt (policy : RuntimeTieringPolicy) (key : KvCacheKey) (s : Interior) :
    Stays Spilt (spillChunk policy key) s := by
  unfold Stays Ensures spillChunk
  cases s.backingStore with
  | none => exact .refl s
  | some store =>
    cases s.spillablePayload policy key with
    | none => exact .refl s
    | some payload =>
      dsimp only
      rcases store.write key payload with ⟨result, store'⟩
      cases result with
      | error message => exact ⟨rfl, rfl, fun _ entry h => ⟨entry, h, rfl⟩⟩
      | ok u =>
        refine ⟨rfl, rfl, fun k entry hentry => ?_⟩
        by_cases hk : k = key
        · subst hk
          exact ⟨{ entry with payload := none }, by simp [hentry], rfl⟩
        · exact ⟨entry, (FiniteMap.lookup_adjust_ne s.chunks _ hk).trans hentry, rfl⟩

theorem spillColdPayloads_spilt (policy : RuntimeTieringPolicy) (s : Interior) :
    Stays Spilt (spillColdPayloads policy) s :=
  Ensures.bind (Ensures.get (Stays.each Spilt.refl Spilt.trans (spillChunk_spilt policy) _ s))

/-! ### Fetch and prefetch -/

/-- How many places a fetch of these pages takes: one for each cold page that may not be demoted
again, and one for the others together. -/
def placesFor (s : Interior) (incoming : CachePriority) (ids : List PageId) : ℕ :=
  (ids.filter fun id => !s.isHot id && !s.mayDemote incoming id).length +
    if ids.any (s.mayDemote incoming) then 1 else 0

/-- A page moves to the hot tier when there is space. -/
theorem migrate_room (incoming : CachePriority) (h : s.Fits)
    (hspace : s.pageTable.hotUsedCount < s.pageTable.hotCapacity) (id : PageId) :
    Ensures (liftTable (PageTable.migratePage id (.gpu 0))) s
      (fun _ s' => Calm incoming s s' ∧ s'.Fits ∧ s.room incoming ≤ s'.room incoming + 1 ∧
        (s.mayDemote incoming id = true → s.room incoming ≤ s'.room incoming))
      fun _ s' => Calm incoming s s' ∧ s'.Fits := by
  refine liftTable_ensures ((migratePage_adds id s.pageTable).mono (fun _ t hadds => ?_) fun _ t hspec => ?_)
  · exact ⟨calm_of_keeps rfl rfl hadds.keeps, room_of_adds incoming h rfl rfl hadds hspace⟩
  · exact calm_of_pages h hspec.1 hspec.2

theorem calm_touch (incoming : CachePriority) (id : PageId) (s : Interior) :
    Calm incoming s { s with pageTable := s.pageTable.touch id } :=
  calm_of_keeps rfl rfl (keeps_touch s.pageTable id)

theorem fits_touch (h : s.Fits) (id : PageId) : Fits { s with pageTable := s.pageTable.touch id } :=
  h.of_subset (keeps_touch s.pageTable id) (hotOf_touch s.pageTable id).le

theorem room_touch (incoming : CachePriority) (id : PageId) (s : Interior) :
    room { s with pageTable := s.pageTable.touch id } incoming = s.room incoming := by
  unfold room demotable
  rw [← card_hotOf, ← card_hotOf, (keeps_touch s.pageTable id).capacity, hotOf_touch]
  rfl

variable {op : Operation}

/-- The places for the remaining pages, after one page is hot. -/
theorem placesFor_tail (hcalm : Calm incoming s s') (ids : List PageId) :
    placesFor s' incoming ids ≤ placesFor s incoming ids := by
  unfold placesFor
  rw [mayDemote_congr hcalm.chunks hcalm.pinned]
  apply Nat.add_le_add_right
  apply List.Sublist.length_le
  apply monotone_filter_right
  intro id hid
  simp only [Bool.and_eq_true, Bool.not_eq_true_eq_eq_false] at hid ⊢
  refine ⟨?_, hid.2⟩
  cases hhot : s.isHot id with
  | false => rfl
  | true => cases hid.1.symm.trans (hcalm.stays id hid.2 hhot)

theorem placesFor_le_cons (s : Interior) (incoming : CachePriority) (id : PageId) (ids : List PageId) :
    placesFor s incoming ids ≤ placesFor s incoming (id :: ids) := by
  apply Nat.add_le_add
  · exact ((sublist_cons_self id ids).filter _).length_le
  · by_cases hany : ids.any (s.mayDemote incoming) = true
    · have hany' : (id :: ids).any (s.mayDemote incoming) = true := by simp [hany]
      rw [if_pos hany, if_pos hany']
    · rw [if_neg hany]
      exact Nat.zero_le _

/-- A cold page takes a place. -/
theorem placesFor_cons (incoming : CachePriority) {id : PageId} (ids : List PageId) (hcold : s.isHot id = false) :
    0 < placesFor s incoming (id :: ids) ∧
      (s.mayDemote incoming id = false → placesFor s incoming (id :: ids) = placesFor s incoming ids + 1) := by
  unfold placesFor
  cases hmay : s.mayDemote incoming id with
  | false =>
    simp only [filter_cons, hcold, hmay, any_cons, Bool.not_false, Bool.and_self, if_true, Bool.false_or,
      length_cons]
    omega
  | true =>
    simp only [filter_cons, hcold, hmay, any_cons, Bool.not_false, Bool.not_true, Bool.and_false,
      Bool.false_eq_true, if_false, Bool.true_or, if_true]
    simp

/-- **A page is made hot within the room there is.** -/
theorem promotePage_room {id : PageId} {ids : List PageId} (h : s.Fits)
    (hbudget : config.hotCapacity = s.pageTable.hotCapacity)
    (hplaces : placesFor s incoming (id :: ids) ≤ s.room incoming) :
    Ensures (promotePage config incoming id) s
      (fun _ s' => Calm incoming s s' ∧ s'.Fits ∧ placesFor s' incoming ids ≤ s'.room incoming)
      fun _ s' => Calm incoming s s' ∧ s'.Fits := by
  refine .bind (.get ?_)
  split
  case isTrue hhot =>
    refine .modify ⟨calm_touch incoming id s, fits_touch h id, ?_⟩
    rw [room_touch]
    exact (placesFor_tail (calm_touch incoming id s) ids).trans ((placesFor_le_cons s incoming id ids).trans hplaces)
  case isFalse hcold =>
    have hcold' : s.isHot id = false := eq_false_of_ne_true hcold
    obtain ⟨hpos, hnot⟩ := placesFor_cons incoming ids hcold'
    have htail := placesFor_le_cons s incoming id ids
    -- the page moves once there is space, and what it takes is what was counted for it
    have hmove : ∀ t, Calm incoming s t → t.Fits → t.pageTable.hotUsedCount < t.pageTable.hotCapacity →
        s.room incoming ≤ t.room incoming → Ensures (do
          let _ ← liftTable (PageTable.migratePage id (.gpu 0))
          modify fun s : Interior => { s with pageTable := s.pageTable.touch id } : ConnectorM PUnit) t
          (fun _ s' => Calm incoming s s' ∧ s'.Fits ∧ placesFor s' incoming ids ≤ s'.room incoming)
          fun _ s' => Calm incoming s s' ∧ s'.Fits := by
      intro t hcalm hfits hspace hroom
      refine .bind ((migrate_room incoming hfits hspace id).mono (fun _ u hu => ?_) fun _ u hu => ?_)
      · obtain ⟨hcalm', hfits', hroom', hsame⟩ := hu
        have hall := (hcalm.trans hcalm').trans (calm_touch incoming id u)
        refine .modify ⟨hall, fits_touch hfits' id, ?_⟩
        have hrest := placesFor_tail hall ids
        rw [room_touch]
        rw [mayDemote_congr hcalm.chunks hcalm.pinned] at hsame
        cases hmay : s.mayDemote incoming id with
        | false =>
          have hcount := hnot hmay
          omega
        | true =>
          have hkept := hsame hmay
          omega
      · exact ⟨hcalm.trans hu.1, hu.2⟩
    unfold RuntimeTieringPolicy.needsColdMigration LocalTieredConfig.runtimePolicy
    dsimp only
    rw [hbudget]
    split
    case isTrue hfull =>
      refine .bind ((demoteOne_room h (lt_of_lt_of_le hpos hplaces) (of_decide_eq_true hfull)).mono
        (fun _ t ht => ?_) fun _ _ he => he)
      exact hmove t ht.1 ht.2.1 ht.2.2.1 ht.2.2.2
    case isFalse hspace =>
      have := of_decide_eq_false (eq_false_of_ne_true hspace)
      exact hmove s (.refl _ s) h (by omega) le_rfl

theorem promoteAll_room (ids : List PageId) (h : s.Fits) (hbudget : config.hotCapacity = s.pageTable.hotCapacity)
    (hplaces : placesFor s incoming ids ≤ s.room incoming) :
    Ensures (each (promotePage config incoming) ids) s (fun _ s' => Calm incoming s s' ∧ s'.Fits)
      fun _ s' => Calm incoming s s' ∧ s'.Fits := by
  refine (Ensures.each (I := fun rest t => Calm incoming s t ∧ t.Fits ∧ placesFor t incoming rest ≤ t.room incoming)
    (fun id rest t ht => ?_) ids s ⟨.refl _ s, h, hplaces⟩).mono (fun _ _ hu => ⟨hu.1, hu.2.1⟩) fun _ _ hu => hu
  obtain ⟨hcalm, hfits, hrest⟩ := ht
  refine (promotePage_room hfits (by rw [hbudget, hcalm.capacity]) hrest).mono (fun _ u hu => ?_) fun _ u hu => ?_
  · exact ⟨hcalm.trans hu.1, hu.2⟩
  · exact ⟨hcalm.trans hu.1, hu.2⟩

/-- **A prefetch needs no room**: it ends where it cannot make any. -/
theorem prefetchLoop_calm (incoming : CachePriority) (ids : List PageId) (h : s.Fits)
    (hbudget : config.hotCapacity = s.pageTable.hotCapacity) :
    Calm incoming s (prefetchLoop config incoming ids s) ∧ (prefetchLoop config incoming ids s).Fits := by
  have hmove : ∀ id (t : Interior), t.Fits → t.pageTable.hotUsedCount < t.pageTable.hotCapacity →
      Calm incoming t (final (liftTable (PageTable.migratePage id (.gpu 0))) t) ∧
        (final (liftTable (PageTable.migratePage id (.gpu 0))) t).Fits := by
    intro id t ht hspace
    apply Ensures.final (P := fun u => Calm incoming t u ∧ u.Fits)
    exact (migrate_room incoming ht hspace id).mono (fun _ _ hu => ⟨hu.1, hu.2.1⟩) fun _ _ hu => hu
  induction ids generalizing s with
  | nil => exact ⟨.refl _ s, h⟩
  | cons id ids ih =>
    have hstep : ∀ t, Calm incoming s t → t.Fits → t.pageTable.hotUsedCount < t.pageTable.hotCapacity →
        Calm incoming s (prefetchLoop config incoming ids (final (liftTable (PageTable.migratePage id (.gpu 0))) t)) ∧
          (prefetchLoop config incoming ids (final (liftTable (PageTable.migratePage id (.gpu 0))) t)).Fits := by
      intro t hcalm hfits hspace
      obtain ⟨hcalm', hfits'⟩ := hmove id t hfits hspace
      obtain ⟨hrest, hfits''⟩ := ih hfits' (by rw [hbudget, hcalm'.capacity, hcalm.capacity])
      exact ⟨(hcalm.trans hcalm').trans hrest, hfits''⟩
    unfold prefetchLoop
    split
    · exact ih h hbudget
    · simp only [RuntimeTieringPolicy.needsColdMigration, LocalTieredConfig.runtimePolicy, hbudget]
      split
      · rcases (demoteOne_spec h incoming).outcome with ⟨u, t, hresult, hcalm, hfits, -⟩ | ⟨error, t, hresult, hdemote⟩
        · simp only [hresult]
          split
          · exact ⟨hcalm, hfits⟩
          case isFalse hspace =>
            have := of_decide_eq_false (eq_false_of_ne_true hspace)
            have hcapacity := hcalm.capacity
            exact hstep t hcalm hfits (by omega)
        · simp only [hresult]
          exact hdemote
      case isFalse hspace =>
        have := of_decide_eq_false (eq_false_of_ne_true hspace)
        exact hstep s (.refl _ s) h (by omega)

/-! ### What operations keep -/

/-- A fetch asks for no more room than there is. -/
def FetchFits (s : Interior) (key : KvCacheKey) (target : Device) (now : ℕ) : Prop :=
  target.isGpu = true → s.live key now = true → ∀ entry ∈ s.chunks.lookup key,
    placesFor s entry.priority entry.pageIds ≤ s.room entry.priority

instance (s : Interior) (key : KvCacheKey) (target : Device) (now : ℕ) : Decidable (FetchFits s key target now) :=
  inferInstanceAs (Decidable (_ → _ → ∀ entry ∈ s.chunks.lookup key,
    placesFor s entry.priority entry.pageIds ≤ s.room entry.priority))

theorem fetch_kept {target : Device} {now : ℕ} (h : s.Fits) (hbudget : config.hotCapacity = s.pageTable.hotCapacity)
    (hfetch : FetchFits s key target now) : Kept key s (final (fetch config key target now) s) := by
  have hdropped := dropExpired_kept h key now
  apply Ensures.final (P := Kept key s)
  refine Ensures.bind (Ensures.modify (Ensures.bind (Ensures.get (Ensures.bind ?_))))
  refine .getOr (fun entry hentry => ?_) fun _ => hdropped
  have hlive : s.live key now = true := by
    by_contra hdead
    rw [lookup_dropExpired (eq_false_of_ne_true hdead)] at hentry
    cases hentry
  rw [dropExpired_of_live hlive] at hentry ⊢
  have hspilt : ∀ store, Spilt s { s with backingStore := store } :=
    fun store => ⟨rfl, rfl, fun _ e he => ⟨e, he, rfl⟩⟩
  -- the rest of the method, once the payload is there
  have hrest : ∀ payload store, Ensures (do
      if target.isGpu then
        each (promotePage config entry.priority) entry.pageIds
      return ⟨key, entry.pageIds, payload⟩ : ConnectorM FetchedKv) { s with backingStore := store }
      (fun _ s' => Kept key s s') fun _ s' => Kept key s s' := by
    intro payload store
    have hfits : Fits { s with backingStore := store } := ⟨h.within, h.keyed⟩
    have hsame := kept_of_spilt (hspilt store) h key
    split
    case isTrue htarget =>
      have hall := promoteAll_room entry.pageIds hfits hbudget (hfetch htarget hlive entry hentry)
      refine .bind (hall.mono (fun _ u hu => ?_) fun _ u hu => ?_)
      · exact hsame.trans (kept_of_calm hu.1 hu.2 key)
      · exact hsame.trans (kept_of_calm hu.1 hu.2 key)
    case isFalse => exact hsame
  cases hpayload : entry.payload with
  | some payload => exact hrest payload s.backingStore
  | none =>
    refine .bind ?_
    unfold Ensures readCold
    cases hstore : s.backingStore with
    | none => exact .refl h key
    | some store =>
      dsimp only
      rcases store.read key with ⟨result, store'⟩
      cases result with
      | error message => exact kept_of_spilt (hspilt (some store')) h key
      | ok payload => exact hrest payload (some store')

theorem prefetch_keeps (h : s.Fits) (hbudget : config.hotCapacity = s.pageTable.hotCapacity) (key : KvCacheKey)
    (target : Device) : Kept key s (prefetch config s key target) := by
  have hsame : Kept key s s := .refl h key
  unfold prefetch
  split
  · cases s.chunks.lookup key with
    | none => exact hsame
    | some entry =>
      obtain ⟨hcalm, hfits⟩ := prefetchLoop_calm entry.priority entry.pageIds h hbudget
      have hspilt := Ensures.final (spillColdPayloads_spilt config.runtimePolicy
        (prefetchLoop config entry.priority entry.pageIds s))
      exact (kept_of_calm hcalm hfits key).trans (kept_of_spilt hspilt hfits key)
  · exact hsame

/-- A store asks for no more room than there is; pages it shares are in use. -/
def StoreFits (config : LocalTieredConfig) (s : Interior) (entry : KvStoreEntry) : Prop :=
  s.chunks.lookup entry.key = none →
    if (s.prefixCache.lookup (keyPath entry.key)).1 = (keyPath entry.key).length ∧
        (s.prefixCache.lookup (keyPath entry.key)).2 ≠ [] then
      ∀ id ∈ (s.prefixCache.lookup (keyPath entry.key)).2, s.pageTable.idleHot id = false
    else config.pagesFor entry.key.numTokens ≤ s.room entry.priority

instance (config : LocalTieredConfig) (s : Interior) (entry : KvStoreEntry) : Decidable (StoreFits config s entry) :=
  inferInstanceAs (Decidable (s.chunks.lookup entry.key = none →
    if (s.prefixCache.lookup (keyPath entry.key)).1 = (keyPath entry.key).length ∧
        (s.prefixCache.lookup (keyPath entry.key)).2 ≠ [] then
      ∀ id ∈ (s.prefixCache.lookup (keyPath entry.key)).2, s.pageTable.idleHot id = false
    else config.pagesFor entry.key.numTokens ≤ s.room entry.priority))

/-- The pages of a new chunk. -/
theorem pagesOf_kept {entry : KvStoreEntry} (h : s.Fits) (hbudget : config.hotCapacity = s.pageTable.hotCapacity)
    (hnew : s.chunks.lookup entry.key = none) (hstore : StoreFits config s entry) :
    Ensures (pagesOf config entry) s (fun _ s' => Kept entry.key s s' ∧ s'.chunks = s.chunks)
      fun _ s' => Kept entry.key s s' := by
  have hcondition := hstore hnew
  refine .bind (.get ?_)
  dsimp only
  split
  case isTrue hshared =>
    rw [if_pos hshared] at hcondition
    obtain ⟨hwithin, hkeeps⟩ := retainAll_within _ h.within hcondition
    refine .bind (.modify (.pure ⟨⟨⟨hwithin, hkeeps.keyed h.keyed⟩, hkeeps.capacity, ?_⟩, rfl⟩))
    exact pinsKept_of_keeps rfl hkeeps fun _ e _ he => ⟨e, he, rfl⟩
  case isFalse hnot =>
    rw [if_neg hnot] at hcondition
    refine .bind ((allocatePages_room _ _ h hbudget hcondition).mono (fun pages t ht => ?_) fun _ t ht => ?_)
    · refine .bind (.modify (.pure ⟨?_, ht.1.chunks⟩))
      have hkept := kept_of_calm ht.1 ht.2 entry.key
      exact ⟨⟨hkept.fits.within, hkept.fits.keyed⟩, hkept.capacity, hkept.pins⟩
    · exact kept_of_calm ht.1 ht.2 entry.key

theorem store_kept {entry : KvStoreEntry} {now : ℕ} (h : s.Fits)
    (hbudget : config.hotCapacity = s.pageTable.hotCapacity) (hstore : StoreFits config s entry) :
    Kept entry.key s (final (store config entry now) s) := by
  have hsame : Kept entry.key s s := .refl h entry.key
  -- an entry under the key itself changes nothing for the others
  have hinsert : ∀ (t : Interior) chunk, t.Fits → Kept entry.key t { t with chunks := t.chunks.insert entry.key chunk } := by
    intro t chunk ht
    refine ⟨⟨ht.within, ht.keyed⟩, rfl, pinsKept_of_keeps rfl (.refl _) fun key e hne he => ⟨e, ?_, rfl⟩⟩
    exact (AList.lookup_insert_ne hne).trans he
  apply Ensures.final (P := Kept entry.key s)
  refine Ensures.bind (Ensures.require (fun _ => ?_) fun _ => hsame)
  refine .bind (.require (fun _ => ?_) fun _ => hsame)
  refine .bind (.get ?_)
  cases hentry : s.chunks.lookup entry.key with
  | some existing => exact .set (hinsert s _ h)
  | none =>
    refine .bind ((pagesOf_kept h hbudget hentry hstore).mono (fun pageIds t ht => ?_) fun _ t ht => ht)
    obtain ⟨hpages, -⟩ := ht
    refine .bind (.modify ?_)
    have hchunk := hpages.trans (hinsert t (newChunk entry pageIds now) hpages.fits)
    refine .bind ((spillColdPayloads_spilt config.runtimePolicy _).mono (fun _ u hu => ?_) fun _ u hu => ?_)
    · have hspilt := hchunk.trans (kept_of_spilt hu hchunk.fits entry.key)
      exact .modify (hspilt.trans (evictLoop_kept config.runtimePolicy entry.key _ hspilt.fits))
    · exact hchunk.trans (kept_of_spilt hu hchunk.fits entry.key)

/-! ### Runs -/

/-- The connector after an operation. -/
def step (c : LocalTieredConnector) (op : Operation) : LocalTieredConnector :=
  { c with inner := perform c.config c.inner op }

/-- A new connector. -/
def Initial (c : LocalTieredConnector) : Prop := ∃ config backingStore, LocalTieredConnector.new config backingStore = .ok c

/-- Stores and fetches ask for no more room than there is. -/
def Roomy (c : LocalTieredConnector) : Operation → Prop
  | .store entry _ => StoreFits c.config c.inner entry
  | .fetch key target now => FetchFits c.inner key target now
  | _ => True

instance (c : LocalTieredConnector) : ∀ op, Decidable (c.Roomy op)
  | .store entry _ => inferInstanceAs (Decidable (StoreFits c.config c.inner entry))
  | .fetch key target now => inferInstanceAs (Decidable (FetchFits c.inner key target now))
  | .prefetch .. | .lookup .. | .lookupBatch .. | .pin _ | .unpin _ | .evict _ => inferInstanceAs (Decidable True)

/-- The key a store, fetch or prefetch is about. -/
def movesFor : Operation → Option KvCacheKey
  | .store entry _ => some entry.key
  | .fetch key _ _ => some key
  | .prefetch key _ => some key
  | _ => none

/-- The hot pages in use are within the configured capacity. -/
structure Budgeted (c : LocalTieredConnector) : Prop where
  fits : c.inner.Fits
  budget : c.config.hotCapacity = c.inner.pageTable.hotCapacity

variable {c : LocalTieredConnector}

theorem Budgeted.initial (h : c.Initial) : c.Budgeted := by
  obtain ⟨config, backingStore, hnew⟩ := h
  unfold LocalTieredConnector.new at hnew
  split at hnew
  · cases hnew
  · cases hnew
  · cases hnew
    have hbuilt : (PageTable.new (max config.pageSize 1) config.hotCapacity).Built :=
      ⟨_, _, _, _, _, none, rfl⟩
    refine ⟨⟨hbuilt.withinCapacity, ?_⟩, rfl⟩
    have hkeyed : ∀ (ids : List PageId) (pages : FiniteMap PageId Page),
        (∀ id page, pages.lookup id = some page → page.id = id) → ∀ id page,
          (ids.foldl (fun m id => m.insert id (Page.new id (.gpu 0) (max config.pageSize 1) [] none)) pages).lookup id =
            some page → page.id = id := by
      intro ids
      induction ids with
      | nil => exact fun _ h => h
      | cons id ids ih =>
        intro pages h
        exact ih _ (FiniteMap.forall_insert rfl fun j page _ hj => h j page hj)
    exact hkeyed _ ∅ fun _ _ h => nomatch h

/-- An operation that moves pages keeps the capacity and the pinned chunks of the other keys. -/
theorem Budgeted.kept (h : c.Budgeted) (hroomy : c.Roomy op) (hkey : movesFor op = some key) :
    Kept key c.inner (c.step op).inner := by
  cases op with
  | store entry now =>
    cases hkey
    exact store_kept h.fits h.budget hroomy
  | fetch k target now =>
    cases hkey
    exact fetch_kept h.fits h.budget hroomy
  | prefetch k target =>
    cases hkey
    exact prefetch_keeps h.fits h.budget _ target
  | lookup | lookupBatch | pin | unpin | evict => exact nomatch hkey

/-- The other operations free pages at most. -/
theorem Budgeted.freed (h : c.Budgeted) (hkey : movesFor op = none) :
    (c.step op).inner.Fits ∧ (c.step op).inner.pageTable.hotCapacity = c.inner.pageTable.hotCapacity := by
  have hfits := h.fits
  have hdropAll : ∀ (keys : List KvCacheKey) (s : Interior), s.Fits →
      (keys.foldl (fun s key => (s.dropChunk key).2) s).Fits ∧
        (keys.foldl (fun s key => (s.dropChunk key).2) s).pageTable.hotCapacity = s.pageTable.hotCapacity := by
    intro keys
    induction keys with
    | nil => exact fun s hs => ⟨hs, rfl⟩
    | cons key keys ih =>
      intro s hs
      have hdrop : Kept key s (s.dropChunk key).2 := dropChunk_kept hs (.inl rfl)
      obtain ⟨hrest, hcapacity⟩ := ih (s.dropChunk key).2 hdrop.fits
      exact ⟨hrest, hcapacity.trans hdrop.capacity⟩
  cases op with
  | store | fetch | prefetch => exact nomatch hkey
  | lookup key now =>
    have hdrop := dropExpired_kept hfits key now
    exact ⟨hdrop.fits, hdrop.capacity⟩
  | lookupBatch keys now => exact hdropAll _ c.inner hfits
  | pin | unpin =>
    apply Ensures.final (P := fun s' : Interior => s'.Fits ∧ s'.pageTable.hotCapacity = c.inner.pageTable.hotCapacity)
    refine Ensures.bind (Ensures.get (Ensures.bind (Ensures.require (fun _ => ?_) fun _ => ⟨hfits, rfl⟩)))
    exact .set ⟨⟨hfits.within, hfits.keyed⟩, rfl⟩
  | evict key =>
    have hdrop : Kept key c.inner (c.inner.dropChunk key).2 := dropChunk_kept hfits (.inl rfl)
    unfold step perform final evict
    dsimp only
    generalize c.inner.dropChunk key = dropped at hdrop ⊢
    obtain ⟨found, t⟩ := dropped
    cases found <;> exact ⟨hdrop.fits, hdrop.capacity⟩

theorem Budgeted.step (h : c.Budgeted) (hroomy : c.Roomy op) : (c.step op).Budgeted := by
  cases hkey : movesFor op with
  | some key =>
    have hkept := h.kept hroomy hkey
    exact ⟨hkept.fits, h.budget.trans hkept.capacity.symm⟩
  | none =>
    obtain ⟨hfits, hcapacity⟩ := h.freed hkey
    exact ⟨hfits, h.budget.trans hcapacity.symm⟩

/-- **Pins hold and the hot budget is kept** in every run whose stores and fetches ask for no more
room than there is: the hot pages in use are within the capacity, and no store, fetch or prefetch
of another key drops a pinned chunk or takes one of its hot pages off the hot tier. -/
theorem pins_and_budget_kept (h : Reachable Initial Roomy LocalTieredConnector.step c) :
    c.inner.pageTable.hotUsedCount ≤ c.config.hotCapacity ∧
      ∀ op key, movesFor op = some key → c.Roomy op → PinsKept key c.inner (c.step op).inner := by
  have hbudgeted : c.Budgeted :=
    h.invariant (I := Budgeted) (fun _ => Budgeted.initial) fun _ _ hc hroomy => hc.step hroomy
  refine ⟨?_, fun op key hkey hroomy => (hbudgeted.kept hroomy hkey).pins⟩
  rw [hbudgeted.budget]
  exact hbudgeted.fits.within

/-! ### Small connectors -/

/-- A new connector for `hot` hot pages of one token. -/
def small (hot : ℕ) : LocalTieredConnector where
  config := ⟨1, hot, 10, .none, 1⟩
  inner := ⟨PageTable.new 1 hot, .new, ∅, ∅, none⟩

theorem small_initial (hot : ℕ) : (small hot).Initial := ⟨(small hot).config, none, rfl⟩

open TieredHistory (chunkKey chunk)

/-- One of two hot pages is pinned; a third chunk takes the place of the other. -/
def pinnedFirst : LocalTieredConnector :=
  [.store (chunk 1 5 none) 0, .pin (chunkKey 1), .store (chunk 2 5 none) 1, .store (chunk 3 5 none) 2].foldl step (small 2)

/-- The second chunk comes back in place of the third, not of the pinned one. -/
theorem pins_and_budget_kept_two :
    Reachable Initial Roomy LocalTieredConnector.step pinnedFirst ∧
      pinnedFirst.inner.pageTable.hotUsedCount ≤ 2 ∧ pinnedFirst.inner.isHot 1 = true ∧
      PinsKept (chunkKey 2) pinnedFirst.inner (pinnedFirst.step (.fetch (chunkKey 2) (.gpu 0) 3)).inner := by
  have hreachable : Reachable Initial Roomy LocalTieredConnector.step pinnedFirst :=
    Reachable.foldl _ (.start (small_initial 2)) (by decide +kernel)
  have hmain := pins_and_budget_kept hreachable
  exact ⟨hreachable, hmain.1, by decide +kernel,
    hmain.2 (.fetch (chunkKey 2) (.gpu 0) 3) (chunkKey 2) rfl (by decide +kernel)⟩

/-- With one hot page, which is pinned, a store demotes it, and a fetch goes beyond the capacity. -/
theorem pins_lost :
    (let c := [.store (chunk 1 5 none) 0, .pin (chunkKey 1)].foldl step (small 1)
     Reachable Initial (fun _ _ => True) step c ∧ chunkKey 1 ∈ c.inner.pinned ∧
       (c.inner.chunks.lookup (chunkKey 1)).map ChunkEntry.pageIds = some [0] ∧ c.inner.isHot 0 = true ∧
       (c.step (.store (chunk 2 5 none) 1)).inner.isHot 0 = false) ∧
    (let c := [.store (chunk 1 5 none) 0, .store (chunk 2 5 none) 1, .pin (chunkKey 2),
       .fetch (chunkKey 1) (.gpu 0) 2].foldl step (small 1)
     Reachable Initial (fun _ _ => True) step c ∧ c.config.hotCapacity = 1 ∧ c.inner.pageTable.hotUsedCount = 2) := by
  refine ⟨⟨Reachable.foldl _ (.start (small_initial 1)) (by simp [AllAllowed]), ?_⟩,
    Reachable.foldl _ (.start (small_initial 1)) (by simp [AllAllowed]), ?_⟩
  · decide +kernel
  · decide +kernel

end LocalTieredConnector

end OnnxGenai.Kv
