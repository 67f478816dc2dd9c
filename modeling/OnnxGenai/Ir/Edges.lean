import OnnxGenai.Ir.Graph

/-!
# Edges are exact

The producer and the consumers a value records are those the nodes name (`Edges`), the
flags of a value say whether it is in the lists of graph inputs and outputs, and no list,
edge or initializer names a value that was removed (`Io`). One theorem for each operation
of the mutation API says that it does not panic on live ids and keeps both.

Removing and replacing a node goes through a state in which the node has no edges
(`Detached`); connecting a node starts from one.
-/

namespace OnnxGenai.Ir

open Lib List Option

namespace Graph

variable {Body : Type}

/-- A value is live. -/
def Live (g : Graph Body) (v : ValueId) : Prop := ∃ x, g.values.get v = some x

/-- Input slot `i` of the live node `n` is `v`. -/
def Consumes (g : Graph Body) (n : NodeId) (i : ℕ) (v : ValueId) : Prop :=
  ∃ node, g.nodes.get n = some node ∧ node.inputs[i]? = some (some v)

/-- The live node `n` lists `v` among its outputs. -/
def Produces (g : Graph Body) (n : NodeId) (v : ValueId) : Prop :=
  ∃ node, g.nodes.get n = some node ∧ v ∈ node.outputs

/-- The edges that values record are those that nodes name, between live nodes and values. -/
structure Edges (g : Graph Body) : Prop where
  consumed : ∀ v x, g.values.get v = some x → ∀ n i, (n, i) ∈ x.consumers ↔ g.Consumes n i v
  produced : ∀ v x, g.values.get v = some x → ∀ n, x.producer = some n ↔ g.Produces n v
  liveInput : ∀ n i v, g.Consumes n i v → g.Live v
  liveOutput : ∀ n v, g.Produces n v → g.Live v
  /-- Slot numbers fit into a `u32`. -/
  narrow : ∀ n node, g.nodes.get n = some node → node.inputs.length ≤ u32Size

/-- The flags say what is in the lists, and the lists and the initializers name live values. -/
structure Io (g : Graph Body) : Prop where
  flagged : ∀ side v x, g.values.get v = some x → (x.flag side = true ↔ v ∈ g.list side)
  liveListed : ∀ side, ∀ v ∈ g.list side, g.Live v
  liveInitializers : ∀ v ∈ g.initializers, g.Live v

/-- The edges are exact but for node `id`, which has none. -/
structure Detached (g : Graph Body) (id : NodeId) : Prop where
  consumed : ∀ v x, g.values.get v = some x → ∀ n i, (n, i) ∈ x.consumers ↔ n ≠ id ∧ g.Consumes n i v
  produced : ∀ v x, g.values.get v = some x → ∀ n, x.producer = some n ↔ n ≠ id ∧ g.Produces n v
  liveInput : ∀ n i v, n ≠ id → g.Consumes n i v → g.Live v
  liveOutput : ∀ n v, n ≠ id → g.Produces n v → g.Live v
  narrow : ∀ n node, n ≠ id → g.nodes.get n = some node → node.inputs.length ≤ u32Size

/-! ### Frames -/

theorem exists_some_iff {α β : Type} {f : α → β} {o o' : Option α} (h : o'.map f = o.map f) :
    (∃ x, o' = some x) ↔ ∃ x, o = some x := by
  rw [← isSome_iff_exists, ← isSome_iff_exists, ← isSome_map (f := f), h, isSome_map]

/-- What an edge operation leaves alone. -/
structure SameIo (g g' : Graph Body) : Prop where
  list : ∀ side, g'.list side = g.list side
  initializers : g'.initializers = g.initializers
  subgraphs : g'.subgraphs = g.subgraphs
  flags : ∀ v, (g'.values.get v).map Value.flag = (g.values.get v).map Value.flag

theorem SameIo.refl (g : Graph Body) : SameIo g g := ⟨fun _ => rfl, rfl, rfl, fun _ => rfl⟩

variable {g g' : Graph Body} {v : ValueId} {side : Side} {l : List ValueId}

theorem SameIo.trans {g₁ g₂ : Graph Body} (h₁ : SameIo g g₁) (h₂ : SameIo g₁ g₂) : SameIo g g₂ :=
  ⟨fun side => (h₂.list side).trans (h₁.list side), h₂.initializers.trans h₁.initializers,
    h₂.subgraphs.trans h₁.subgraphs, fun v => (h₂.flags v).trans (h₁.flags v)⟩

theorem SameIo.live_iff (h : SameIo g g') (v : ValueId) : g'.Live v ↔ g.Live v :=
  exists_some_iff (h.flags v)

/-- The flags of a value that is live before and after are the same. -/
theorem SameIo.flags_eq (h : SameIo g g') {x' : Value} (hx' : g'.values.get v = some x') :
    ∃ x, g.values.get v = some x ∧ x'.flag = x.flag := by
  obtain ⟨x, hx⟩ := (h.live_iff v).mp ⟨x', hx'⟩
  have := h.flags v
  rw [hx, hx'] at this
  exact ⟨x, hx, some.inj this⟩

theorem Io.same (h : Io g) (hs : SameIo g g') : Io g' where
  flagged side v x hx := by
    obtain ⟨y, hy, hf⟩ := hs.flags_eq hx
    rw [hf, hs.list]
    exact h.flagged side v y hy
  liveListed side v hv := (hs.live_iff v).mpr (h.liveListed side v (hs.list side ▸ hv))
  liveInitializers v hv := (hs.live_iff v).mpr (h.liveInitializers v (hs.initializers ▸ hv))

/-- What an operation on the lists leaves alone. -/
structure SameEdges (g g' : Graph Body) : Prop where
  nodes : g'.nodes = g.nodes
  subgraphs : g'.subgraphs = g.subgraphs
  edges : ∀ v, (g'.values.get v).map (fun x => (x.producer, x.consumers)) =
    (g.values.get v).map fun x => (x.producer, x.consumers)

theorem SameEdges.live_iff (h : SameEdges g g') (v : ValueId) : g'.Live v ↔ g.Live v :=
  exists_some_iff (h.edges v)

theorem SameEdges.edges_eq (h : SameEdges g g') {x' : Value} (hx' : g'.values.get v = some x') :
    ∃ x, g.values.get v = some x ∧
      x'.producer = x.producer ∧ x'.consumers = x.consumers := by
  obtain ⟨x, hx⟩ := (h.live_iff v).mp ⟨x', hx'⟩
  have := h.edges v
  rw [hx, hx'] at this
  obtain ⟨h₁, h₂⟩ := Prod.mk.inj (some.inj this)
  exact ⟨x, hx, h₁, h₂⟩

theorem Edges.same (h : Edges g) (hs : SameEdges g g') : Edges g' := by
  have hcons : ∀ n i v, g'.Consumes n i v ↔ g.Consumes n i v := fun n i v => by
    unfold Consumes
    rw [hs.nodes]
  have hprod : ∀ n v, g'.Produces n v ↔ g.Produces n v := fun n v => by
    unfold Produces
    rw [hs.nodes]
  refine ⟨fun v x hx n i => ?_, fun v x hx n => ?_, fun n i v hc => ?_, fun n v hp => ?_, ?_⟩
  · obtain ⟨y, hy, -, hc⟩ := hs.edges_eq hx
    rw [hc, hcons]
    exact h.consumed v y hy n i
  · obtain ⟨y, hy, hp, -⟩ := hs.edges_eq hx
    rw [hp, hprod]
    exact h.produced v y hy n
  · exact (hs.live_iff v).mpr (h.liveInput n i v ((hcons n i v).mp hc))
  · exact (hs.live_iff v).mpr (h.liveOutput n v ((hprod n v).mp hp))
  · rw [hs.nodes]
    exact h.narrow

/-! ### Updating values -/

theorem valueMut_ok (h : g.Live v) (f : Value → Value) :
    g.valueMut v f = some { g with values := g.values.modify v f } :=
  if_pos (Arena.contains_iff.mpr h)

/-- An update of the flags of a value keeps its edges. -/
theorem sameEdges_modify (g : Graph Body) (v : ValueId) {f : Value → Value}
    (hf : ∀ x, (f x).producer = x.producer ∧ (f x).consumers = x.consumers) :
    SameEdges g { g with values := g.values.modify v f } := by
  refine ⟨rfl, rfl, fun w => ?_⟩
  simp only [Arena.get_modify]
  split_ifs with hw
  · subst hw
    cases g.values.get w with
    | none => rfl
    | some x => exact congrArg some (Prod.ext (hf x).1 (hf x).2)
  · rfl

/-! ### Graph inputs and outputs -/

@[simp] theorem setList_values (g : Graph Body) (side : Side) (l : List ValueId) :
    (g.setList side l).values = g.values := by cases side <;> rfl

@[simp] theorem setList_nodes (g : Graph Body) (side : Side) (l : List ValueId) :
    (g.setList side l).nodes = g.nodes := by cases side <;> rfl

@[simp] theorem setList_initializers (g : Graph Body) (side : Side) (l : List ValueId) :
    (g.setList side l).initializers = g.initializers := by cases side <;> rfl

@[simp] theorem setList_subgraphs (g : Graph Body) (side : Side) (l : List ValueId) :
    (g.setList side l).subgraphs = g.subgraphs := by cases side <;> rfl

theorem withValues_setList (g : Graph Body) (side : Side) (l : List ValueId) (values : Arena Value) :
    ({ g.setList side l with values := values } : Graph Body) =
      ({ g with values := values } : Graph Body).setList side l := by cases side <;> rfl

theorem list_setList (g : Graph Body) (side s : Side) (l : List ValueId) :
    (g.setList side l).list s = if s = side then l else g.list s := by cases side <;> cases s <;> rfl

theorem flag_mark (x : Value) (side s : Side) (b : Bool) :
    (x.mark side b).flag s = if s = side then b else x.flag s := by cases side <;> cases s <;> rfl

theorem mark_edges (x : Value) (side : Side) (b : Bool) :
    (x.mark side b).producer = x.producer ∧ (x.mark side b).consumers = x.consumers := by
  cases side <;> exact ⟨rfl, rfl⟩

/-- An operation that replaces the list of one side and marks the values to match. -/
structure Relisted (g : Graph Body) (side : Side) (l : List ValueId) (g' : Graph Body) : Prop where
  edges : SameEdges g g'
  initializers : g'.initializers = g.initializers
  list : ∀ s, g'.list s = if s = side then l else g.list s
  flags : ∀ v x', g'.values.get v = some x' → ∃ x, g.values.get v = some x ∧
    ∀ s, x'.flag s = true ↔ if s = side then v ∈ l else x.flag s = true

theorem Io.relisted (h : Io g) (hr : Relisted g side l g') (hl : ∀ v ∈ l, g.Live v) : Io g' where
  flagged s v x' hx' := by
    obtain ⟨x, hx, hf⟩ := hr.flags v x' hx'
    rw [hf, hr.list]
    split_ifs
    · exact Iff.rfl
    · exact h.flagged s v x hx
  liveListed s v hv := by
    rw [hr.edges.live_iff]
    rw [hr.list] at hv
    split_ifs at hv
    · exact hl v hv
    · exact h.liveListed s v hv
  liveInitializers v hv := by
    rw [hr.edges.live_iff]
    exact h.liveInitializers v (hr.initializers ▸ hv)

/-- Marking the values of a list. -/
def markAll (side : Side) (b : Bool) (l : List ValueId) (values : Arena Value) : Arena Value :=
  l.foldl (fun values v => values.modify v fun x => x.mark side b) values

theorem mark_mark (x : Value) (side : Side) (b : Bool) : (x.mark side b).mark side b = x.mark side b := by
  cases side <;> rfl

theorem get_markAll (side : Side) (b : Bool) (w : ValueId) : ∀ (l : List ValueId) (values : Arena Value),
    (markAll side b l values).get w = (values.get w).map fun x => if w ∈ l then x.mark side b else x
  | [], values => by
    exact map_id'.symm
  | v :: l, values => by
    show (markAll side b l (values.modify v _)).get w = _
    rw [get_markAll side b w l, Arena.get_modify]
    by_cases hw : w = v
    · subst hw
      cases values.get w with
      | none => simp
      | some x => by_cases hl : w ∈ l <;> simp [hl, mark_mark]
    · simp [hw]

/-- Marking live values does not panic. -/
theorem markAll_ok (side : Side) : ∀ (l : List ValueId) (g : Graph Body), (∀ v ∈ l, g.Live v) →
    l.foldlM (fun g v => g.valueMut v fun x => x.mark side true) g =
      some { g with values := markAll side true l g.values }
  | [], g, _ => rfl
  | v :: l, g, hl => by
    have hv := hl v (mem_cons_self ..)
    rw [foldlM_cons, valueMut_ok hv]
    refine (markAll_ok side l _ fun w hw => ?_).trans rfl
    exact ((sameEdges_modify g v fun x => mark_edges x side true).live_iff w).mpr
      (hl w (mem_cons_of_mem _ hw))

/-- Setting the list of a side and the values, when the marks match. -/
theorem relisted_of_get (side : Side) (l : List ValueId) (values : Arena Value) (f : ValueId → Value → Value)
    (hget : ∀ v, values.get v = (g.values.get v).map (f v))
    (hedges : ∀ v x, (f v x).producer = x.producer ∧ (f v x).consumers = x.consumers)
    (hflag : ∀ v x, g.values.get v = some x → ∀ s, (f v x).flag s = true ↔
      if s = side then v ∈ l else x.flag s = true) :
    Relisted g side l (({ g with values := values } : Graph Body).setList side l) := by
  refine ⟨⟨by rw [setList_nodes], by rw [setList_subgraphs], fun v => ?_⟩, by rw [setList_initializers],
    fun s => ?_, fun v x' hx' => ?_⟩
  · rw [setList_values]
    rw [hget, Option.map_map]
    congr 1
    funext x
    exact Prod.ext (hedges v x).1 (hedges v x).2
  · rw [list_setList]
    cases s <;> rfl
  · rw [setList_values] at hx'
    obtain ⟨x, hx, rfl⟩ := map_eq_some_iff.mp ((hget v).symm.trans hx')
    exact ⟨x, hx, hflag v x hx⟩

/-- Marking one value more. -/
theorem flag_marked (h : Io g) {w : ValueId} {x : Value} (hx : g.values.get w = some x)
    (hl : ∀ u, u ∈ l ↔ u = v ∨ u ∈ g.list side) (s : Side) :
    (if w = v then x.mark side true else x).flag s = true ↔ if s = side then w ∈ l else x.flag s = true := by
  rw [hl]
  have hflag := h.flagged s w x hx
  by_cases hw : w = v
  · rw [if_pos hw, flag_mark]
    by_cases hs : s = side <;> simp [hs, hw]
  · rw [if_neg hw]
    by_cases hs : s = side
    · subst hs
      simp [hw, hflag]
    · rw [if_neg hs]

theorem get_modify_map (values : Arena Value) (v : ValueId) (f : Value → Value) (w : ValueId) :
    (values.modify v f).get w = (values.get w).map fun x => if w = v then f x else x := by
  rw [Arena.get_modify]
  split_ifs with hw
  · subst hw
    rfl
  · exact map_id'.symm

theorem addTo_ok (h : Io g) (side : Side) (hv : g.Live v) :
    ∃ g', g.addTo side v = some g' ∧ Relisted g side (g.list side ++ [v]) g' := by
  refine ⟨_, by unfold addTo; rw [valueMut_ok hv]; rfl, ?_⟩
  refine relisted_of_get side _ _ _ (get_modify_map _ _ _) (fun w x => ?_) fun w x hx s => ?_
  · split_ifs
    · exact mark_edges x side true
    · exact ⟨rfl, rfl⟩
  · exact flag_marked h hx (fun u => by rw [mem_append, mem_singleton, or_comm]) s

theorem live_append (h : Io g) (hv : g.Live v) : ∀ w ∈ g.list side ++ [v], g.Live w := by
  intro w hw
  rcases mem_append.mp hw with hw | hw
  · exact h.liveListed side w hw
  · exact mem_singleton.mp hw ▸ hv

theorem insertOutput_ok (h : Io g) {index : ℕ} (hv : g.Live v) (hi : index ≤ g.outputs.length) :
    ∃ g', g.insertOutput index v = some g' ∧ Relisted g .output (g.outputs.insertIdx index v) g' := by
  refine ⟨_, by unfold insertOutput; rw [valueMut_ok hv]; exact if_pos hi, ?_⟩
  refine relisted_of_get .output _ _ _ (get_modify_map _ _ _) (fun w x => ?_) fun w x hx s => ?_
  · split_ifs
    · exact mark_edges x .output true
    · exact ⟨rfl, rfl⟩
  · exact flag_marked h hx (fun u => mem_insertIdx hi) s

theorem removeFrom_ok (h : Io g) (side : Side) {index : ℕ} (hi : index < (g.list side).length) :
    ∃ v g', g.removeFrom side index = some (v, g') ∧ Relisted g side ((g.list side).eraseIdx index) g' := by
  have hv : (g.list side)[index]? = some ((g.list side).get ⟨index, hi⟩) := getElem?_eq_getElem hi
  generalize (g.list side).get ⟨index, hi⟩ = v at hv
  have hlive := h.liveListed side v (mem_of_getElem? hv)
  have hlist : (g.setList side ((g.list side).eraseIdx index)).list side = (g.list side).eraseIdx index := by
    rw [list_setList, if_pos rfl]
  -- an entry of the list is the removed one or is still there
  have hmem : ∀ w, w ∈ g.list side ↔ w = v ∨ w ∈ (g.list side).eraseIdx index := by
    intro w
    constructor
    · intro hw
      obtain ⟨j, hj⟩ := mem_iff_getElem?.mp hw
      by_cases hji : j = index
      · left
        rw [hji, hv] at hj
        exact (some.inj hj).symm
      · exact .inr (mem_eraseIdx_iff_getElem?.mpr ⟨j, hji, hj⟩)
    · rintro (rfl | hw)
      · exact mem_of_getElem? hv
      · exact mem_of_mem_eraseIdx hw
  unfold removeFrom
  rw [hv]
  by_cases hin : v ∈ (g.list side).eraseIdx index
  · refine ⟨v, _, by simp only [bind_eq_bind, bind_some, hlist]; rw [if_pos hin], ?_⟩
    refine relisted_of_get side _ g.values (fun _ x => x) (fun _ => map_id'.symm)
      (fun _ _ => ⟨rfl, rfl⟩) fun w x hx s => ?_
    have hflag := h.flagged s w x hx
    by_cases hs : s = side
    · subst hs
      rw [if_pos rfl, hflag, hmem]
      exact ⟨fun hc => hc.elim (fun he => he ▸ hin) id, .inr⟩
    · rw [if_neg hs]
  · have hlive' : (g.setList side ((g.list side).eraseIdx index)).Live v := by
      unfold Live
      rw [setList_values]
      exact hlive
    refine ⟨v, _, by
      simp only [bind_eq_bind, bind_some, hlist]
      rw [if_neg hin, valueMut_ok hlive']
      rfl, ?_⟩
    rw [withValues_setList, setList_values]
    refine relisted_of_get side _ _ _ (get_modify_map _ _ _) (fun w x => ?_) fun w x hx s => ?_
    · split_ifs
      · exact mark_edges x side false
      · exact ⟨rfl, rfl⟩
    · have hflag := h.flagged s w x hx
      by_cases hw : w = v
      · rw [if_pos hw, flag_mark]
        by_cases hs : s = side
        · simp [hs, hw, hin]
        · simp [hs]
      · rw [if_neg hw]
        by_cases hs : s = side
        · subst hs
          rw [if_pos rfl, hflag, hmem]
          exact ⟨fun hc => hc.resolve_left hw, .inr⟩
        · rw [if_neg hs]

theorem replaceList_ok (h : Io g) (side : Side) (hl : ∀ v ∈ l, g.Live v) :
    ∃ g', g.replaceList side l = some g' ∧ Relisted g side l g' := by
  have hget : ∀ w, (markAll side true l (markAll side false (g.list side) g.values)).get w = (g.values.get w).map
      fun x => if w ∈ l then (if w ∈ g.list side then x.mark side false else x).mark side true
        else if w ∈ g.list side then x.mark side false else x := by
    intro w
    rw [get_markAll, get_markAll, Option.map_map]
    rfl
  have hlive : ∀ v ∈ l, ({ g with values := markAll side false (g.list side) g.values } : Graph Body).Live v := by
    intro v hv
    obtain ⟨x, hx⟩ := hl v hv
    refine ⟨if v ∈ g.list side then x.mark side false else x, ?_⟩
    rw [get_markAll, hx]
    rfl
  refine ⟨_, by unfold replaceList; exact congrArg (· >>= _) (markAll_ok side l _ hlive), ?_⟩
  refine relisted_of_get side l _ _ hget (fun w x => ?_) fun w x hx s => ?_
  · split_ifs <;> simp only [mark_edges, and_self]
  · have hflag := h.flagged s w x hx
    by_cases hs : s = side
    · subst hs
      split_ifs with h₁ h₂ h₂ <;> simp_all [flag_mark]
    · split_ifs <;> simp [flag_mark, hs]

/-! ### Values -/

section

variable (hroom : g.values.Room) (dtype : DataType) (shape : Shape)

include hroom dtype shape

theorem createValue_get (w : ValueId) : (g.createValue dtype shape).2.values.get w =
      if w = (g.createValue dtype shape).1 then some (Value.new w dtype shape) else g.values.get w :=
  Arena.get_insertWith hroom _ w

/-- The id of a new value was not live. -/
theorem createValue_fresh : ¬ g.Live (g.createValue dtype shape).1 := by
  rintro ⟨x, hx⟩
  have : g.values.get (g.createValue dtype shape).1 = none := Arena.get_insertWith_key hroom _
  rw [this] at hx
  cases hx

/-- A new value is live, and so is what was. -/
theorem createValue_live {w : ValueId}
    (hw : w = (g.createValue dtype shape).1 ∨ g.Live w) : (g.createValue dtype shape).2.Live w := by
  unfold Live
  rw [createValue_get hroom]
  split_ifs with h
  · exact ⟨_, rfl⟩
  · exact hw.resolve_left h

end

theorem Edges.createValue (h : Edges g) (hroom : g.values.Room) (dtype : DataType) (shape : Shape) :
    Edges (g.createValue dtype shape).2 := by
  have hfresh := createValue_fresh hroom dtype shape
  refine ⟨fun v x hx n i => ?_, fun v x hx n => ?_, fun n i v hc => ?_, fun n v hp => ?_, h.narrow⟩
  · rw [createValue_get hroom] at hx
    split_ifs at hx with hv
    · cases hx
      subst hv
      exact ⟨fun hc => absurd hc (Finset.notMem_empty _), fun hc => absurd (h.liveInput n i _ hc) hfresh⟩
    · exact h.consumed v x hx n i
  · rw [createValue_get hroom] at hx
    split_ifs at hx with hv
    · cases hx
      subst hv
      exact ⟨fun hc => absurd hc (some_ne_none n).symm, fun hp => absurd (h.liveOutput n _ hp) hfresh⟩
    · exact h.produced v x hx n
  · exact createValue_live hroom dtype shape (.inr (h.liveInput n i v hc))
  · exact createValue_live hroom dtype shape (.inr (h.liveOutput n v hp))

theorem Io.createValue (h : Io g) (hroom : g.values.Room) (dtype : DataType) (shape : Shape) :
    Io (g.createValue dtype shape).2 := by
  have hfresh := createValue_fresh hroom dtype shape
  refine ⟨fun side v x hx => ?_, fun side v hv => ?_, fun v hv => ?_⟩
  · rw [createValue_get hroom] at hx
    split_ifs at hx with hv
    · cases hx
      subst hv
      refine ⟨fun hc => ?_, fun hc => absurd (h.liveListed side _ hc) hfresh⟩
      cases side <;> cases hc
    · exact h.flagged side v x hx
  · exact createValue_live hroom dtype shape (.inr (h.liveListed side v hv))
  · exact createValue_live hroom dtype shape (.inr (h.liveInitializers v hv))

theorem Io.setInitializer (h : Io g) (hv : g.Live v) (weight : WeightRef) : Io (g.setInitializer v weight) := by
  refine ⟨fun side w x hx => ?_, fun side w hw => ?_, fun w hw => ?_⟩
  · have := h.flagged side w x hx
    cases side <;> exact this
  · cases side with
    | input => exact h.liveListed .input w hw
    | output => exact h.liveListed .output w hw
  · rcases (AList.mem_insert g.initializers).mp hw with rfl | hw
    · exact hv
    · exact h.liveInitializers w hw

/-- Nothing names an orphan. -/
theorem orphan_unnamed (he : Edges g) (hio : Io g) (h : g.isOrphan v = true) :
    (∀ n i, ¬ g.Consumes n i v) ∧ (∀ n, ¬ g.Produces n v) ∧ (∀ side, v ∉ g.list side) ∧ v ∉ g.initializers := by
  unfold isOrphan at h
  cases hx : g.values.get v with
  | none =>
    rw [hx] at h
    cases h
  | some x =>
    rw [hx] at h
    simp only [Bool.and_eq_true, isNone_iff_eq_none, decide_eq_true_eq, Bool.not_eq_true'] at h
    obtain ⟨⟨⟨⟨hprod, hcons⟩, hin⟩, hout⟩, hinit⟩ := h
    refine ⟨fun n i hc => ?_, fun n hp => ?_, fun side hs => ?_, hinit⟩
    · have := (he.consumed v x hx n i).mpr hc
      rw [hcons] at this
      exact Finset.notMem_empty _ this
    · have := (he.produced v x hx n).mpr hp
      rw [hprod] at this
      cases this
    · have := (hio.flagged side v x hx).mpr hs
      cases side with
      | input => exact absurd (this.symm.trans hin) (by decide)
      | output => exact absurd (this.symm.trans hout) (by decide)

theorem gcValueIfOrphan_ok (he : Edges g) (hio : Io g) (v : ValueId) :
    Edges (g.gcValueIfOrphan v) ∧ Io (g.gcValueIfOrphan v) := by
  unfold gcValueIfOrphan
  split_ifs with h
  swap
  · exact ⟨he, hio⟩
  obtain ⟨hcons, hprod, hlist, hinit⟩ := orphan_unnamed he hio h
  have hget : ∀ w, (g.values.remove v).get w = if w = v then none else g.values.get w := Arena.get_remove _ v
  have hsome : ∀ {w x}, (g.values.remove v).get w = some x → g.values.get w = some x := by
    intro w x hx
    rw [hget] at hx
    split_ifs at hx
    exact hx
  have hlive : ∀ w, w ≠ v → g.Live w → ∃ x, (g.values.remove v).get w = some x := by
    intro w hne hw
    rw [hget, if_neg hne]
    exact hw
  refine ⟨⟨fun w x hx => he.consumed w x (hsome hx), fun w x hx => he.produced w x (hsome hx),
    fun n i w hc => ?_, fun n w hp => ?_, he.narrow⟩, ?_, ?_, ?_⟩
  · exact hlive w (fun hw => hcons n i (hw ▸ hc)) (he.liveInput n i w hc)
  · exact hlive w (fun hw => hprod n (hw ▸ hp)) (he.liveOutput n w hp)
  · intro side w x hx
    have := hio.flagged side w x (hsome hx)
    cases side <;> exact this
  · intro side w hw
    have hw' : w ∈ g.list side := by cases side <;> exact hw
    exact hlive w (fun hwv => hlist side (hwv ▸ hw')) (hio.liveListed side w hw')
  · intro w hw
    exact hlive w (fun hwv => hinit (hwv ▸ hw)) (hio.liveInitializers w hw)

end Graph

end OnnxGenai.Ir
