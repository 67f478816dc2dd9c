import OnnxGenai.Ir.Rewiring
import OnnxGenai.Lib.Runs

/-!
# Runs of the mutation API

A graph under any sequence of the operations of its mutation API, and of registrations of
bodies for its nodes. In every state of a run the edges, the flags and the lists are exact,
and no operation panics on live ids (`mutate_ok`).

The bodies are indexed by node id, and ids are recycled. To say that a key still names the
node it was registered for, a run keeps the number of the insertion each node came from
(`Tracked`). Removing a node leaves its bodies behind: the keys then name no node, and later
the next node in that slot (`stale_body`). As long as no node that is removed owns a body,
every key names the live node it was registered for (`edges_exact`).
-/

namespace OnnxGenai.Ir

open Lib List

/-- The operations of the mutation API, and the registration of a body. -/
inductive Mutation (Body : Type) where
  | createValue (dtype : DataType) (shape : Shape)
  | insertNode (node : Node Body)
  | removeNode (id : NodeId)
  | removeNodes (ids : List NodeId)
  | replaceNode (old : NodeId) (new : Node Body)
  | replaceNodeGroups (groups : List (List NodeId × Node Body))
  | insertOnEdge (v : ValueId) (node : Node Body)
  | replaceInput (id : NodeId) (index : ℕ) (newValue : Option ValueId)
  | replaceAllUses (oldValue newValue : ValueId)
  | addInput (v : ValueId)
  | addOutput (v : ValueId)
  | insertOutput (index : ℕ) (v : ValueId)
  | removeInput (index : ℕ)
  | removeOutput (index : ℕ)
  | setInputs (inputs : List ValueId)
  | setOutputs (outputs : List ValueId)
  | setInitializer (v : ValueId) (weight : WeightRef)
  | gcValueIfOrphan (v : ValueId)
  | registerSubgraph (id : NodeId) (attr : String) (body : Body)

namespace Mutation

variable {Body : Type}

/-- The nodes an operation removes. -/
def removed : Mutation Body → List NodeId
  | removeNode id => [id]
  | removeNodes ids => ids
  | replaceNodeGroups groups => groups.flatMap Prod.fst
  | _ => []

/-- The bodies after an operation. -/
def subgraphs (g : Graph Body) : Mutation Body → FiniteMap (NodeId × String) Body
  | registerSubgraph id attr body => g.subgraphs.insert (id, attr) body
  | _ => g.subgraphs

end Mutation

namespace Graph

variable {Body : Type}

/-- Perform an operation; the result lists the nodes it inserted. -/
def mutate (g : Graph Body) : Mutation Body → Option (List NodeId × Graph Body)
  | .createValue dtype shape => some ([], (g.createValue dtype shape).2)
  | .insertNode node => (g.insertNode node).map fun (id, g) => ([id], g)
  | .removeNode id => (g.removeNode id).map ([], ·)
  | .removeNodes ids => (g.removeNodes ids).map ([], ·)
  | .replaceNode old new => (g.replaceNode old new).map ([], ·)
  | .replaceNodeGroups groups => g.replaceNodeGroups groups
  | .insertOnEdge v node => (g.insertOnEdge v node).map fun (id, g) => ([id], g)
  | .replaceInput id index newValue => (g.replaceInput id index newValue).map fun (_, g) => ([], g)
  | .replaceAllUses oldValue newValue => (g.replaceAllUses oldValue newValue).map ([], ·)
  | .addInput v => (g.addInput v).map ([], ·)
  | .addOutput v => (g.addOutput v).map ([], ·)
  | .insertOutput index v => (g.insertOutput index v).map ([], ·)
  | .removeInput index => (g.removeInput index).map fun (_, g) => ([], g)
  | .removeOutput index => (g.removeOutput index).map fun (_, g) => ([], g)
  | .setInputs inputs => (g.setInputs inputs).map ([], ·)
  | .setOutputs outputs => (g.setOutputs outputs).map ([], ·)
  | .setInitializer v weight => some ([], g.setInitializer v weight)
  | .gcValueIfOrphan v => some ([], g.gcValueIfOrphan v)
  | .registerSubgraph id attr body => some ([], { g with subgraphs := g.subgraphs.insert (id, attr) body })

/-- Each replacement can be inserted once its group is removed. -/
def GroupsInsertable : Graph Body → List (List NodeId × Node Body) → Prop
  | _, [] => True
  | g, group :: groups => ∀ g₁, g.removeNodes group.1 = some g₁ → Connectable g₁ group.2 ∧ g₁.nodes.Room ∧
      ∀ id g₂, g₁.insertNode group.2 = some (id, g₂) → GroupsInsertable g₂ groups

/-- How the operations are called: with live ids and indexes in bounds, and with nodes whose
outputs nothing else produces. Ids and slot numbers fit into a `u32`. -/
def Allowed (g : Graph Body) : Mutation Body → Prop
  | .createValue _ _ => g.values.Room
  | .insertNode node => g.nodes.Room ∧ Connectable g node
  | .removeNode _ => True
  | .removeNodes _ => True
  | .replaceNode old new => g.nodes.contains old = true ∧ Replaceable g old new
  | .replaceNodeGroups groups => g.groupsOk groups = true ∧ GroupsInsertable g groups
  | .insertOnEdge v _ => g.values.Room ∧ g.nodes.Room ∧ g.Live v
  | .replaceInput id index newValue => (∃ node, g.nodes.get id = some node ∧ index < node.inputs.length) ∧
      ∀ v ∈ newValue, g.Live v
  | .replaceAllUses oldValue newValue => g.Live oldValue ∧ g.Live newValue
  | .addInput v => g.Live v
  | .addOutput v => g.Live v
  | .insertOutput index v => g.Live v ∧ index ≤ g.outputs.length
  | .removeInput index => index < g.inputs.length
  | .removeOutput index => index < g.outputs.length
  | .setInputs inputs => ∀ v ∈ inputs, g.Live v
  | .setOutputs outputs => ∀ v ∈ outputs, g.Live v
  | .setInitializer v _ => g.Live v
  | .gcValueIfOrphan _ => True
  | .registerSubgraph id _ _ => g.nodes.contains id = true

/-- How the live nodes change when `removed` go and `ids` come. -/
structure Turnover (g : Graph Body) (removed ids : List NodeId) (g' : Graph Body) : Prop where
  /-- A node that is not removed stays, and its slot is not given away. -/
  survives : ∀ n, g.nodes.contains n = true → n ∉ removed → g'.nodes.contains n = true ∧ n ∉ ids
  /-- A live node was inserted, or was there and was not removed. -/
  kept : ∀ n, g'.nodes.contains n = true → n ∈ ids ∨ g.nodes.contains n = true ∧ n ∉ removed

variable {g g' : Graph Body}

namespace Turnover

theorem same (h : ∀ n, g'.nodes.contains n = true ↔ g.nodes.contains n = true) : Turnover g [] [] g' :=
  ⟨fun n hn _ => ⟨(h n).mpr hn, not_mem_nil⟩, fun n hn => .inr ⟨(h n).mp hn, not_mem_nil⟩⟩

theorem inserted {id : NodeId} (hfree : g.nodes.get id = none)
    (h : ∀ n, g'.nodes.contains n = true ↔ n = id ∨ g.nodes.contains n = true) : Turnover g [] [id] g' where
  survives n hn _ := by
    refine ⟨(h n).mpr (.inr hn), fun hc => ?_⟩
    obtain ⟨m, hm⟩ := Arena.contains_iff.mp hn
    rw [mem_singleton.mp hc, hfree] at hm
    cases hm
  kept n hn := by
    rcases (h n).mp hn with rfl | hlive
    · exact .inl (mem_singleton.mpr rfl)
    · exact .inr ⟨hlive, not_mem_nil⟩

theorem removed {ids : List NodeId} (h : ∀ n, g'.nodes.get n = if n ∈ ids then none else g.nodes.get n) :
    Turnover g ids [] g' where
  survives n hn hne := by
    obtain ⟨m, hm⟩ := Arena.contains_iff.mp hn
    rw [Arena.contains_iff, h, if_neg hne]
    exact ⟨⟨m, hm⟩, not_mem_nil⟩
  kept n hn := by
    rw [Arena.contains_iff, h] at hn
    split_ifs at hn with hmem
    · simp at hn
    · exact .inr ⟨Arena.contains_iff.mpr hn, hmem⟩

theorem trans {g₁ g₂ : Graph Body} {r₁ r₂ i₁ i₂ : List NodeId} (h₁ : Turnover g r₁ i₁ g₁)
    (h₂ : Turnover g₁ r₂ i₂ g₂) : Turnover g (r₁ ++ r₂) (i₁ ++ i₂) g₂ where
  survives n hn hne := by
    rw [mem_append, not_or] at hne ⊢
    obtain ⟨hlive₁, hnot₁⟩ := h₁.survives n hn hne.1
    obtain ⟨hlive₂, hnot₂⟩ := h₂.survives n hlive₁ hne.2
    exact ⟨hlive₂, hnot₁, hnot₂⟩
  kept n hn := by
    rw [mem_append, mem_append, not_or]
    rcases h₂.kept n hn with hmem | ⟨hlive₁, hne₂⟩
    · exact .inl (.inr hmem)
    · rcases h₁.kept n hlive₁ with hmem | ⟨hlive, hne₁⟩
      · exact .inl (.inl hmem)
      · exact .inr ⟨hlive, hne₁, hne₂⟩

end Turnover

/-- What an operation does. -/
structure Mutated (g : Graph Body) (a : Mutation Body) (ids : List NodeId) (g' : Graph Body) : Prop where
  edges : Edges g'
  io : Io g'
  turnover : Turnover g a.removed ids g'
  subgraphs : g'.subgraphs = a.subgraphs g

theorem Nodes.replaced {id : NodeId} {node : Node Body} (h : Nodes g id (some node) g')
    (hid : g.nodes.contains id = true) : Turnover g [] [] g' :=
  Turnover.same fun n => (h.contains_iff n).trans (or_iff_right_of_imp fun heq => heq ▸ hid)

theorem SameArity.turnover (h : SameArity g g') : Turnover g [] [] g' :=
  Turnover.same fun n => by rw [Arena.contains_iff, Arena.contains_iff]; exact exists_some_iff (h.nodes n)

/-- Operations on the lists of inputs and outputs. -/
theorem Relisted.mutated (he : Edges g) (hio : Io g) {side : Side} {l : List ValueId} (h : Relisted g side l g')
    (hl : ∀ v ∈ l, g.Live v) {a : Mutation Body} (hr : a.removed = []) (ha : a.subgraphs g = g.subgraphs) :
    Mutated g a [] g' :=
  ⟨he.same h.edges, hio.relisted h hl, by rw [hr]; exact Turnover.same fun n => by rw [h.edges.nodes],
    h.edges.subgraphs.trans ha.symm⟩

/-- The loop of `replaceNodeGroups`. -/
theorem replaceGroups_ok : ∀ (groups : List (List NodeId × Node Body)) (acc : List NodeId) {g : Graph Body},
    Edges g → Io g → GroupsInsertable g groups →
    ∃ ids g', groups.foldlM (fun (ids, g) group => do
        let (id, g) ← g.replaceGroup group
        some (ids ++ [id], g)) (acc, g) = some (acc ++ ids, g') ∧ Edges g' ∧ Io g' ∧
      Turnover g (groups.flatMap Prod.fst) ids g' ∧ g'.subgraphs = g.subgraphs
  | [], acc, g, he, hio, _ =>
    ⟨[], g, by rw [append_nil]; rfl, he, hio, Turnover.same fun _ => Iff.rfl, rfl⟩
  | group :: groups, acc, g, he, hio, hins => by
    obtain ⟨g₁, hrun₁, he₁, hio₁, hn₁, hsub₁⟩ := removeNodes_ok group.1 he hio
    obtain ⟨hconn, hroom, hrest⟩ := hins g₁ hrun₁
    obtain ⟨id, g₂, hrun₂, hfree, he₂, hio₂, hn₂⟩ := insertNode_ok he₁ hroom hconn
    obtain ⟨ids, g₃, hrun₃, he₃, hio₃, hturn, hsub₃⟩ :=
      replaceGroups_ok groups (acc ++ [id]) he₂ (hio₁.same hio₂) (hrest id g₂ hrun₂)
    refine ⟨id :: ids, g₃, ?_, he₃, hio₃, ?_, hsub₃.trans (hio₂.subgraphs.trans hsub₁)⟩
    · rw [foldlM_cons]
      simp only [replaceGroup, hrun₁, hrun₂, Option.bind_eq_bind, Option.bind_some]
      rw [show acc ++ id :: ids = acc ++ [id] ++ ids by rw [append_assoc]; rfl]
      exact hrun₃
    · have hswap := ((Turnover.removed hn₁).trans (Turnover.inserted hfree hn₂.contains_iff)).trans hturn
      rw [append_nil] at hswap
      exact hswap

/-- **No operation panics** on live ids, and each keeps the edges and the lists exact. -/
theorem mutate_ok (he : Edges g) (hio : Io g) {a : Mutation Body} (ha : Allowed g a) :
    ∃ ids g', g.mutate a = some (ids, g') ∧ Mutated g a ids g' := by
  cases a with
  | createValue dtype shape =>
    exact ⟨[], _, rfl, he.createValue ha dtype shape, hio.createValue ha dtype shape,
      Turnover.same fun _ => Iff.rfl, rfl⟩
  | insertNode node =>
    obtain ⟨id, g', hrun, hfree, he', hio', hn⟩ := insertNode_ok he ha.1 ha.2
    exact ⟨[id], g', by rw [mutate, hrun]; rfl, he', hio.same hio', Turnover.inserted hfree hn.contains_iff,
      hio'.subgraphs⟩
  | removeNode id =>
    obtain ⟨g', hrun, he', hio', hn, hsub⟩ := removeNode_ok he hio id
    refine ⟨[], g', by rw [mutate, hrun]; rfl, he', hio', Turnover.removed fun n => ?_, hsub⟩
    rw [hn]
    exact if_congr mem_singleton.symm rfl rfl
  | removeNodes ids =>
    obtain ⟨g', hrun, he', hio', hn, hsub⟩ := removeNodes_ok ids he hio
    exact ⟨[], g', by rw [mutate, hrun]; rfl, he', hio', Turnover.removed hn, hsub⟩
  | replaceNode old new =>
    obtain ⟨node, hnode⟩ := Arena.contains_iff.mp ha.1
    obtain ⟨g', hrun, he', hio', hn⟩ := replaceNode_ok he hnode ha.2
    exact ⟨[], g', by rw [mutate, hrun]; rfl, he', hio.same hio', hn.replaced ha.1, hio'.subgraphs⟩
  | replaceNodeGroups groups =>
    obtain ⟨ids, g', hrun, he', hio', hturn, hsub⟩ := replaceGroups_ok groups [] he hio ha.2
    refine ⟨ids, g', ?_, he', hio', hturn, hsub⟩
    unfold mutate replaceNodeGroups
    simp only [ha.1, guard, if_true]
    exact hrun
  | insertOnEdge v node =>
    obtain ⟨id, g', hrun, hfree, he', hio', hlive, hsub⟩ := insertOnEdge_ok he hio ha.1 ha.2.1 ha.2.2 node
    exact ⟨[id], g', by rw [mutate, hrun]; rfl, he', hio', Turnover.inserted hfree hlive, hsub⟩
  | replaceInput id index newValue =>
    obtain ⟨⟨node, hnode, hi⟩, hnew⟩ := ha
    obtain ⟨old, g', hrun, hr⟩ := replaceInput_ok he hnode hi newValue hnew
    exact ⟨[], g', by rw [mutate, hrun]; rfl, hr.edges, hio.same hr.io,
      hr.nodes.replaced (Arena.contains_iff.mpr ⟨node, hnode⟩), hr.io.subgraphs⟩
  | replaceAllUses oldValue newValue =>
    obtain ⟨g', hrun, he', hio', harity, hsub, -⟩ := replaceAllUses_ok he hio ha.1 ha.2
    exact ⟨[], g', by rw [mutate, hrun]; rfl, he', hio', harity.turnover, hsub⟩
  | addInput v =>
    obtain ⟨g', hrun, hr⟩ := addTo_ok hio .input ha
    exact ⟨[], g', by rw [mutate, addInput, hrun]; rfl, hr.mutated he hio (live_append hio ha) rfl rfl⟩
  | addOutput v =>
    obtain ⟨g', hrun, hr⟩ := addTo_ok hio .output ha
    exact ⟨[], g', by rw [mutate, addOutput, hrun]; rfl, hr.mutated he hio (live_append hio ha) rfl rfl⟩
  | insertOutput index v =>
    obtain ⟨g', hrun, hr⟩ := insertOutput_ok hio ha.1 ha.2
    refine ⟨[], g', by rw [mutate, hrun]; rfl, hr.mutated he hio (fun w hw => ?_) rfl rfl⟩
    rcases (mem_insertIdx ha.2).mp hw with rfl | hw
    · exact ha.1
    · exact hio.liveListed .output w hw
  | removeInput index =>
    obtain ⟨v, g', hrun, hr⟩ := removeFrom_ok hio .input ha
    refine ⟨[], g', by rw [mutate, removeInput, hrun]; rfl, hr.mutated he hio (fun w hw => ?_) rfl rfl⟩
    exact hio.liveListed .input w (mem_of_mem_eraseIdx hw)
  | removeOutput index =>
    obtain ⟨v, g', hrun, hr⟩ := removeFrom_ok hio .output ha
    refine ⟨[], g', by rw [mutate, removeOutput, hrun]; rfl, hr.mutated he hio (fun w hw => ?_) rfl rfl⟩
    exact hio.liveListed .output w (mem_of_mem_eraseIdx hw)
  | setInputs inputs =>
    obtain ⟨g', hrun, hr⟩ := replaceList_ok hio .input ha
    exact ⟨[], g', by rw [mutate, setInputs, hrun]; rfl, hr.mutated he hio ha rfl rfl⟩
  | setOutputs outputs =>
    obtain ⟨g', hrun, hr⟩ := replaceList_ok hio .output ha
    exact ⟨[], g', by rw [mutate, setOutputs, hrun]; rfl, hr.mutated he hio ha rfl rfl⟩
  | setInitializer v weight =>
    exact ⟨[], _, rfl, he.same ⟨rfl, rfl, fun _ => rfl⟩, hio.setInitializer ha weight,
      Turnover.same fun _ => Iff.rfl, rfl⟩
  | gcValueIfOrphan v =>
    obtain ⟨he', hio'⟩ := gcValueIfOrphan_ok he hio v
    exact ⟨[], _, rfl, he', hio', Turnover.same fun n => by rw [gcValueIfOrphan_nodes],
      gcValueIfOrphan_subgraphs g v⟩
  | registerSubgraph id attr body =>
    exact ⟨[], _, rfl, ⟨he.consumed, he.produced, he.liveInput, he.liveOutput, he.narrow⟩,
      ⟨fun side => by cases side; exacts [hio.flagged .input, hio.flagged .output],
        fun side => by cases side; exacts [hio.liveListed .input, hio.liveListed .output], hio.liveInitializers⟩,
      Turnover.same fun _ => Iff.rfl, rfl⟩

/-- No node that is removed owns a body. -/
def KeepsOwners (g : Graph Body) (a : Mutation Body) : Prop := ∀ key ∈ g.subgraphs, key.1 ∉ a.removed

end Graph

/-! ### Runs -/

/-- A graph in a run. Node ids are recycled, so a node is identified by the number of its
insertion. -/
structure Tracked (Body : Type) where
  graph : Graph Body
  /-- How many nodes were inserted so far. -/
  births : ℕ
  /-- The insertion the node of an id came from. -/
  born : NodeId → ℕ
  /-- The insertion of the node a body was registered for. -/
  owner : NodeId × String → ℕ

namespace Tracked

open Ir.Graph

variable {Body : Type}

/-- The owners after an operation. -/
def ownerAfter (s : Tracked Body) : Mutation Body → NodeId × String → ℕ
  | .registerSubgraph id attr _ => Function.update s.owner (id, attr) (s.born id)
  | _ => s.owner

/-- Perform an operation. One that panics ends the run. -/
def step (s : Tracked Body) (a : Mutation Body) : Tracked Body :=
  match s.graph.mutate a with
  | none => s
  | some (ids, g') =>
    { graph := g'
      births := s.births + ids.length
      born := fun n => if n ∈ ids then s.births + ids.idxOf n else s.born n
      owner := s.ownerAfter a }

/-- A run starts with an empty graph. -/
def Initial (s : Tracked Body) : Prop := s.graph = Graph.new

/-- The indexes of a graph are exact. -/
structure Exact (s : Tracked Body) : Prop where
  edges : Edges s.graph
  io : Io s.graph
  /-- Every body belongs to the live node it was registered for. -/
  owned : ∀ key ∈ s.graph.subgraphs, s.graph.nodes.contains key.1 = true ∧ s.born key.1 = s.owner key

/-- What a run keeps. -/
structure Inv (s : Tracked Body) : Prop extends Exact s where
  earlier : ∀ n, s.graph.nodes.contains n = true → s.born n < s.births

/-- The states of the runs whose operations are called with live ids and remove no node that
owns a body. -/
def Reaches : Tracked Body → Prop :=
  Reachable Initial (fun s a => Allowed s.graph a ∧ KeepsOwners s.graph a) step

variable {s : Tracked Body} {a : Mutation Body}

theorem Initial.inv (h : s.Initial) : s.Inv := by
  have hnodes : ∀ n, s.graph.nodes.get n = none := fun n => by rw [h]; rfl
  have hvalues : ∀ v, s.graph.values.get v = none := fun v => by rw [h]; rfl
  have hlist : ∀ side, s.graph.list side = [] := fun side => by rw [h]; cases side <;> rfl
  refine ⟨⟨⟨?_, ?_, ?_, ?_, ?_⟩, ⟨?_, ?_, ?_⟩, ?_⟩, ?_⟩
  · intro v x hx
    rw [hvalues] at hx
    cases hx
  · intro v x hx
    rw [hvalues] at hx
    cases hx
  · rintro n i v ⟨node, hn, -⟩
    rw [hnodes] at hn
    cases hn
  · rintro n v ⟨node, hn, -⟩
    rw [hnodes] at hn
    cases hn
  · intro n node hn
    rw [hnodes] at hn
    cases hn
  · intro side v x hx
    rw [hvalues] at hx
    cases hx
  · intro side v hv
    rw [hlist] at hv
    cases hv
  · intro v hv
    rw [h] at hv
    cases hv
  · intro key hkey
    rw [h] at hkey
    cases hkey
  · intro n hn
    obtain ⟨m, hm⟩ := Arena.contains_iff.mp hn
    rw [hnodes] at hm
    cases hm

/-- A body after an operation was there before, or the operation registers it for a live node. -/
theorem owned_after (h : s.Inv) (ha : Allowed s.graph a) :
    ∀ key ∈ a.subgraphs s.graph, s.graph.nodes.contains key.1 = true ∧ s.born key.1 = s.ownerAfter a key ∧
      (key ∈ s.graph.subgraphs ∨ a.removed = []) := by
  intro key hkey
  cases a with
  | registerSubgraph id attr body =>
    by_cases heq : key = (id, attr)
    · subst heq
      exact ⟨ha, by simp [ownerAfter], .inr rfl⟩
    · have hmem : key ∈ s.graph.subgraphs := by
        rw [Mutation.subgraphs, AList.mem_insert] at hkey
        exact hkey.resolve_left heq
      obtain ⟨hlive, hborn⟩ := h.owned key hmem
      exact ⟨hlive, by rw [hborn, ownerAfter, Function.update_of_ne heq], .inl hmem⟩
  | _ =>
    obtain ⟨hlive, hborn⟩ := h.owned key hkey
    exact ⟨hlive, hborn, .inl hkey⟩

/-- **The step lemma.** After an operation on live ids the indexes are exact if and only if
no node that it removed owns a body. -/
theorem step_exact (h : s.Inv) (ha : Allowed s.graph a) :
    (KeepsOwners s.graph a → (s.step a).Inv) ∧ (Exact (s.step a) → KeepsOwners s.graph a) := by
  obtain ⟨ids, g', hrun, hm⟩ := mutate_ok h.edges h.io ha
  have hstep : s.step a =
      ⟨g', s.births + ids.length, fun n => if n ∈ ids then s.births + ids.idxOf n else s.born n, s.ownerAfter a⟩ := by
    rw [step, hrun]
  rw [hstep]
  constructor
  · intro hkeep
    refine ⟨⟨hm.edges, hm.io, fun key hkey => ?_⟩, fun n hn => ?_⟩
    · obtain ⟨hlive, hborn, hcase⟩ := owned_after h ha key (hm.subgraphs ▸ hkey)
      have hne : key.1 ∉ a.removed := by
        rcases hcase with hmem | hnil
        · exact hkeep key hmem
        · exact hnil ▸ not_mem_nil
      obtain ⟨hlive', hnot⟩ := hm.turnover.survives key.1 hlive hne
      exact ⟨hlive', (if_neg hnot).trans hborn⟩
    · dsimp only
      split_ifs with hmem
      · have := idxOf_lt_length_of_mem hmem
        omega
      · have := h.earlier n ((hm.turnover.kept n hn).resolve_left hmem).1
        omega
  · -- a removed node that owns a body is gone, or its id names a later insertion
    intro hexact key hkey hremoved
    have hkey' : key ∈ g'.subgraphs := by
      rw [hm.subgraphs]
      cases a <;> first | exact hkey | exact absurd hremoved not_mem_nil
    obtain ⟨hlive, hborn⟩ := hexact.owned key hkey'
    have hmem : key.1 ∈ ids := (hm.turnover.kept key.1 hlive).resolve_right fun hc => hc.2 hremoved
    have howner : s.ownerAfter a key = s.owner key := by
      cases a <;> first | rfl | exact absurd hremoved not_mem_nil
    obtain ⟨hlive₀, hborn₀⟩ := h.owned key hkey
    have hearlier := h.earlier key.1 hlive₀
    dsimp only at hborn
    rw [if_pos hmem, howner, ← hborn₀] at hborn
    omega

/-- An operation that removes no node. -/
theorem Reaches.next (h : Reaches s) (ha : Allowed s.graph a) (hr : a.removed = []) : Reaches (s.step a) :=
  Reachable.next h ⟨ha, fun _ _ => hr ▸ not_mem_nil⟩

theorem Reaches.inv (h : Reaches s) : s.Inv :=
  Reachable.invariant (I := Inv) (fun _ hinit => hinit.inv) (fun _ _ hinv ha => (step_exact hinv ha.1).1 ha.2) h

/-- **The indexes of a graph are exact** in every state of a run whose operations are called
with live ids and remove no node that owns a body; an operation that removes such a node
breaks them. -/
theorem edges_exact {s : Tracked Body} (h : Reaches s) :
    Exact s ∧ ∀ a, Allowed s.graph a → (Exact (s.step a) ↔ KeepsOwners s.graph a) :=
  ⟨h.inv.toExact, fun _ ha =>
    ⟨(step_exact h.inv ha).2, fun hkeep => ((step_exact h.inv ha).1 hkeep).toExact⟩⟩

/-- An `If` node with one output. -/
def branching : Node (GraphAt 1) := Node.new 0 "If" [] [0]

/-- An `If` node with a body, whose output is the output of the graph. -/
def branched : Tracked (GraphAt 1) :=
  ([.createValue .float32 [], .insertNode branching, .addOutput 0,
    .registerSubgraph 0 "then_branch" (Graph.new : Graph Empty)] : List (Mutation (GraphAt 1))).foldl step
    ⟨Graph.new, 0, fun _ => 0, fun _ => 0⟩

theorem branched_reaches : Reaches branched := by
  have h₀ : Reaches (⟨Graph.new, 0, fun _ => 0, fun _ => 0⟩ : Tracked (GraphAt 1)) := Reachable.start rfl
  have h₁ := h₀.next (a := .createValue .float32 []) (.inr (by decide)) rfl
  have h₂ := h₁.next (a := .insertNode branching) ⟨.inr (by decide), ⟨?_, ?_, by decide⟩⟩ rfl
  · have h₃ := h₂.next (a := .addOutput 0) ⟨_, rfl⟩ rfl
    exact h₃.next (a := .registerSubgraph 0 "then_branch" (Graph.new : Graph Empty)) rfl rfl
  · exact fun v hv => absurd hv not_mem_nil
  · intro v hv
    obtain rfl := mem_singleton.mp hv
    exact ⟨_, rfl, rfl⟩

/-- The body of an `If` node belongs to it. -/
theorem branched_exact : Exact branched := (edges_exact branched_reaches).1

/-- Removing the `If` node leaves its body behind, and the next node inserted gets it. -/
theorem stale_body : Reaches branched ∧ Allowed branched.graph (.removeNode 0) ∧
    Allowed (branched.step (.removeNode 0)).graph (.insertNode (Node.new 0 "Loop" [] [])) ∧
    (∃ node, ((branched.step (.removeNode 0)).step (.insertNode (Node.new 0 "Loop" [] []))).graph.nodes.get 0 =
      some node ∧ node.opType = "Loop") ∧
    (0, "then_branch") ∈ ((branched.step (.removeNode 0)).step (.insertNode (Node.new 0 "Loop" [] []))).graph.subgraphs ∧
    ¬ Exact ((branched.step (.removeNode 0)).step (.insertNode (Node.new 0 "Loop" [] []))) := by
  have hkey : (0, "then_branch") ∈
      ((branched.step (.removeNode 0)).step (.insertNode (Node.new 0 "Loop" [] []))).graph.subgraphs := by
    decide
  refine ⟨branched_reaches, trivial, ⟨?_, ?_⟩, ⟨_, rfl, rfl⟩, hkey, fun h => ?_⟩
  · exact .inl (by decide)
  · exact ⟨fun v hv => absurd hv not_mem_nil, fun v hv => absurd hv not_mem_nil, by decide⟩
  · exact absurd (h.owned _ hkey).2 (by decide)

end Tracked

end OnnxGenai.Ir
