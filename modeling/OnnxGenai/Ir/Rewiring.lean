import OnnxGenai.Ir.Edges

/-!
# Inserting, removing and replacing nodes

The operations of the mutation API that change nodes and inputs. Each is shown to end, on
live ids, in a graph whose edges are exact again, and to leave the lists, the flags and
the initializers alone.
-/

namespace OnnxGenai.Ir

open Lib List
open Option hiding guard mem_toFinset mem_map

namespace Graph

variable {Body : Type}

/-! ### One input slot -/

/-- Update the value an optional id names. -/
def modifyOpt (o : Option ValueId) (f : Value → Value) (values : Arena Value) : Arena Value :=
  match o with
  | some v => values.modify v f
  | none => values

theorem get_modifyOpt (o : Option ValueId) (f : Value → Value) (values : Arena Value) (w : ValueId) :
    (modifyOpt o f values).get w = (values.get w).map fun x => if o = some w then f x else x := by
  cases o with
  | none =>
    exact map_id'.symm
  | some v =>
    refine (get_modify_map values v f w).trans ?_
    simp only [some.injEq, eq_comm]

variable {g g' : Graph Body} {n id : NodeId} {node : Node Body} {index : ℕ} {newValue : Option ValueId}

theorem slotMut_ok {slot : Option ValueId} (h : ∀ v ∈ slot, g.Live v) (f : Value → Value) :
    g.slotMut slot f = some { g with values := modifyOpt slot f g.values } := by
  cases slot with
  | none => rfl
  | some v => exact valueMut_ok (h v rfl) f

theorem modifyOpt_live {v : ValueId} (h : g.Live v) (slot : Option ValueId) (f : Value → Value) :
    ∃ x, (modifyOpt slot f g.values).get v = some x := by
  obtain ⟨x, hx⟩ := h
  rw [get_modifyOpt, hx]
  exact ⟨_, rfl⟩

/-- The table of nodes after an update of node `id`. -/
def Nodes (g : Graph Body) (id : NodeId) (node : Option (Node Body)) (g' : Graph Body) : Prop :=
  ∀ n, g'.nodes.get n = if n = id then node else g.nodes.get n

theorem Nodes.consumes_iff {node : Option (Node Body)} (h : Nodes g id node g') (hn : n ≠ id) (i : ℕ) (v : ValueId) :
    g'.Consumes n i v ↔ g.Consumes n i v := by
  unfold Consumes
  rw [h, if_neg hn]

theorem Nodes.produces_iff {node : Option (Node Body)} (h : Nodes g id node g') (hn : n ≠ id) (v : ValueId) :
    g'.Produces n v ↔ g.Produces n v := by
  unfold Produces
  rw [h, if_neg hn]

theorem Nodes.consumes_self (h : Nodes g id (some node) g') (i : ℕ) (v : ValueId) :
    g'.Consumes id i v ↔ node.inputs[i]? = some (some v) := by
  unfold Consumes
  rw [h, if_pos rfl]
  exact ⟨fun ⟨_, hn, hi⟩ => some.inj hn ▸ hi, fun hi => ⟨node, rfl, hi⟩⟩

theorem Nodes.produces_self (h : Nodes g id (some node) g') (v : ValueId) : g'.Produces id v ↔ v ∈ node.outputs := by
  unfold Produces
  rw [h, if_pos rfl]
  exact ⟨fun ⟨_, hn, hi⟩ => some.inj hn ▸ hi, fun hi => ⟨node, rfl, hi⟩⟩

theorem Nodes.consumes_none (h : Nodes g id none g') (n : NodeId) (i : ℕ) (v : ValueId) :
    g'.Consumes n i v ↔ n ≠ id ∧ g.Consumes n i v := by
  by_cases hid : n = id
  · simp [Consumes, h id, hid]
  · simp [h.consumes_iff hid, hid]

theorem Nodes.produces_none (h : Nodes g id none g') (n : NodeId) (v : ValueId) :
    g'.Produces n v ↔ n ≠ id ∧ g.Produces n v := by
  by_cases hid : n = id
  · simp [Produces, h id, hid]
  · simp [h.produces_iff hid, hid]

theorem Nodes.contains_iff (h : Nodes g id (some node) g') (n : NodeId) :
    g'.nodes.contains n = true ↔ n = id ∨ g.nodes.contains n = true := by
  rw [Arena.contains_iff, Arena.contains_iff, h]
  split_ifs with hid <;> simp [hid]

/-- A graph is its own update with what it has. -/
theorem nodes_self {node : Option (Node Body)} (h : g.nodes.get id = node) : Nodes g id node g := by
  intro n
  split_ifs with hn
  · rw [hn, h]
  · rfl

/-- What replacing an input does. -/
structure Rewired (g : Graph Body) (id : NodeId) (index : ℕ) (newValue : Option ValueId) (node : Node Body)
    (g' : Graph Body) : Prop where
  nodes : Nodes g id (some { node with inputs := node.inputs.set index newValue }) g'
  io : SameIo g g'
  edges : Edges g'
  room : g.nodes.Room → g'.nodes.Room

/-- The values of `replaceInput`. -/
def rewire (oldValue newValue : Option ValueId) (u : Usage) (v : ValueId) (x : Value) : Value :=
  let x := if oldValue = some v then { x with consumers := x.consumers.erase u } else x
  if newValue = some v then { x with consumers := insert u x.consumers } else x

theorem mem_rewire (oldValue newValue : Option ValueId) (u w : Usage) (v : ValueId) (x : Value) :
    w ∈ (rewire oldValue newValue u v x).consumers ↔
      newValue = some v ∧ w = u ∨ w ∈ x.consumers ∧ ¬ (oldValue = some v ∧ w = u) := by
  unfold rewire
  by_cases ho : oldValue = some v <;> by_cases hn : newValue = some v <;>
    simp [ho, hn, Finset.mem_insert, Finset.mem_erase, and_comm]

theorem producer_rewire (oldValue newValue : Option ValueId) (u : Usage) (v : ValueId) (x : Value) :
    (rewire oldValue newValue u v x).producer = x.producer := by
  unfold rewire
  split_ifs <;> rfl

theorem flag_rewire (oldValue newValue : Option ValueId) (u : Usage) (v : ValueId) (x : Value) :
    (rewire oldValue newValue u v x).flag = x.flag := by
  unfold rewire
  split_ifs <;> funext side <;> cases side <;> rfl

/-- Nodes and edges may change, flags not. -/
theorem sameIo_of_get {nodes : Arena (Node Body)} {values : Arena Value} {f : ValueId → Value → Value}
    (hget : ∀ v, values.get v = (g.values.get v).map (f v)) (hflag : ∀ v x, (f v x).flag = x.flag) :
    SameIo g { g with nodes, values } := by
  refine ⟨fun side => by cases side <;> rfl, rfl, rfl, fun v => ?_⟩
  rw [hget, Option.map_map]
  exact congrArg (Option.map · _) (funext (hflag v))

section

variable (h : Edges g) (hnode : g.nodes.get id = some node)

include h hnode

theorem Edges.rewired {oldValue : Option ValueId}
    (hold : node.inputs[index]? = some oldValue) (hnew : ∀ v ∈ newValue, g.Live v)
    (hn : Nodes g id (some { node with inputs := node.inputs.set index newValue }) g')
    (hv : ∀ v, g'.values.get v = (g.values.get v).map (rewire oldValue newValue (id, index) v)) : Edges g' := by
  have hlt := (List.getElem?_eq_some_iff.mp hold).1
  have hlive : ∀ v, g.Live v → g'.Live v := by
    rintro v ⟨x, hx⟩
    exact ⟨_, by rw [hv, hx]; rfl⟩
  -- what the node consumes, before and after
  have hself : ∀ i v, g.Consumes id i v ↔ node.inputs[i]? = some (some v) := (nodes_self hnode).consumes_self
  have hself' : ∀ i v, g'.Consumes id i v ↔ if i = index then newValue = some v else g.Consumes id i v := by
    intro i v
    rw [hn.consumes_self, hself]
    split_ifs with hi
    · rw [hi, getElem?_set_self hlt, some.injEq]
    · rw [getElem?_set_ne (Ne.symm hi)]
  refine ⟨fun v x' hx' n i => ?_, fun v x' hx' n => ?_, fun n i v hc => ?_, fun n v hp => ?_, fun n node' hn' => ?_⟩
  · obtain ⟨x, hx, rfl⟩ := map_eq_some_iff.mp ((hv v).symm.trans hx')
    rw [mem_rewire, h.consumed v x hx]
    by_cases hid : n = id
    · subst hid
      rw [hself']
      by_cases hi : i = index
      · subst hi
        rw [hself, hold]
        simp
      · simp [hi]
    · rw [hn.consumes_iff hid]
      simp [hid]
  · obtain ⟨x, hx, rfl⟩ := map_eq_some_iff.mp ((hv v).symm.trans hx')
    rw [producer_rewire, h.produced v x hx]
    by_cases hid : n = id
    · subst hid
      rw [hn.produces_self, (nodes_self hnode).produces_self]
    · rw [hn.produces_iff hid]
  · by_cases hid : n = id
    · subst hid
      rw [hself'] at hc
      split_ifs at hc
      · exact hlive v (hnew v hc)
      · exact hlive v (h.liveInput n i v hc)
    · exact hlive v (h.liveInput n i v ((hn.consumes_iff hid i v).mp hc))
  · by_cases hid : n = id
    · subst hid
      rw [hn.produces_self] at hp
      exact hlive v (h.liveOutput n v ((nodes_self hnode).produces_self v |>.mpr hp))
    · exact hlive v (h.liveOutput n v ((hn.produces_iff hid v).mp hp))
  · rw [hn] at hn'
    split_ifs at hn' with hid
    · cases hn'
      simp only [length_set]
      exact h.narrow id node hnode
    · exact h.narrow n node' hn'

theorem replaceInput_ok (hi : index < node.inputs.length)
    (newValue : Option ValueId) (hnew : ∀ v ∈ newValue, g.Live v) :
    ∃ oldValue g', g.replaceInput id index newValue = some (oldValue, g') ∧
      Rewired g id index newValue node g' := by
  obtain ⟨oldValue, hold⟩ : ∃ o, node.inputs[index]? = some o := ⟨_, getElem?_eq_getElem hi⟩
  have hguard : ∀ v ∈ newValue, g.values.contains v = true := fun v hv => Arena.contains_iff.mpr (hnew v hv)
  have holdlive : ∀ v ∈ oldValue, g.Live v := by
    rintro v rfl
    exact h.liveInput id index v ⟨node, hnode, hold⟩
  unfold replaceInput
  simp only [hnode, hold, bind_eq_bind, bind_some, guard, if_pos hguard]
  by_cases heq : oldValue = newValue
  · refine ⟨oldValue, g, by rw [if_pos heq]; rfl, ?_, SameIo.refl g, h, fun hr => hr⟩
    have hset : node.inputs.set index newValue = node.inputs := by
      rw [← heq, ← (List.getElem?_eq_some_iff.mp hold).2, List.set_getElem_self]
    rw [hset]
    exact nodes_self hnode
  · have hmod : index % u32Size = index := Nat.mod_eq_of_lt (Nat.lt_of_lt_of_le hi (h.narrow id node hnode))
    simp only [hmod, if_neg heq, slotMut_ok holdlive, bind_some]
    refine ⟨oldValue, _, by
      rw [slotMut_ok]
      · rfl
      · exact fun v hv => modifyOpt_live (hnew v hv) _ _, ?_⟩
    have hget : ∀ v, (modifyOpt newValue (fun x => { x with consumers := insert (id, index) x.consumers })
        (modifyOpt oldValue (fun x => { x with consumers := x.consumers.erase (id, index) }) g.values)).get v =
        (g.values.get v).map (rewire oldValue newValue (id, index) v) := by
      intro v
      rw [get_modifyOpt, get_modifyOpt, Option.map_map]
      rfl
    have hn : Nodes g id (some { node with inputs := node.inputs.set index newValue })
        { g with nodes := g.nodes.modify id fun node => { node with inputs := node.inputs.set index newValue } } := by
      intro n
      rw [Arena.get_modify, hnode]
      rfl
    exact ⟨hn, sameIo_of_get hget (flag_rewire _ _ _), h.rewired hnode hold hnew hn hget, (Arena.room_modify _ _ _).mpr⟩

end

/-! ### Disconnecting a node -/

theorem Nodes.trans {g₁ g₂ : Graph Body} {a b : Option (Node Body)} (h₁ : Nodes g id a g₁) (h₂ : Nodes g₁ id b g₂) :
    Nodes g id b g₂ := by
  intro n
  rw [h₂, h₁]
  split_ifs <;> rfl

theorem Nodes.self {a : Option (Node Body)} (h : Nodes g id a g') :
    g'.nodes.get id = a := by rw [h, if_pos rfl]

/-- Skipping one slot more. -/
theorem replicate_drop_set {α : Type} {l : List (Option α)} {k : ℕ} (hk : k < l.length) :
    (List.replicate k none ++ l.drop k).set k none = List.replicate (k + 1) none ++ l.drop (k + 1) := by
  rw [set_append_right _ _ (by rw [length_replicate])]
  simp only [length_replicate, Nat.sub_self]
  rw [drop_eq_getElem_cons hk, set_cons_zero, replicate_succ', append_assoc, singleton_append]

/-- Disconnecting the first `k` inputs. -/
theorem clearInputs_ok (h : Edges g) (hnode : g.nodes.get id = some node) : ∀ k, k ≤ node.inputs.length →
    ∃ g', (List.range k).foldlM (fun g index => (g.replaceInput id index none).map Prod.snd) g = some g' ∧
      Nodes g id (some { node with inputs := List.replicate k none ++ node.inputs.drop k }) g' ∧
      SameIo g g' ∧ Edges g'
  | 0, _ => ⟨g, rfl, nodes_self (by simpa using hnode), SameIo.refl g, h⟩
  | k + 1, hk => by
    obtain ⟨g₁, hrun, hn, hio, he⟩ := clearInputs_ok h hnode k (Nat.le_of_succ_le hk)
    have hlen : k < (replicate k none ++ node.inputs.drop k).length := by
      rw [length_append, length_replicate, length_drop]
      omega
    obtain ⟨old, g₂, hstep, hr⟩ := replaceInput_ok he hn.self hlen none fun _ hv => by cases hv
    refine ⟨g₂, ?_, hn.trans ?_, hio.trans hr.io, hr.edges⟩
    · rw [range_succ, foldlM_append, hrun]
      simp [hstep]
    · have := hr.nodes
      rw [replicate_drop_set hk] at this
      exact this

theorem get_disconnectOutputs (id : NodeId) (w : ValueId) : ∀ (outputs : List ValueId) (values : Arena Value),
    (outputs.foldl (disconnectOutput id) values).get w = (values.get w).map fun x =>
      if w ∈ outputs ∧ x.producer = some id then { x with producer := none } else x
  | [], values => by
    exact map_id'.symm
  | v :: outputs, values => by
    rw [foldl_cons, get_disconnectOutputs id w outputs]
    unfold disconnectOutput
    rw [get_modify_map, Option.map_map]
    congr 1
    funext x
    by_cases hw : w = v <;> by_cases hp : x.producer = some id <;> simp [hw, hp]

theorem disconnectEdges_ok (h : Edges g) (hnode : g.nodes.get id = some node) :
    ∃ g', g.disconnectEdges id = some g' ∧ Detached g' id ∧ SameIo g g' ∧
      Nodes g id (some { node with inputs := List.replicate node.inputs.length none }) g' := by
  obtain ⟨g₁, hrun, hn, hio, he⟩ := clearInputs_ok h hnode node.inputs.length le_rfl
  rw [drop_length, append_nil] at hn
  have hget := fun w => get_disconnectOutputs id w node.outputs g₁.values
  refine ⟨{ g₁ with values := node.outputs.foldl (disconnectOutput id) g₁.values }, ?_, ?_, hio.trans ?_, hn⟩
  · unfold disconnectEdges
    simp only [hnode, bind_eq_bind, bind_some, hrun]
  · have hlive : ∀ v, g₁.Live v → ∃ x, (node.outputs.foldl (disconnectOutput id) g₁.values).get v = some x := by
      rintro v ⟨x, hx⟩
      exact ⟨_, by rw [hget, hx]; rfl⟩
    have hself : ∀ i v, ¬ g₁.Consumes id i v := by
      intro i v hc
      rw [hn.consumes_self, getElem?_replicate] at hc
      split_ifs at hc
      cases some.inj hc
    refine ⟨fun v x' hx' n i => ?_, fun v x' hx' n => ?_, fun n i v _ hc => hlive v (he.liveInput n i v hc),
      fun n v _ hp => hlive v (he.liveOutput n v hp), fun n node' _ hn' => he.narrow n node' hn'⟩
    · obtain ⟨x, hx, rfl⟩ := map_eq_some_iff.mp ((hget v).symm.trans hx')
      have hc := he.consumed v x hx n i
      have hcons : (if v ∈ node.outputs ∧ x.producer = some id then { x with producer := none } else x).consumers =
          x.consumers := by split_ifs <;> rfl
      rw [hcons, hc]
      refine ⟨fun hc => ⟨?_, hc⟩, fun hc => hc.2⟩
      rintro rfl
      exact hself i v hc
    · obtain ⟨x, hx, rfl⟩ := map_eq_some_iff.mp ((hget v).symm.trans hx')
      have hp := he.produced v x hx
      have hmem : x.producer = some id → v ∈ node.outputs := fun hid => (hn.produces_self v).mp ((hp id).mp hid)
      by_cases hid : x.producer = some id
      · rw [if_pos ⟨hmem hid, hid⟩]
        refine ⟨fun hc => absurd hc (some_ne_none n).symm, fun ⟨hne, hpn⟩ => ?_⟩
        have := (hp n).mpr hpn
        rw [hid] at this
        exact absurd (some.inj this).symm hne
      · rw [if_neg fun hc => hid hc.2, hp n]
        refine ⟨fun hpn => ⟨?_, hpn⟩, fun hpn => hpn.2⟩
        rintro rfl
        exact hid ((hp n).mpr hpn)
  · refine sameIo_of_get hget fun v x => ?_
    split_ifs <;> funext side <;> cases side <;> rfl

/-! ### Connecting a node -/

theorem Edges.detached (h : Edges g) (hid : g.nodes.get id = none) : Detached g id := by
  have hn := nodes_self hid
  exact ⟨fun v x hx n i => (h.consumed v x hx n i).trans (hn.consumes_none n i v),
    fun v x hx n => (h.produced v x hx n).trans (hn.produces_none n v), fun n i v _ => h.liveInput n i v,
    fun n v _ => h.liveOutput n v, fun n node _ => h.narrow n node⟩

/-- A detached node can be removed. -/
theorem Detached.removed (h : Detached g id) (hn : Nodes g id none g') (hv : g'.values = g.values) : Edges g' := by
  have hlive : ∀ v, g.Live v → g'.Live v := fun v => by
    unfold Live
    rw [hv]
    exact fun hx => hx
  refine ⟨fun v x hx n i => (h.consumed v x (hv ▸ hx) n i).trans (hn.consumes_none n i v).symm,
    fun v x hx n => (h.produced v x (hv ▸ hx) n).trans (hn.produces_none n v).symm, fun n i v hc => ?_,
    fun n v hp => ?_, fun n node hnode => ?_⟩
  · obtain ⟨hid, hc⟩ := (hn.consumes_none n i v).mp hc
    exact hlive v (h.liveInput n i v hid hc)
  · obtain ⟨hid, hp⟩ := (hn.produces_none n v).mp hp
    exact hlive v (h.liveOutput n v hid hp)
  · rw [hn] at hnode
    split_ifs at hnode with hid
    exact h.narrow n node hid hnode

/-- The uses that the slots of node `id` make of a value. -/
def slotUses (id : NodeId) (w : ValueId) (slots : List (Option ValueId × ℕ)) : Consumers :=
  ((slots.filter fun slot => slot.1 = some w).map fun slot => (id, slot.2 % u32Size)).toFinset

theorem get_connectInputs (id : NodeId) (w : ValueId) :
    ∀ (slots : List (Option ValueId × ℕ)) (values : Arena Value),
    (slots.foldl (connectInput id) values).get w =
      (values.get w).map fun x => { x with consumers := slotUses id w slots ∪ x.consumers }
  | [], values => by
    simp only [slotUses, filter_nil, map_nil, toFinset_nil, Finset.empty_union, foldl_nil]
    exact map_id'.symm
  | (slot, i) :: slots, values => by
    have hstep : (connectInput id values (slot, i)).get w = (values.get w).map fun x =>
        if slot = some w then { x with consumers := insert (id, i % u32Size) x.consumers } else x := by
      rw [← get_modifyOpt]
      cases slot <;> rfl
    rw [foldl_cons, get_connectInputs id w slots, hstep, Option.map_map]
    congr 1
    funext x
    by_cases hs : slot = some w <;> simp [hs, slotUses]

theorem mem_slotUses {w : ValueId} {inputs : List (Option ValueId)} (hlen : inputs.length ≤ u32Size) (u : Usage) :
    u ∈ slotUses id w inputs.zipIdx ↔ u.1 = id ∧ inputs[u.2]? = some (some w) := by
  unfold slotUses
  rw [mem_toFinset, mem_map]
  constructor
  · rintro ⟨⟨slot, i⟩, hmem, rfl⟩
    obtain ⟨hzip, hslot⟩ := mem_filter.mp hmem
    have hget := mem_zipIdx_iff_getElem?.mp hzip
    simp only [decide_eq_true_eq] at hget hslot
    have hlt := (List.getElem?_eq_some_iff.mp hget).1
    rw [Nat.mod_eq_of_lt (Nat.lt_of_lt_of_le hlt hlen), hget, hslot]
    exact ⟨rfl, rfl⟩
  · obtain ⟨n, i⟩ := u
    rintro ⟨rfl, hget⟩
    have hlt := (List.getElem?_eq_some_iff.mp hget).1
    refine ⟨(some w, i), mem_filter.mpr ⟨mem_zipIdx_iff_getElem?.mpr hget, by simp⟩, ?_⟩
    rw [Nat.mod_eq_of_lt (Nat.lt_of_lt_of_le hlt hlen)]

theorem get_connectOutputs (id : NodeId) (w : ValueId) : ∀ (outputs : List ValueId) (values : Arena Value),
    (outputs.foldl (connectOutput id) values).get w =
      (values.get w).map fun x => if w ∈ outputs then { x with producer := some id } else x
  | [], values => by
    exact map_id'.symm
  | v :: outputs, values => by
    rw [foldl_cons, get_connectOutputs id w outputs]
    unfold connectOutput
    rw [get_modify_map, Option.map_map]
    congr 1
    funext x
    by_cases hw : w = v <;> by_cases ho : w ∈ outputs <;> simp [hw, ho]

/-- What a node needs to be connected: live inputs, and live outputs that nothing produces. -/
structure Connectable (g : Graph Body) (node : Node Body) : Prop where
  inputs : ∀ v, some v ∈ node.inputs → g.Live v
  outputs : ∀ v ∈ node.outputs, ∃ x, g.values.get v = some x ∧ x.producer = none
  narrow : node.inputs.length ≤ u32Size

theorem connectEdges_ok {g₀ : Graph Body} (h : Detached g₀ id) (hn : Nodes g₀ id (some node) g)
    (hv : g.values = g₀.values) (hc : Connectable g₀ node) :
    ∃ g', g.connectEdges id = some g' ∧ Edges g' ∧ SameIo g g' ∧ g'.nodes = g.nodes := by
  let values := node.outputs.foldl (connectOutput id) (node.inputs.zipIdx.foldl (connectInput id) g.values)
  let wired : ValueId → Value → Value := fun v x =>
    { x with
      consumers := slotUses id v node.inputs.zipIdx ∪ x.consumers
      producer := if v ∈ node.outputs then some id else x.producer }
  have hget : ∀ v, values.get v = (g₀.values.get v).map (wired v) := by
    intro v
    rw [get_connectOutputs, get_connectInputs, hv, Option.map_map]
    congr 1
    funext x
    by_cases ho : v ∈ node.outputs <;> simp [ho, wired]
  have hlive : ∀ v, g₀.Live v → ∃ x, values.get v = some x := by
    rintro v ⟨x, hx⟩
    exact ⟨_, by rw [hget, hx]; rfl⟩
  refine ⟨{ g with values := values }, ?_, ?_, ?_, rfl⟩
  · unfold connectEdges
    simp only [hn.self, bind_eq_bind, bind_some]
    rfl
  · refine ⟨fun v x' hx' n i => ?_, fun v x' hx' n => ?_, fun n i v hcons => ?_, fun n v hp => ?_, fun n m hm => ?_⟩
    · obtain ⟨x, hx, rfl⟩ := map_eq_some_iff.mp ((hget v).symm.trans hx')
      show (n, i) ∈ slotUses id v node.inputs.zipIdx ∪ x.consumers ↔ g.Consumes n i v
      rw [Finset.mem_union, mem_slotUses hc.narrow, h.consumed v x hx]
      by_cases hid : n = id
      · subst hid
        rw [hn.consumes_self]
        simp
      · rw [hn.consumes_iff hid]
        simp [hid]
    · obtain ⟨x, hx, rfl⟩ := map_eq_some_iff.mp ((hget v).symm.trans hx')
      have hp := h.produced v x hx
      show (if v ∈ node.outputs then some id else x.producer) = some n ↔ g.Produces n v
      by_cases hid : n = id
      · subst hid
        rw [hn.produces_self]
        split_ifs with ho
        · exact ⟨fun _ => ho, fun _ => rfl⟩
        · exact ⟨fun hpn => absurd rfl ((hp n).mp hpn).1, fun ho' => absurd ho' ho⟩
      · rw [hn.produces_iff hid]
        split_ifs with ho
        · -- nothing produced the output before
          obtain ⟨y, hy, hnone⟩ := hc.outputs v ho
          cases hx.symm.trans hy
          refine ⟨fun heq => absurd (some.inj heq).symm hid, fun hpn => ?_⟩
          have := (hp n).mpr ⟨hid, hpn⟩
          rw [hnone] at this
          cases this
        · rw [hp n]
          exact ⟨fun hpn => hpn.2, fun hpn => ⟨hid, hpn⟩⟩
    · by_cases hid : n = id
      · subst hid
        exact hlive v (hc.inputs v (mem_of_getElem? ((hn.consumes_self i v).mp hcons)))
      · exact hlive v (h.liveInput n i v hid ((hn.consumes_iff hid i v).mp hcons))
    · by_cases hid : n = id
      · subst hid
        obtain ⟨x, hx, -⟩ := hc.outputs v ((hn.produces_self v).mp hp)
        exact hlive v ⟨x, hx⟩
      · exact hlive v (h.liveOutput n v hid ((hn.produces_iff hid v).mp hp))
    · have hm' : g.nodes.get n = some m := hm
      rw [hn] at hm'
      split_ifs at hm' with hid
      · cases hm'
        exact hc.narrow
      · exact h.narrow n m hid hm'
  · exact sameIo_of_get (f := wired) (by rw [hv]; exact hget) fun _ _ => rfl

/-! ### The mutation API -/

theorem sameIo_nodes (g : Graph Body) (nodes : Arena (Node Body)) : SameIo g { g with nodes := nodes } :=
  ⟨fun side => by cases side <;> rfl, rfl, rfl, fun _ => rfl⟩

theorem insertNode_ok (h : Edges g) (hroom : g.nodes.Room) (hc : Connectable g node) :
    ∃ id g', g.insertNode node = some (id, g') ∧ g.nodes.get id = none ∧ Edges g' ∧
      SameIo g g' ∧ Nodes g id (some { node with id := id }) g' := by
  let make : NodeId → Node Body := fun id => { node with id := id }
  have hfree : g.nodes.get (g.nodes.insertWith make).1 = none := Arena.get_insertWith_key hroom make
  have hn : Nodes g (g.nodes.insertWith make).1 (some { node with id := (g.nodes.insertWith make).1 })
      { g with nodes := (g.nodes.insertWith make).2 } := by
    intro n
    rw [show ({ g with nodes := _ } : Graph Body).nodes.get n = _ from Arena.get_insertWith hroom make n]
    split_ifs with hid
    · rw [hid]
    · rfl
  obtain ⟨g', hrun, he, hio, hnodes⟩ := connectEdges_ok (h.detached hfree) hn rfl ⟨hc.inputs, hc.outputs, hc.narrow⟩
  refine ⟨_, g', ?_, hfree, he, (sameIo_nodes g _).trans hio, ?_⟩
  · exact congrArg (fun o => o >>= fun g' => some ((g.nodes.insertWith make).1, g')) hrun
  · intro n
    rw [hnodes]
    exact hn n

theorem gcValueIfOrphan_nodes (g : Graph Body) (v : ValueId) : (g.gcValueIfOrphan v).nodes = g.nodes := by
  unfold gcValueIfOrphan
  split_ifs <;> rfl

theorem gcValueIfOrphan_subgraphs (g : Graph Body) (v : ValueId) :
    (g.gcValueIfOrphan v).subgraphs = g.subgraphs := by
  unfold gcValueIfOrphan
  split_ifs <;> rfl

theorem gcAll_ok : ∀ (outputs : List ValueId) {g : Graph Body}, Edges g → Io g →
    Edges (outputs.foldl gcValueIfOrphan g) ∧ Io (outputs.foldl gcValueIfOrphan g) ∧
      (outputs.foldl gcValueIfOrphan g).nodes = g.nodes ∧ (outputs.foldl gcValueIfOrphan g).subgraphs = g.subgraphs
  | [], _, he, hio => ⟨he, hio, rfl, rfl⟩
  | v :: outputs, g, he, hio => by
    obtain ⟨he₁, hio₁⟩ := gcValueIfOrphan_ok he hio v
    obtain ⟨he₂, hio₂, hn, hs⟩ := gcAll_ok outputs he₁ hio₁
    exact ⟨he₂, hio₂, hn.trans (gcValueIfOrphan_nodes g v), hs.trans (gcValueIfOrphan_subgraphs g v)⟩

/-- Removing a node removes it, and no other. -/
theorem removeNode_ok (he : Edges g) (hio : Io g) (id : NodeId) :
    ∃ g', g.removeNode id = some g' ∧ Edges g' ∧ Io g' ∧ Nodes g id none g' ∧ g'.subgraphs = g.subgraphs := by
  unfold removeNode
  cases hnode : g.nodes.get id with
  | none =>
    refine ⟨g, if_neg ?_, he, hio, nodes_self hnode, rfl⟩
    rw [Arena.contains_iff]
    rintro ⟨x, hx⟩
    rw [hnode] at hx
    cases hx
  | some node =>
    rw [if_pos (Arena.contains_iff.mpr ⟨node, hnode⟩)]
    obtain ⟨g₁, hrun, hd, hsame, hn⟩ := disconnectEdges_ok he hnode
    have hn₁ : Nodes g₁ id none { g₁ with nodes := g₁.nodes.remove id } := fun n => Arena.get_remove _ id n
    have hio₁ : Io { g₁ with nodes := g₁.nodes.remove id } :=
      (hio.same hsame).same (sameIo_nodes g₁ _)
    obtain ⟨he₂, hio₂, hnodes, hsub⟩ := gcAll_ok node.outputs (hd.removed hn₁ rfl) hio₁
    refine ⟨_, ?_, he₂, hio₂, fun n => ?_, hsub.trans hsame.subgraphs⟩
    · simp only [hrun, hn.self, bind_eq_bind, bind_some]
    · rw [hnodes]
      exact hn.trans hn₁ n

theorem removeNodes_ok : ∀ (ids : List NodeId) {g : Graph Body}, Edges g → Io g → ∃ g', g.removeNodes ids = some g' ∧
    Edges g' ∧ Io g' ∧ (∀ n, g'.nodes.get n = if n ∈ ids then none else g.nodes.get n) ∧ g'.subgraphs = g.subgraphs
  | [], g, he, hio => ⟨g, rfl, he, hio, fun _ => rfl, rfl⟩
  | id :: ids, g, he, hio => by
    obtain ⟨g₁, hrun₁, he₁, hio₁, hn₁, hs₁⟩ := removeNode_ok he hio id
    obtain ⟨g₂, hrun₂, he₂, hio₂, hn₂, hs₂⟩ := removeNodes_ok ids he₁ hio₁
    refine ⟨g₂, ?_, he₂, hio₂, fun n => ?_, hs₂.trans hs₁⟩
    · unfold removeNodes at hrun₂ ⊢
      rw [foldlM_cons, hrun₁]
      exact hrun₂
    · rw [hn₂, hn₁]
      by_cases hid : n = id <;> by_cases hmem : n ∈ ids <;> simp [hid, hmem]

/-- What the node of a replacement needs: its outputs may be those of the old one. -/
structure Replaceable (g : Graph Body) (old : NodeId) (node : Node Body) : Prop where
  inputs : ∀ v, some v ∈ node.inputs → g.Live v
  outputs : ∀ v ∈ node.outputs, ∃ x, g.values.get v = some x ∧ ∀ n, x.producer = some n → n = old
  narrow : node.inputs.length ≤ u32Size

theorem replaceNode_ok (he : Edges g) {old : NodeId} {new : Node Body} (hnode : g.nodes.get old = some node)
    (hc : Replaceable g old new) :
    ∃ g', g.replaceNode old new = some g' ∧ Edges g' ∧ SameIo g g' ∧
      Nodes g old (some { new with id := old }) g' := by
  obtain ⟨g₁, hrun, hd, hsame, hn⟩ := disconnectEdges_ok he hnode
  have hn₁ : Nodes g₁ old (some { new with id := old })
      { g₁ with nodes := g₁.nodes.modify old fun _ => { new with id := old } } := by
    intro n
    rw [Arena.get_modify, hn.self]
    rfl
  have hconn : Connectable g₁ { new with id := old } := by
    refine ⟨fun v hv => (hsame.live_iff v).mpr (hc.inputs v hv), fun v hv => ?_, hc.narrow⟩
    obtain ⟨x, hx, hprod⟩ := hc.outputs v hv
    obtain ⟨y, hy⟩ := (hsame.live_iff v).mpr ⟨x, hx⟩
    refine ⟨y, hy, eq_none_iff_forall_ne_some.mpr fun n hyn => ?_⟩
    obtain ⟨hne, hp⟩ := (hd.produced v y hy n).mp hyn
    exact hne (hprod n ((he.produced v x hx n).mpr ((hn.produces_iff hne v).mp hp)))
  obtain ⟨g₂, hrun₂, he₂, hio₂, hnodes⟩ := connectEdges_ok hd hn₁ rfl hconn
  refine ⟨g₂, ?_, he₂, hsame.trans ((sameIo_nodes g₁ _).trans hio₂), ?_⟩
  · unfold replaceNode
    have hlive : g.nodes.contains old = true := Arena.contains_iff.mpr ⟨node, hnode⟩
    simp only [hlive, guard, if_true, hrun, bind_eq_bind, bind_some]
    exact hrun₂
  · intro n
    rw [hnodes]
    exact hn.trans hn₁ n

/-! ### Moving uses -/

/-- The nodes keep their numbers of inputs and their outputs. -/
structure SameArity (g g' : Graph Body) : Prop where
  nodes : ∀ n, (g'.nodes.get n).map (fun node => (node.inputs.length, node.outputs)) =
    (g.nodes.get n).map fun node => (node.inputs.length, node.outputs)
  room : g.nodes.Room → g'.nodes.Room

theorem SameArity.refl (g : Graph Body) : SameArity g g := ⟨fun _ => rfl, fun h => h⟩

theorem SameArity.trans {g₁ g₂ : Graph Body} (h₁ : SameArity g g₁) (h₂ : SameArity g₁ g₂) : SameArity g g₂ :=
  ⟨fun n => (h₂.nodes n).trans (h₁.nodes n), fun h => h₂.room (h₁.room h)⟩

theorem SameArity.get (h : SameArity g g') (hn : g.nodes.get n = some node) : ∃ node', g'.nodes.get n = some node' ∧
      node'.inputs.length = node.inputs.length ∧ node'.outputs = node.outputs := by
  obtain ⟨node', hn'⟩ := (exists_some_iff (h.nodes n)).mpr ⟨node, hn⟩
  have := h.nodes n
  rw [hn, hn'] at this
  obtain ⟨h₁, h₂⟩ := Prod.mk.inj (some.inj this)
  exact ⟨node', hn', h₁, h₂⟩

theorem SameArity.produces_iff (h : SameArity g g') (n : NodeId) (v : ValueId) :
    g'.Produces n v ↔ g.Produces n v := by
  constructor
  · rintro ⟨node', hn', hv⟩
    obtain ⟨node, hn⟩ := (exists_some_iff (h.nodes n)).mp ⟨node', hn'⟩
    obtain ⟨node'', hn'', -, ho⟩ := h.get hn
    cases hn'.symm.trans hn''
    exact ⟨node, hn, by rw [← ho]; exact hv⟩
  · rintro ⟨node, hn, hv⟩
    obtain ⟨node', hn', -, ho⟩ := h.get hn
    exact ⟨node', hn', by rw [ho]; exact hv⟩

theorem Rewired.sameArity (h : Rewired g id index newValue node g') (hnode : g.nodes.get id = some node) :
    SameArity g g' := by
  refine ⟨fun n => ?_, h.room⟩
  rw [h.nodes]
  split_ifs with hid
  · rw [hid, hnode]
    simp only [map_some, length_set]
  · rfl

@[simp] theorem mem_uses (c : Consumers) (u : Usage) : u ∈ c.uses ↔ u ∈ c := by
  unfold Consumers.uses
  rw [mem_map]
  constructor
  · rintro ⟨w, hw, rfl⟩
    obtain ⟨x, hx, rfl⟩ := Finset.mem_map.mp ((Finset.mem_sort _).mp hw)
    exact hx
  · intro hu
    exact ⟨toLex u, (Finset.mem_sort _).mpr (Finset.mem_map.mpr ⟨u, hu, rfl⟩), rfl⟩

/-- The loop of `replaceAllUses`. -/
theorem replaceUses_ok {newValue : ValueId} : ∀ (uses : List Usage) {g : Graph Body}, Edges g →
    (∀ u ∈ uses, ∃ node, g.nodes.get u.1 = some node ∧ u.2 < node.inputs.length) → g.Live newValue →
    ∃ g', uses.foldlM (fun g (use : Usage) => if g.nodes.contains use.1 then
        (g.replaceInput use.1 use.2 (some newValue)).map Prod.snd else some g) g = some g' ∧
      Edges g' ∧ SameIo g g' ∧ SameArity g g'
  | [], g, he, _, _ => ⟨g, rfl, he, SameIo.refl g, SameArity.refl g⟩
  | u :: uses, g, he, huses, hnew => by
    obtain ⟨node, hnode, hi⟩ := huses u (mem_cons_self ..)
    obtain ⟨old, g₁, hrun, hr⟩ := replaceInput_ok he hnode hi (some newValue) fun v hv => by
      cases hv
      exact hnew
    have harity := hr.sameArity hnode
    have huses₁ : ∀ u ∈ uses, ∃ node, g₁.nodes.get u.1 = some node ∧ u.2 < node.inputs.length := by
      intro w hw
      obtain ⟨node, hnode, hi⟩ := huses w (mem_cons_of_mem _ hw)
      obtain ⟨node', hnode', hlen, -⟩ := harity.get hnode
      exact ⟨node', hnode', by rw [hlen]; exact hi⟩
    obtain ⟨g₂, hrun₂, he₂, hio₂, ha₂⟩ := replaceUses_ok uses hr.edges huses₁ ((hr.io.live_iff _).mpr hnew)
    refine ⟨g₂, ?_, he₂, hr.io.trans hio₂, harity.trans ha₂⟩
    rw [foldlM_cons, if_pos (Arena.contains_iff.mpr ⟨node, hnode⟩), hrun]
    exact hrun₂

theorem replaceAllUses_ok (he : Edges g) (hio : Io g) {oldValue newValue : ValueId} (hold : g.Live oldValue)
    (hnew : g.Live newValue) : ∃ g', g.replaceAllUses oldValue newValue = some g' ∧
      Edges g' ∧ Io g' ∧ SameArity g g' ∧ g'.subgraphs = g.subgraphs ∧ ∀ v, g'.Live v ↔ g.Live v := by
  unfold replaceAllUses
  split_ifs with heq
  · exact ⟨g, rfl, he, hio, SameArity.refl g, rfl, fun _ => Iff.rfl⟩
  obtain ⟨x, hx⟩ := hold
  have huses : ∀ u ∈ x.consumers.uses, ∃ node, g.nodes.get u.1 = some node ∧ u.2 < node.inputs.length := by
    intro u hu
    obtain ⟨node, hnode, hi⟩ := (he.consumed oldValue x hx u.1 u.2).mp ((mem_uses _ _).mp hu)
    exact ⟨node, hnode, (List.getElem?_eq_some_iff.mp hi).1⟩
  obtain ⟨g₁, hrun, he₁, hsame, harity⟩ := replaceUses_ok x.consumers.uses he huses hnew
  have hio₁ := hio.same hsame
  obtain ⟨y, hy⟩ := (hsame.live_iff oldValue).mpr ⟨x, hx⟩
  simp only [hx, hrun, hy, bind_eq_bind, bind_some]
  split_ifs
  · have hl : ∀ v ∈ g₁.outputs.map (fun output => if output = oldValue then newValue else output), g₁.Live v := by
      intro v hv
      obtain ⟨output, hmem, rfl⟩ := mem_map.mp hv
      split_ifs
      · exact (hsame.live_iff newValue).mpr hnew
      · exact hio₁.liveListed .output output hmem
    obtain ⟨g₂, hrun₂, hr⟩ := replaceList_ok hio₁ .output hl
    have hnodes : SameArity g₁ g₂ := ⟨fun n => by rw [hr.edges.nodes], fun h => by rw [hr.edges.nodes]; exact h⟩
    exact ⟨g₂, hrun₂, he₁.same hr.edges, hio₁.relisted hr hl, harity.trans hnodes,
      hr.edges.subgraphs.trans hsame.subgraphs, fun v => (hr.edges.live_iff v).trans (hsame.live_iff v)⟩
  · exact ⟨g₁, rfl, he₁, hio₁, harity, hsame.subgraphs, hsame.live_iff⟩

theorem insertOnEdge_ok (he : Edges g) (hio : Io g) (hvalues : g.values.Room) (hnodes : g.nodes.Room) {v : ValueId}
    (hv : g.Live v) (node : Node Body) :
    ∃ id g', g.insertOnEdge v node = some (id, g') ∧ g.nodes.get id = none ∧ Edges g' ∧ Io g' ∧
      (∀ n, g'.nodes.contains n = true ↔ n = id ∨ g.nodes.contains n = true) ∧ g'.subgraphs = g.subgraphs := by
  obtain ⟨x, hx⟩ := hv
  have he₁ := he.createValue hvalues x.dtype x.shape
  have hio₁ := hio.createValue hvalues x.dtype x.shape
  have hfresh := createValue_fresh hvalues x.dtype x.shape
  have hlive : (g.createValue x.dtype x.shape).2.Live v := createValue_live hvalues _ _ (Or.inr ⟨x, hx⟩)
  have hnewlive : (g.createValue x.dtype x.shape).2.Live (g.createValue x.dtype x.shape).1 :=
    createValue_live hvalues _ _ (Or.inl rfl)
  obtain ⟨g₂, hrun₂, he₂, hio₂, harity, hsub, hlive₂⟩ := replaceAllUses_ok he₁ hio₁ hlive hnewlive
  -- nothing produces the new value yet
  have hconn : Connectable g₂ { node with inputs := [some v], outputs := [(g.createValue x.dtype x.shape).1] } := by
    refine ⟨fun w hw => ?_, fun w hw => ?_, show 1 ≤ u32Size by decide⟩
    · obtain rfl := some.inj (mem_singleton.mp hw)
      exact (hlive₂ w).mpr hlive
    · obtain rfl := mem_singleton.mp hw
      obtain ⟨y, hy⟩ := (hlive₂ _).mpr hnewlive
      refine ⟨y, hy, eq_none_iff_forall_ne_some.mpr fun n hyn => hfresh ?_⟩
      exact he.liveOutput n _ ((harity.produces_iff n _).mp ((he₂.produced _ y hy n).mp hyn))
  obtain ⟨id, g₃, hrun₃, hfree, he₃, hio₃, hn₃⟩ := insertNode_ok he₂ (harity.room hnodes) hconn
  have hkeep : ∀ n, g₂.nodes.contains n = true ↔ g.nodes.contains n = true := by
    intro n
    rw [Arena.contains_iff, Arena.contains_iff]
    exact exists_some_iff (harity.nodes n)
  refine ⟨id, g₃, ?_, ?_, he₃, hio₂.same hio₃, fun n => ?_, hio₃.subgraphs.trans hsub⟩
  · unfold insertOnEdge
    simp only [hx, hrun₂, bind_eq_bind, bind_some]
    exact hrun₃
  · by_contra hne
    obtain ⟨m, hm⟩ := ne_none_iff_exists'.mp hne
    obtain ⟨m', hm'⟩ := Arena.contains_iff.mp ((hkeep id).mpr (Arena.contains_iff.mpr ⟨m, hm⟩))
    rw [hfree] at hm'
    cases hm'
  · rw [hn₃.contains_iff, hkeep]

end Graph

end OnnxGenai.Ir
