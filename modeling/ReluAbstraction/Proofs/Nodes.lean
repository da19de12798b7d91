import ReluAbstraction.Abstraction.Preprocess
import ReluAbstraction.Proofs.Parts

/-!
# Classifying nodes

Nodes are made, moved to the table of their category, or replaced by pieces. Each operation is described by what it does to
the bodies of the nodes and to the relation of their edges; the half of the arnodes is left alone.
-/

namespace ReluAbstraction.Abstraction

variable {α : Type}

/-- Kinds of the node tables of a layer. -/
def nodeKinds : List TableKind := List.replicate 4 .appendOnly ++ [.deletable]

theorem nodeKinds_of_cemented {category : Category} (h : category ≠ .unprocessed) :
    nodeKinds[category.index]? = some .appendOnly := by
  cases category <;> first | rfl | exact absurd rfl h

theorem index_lt_five (category : Category) : category.index < 5 := by cases category <;> decide

/-- The nodes stand for a relation, the tables list them, and those not yet classified are the ones that may move. -/
structure NodesSound (a : Abstraction α) : Prop where
  graph : a.nodes.Realizes 5 a.nodes.edge?
  housed : Housed a.nodeChains nodeKinds a.nodes
  movable_iff : ∀ {id b}, a.nodes.body? id = some b → (b.movable = true ↔ b.location.category = .unprocessed)

/-- What an operation on nodes leads to: the bodies and edges afterwards, with the half of the arnodes as it was. -/
structure NodesBecome (a a' : Abstraction α) (bodies : NodeId → Option (Body (NodeData α)))
    (edges : NodeId → NodeId → Option α) : Prop where
  sound : a'.NodesSound
  body?_eq : ∀ x, a'.nodes.body? x = bodies x
  edge?_eq : ∀ x y, a'.nodes.edge? x y = edges x y
  arnodePart_eq : a'.arnodePart = a.arnodePart
  slots_le : a.nodes.slots.size ≤ a'.nodes.slots.size

theorem getElem?_nodeChains {a : Abstraction α} {l : Nat} {layer : Layer} (h : a.layers[l]? = some layer) :
    a.nodeChains[l]? = some layer.nodes := by simp [nodeChains, h]

theorem nodeChains_set (a : Abstraction α) (l : Nat) (layer : Layer) :
    nodeChains { a with layers := a.layers.set l layer } = a.nodeChains.set l layer.nodes := by
  simp [nodeChains, List.map_set]

/-- Storing new node tables in the layer they come from. -/
theorem arnodePart_setNodes {a : Abstraction α} {l : Nat} {layer : Layer} (hlayer : a.layers[l]? = some layer)
    (nodes : TableChain NodeId) (g : Graph .node α (NodeData α)) :
    arnodePart { a with nodes := g, layers := a.layers.set l { layer with nodes } } = arnodePart a := by
  have hset : (a.layers.set l { layer with nodes }).map Layer.arnodeSide = a.layers.map Layer.arnodeSide := by
    apply List.ext_getElem?
    intro i
    rw [List.map_set, List.getElem?_set]
    split
    · next h =>
      subst h
      have hlt := (List.getElem?_eq_some_iff.mp hlayer).1
      rw [if_pos (by simpa using hlt), List.getElem?_map, hlayer]
      rfl
    · rfl
  simp [arnodePart, hset]

namespace NodesSound

variable {a : Abstraction α}

/-- The layer of a node, its tables and the entry of the node. -/
theorem exists_layer (h : a.NodesSound) {id : NodeId} {b : Body (NodeData α)} (hb : a.nodes.body? id = some b) :
    ∃ layer, a.layers[b.location.layer]? = some layer ∧
      layer.nodes.at? b.location.category.index b.location.slot = some id := by
  obtain ⟨c, hc, hat⟩ := h.housed.exists_chain hb
  rw [nodeChains, List.getElem?_map, Option.map_eq_some_iff] at hc
  obtain ⟨layer, hlayer, rfl⟩ := hc
  exact ⟨layer, hlayer, hat⟩

theorem chain_sound (h : a.NodesSound) {l : Nat} {layer : Layer} (hlayer : a.layers[l]? = some layer) :
    layer.nodes.Sound := h.housed.sound _ (List.mem_of_getElem? (getElem?_nodeChains hlayer))

end NodesSound

variable {a : Abstraction α} {l : Nat} {layer : Layer}

/-- Making a node fails only for want of room: the arena is full, or the table of unprocessed nodes is. -/
theorem insertNode_meets (h : a.NodesSound) (hlayer : a.layers[l]? = some layer) {category : Category} {movable : Bool}
    (hmovable : movable = true ↔ category = .unprocessed) (bias : α) (origin : NeuronRef) :
    (insertNode l category movable bias origin).Meets a
      (fun r a' => ∃ slot, r.2 = ⟨l, category, slot⟩ ∧ a.nodes.body? r.1 = none ∧
        NodesBecome a a' (fun x => if x = r.1 then some ⟨⟨l, category, slot⟩, movable, ⟨bias, origin, none⟩⟩
          else a.nodes.body? x) a.nodes.edge?)
      (fun e a' => a' = a ∧ (∃ limit, e = .exhausted limit) ∧ (category ≠ .unprocessed → ¬a.nodes.HasRoom)) := by
  have hchain := getElem?_nodeChains hlayer
  obtain ⟨table, htable, hkind⟩ : ∃ table, layer.nodes.tables[category.index]? = some table ∧
      (category ≠ .unprocessed → table.kind = .appendOnly) := by
    by_cases hc : category = .unprocessed
    · have hdeletable : nodeKinds[category.index]? = some .deletable := by
        rw [hc]
        rfl
      obtain ⟨table, htable, _⟩ := h.housed.table_of_kind hchain hdeletable
      exact ⟨table, htable, fun hne => absurd hc hne⟩
    · obtain ⟨table, htable, hkind⟩ := h.housed.table_of_kind hchain (nodeKinds_of_cemented hc)
      exact ⟨table, htable, fun _ => hkind⟩
  unfold insertNode
  rw [Step.meets_bind, Step.meets_read, layer_of_getElem? hlayer]
  dsimp only
  rw [Step.meets_bind]
  refine TableChain.insertWith_meets (h.chain_sound hlayer) htable ?_ fun slot hvacant => ?_
  · intro limit hdeletable _
    refine ⟨rfl, ⟨limit, rfl⟩, fun hne => ?_⟩
    rw [hkind hne] at hdeletable
    cases hdeletable
  unfold onNodes
  rw [Step.meets_zoom]
  have hadd := Graph.add_meets (v := Node.create ⟨l, category, slot⟩ movable bias origin) h.graph
    (fun d => by cases d <;> rfl) (index_lt_five category) (fun hx => h.housed.vacant hchain hvacant hx)
  refine hadd.mono ?_ fun e g hfail => ⟨?_, ⟨_, hfail.1⟩, fun _ => hfail.2.1⟩
  · rintro id g ⟨hg, hnone, hget, hsize⟩ c hins
    have hbody : ∀ x, g.body? x = if x = id then some ⟨⟨l, category, slot⟩, movable, ⟨bias, origin, none⟩⟩
        else a.nodes.body? x := by
      intro x
      unfold Graph.body?
      rw [hget]
      split <;> rfl
    have hnone' : a.nodes.body? id = none := by rw [Graph.body?, hnone, Option.map_none]
    refine ⟨slot, rfl, hnone', ?_⟩
    have hedge : g.edge? = a.nodes.edge? := funext fun x => funext fun y => hg.edge?_eq x y
    refine ⟨⟨?_, ?_, ?_⟩, hbody, fun x y => hg.edge?_eq x y, arnodePart_setNodes hlayer c g, hsize⟩
    · change g.Realizes 5 g.edge?
      rw [hedge]
      exact hg
    · change Housed (nodeChains { a with nodes := g, layers := a.layers.set l { layer with nodes := c } }) nodeKinds g
      rw [nodeChains_set { a with nodes := g }]
      exact h.housed.insert hchain hins hnone' rfl hbody
    · intro x b hb
      change g.body? x = some b at hb
      rw [hbody] at hb
      split at hb
      · injection hb with hb
        subst hb
        exact hmovable
      · exact h.movable_iff hb
  · rw [hfail.2.2]

/-- Striking an unprocessed node off its table. -/
theorem unlistNode_meets {id : NodeId} {slot : Slot} (hlayer : a.layers[l]? = some layer) (hsound : layer.nodes.Sound)
    (hkinds : layer.nodes.kinds = nodeKinds) (hat : layer.nodes.at? Category.unprocessed.index slot = some id) :
    (unlistNode l .unprocessed slot).Meets a
      (fun _ a' => ∃ c, TableChain.Removed layer.nodes c Category.unprocessed.index slot ∧
        a' = { a with layers := a.layers.set l { layer with nodes := c } }) Step.Never := by
  have hdeletable : layer.nodes.kinds[Category.unprocessed.index]? = some .deletable := by
    rw [hkinds]
    rfl
  obtain ⟨c, hremove, hrem⟩ := TableChain.remove_spec hsound hdeletable hat
  unfold unlistNode
  rw [Step.meets_bind, Step.meets_read, layer_of_getElem? hlayer]
  dsimp only
  rw [Step.meets_bind, Step.meets_ofExcept, hremove]
  exact ⟨c, hrem, rfl⟩

/-- Moving an unprocessed node of layer `l` into the first table keeps its edges. -/
theorem promote_meets (h : a.NodesSound) {id : NodeId} {v : Node α} {old : Slot} (hv : a.nodes.get? id = some v)
    (hplace : v.location = ⟨l, .unprocessed, old⟩) :
    (promote l id).Meets a (fun _ a' => ∃ slot, NodesBecome a a'
      (fun x => if x = id then some ⟨⟨l, .posInc, slot⟩, false, v.data⟩ else a.nodes.body? x) a.nodes.edge?)
      Step.Never := by
  have hbody := Graph.body?_of_get? hv
  obtain ⟨layer, hlayer, hat⟩ := h.exists_layer hbody
  rw [Vertex.body_location, hplace] at hlayer hat
  have hchain := getElem?_nodeChains hlayer
  have hkinds := h.housed.kinds_eq _ (List.mem_of_getElem? hchain)
  have hmovable : v.movable = true := (h.movable_iff hbody).mpr (by rw [Vertex.body_location, hplace])
  have hgrows : nodeKinds[Category.posInc.index]? = some .appendOnly := rfl
  obtain ⟨table, htable, hkind⟩ := h.housed.table_of_kind hchain hgrows
  obtain ⟨slot, c, hinsert, hins⟩ := TableChain.insert_spec (h.chain_sound hlayer) htable hkind id
  -- The old entry is still there after the insertion, since the tables differ.
  have hat' : c.at? Category.unprocessed.index old = some id := by
    rw [hins.at?_eq, if_neg (by simp [Category.index]), hat]
  have hplace' : ({ v.location with category := .posInc, slot } : Location) = ⟨l, .posInc, slot⟩ := by rw [hplace]
  have hvacant : ∀ {x u}, a.nodes.get? x = some u → u.location ≠ { v.location with category := .posInc, slot } := by
    intro x u hx
    rw [hplace']
    exact h.housed.vacant hchain hins.vacant hx
  unfold promote
  rw [Step.meets_bind, Step.meets_read, layer_of_getElem? hlayer]
  dsimp only
  rw [Step.meets_bind, Step.meets_ofExcept, hinsert]
  dsimp only
  rw [Step.meets_bind, setLayer, Step.meets_modify, Step.meets_bind, onNodes, Step.meets_zoom]
  refine (Graph.relocateIn_meets h.graph hv hmovable (by decide) hvacant .bySlot).mono ?_ fun _ _ hfalse => hfalse.elim
  rintro place g ⟨rfl, hg, hgbody, hgsize⟩
  rw [hplace'] at hgbody
  rw [Step.meets_bind]
  have hlayer' : (a.layers.set l { layer with nodes := c })[l]? = some { layer with nodes := c } :=
    List.getElem?_set_self (List.getElem?_eq_some_iff.mp hlayer).1
  have hat'' : c.at? Category.unprocessed.index v.location.slot = some id := by rwa [hplace]
  have hunlist := unlistNode_meets (a := { a with layers := a.layers.set l { layer with nodes := c }, nodes := g }) hlayer'
    hins.sound (hins.kinds_eq.trans hkinds) hat''
  refine hunlist.imp ?_
  rintro _ a₁ ⟨c₂, hrem, rfl⟩
  rw [hplace] at hrem
  obtain ⟨u, hu, hubody⟩ : ∃ u, g.get? id = some u ∧ u.body = ⟨⟨l, .posInc, slot⟩, v.movable, v.data⟩ := by
    have hid := hgbody id
    rw [if_pos rfl] at hid
    exact Graph.body?_eq_some_iff.mp hid
  rw [Step.meets_bind, onNodes, Step.meets_zoom]
  have hedit := Graph.edit_meets (f := fun v => .ok v.cement) hu rfl
  refine hedit.mono ?_ fun _ _ hfalse => hfalse.elim
  rintro _ g' hg'
  have hrealizes : g'.Realizes 5 a.nodes.edge? := hg.of_edited hu hg' rfl fun d => by cases d <;> rfl
  have hbodies : ∀ x, g'.body? x = if x = id then some ⟨⟨l, .posInc, slot⟩, false, v.data⟩ else a.nodes.body? x := by
    intro x
    unfold Graph.body?
    rw [hg'.get?_eq]
    split
    · have hlocation : u.location = ⟨l, .posInc, slot⟩ := congrArg Body.location hubody
      have hdata : u.data = v.data := congrArg Body.data hubody
      simp [Vertex.body, Vertex.cement, hlocation, hdata]
    · next hx =>
      have hx' := hgbody x
      rwa [if_neg hx] at hx'
  have hedge : g'.edge? = a.nodes.edge? := funext fun x => funext fun y => hrealizes.edge?_eq x y
  refine ⟨slot, ⟨?_, ?_, ?_⟩, hbodies, fun x y => hrealizes.edge?_eq x y, ?_, ?_⟩
  · change g'.Realizes 5 g'.edge?
    rw [hedge]
    exact hrealizes
  · have hhoused := h.housed.move hchain hins hrem (by decide) hbody hplace rfl hbodies
    simpa [nodeChains, List.map_set] using hhoused
  · intro x b hb
    change g'.body? x = some b at hb
    rw [hbodies] at hb
    split at hb
    · injection hb with hb
      subst hb
      simp
    · exact h.movable_iff hb
  · have hpart := arnodePart_setNodes hlayer c₂ g'
    simpa [arnodePart, List.set_set] using hpart
  · change a.nodes.slots.size ≤ g'.slots.size
    rw [hg'.size_eq, hgsize]

end ReluAbstraction.Abstraction
