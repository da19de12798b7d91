import ReluAbstraction.Proofs.Preprocessing
import ReluAbstraction.Proofs.Variables

/-!
# Wrapping nodes and unwrapping arnodes

An arnode holds nodes of one layer and category, and each node knows its holder. Wrapping nodes that are free makes an
arnode without edges; unwrapping one takes it out with its edges. Both are described by what they do to the bodies of
nodes and arnodes, to the edges between arnodes and to the abstract query.
-/

namespace ReluAbstraction

namespace Abstraction

variable {α : Type}

/-- Kinds of the arnode tables of a layer. -/
def arnodeKinds : List TableKind := List.replicate 4 .deletable

theorem arnodeKinds_of_cemented {category : Category} (h : category ≠ .unprocessed) :
    arnodeKinds[category.index]? = some .deletable := by
  cases category <;> first | rfl | exact absurd rfl h

theorem index_lt_four {category : Category} : category.index < 4 ↔ category ≠ .unprocessed := by
  cases category <;> decide

/-- The arnodes stand for a relation, and the tables list them. -/
structure ArnodesSound (a : Abstraction α) : Prop where
  graph : a.arnodes.Realizes 4 a.arnodes.edge?
  housed : Housed a.arnodeChains arnodeKinds a.arnodes

/-- Whether layer `l` is the first or the last. -/
def boundary (a : Abstraction α) (l : Nat) : Bool := a.roles[l]?.any (· != .hidden)

theorem boundary_of_layer {a : Abstraction α} {l : Nat} {layer : Layer} (h : a.layers[l]? = some layer) :
    a.boundary l = layer.isBoundary := by simp [boundary, roles, h, Layer.isBoundary]

theorem getElem?_arnodeChains {a : Abstraction α} {l : Nat} {layer : Layer} (h : a.layers[l]? = some layer) :
    a.arnodeChains[l]? = some layer.arnodes := by simp [arnodeChains, h]

theorem ArnodesSound.exists_layer {a : Abstraction α} (h : a.ArnodesSound) {id : ArNodeId} {b : Body (ArNodeData α)}
    (hb : a.arnodes.body? id = some b) : ∃ layer, a.layers[b.location.layer]? = some layer ∧
      layer.arnodes.at? b.location.category.index b.location.slot = some id := by
  obtain ⟨c, hc, hat⟩ := h.housed.exists_chain hb
  rw [arnodeChains, List.getElem?_map, Option.map_eq_some_iff] at hc
  obtain ⟨layer, hlayer, rfl⟩ := hc
  exact ⟨layer, hlayer, hat⟩

theorem ArnodesSound.cemented {a : Abstraction α} (h : a.ArnodesSound) {id : ArNodeId} {b : Body (ArNodeData α)}
    (hb : a.arnodes.body? id = some b) : b.location.category ≠ .unprocessed := by
  obtain ⟨v, hv, rfl⟩ := Graph.body?_eq_some_iff.mp hb
  exact index_lt_four.mp (h.graph.covered hv)

/-- No arnode has an edge to one that is not live. -/
theorem ArnodesSound.live_of_edge {a : Abstraction α} (h : a.ArnodesSound) {x y : ArNodeId} {w : α}
    (hedge : a.arnodes.edge? x y = some w) : ∃ b c, a.arnodes.body? x = some b ∧ a.arnodes.body? y = some c ∧
      c.location.layer = b.location.layer + 1 := by
  obtain ⟨v, u, hv, hu, hlayer⟩ := h.graph.ends hedge
  exact ⟨_, _, Graph.body?_of_get? hv, Graph.body?_of_get? hu, hlayer⟩

/-- The arnode that holds a node. -/
def holder? (a : Abstraction α) (m : NodeId) : Option ArNodeId := (a.nodes.body? m).bind (·.data.owner)

theorem ownerOf_eq {a : Abstraction α} {m : NodeId} {x : ArNodeId} (h : a.holder? m = some x) : a.ownerOf m = .ok x := by
  obtain ⟨b, hb, howner⟩ := Option.bind_eq_some_iff.mp h
  obtain ⟨v, hv, rfl⟩ := Graph.body?_eq_some_iff.mp hb
  rw [Vertex.body_data] at howner
  simp only [ownerOf, node, Arena.get_of_get? hv, bind, Except.bind, howner]
  rfl

section Loops

theorem setOwner_meets {a : Abstraction α} {m : NodeId} {c : NodeInfo α} (owner : Option ArNodeId)
    (hc : a.info? m = some c) :
    (setOwner owner m).Meets a (fun _ a' => ∃ nodes, a' = { a with nodes } ∧ a'.info? = a.info? ∧
      ∀ x, a'.holder? x = if x = m then owner else a.holder? x) Step.Never := by
  obtain ⟨v, hv, rfl⟩ := get?_of_info? hc
  have hedit : (setOwner owner m).Meets a (fun _ a' => ∃ nodes, a' = { a with nodes } ∧
      ∀ x, a'.holder? x = if x = m then owner else a.holder? x) Step.Never := by
    unfold setOwner onNodes
    rw [Step.meets_zoom]
    refine (Graph.edit_meets (f := fun v => .ok { v with data := { v.data with owner } }) hv rfl).mono ?_
      fun _ _ hfalse => hfalse.elim
    intro _ g hg
    refine ⟨g, rfl, fun x => ?_⟩
    simp only [holder?, Graph.body?, hg.get?_eq]
    by_cases hx : x = m <;> simp [hx, Vertex.body]
  refine ((keeps_setOwner owner m a).and hedit).mono ?_ fun _ _ hboth => hboth.2
  rintro _ a' ⟨hkeeps, nodes, heq, hholder⟩
  exact ⟨nodes, heq, info?_of_nodePart (congrArg Prod.snd hkeeps), hholder⟩

/-- Setting the holder of several nodes. -/
theorem setOwners_meets {a : Abstraction α} {members : List NodeId} (owner : Option ArNodeId)
    (hlive : ∀ m ∈ members, ∃ c, a.info? m = some c) :
    (members.forM (setOwner owner)).Meets a (fun _ a' => ∃ nodes, a' = { a with nodes } ∧
      ∀ x, a'.holder? x = if x ∈ members then owner else a.holder? x) Step.Never := by
  refine (Step.Meets.forM (fun done a' => ∃ nodes, a' = { a with nodes } ∧ a'.info? = a.info? ∧
    ∀ x, a'.holder? x = if x ∈ done then owner else a.holder? x) ⟨a.nodes, rfl, rfl, fun x => by simp⟩ ?_).imp ?_
  · rintro done m rest _ hmembers ⟨nodes, rfl, hinfo, hholder⟩
    obtain ⟨c, hc⟩ := hlive m (by simp [hmembers])
    rw [← hinfo] at hc
    refine (setOwner_meets owner hc).imp ?_
    rintro _ _ ⟨nodes', rfl, hinfo', hholder'⟩
    refine ⟨nodes', rfl, hinfo'.trans hinfo, fun x => ?_⟩
    rw [hholder', hholder]
    by_cases hx : x = m <;> simp [hx]
  · rintro _ _ ⟨nodes, heq, _, hholder⟩
    exact ⟨nodes, heq, hholder⟩

/-- Marking the neighbours on the outgoing side. -/
private theorem markNeighbors_meets {neighbors : List (Direction × ArNodeId)} {a : Abstraction α} :
    (neighbors.forM fun (d, neighbor) =>
        if d = Direction.outgoing then recode (·.markStale neighbor) else (pure () : Step (Abstraction α) Unit)).Meets a
      (fun _ a' => ∃ e, a' = { a with encoding := e } ∧
        Encoding.Remarked a.encoding e fun x => a.encoding.isStale x = true ∨ (Direction.outgoing, x) ∈ neighbors)
      Step.Never := by
  refine Step.Meets.forM (fun done a' => ∃ e, a' = { a with encoding := e } ∧
    Encoding.Remarked a.encoding e fun x => a.encoding.isStale x = true ∨ (Direction.outgoing, x) ∈ done)
    ⟨a.encoding, rfl, (Encoding.remarked_self _).congr fun x => by simp⟩ ?_
  rintro done ⟨d, y⟩ rest _ _ ⟨e, rfl, he⟩
  dsimp only
  rw [Step.meets_ite]
  refine ⟨fun hd => ⟨e.markStale y, rfl, (he.mark y).congr fun x => ?_⟩, fun hd => ⟨e, rfl, he.congr fun x => ?_⟩⟩
  · simp only [List.mem_append, List.mem_singleton, Prod.mk.injEq, hd, true_and]
    tauto
  · simp only [List.mem_append, List.mem_singleton, Prod.mk.injEq, Ne.symm hd, false_and, or_false]

end Loops

variable [Scalar α]

/-- Bias of the neuron that a node stands for. -/
def biasOf (a : Abstraction α) (m : NodeId) : α := ((a.info? m).map NodeInfo.bias).getD 0

/-- Nodes of one table of layer `l` that no arnode holds. -/
structure Wrappable (a : Abstraction α) (l : Nat) (category : Category) (members : List NodeId) : Prop where
  ne_nil : members ≠ []
  nodup : members.Nodup
  cemented : category ≠ .unprocessed
  free : ∀ m ∈ members, ∃ c, a.info? m = some c ∧ c.place.layer = l ∧ c.place.category = category ∧
    a.holder? m = none

variable {a : Abstraction α} {l : Nat} {category : Category} {members : List NodeId}

theorem Wrappable.memberBias_eq (hnodes : a.NodesSound) {loc : Location}
    (h : Wrappable a loc.layer loc.category members) {m : NodeId} (hm : m ∈ members) :
    a.memberBias loc m = .ok (a.biasOf m) := by
  obtain ⟨c, hc, hlayer, hcategory, howner⟩ := h.free m hm
  obtain ⟨v, hv, rfl⟩ := get?_of_info? hc
  have hbody := Graph.body?_of_get? hv
  simp only [Body.info, Vertex.body_location, holder?, hbody, Option.bind_some, Vertex.body_data] at hlayer hcategory howner
  have hmovable : v.movable = false := by
    rw [← Bool.not_eq_true, ← Vertex.body_movable, hnodes.movable_iff hbody, Vertex.body_location, hcategory]
    exact h.cemented
  have hbias : a.biasOf m = v.data.bias := by
    rw [biasOf, info?_of_get? hv]
    rfl
  simp only [memberBias, node, Arena.get_of_get? hv, hmovable, howner, hlayer, hcategory, hbias, bind, Except.bind]
  simp [pure, Except.pure]

/-- The bias of a new arnode is the reduction of its members' biases. -/
theorem Wrappable.foldBias_eq (hnodes : a.NodesSound) {loc : Location}
    (h : Wrappable a loc.layer loc.category members) : ∃ bias, a.foldBias loc members = .ok bias ∧
      (a.policy.bias loc.category).reduce? (members.map a.biasOf) = some bias := by
  have hmap := mapM_eq_ok_map a.biasOf fun m hm => h.memberBias_eq hnodes hm
  obtain ⟨m, rest, rfl⟩ := List.exists_cons_of_ne_nil h.ne_nil
  refine ⟨_, ?_, rfl⟩
  rw [foldBias, hmap]
  rfl

/-- Nothing has changed, except that larger variables may have been in use for a while. -/
def Lapsed (a a' : Abstraction α) : Prop := ∃ e, Encoding.Lapsed a.encoding e ∧ a' = { a with encoding := e }

omit [Scalar α] in
theorem Lapsed.refl (a : Abstraction α) : Lapsed a a := ⟨a.encoding, Encoding.lapsed_self _, rfl⟩

/-- A step over nodes of layer `l` failed as there were too few variables, or no room for an arnode. -/
def WrapFails (a : Abstraction α) (boundary : Bool) (error : Error) (a' : Abstraction α) : Prop :=
  (∃ limit, error = .exhausted limit) ∧
    (a.encoding.pool.available < varsNeeded boundary ∧ Lapsed a a' ∨ ¬a.arnodes.HasRoom)

/-- Making an arnode at a vacant place over free nodes fails only for want of variables or of room. -/
theorem spawn_meets (hnodes : a.NodesSound) (harnodes : a.ArnodesSound) (hpool : a.encoding.pool.WellFormed)
    (loc : Location) (hw : Wrappable a loc.layer loc.category members)
    (hvacant : ∀ {x u}, a.arnodes.get? x = some u → u.location ≠ loc) (boundary : Bool) :
    (spawn loc members boundary).Meets a
      (fun id a' => ∃ vars bias e arnodes nodes metrics,
        a' = { a with nodes, arnodes, encoding := e.markStale id, metrics } ∧
        (a.policy.bias loc.category).reduce? (members.map a.biasOf) = some bias ∧
        Encoding.Borrowed a.encoding e boundary vars ∧ arnodes.Realizes 4 a.arnodes.edge? ∧
        a.arnodes.body? id = none ∧
        (∀ x, arnodes.body? x = if x = id then some ⟨loc, false, ⟨members, .notActivated, vars, bias, none⟩⟩
          else a.arnodes.body? x) ∧
        ∀ x, a'.holder? x = if x ∈ members then some id else a.holder? x)
      (WrapFails a boundary) := by
  obtain ⟨bias, hfold, hbias⟩ := hw.foldBias_eq hnodes
  unfold spawn
  rw [Step.meets_bind, Step.meets_read, hfold]
  dsimp only
  rw [Step.meets_bind, onEncoding, Step.meets_zoom]
  refine (Encoding.borrowVars_meets hpool boundary).mono ?_
    fun error e hfail => ⟨hfail.1, Or.inl ⟨hfail.2.1, e, hfail.2.2, rfl⟩⟩
  intro vars e hborrowed
  rw [Step.meets_bind, Step.meets_tryCatch, onArnodes, Step.meets_zoom]
  have hadd := Graph.add_meets (v := ArNode.create loc members vars bias) harnodes.graph
    (fun d => by cases d <;> rfl) (index_lt_four.mpr hw.cemented) hvacant
  refine hadd.mono ?_ fun e _ hfail => ⟨⟨_, hfail.1⟩, Or.inr hfail.2.1⟩
  rintro id g ⟨hg, hnone, hget, _⟩
  rw [Step.meets_bind]
  refine (setOwners_meets (a := { a with encoding := e, arnodes := g }) (some id) ?_).mono ?_ fun _ _ hfalse => hfalse.elim
  · intro m hm
    obtain ⟨c, hc, _⟩ := hw.free m hm
    exact ⟨c, hc⟩
  rintro _ _ ⟨nodes, rfl, hheld⟩
  refine ⟨vars, bias, e, g, nodes, _, rfl, hbias, hborrowed, hg, ?_, ?_, hheld⟩
  · rw [Graph.body?, hnone, Option.map_none]
  · intro x
    unfold Graph.body?
    rw [hget]
    split <;> rfl

/-- What wrapping `members` into the arnode `id` with body `b` leads to. -/
structure Wrapped (a a' : Abstraction α) (members : List NodeId) (id : ArNodeId) (b : Body (ArNodeData α)) : Prop where
  sound : a'.ArnodesSound
  nodePart_eq : a'.nodePart = a.nodePart
  fresh : a.arnodes.body? id = none
  wrappable : Wrappable a b.location.layer b.location.category members
  members_eq : b.data.members = members
  state_eq : b.data.state = .notActivated
  equation_eq : b.data.equation = none
  bias_eq : (a.policy.bias b.location.category).reduce? (members.map a.biasOf) = some b.data.bias
  body?_eq : ∀ x, a'.arnodes.body? x = if x = id then some b else a.arnodes.body? x
  edge?_eq : ∀ x y, a'.arnodes.edge? x y = a.arnodes.edge? x y
  holder?_eq : ∀ x, a'.holder? x = if x ∈ members then some id else a.holder? x
  borrowed : ∃ e, Encoding.Borrowed a.encoding e (a.boundary b.location.layer) b.data.vars ∧
    a'.encoding = e.markStale id

/-- Wrapping free nodes fails only for want of variables or of room. -/
theorem wrap_meets (hnodes : a.NodesSound) (harnodes : a.ArnodesSound) (hpool : a.encoding.pool.WellFormed)
    (hw : Wrappable a l category members) :
    (wrap l members).Meets a (fun id a' => ∃ b, b.location.layer = l ∧ b.location.category = category ∧
        Wrapped a a' members id b) (WrapFails a (a.boundary l)) := by
  -- The half of the nodes is taken from the frame lemma, the rest from the parts of the program.
  suffices h : (wrap l members).Meets a (fun id a' => a'.nodePart = a.nodePart →
      ∃ b, b.location.layer = l ∧ b.location.category = category ∧ Wrapped a a' members id b)
      (WrapFails a (a.boundary l)) from
    ((keeps_wrap l members a).and h).mono (fun _ _ hboth => hboth.2 hboth.1) fun _ _ hboth => hboth.2
  obtain ⟨first, rest, hmembers⟩ := List.exists_cons_of_ne_nil hw.ne_nil
  obtain ⟨c, hc, hblayer, hbcategory, _⟩ := hw.free first (by simp [hmembers])
  obtain ⟨v, hv, rfl⟩ := get?_of_info? hc
  obtain ⟨layer, hlayer, _⟩ := hnodes.exists_layer (Graph.body?_of_get? hv)
  simp only [Body.info, Vertex.body_location] at hblayer hbcategory hlayer
  rw [hblayer] at hlayer
  have hchain := getElem?_arnodeChains hlayer
  obtain ⟨table, htable, _⟩ := harnodes.housed.table_of_kind hchain (arnodeKinds_of_cemented hw.cemented)
  have hread : a.node first = .ok v := Arena.get_of_get? hv
  unfold wrap
  rw [Step.meets_bind, Step.meets_read, layer_of_getElem? hlayer]
  dsimp only
  rw [hmembers]
  dsimp only
  rw [Step.meets_bind, Step.meets_read, hread]
  dsimp only
  rw [Step.meets_bind, checkLayer, if_pos hblayer, hbcategory]
  refine (Step.meets_ofExcept).mpr ?_
  have hcemented : category.isCemented = true := by simpa [Category.isCemented] using hw.cemented
  simp only [hcemented, Bool.not_true, Bool.false_eq_true, if_false]
  rw [Step.meets_bind, ← hmembers]
  refine TableChain.insertWith_meets (harnodes.housed.sound _ (List.mem_of_getElem? hchain)) htable ?_ fun slot hvacant => ?_
  · intro limit _ hfull
    have hsize := harnodes.housed.table_size_le hchain htable
    have hspan := harnodes.graph.arena.size_le
    have hceiling : Arena.span < IdPool.ceiling := by decide
    omega
  have hspawn := spawn_meets hnodes harnodes hpool ⟨l, category, slot⟩ hw
    (fun hx => harnodes.housed.vacant hchain hvacant hx) layer.isBoundary
  refine hspawn.mono ?_ ?_
  swap
  · rintro e _ hfail
    rw [boundary_of_layer hlayer]
    exact hfail
  rintro id _ ⟨vars, bias, e, arnodes, nodes, metrics, rfl, hbias, hborrowed, hg, hfresh, hbody, hheld⟩ c hins hpart
  have hedge : arnodes.edge? = a.arnodes.edge? := funext fun x => funext fun y => hg.edge?_eq x y
  refine ⟨⟨⟨l, category, slot⟩, false, ⟨members, .notActivated, vars, bias, none⟩⟩, rfl, rfl, ?_⟩
  refine ⟨⟨?_, ?_⟩, hpart, hfresh, hw, rfl, rfl, rfl, hbias, hbody, fun x y => hg.edge?_eq x y, hheld, e, ?_, rfl⟩
  · change arnodes.Realizes 4 arnodes.edge?
    rw [hedge]
    exact hg
  · have hhoused := harnodes.housed.insert hchain hins hfresh rfl hbody
    simpa [arnodeChains, List.map_set] using hhoused
  · rw [boundary_of_layer hlayer]
    exact hborrowed

/-- What unwrapping the arnode `id` with body `b` leads to. The arnodes that it fed are marked. -/
structure Unwrapped (a a' : Abstraction α) (id : ArNodeId) (b : Body (ArNodeData α)) : Prop where
  sound : a'.ArnodesSound
  nodePart_eq : a'.nodePart = a.nodePart
  live : a.arnodes.body? id = some b
  body?_eq : ∀ x, a'.arnodes.body? x = if x = id then none else a.arnodes.body? x
  edge?_eq : ∀ x y, a'.arnodes.edge? x y = if x = id ∨ y = id then none else a.arnodes.edge? x y
  holder?_eq : ∀ x, a'.holder? x = if x ∈ b.data.members then none else a.holder? x
  returned : ∃ e, Encoding.Remarked a.encoding e
      (fun x => x ≠ id ∧ (a.encoding.isStale x = true ∨ (a.arnodes.edge? id x).isSome)) ∧
    a'.encoding = e.releaseVars b.data.vars b.data.equation

/-- A live arnode can be unwrapped. -/
theorem unwrap_meets (harnodes : a.ArnodesSound) {id : ArNodeId} {b : Body (ArNodeData α)}
    (hb : a.arnodes.body? id = some b) (hlayer : b.location.layer = l)
    (hlive : ∀ m ∈ b.data.members, ∃ c, a.info? m = some c) :
    (unwrap l id).Meets a (fun members a' => members = b.data.members ∧ Unwrapped a a' id b) Step.Never := by
  suffices h : (unwrap l id).Meets a (fun members a' => a'.nodePart = a.nodePart →
      members = b.data.members ∧ Unwrapped a a' id b) Step.Never from
    ((keeps_unwrap l id a).and h).mono (fun _ _ hboth => hboth.2 hboth.1) fun _ _ hboth => hboth.2
  obtain ⟨v, hv, rfl⟩ := Graph.body?_eq_some_iff.mp hb
  obtain ⟨layer, hget, hat⟩ := harnodes.exists_layer hb
  simp only [Vertex.body_location, Vertex.body_data] at hlayer hget hat hlive
  rw [hlayer] at hget
  have hchain := getElem?_arnodeChains hget
  have hkinds := harnodes.housed.kinds_eq _ (List.mem_of_getElem? hchain)
  have hdeletable : layer.arnodes.kinds[v.location.category.index]? = some .deletable := by
    rw [hkinds]
    exact arnodeKinds_of_cemented (harnodes.cemented hb)
  obtain ⟨c, hremove, hrem⟩ := TableChain.remove_spec (harnodes.housed.sound _ (List.mem_of_getElem? hchain)) hdeletable hat
  have hread : a.arnode id = .ok v := Arena.get_of_get? hv
  unfold unwrap
  rw [Step.meets_bind, Step.meets_read, layer_of_getElem? hget]
  dsimp only
  rw [Step.meets_bind, Step.meets_read, hread]
  dsimp only
  rw [Step.meets_bind, checkLayer, if_pos hlayer]
  refine (Step.meets_ofExcept).mpr ?_
  rw [Step.meets_bind, destroy, Step.meets_bind, onArnodes, Step.meets_zoom]
  refine (Graph.destroyIn_meets harnodes.graph hv .bySlot).mono ?_ fun _ _ hfalse => hfalse.elim
  rintro ⟨u, neighbors⟩ g ⟨heq, hg, hbody, _⟩
  simp only [Prod.mk.injEq] at heq
  obtain ⟨rfl, rfl⟩ := heq
  dsimp only
  rw [Step.meets_bind]
  refine (setOwners_meets (a := { a with arnodes := g }) none hlive).mono ?_ fun _ _ hfalse => hfalse.elim
  rintro _ _ ⟨nodes, rfl, hheld⟩
  rw [Step.meets_bind]
  refine (markNeighbors_meets (a := { a with arnodes := g, nodes })).mono ?_ fun _ _ hfalse => hfalse.elim
  rintro _ _ ⟨e, rfl, he⟩
  -- What is left are plain changes of the encoding and of the tables.
  simp only [Step.meets_bind, recode, count, Step.meets_modify, Step.meets_pure, Step.meets_ofExcept, hremove, setLayer]
  intro hpart
  refine ⟨rfl, ⟨⟨?_, ?_⟩, hpart, hb, hbody, fun x y => hg.edge?_eq x y, hheld, e.forget id, ?_, rfl⟩⟩
  · have hedge : g.edge? = fun x y => if x = id ∨ y = id then none else a.arnodes.edge? x y :=
      funext fun x => funext fun y => hg.edge?_eq x y
    change g.Realizes 4 g.edge?
    rw [hedge]
    exact hg
  · have hhoused := harnodes.housed.remove hchain hrem hb (by rw [Vertex.body_location, ← hlayer]) hbody
    simpa [arnodeChains, List.map_set] using hhoused
  · refine (he.forget id).congr fun x => and_congr_right fun _ => or_congr_right ?_
    rw [Vertex.Listing.mem_neighbors_iff, Vertex.mem_neighbors_iff, harnodes.graph.mem_neighbors_iff hv, Option.isSome_iff_exists]
    rfl

end Abstraction

end ReluAbstraction
