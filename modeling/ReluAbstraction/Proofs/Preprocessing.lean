import ReluAbstraction.Proofs.Faithful

/-!
# Preprocessing keeps the network

The nodes of an abstraction represent a network. Preprocessing keeps this in every outcome but one: a split that stops in
the middle because the arena of the nodes is full. As slots are never given up, an arena that still has a fresh slot shows
that this has not happened.
-/

namespace ReluAbstraction

variable {α : Type}

section Slots

open Step

variable {k : EntityKind} {δ : Type}

namespace Arena

variable {β : Type} {a a' : Arena k β}

theorem slots_le_of_insert {v : β} {h : Handle k} (hins : a.insert v = .ok (h, a')) : a.slots.size ≤ a'.slots.size := by
  unfold insert insertWith at hins
  cases hnext : a.nextHandle with
  | error e =>
    rw [hnext] at hins
    cases hins
  | ok h' =>
    rw [hnext] at hins
    injection hins with hins
    obtain ⟨_, rfl⟩ := Prod.mk.inj hins
    unfold push
    split
    · simp
    · simp

theorem slots_eq_of_modify {h : Handle k} {f : β → Except Error β} (hmodify : a.modify h f = .ok a') :
    a'.slots.size = a.slots.size := by
  have hmap := map_of_modify (f := fun _ => ()) (fun _ _ _ => rfl) hmodify
  simpa [map] using congrArg (fun x => x.slots.size) hmap

end Arena

namespace Graph

/-- Number of slots that the vertices of a graph have ever used. -/
def slotCount (g : Graph k α δ) : Nat := g.slots.size

theorem keepsSlots_edit (id : Handle k) (f : Vertex k α δ → Except Error (Vertex k α δ)) :
    Keeps slotCount (edit id f) := by
  intro g
  rw [edit, meets_update]
  cases hmodify : Arena.modify g id f with
  | error e => exact rfl
  | ok g' => exact Arena.slots_eq_of_modify hmodify

theorem grows_add (v : Vertex k α δ) : Grows slotCount (add v) := by
  intro g
  rw [add, meets_bind, meets_read]
  cases hins : Arena.insert g v with
  | error e => exact le_rfl
  | ok r => exact Arena.slots_le_of_insert hins

theorem keepsSlots_link (x : Handle k) (d : Direction) (y : Handle k) (w : α) (both : Bool) :
    Keeps slotCount (link x d y w both : Step (Graph k α δ) Unit) := by
  unfold link find
  refine (Within.read _).bind fun u => (Within.read _).bind fun v => (keepsSlots_edit _ _).bind fun _ => ?_
  exact Within.ite (keepsSlots_edit _ _) (Within.pure _)

theorem keepsSlots_relocate (id : Handle k) (category : Category) (slot : Slot) :
    Keeps slotCount (relocate id category slot : Step (Graph k α δ) Location) := by
  unfold relocate relocateIn find
  refine (Within.read _).bind fun v => Within.ite (Within.throw _) ?_
  refine (keepsSlots_edit _ _).bind fun _ => (Within.forM _ fun n => keepsSlots_edit _ _).bind fun _ => Within.pure _

theorem keepsSlots_destroy (id : Handle k) :
    Keeps slotCount (destroy id : Step (Graph k α δ) (Vertex k α δ × List (Direction × Handle k))) := by
  unfold destroy destroyIn find dropEdge find
  refine (Within.read _).bind fun v => (Within.forM _ fun n => Within.discard ?_).bind fun _ => ?_
  · exact (Within.read _).bind fun u => (Within.ofExcept _).bind fun r => (keepsSlots_edit _ _).bind fun _ => Within.pure _
  · intro g
    rw [meets_bind, meets_read]
    unfold Arena.remove
    cases hget : Arena.get? g id with
    | none => exact rfl
    | some u =>
      change (g.slots.modify id.index _).size = g.slots.size
      simp

end Graph

namespace Abstraction

/-- Number of slots that the nodes have ever used. -/
def nodeSlots (a : Abstraction α) : Nat := a.nodes.slotCount

theorem nodeSlots_of_nodePart {a a' : Abstraction α} (h : a'.nodePart = a.nodePart) : a'.nodeSlots = a.nodeSlots := by
  have hnodes : a'.nodes.map Node.disowned = a.nodes.map Node.disowned := congrArg (fun p => p.2.1) h
  have hsize := congrArg (fun g => g.slots.size) hnodes
  simpa [nodeSlots, Graph.slotCount, Arena.map] using hsize

/-- A step that leaves the half of the nodes alone uses no new slot for a node. -/
theorem keepsSlots_of_keeps {β : Type} {step : Step (Abstraction α) β} (h : Keeps nodePart step) : Keeps nodeSlots step :=
  h.mono fun _ _ hs => nodeSlots_of_nodePart hs

theorem keepsSlots_onNodes {β : Type} {step : Step (Graph .node α (NodeData α)) β} (h : Keeps Graph.slotCount step) :
    Keeps nodeSlots (onNodes step) := h.zoom fun _ _ ht => ht

theorem keepsSlots_setLayer (l : Nat) (layer : Layer) : Keeps nodeSlots (setLayer l layer : Step (Abstraction α) Unit) :=
  fun _ => rfl

theorem keepsSlots_count (event : Event) : Keeps nodeSlots (count event : Step (Abstraction α) Unit) := fun _ => rfl

theorem keepsSlots_unlistNode (l : Nat) (category : Category) (slot : Slot) :
    Keeps nodeSlots (unlistNode l category slot : Step (Abstraction α) Unit) := by
  unfold unlistNode
  exact (Within.read _).bind fun layer => (Within.ofExcept _).bind fun r => keepsSlots_setLayer _ _

theorem keepsSlots_promote (l : Nat) (id : NodeId) : Keeps nodeSlots (promote l id : Step (Abstraction α) Unit) := by
  unfold promote
  refine (Within.read _).bind fun layer => (Within.ofExcept _).bind fun r => (keepsSlots_setLayer _ _).bind fun _ => ?_
  refine (keepsSlots_onNodes (Graph.keepsSlots_relocate _ _ _)).bind fun old => (keepsSlots_unlistNode _ _ _).bind fun _ => ?_
  exact (keepsSlots_onNodes (Graph.keepsSlots_edit _ _)).bind fun _ => keepsSlots_count _

theorem grows_insertNode (l : Nat) (category : Category) (movable : Bool) (bias : α) (origin : NeuronRef) :
    Grows nodeSlots (insertNode l category movable bias origin) := by
  unfold insertNode TableChain.insertWith
  refine (Within.read _).bind fun layer => Within.bind ?_ fun r => (keepsSlots_setLayer _ _).grows.bind fun _ => Within.pure _
  have hadd : ∀ v : Node α, Grows nodeSlots (onNodes (Graph.add v)) := fun v => (Graph.grows_add v).zoom fun _ _ ht => ht
  exact (Within.ofExcept _).bind fun r => (hadd _).bind fun _ => Within.pure _

variable [Scalar α]

theorem grows_divide (l : Nat) (id : NodeId) (v : Node α) :
    Grows nodeSlots (divide l id v : Step (Abstraction α) (List NodeId)) := by
  have hlink : ∀ x d y w both, Grows nodeSlots (onNodes (Graph.link x d y w both) : Step (Abstraction α) Unit) :=
    fun _ _ _ _ _ => (keepsSlots_onNodes (Graph.keepsSlots_link _ _ _ _ _)).grows
  unfold divide
  refine (Within.ofExcept _).bind fun classified => (Within.mapM _ fun b => ?_).bind fun pieces => Within.grows ?_
  · unfold makePiece
    refine (grows_insertNode _ _ _ _ _).bind fun r => (Within.forM _ fun e => hlink _ _ _ _ _).bind fun _ => ?_
    exact (Within.forM _ fun e => hlink _ _ _ _ _).bind fun _ => Within.pure _
  · refine (keepsSlots_onNodes (Graph.keepsSlots_destroy _)).discard.bind fun _ => ?_
    exact (keepsSlots_unlistNode _ _ _).bind fun _ => (keepsSlots_count _).bind fun _ => Within.pure _

theorem grows_preprocess (l : Nat) : Grows nodeSlots (preprocess l : Step (Abstraction α) (List ArNodeId)) := by
  unfold preprocess
  refine (Within.read _).bind fun layer => (Within.mapM _ fun e => ?_).bind fun created => Within.pure _
  unfold classifyNode
  refine (Within.read _).bind fun layer => (Within.read _).bind fun node => (Within.ofExcept _).bind fun _ => ?_
  refine Within.ite (Within.throw _) (Within.ite ?_ ?_)
  · exact (keepsSlots_promote _ _).grows.bind fun _ =>
      (keepsSlots_of_keeps (keeps_wrap _ _)).grows.bind fun _ => Within.pure _
  · exact (grows_divide _ _ _).bind fun pieces => Within.mapM _ fun p => (keepsSlots_of_keeps (keeps_wrap _ _)).grows

end Abstraction

end Slots

namespace Abstraction

theorem edge?_of_nodePart {a a' : Abstraction α} (h : a'.nodePart = a.nodePart) : a'.nodes.edge? = a.nodes.edge? := by
  have hnodes : a'.nodes.map Node.disowned = a.nodes.map Node.disowned := congrArg (fun p => p.2.1) h
  have hmap : ∀ g : Graph .node α (NodeData α), Graph.edge? (Arena.map Node.disowned g) = g.edge? := by
    intro g
    funext x y
    simp only [Graph.edge?, Arena.get?_map]
    cases Arena.get? g x with
    | none => rfl
    | some v => cases Arena.get? g y <;> rfl
  rw [← hmap, hnodes, hmap]

theorem body?_of_nodePart {a a' : Abstraction α} (h : a'.nodePart = a.nodePart) {x : NodeId} {b : Body (NodeData α)}
    (hb : a'.nodes.body? x = some b) :
    ∃ b', a.nodes.body? x = some b' ∧ b'.location = b.location ∧ b'.movable = b.movable ∧ b'.info = b.info := by
  have hnodes : a'.nodes.map Node.disowned = a.nodes.map Node.disowned := congrArg (fun p => p.2.1) h
  have hget := congrArg (fun g => Arena.get? g x) hnodes
  simp only [Arena.get?_map] at hget
  obtain ⟨v, hv, rfl⟩ := Graph.body?_eq_some_iff.mp hb
  rw [hv, Option.map_some, eq_comm, Option.map_eq_some_iff] at hget
  obtain ⟨u, hu, heq⟩ := hget
  simp only [Node.disowned, Vertex.mk.injEq, NodeData.mk.injEq] at heq
  obtain ⟨hlocation, hmovable, _, _, hbias, horigin, _⟩ := heq
  exact ⟨u.body, Graph.body?_of_get? hu, hlocation, hmovable, by simp [Body.info, hlocation, hbias, horigin]⟩

theorem info?_of_nodePart {a a' : Abstraction α} (h : a'.nodePart = a.nodePart) : a'.info? = a.info? := by
  funext x
  cases hb : a'.nodes.body? x with
  | none =>
    cases hb' : a.nodes.body? x with
    | none => simp [info?, hb, hb']
    | some b =>
      obtain ⟨b', hb'', _⟩ := body?_of_nodePart h.symm hb'
      rw [hb] at hb''
      cases hb''
  | some b =>
    obtain ⟨b', hb', _, _, hinfo⟩ := body?_of_nodePart h hb
    simp [info?, hb, hb', hinfo]

theorem NodesSound.of_nodePart {a a' : Abstraction α} (hs : a.NodesSound) (h : a'.nodePart = a.nodePart) :
    a'.NodesSound := by
  have hnodes : a'.nodes.map Node.disowned = a.nodes.map Node.disowned := congrArg (fun p => p.2.1) h
  have hlayers : a'.layers.map Layer.nodeSide = a.layers.map Layer.nodeSide := congrArg Prod.fst h
  have hchains : a'.nodeChains = a.nodeChains := by
    have hsnd := congrArg (List.map Prod.snd) hlayers
    simpa [nodeChains, Function.comp_def, Layer.nodeSide] using hsnd
  have hloc : ∀ v : Node α, v.disowned.location = v.location := fun _ => rfl
  have hedges : ∀ (v : Node α) d, v.disowned.edges d = v.edges d := fun v d => by cases d <;> rfl
  refine ⟨?_, ?_, ?_⟩
  · rw [edge?_of_nodePart h, ← Graph.realizes_map hloc hedges, hnodes, Graph.realizes_map hloc hedges]
    exact hs.graph
  · rw [hchains]
    refine hs.housed.of_same_bodies fun x => ?_
    have hinfo := congrFun (info?_of_nodePart h) x
    have hplace := congrArg (Option.map NodeInfo.place) hinfo
    simpa [info?, Function.comp_def, Body.info] using hplace
  · intro x b hb
    obtain ⟨b', hb', hlocation, hmovable, _⟩ := body?_of_nodePart h hb
    rw [← hlocation, ← hmovable]
    exact hs.movable_iff hb'

theorem roles_of_nodePart {a a' : Abstraction α} (h : a'.nodePart = a.nodePart) : a'.roles = a.roles := by
  have hlayers : a'.layers.map Layer.nodeSide = a.layers.map Layer.nodeSide := congrArg Prod.fst h
  have hfst := congrArg (List.map Prod.fst) hlayers
  simpa [roles, Function.comp_def, Layer.nodeSide] using hfst

theorem policy_of_nodePart {a a' : Abstraction α} (h : a'.nodePart = a.nodePart) : a'.policy = a.policy :=
  congrArg (fun p => p.2.2) h

theorem roles_of_arnodePart {a a' : Abstraction α} (hpart : a'.arnodePart = a.arnodePart) : a'.roles = a.roles := by
  have hlayers : a'.layers.map Layer.arnodeSide = a.layers.map Layer.arnodeSide := congrArg Prod.fst hpart
  have hfst := congrArg (List.map Prod.fst) hlayers
  simpa [roles, Function.comp_def, Layer.arnodeSide] using hfst

/-- The nodes in the table of unprocessed nodes of a layer. -/
theorem NodesSound.mem_unprocessed_iff {a : Abstraction α} (h : a.NodesSound) {l : Nat} {layer : Layer}
    (hlayer : a.layers[l]? = some layer) {m : NodeId} :
    m ∈ (layer.nodes.entries Category.unprocessed.index).map (·.2) ↔
      ∃ c, a.info? m = some c ∧ c.place.layer = l ∧ c.place.category = .unprocessed := by
  have hchain := getElem?_nodeChains hlayer
  rw [List.mem_map]
  constructor
  · rintro ⟨⟨slot, m⟩, hm, rfl⟩
    obtain ⟨b, hb, hplace⟩ := (h.housed.mem_entries_iff hchain).mp hm
    exact ⟨b.info, by rw [info?, hb, Option.map_some], congrArg Location.layer hplace, congrArg Location.category hplace⟩
  · rintro ⟨c, hc, hl, hcategory⟩
    obtain ⟨b, hb, rfl⟩ := Option.map_eq_some_iff.mp hc
    refine ⟨(b.location.slot, m), (h.housed.mem_entries_iff hchain).mpr ⟨b, hb, ?_⟩, rfl⟩
    rw [← hl, ← hcategory]
    rfl

/-- What classifying a node of layer `l` leads to, as far as the other nodes are concerned: classified pieces take its
place, and nothing else changes. -/
structure Resolved (a a' : Abstraction α) (l : Nat) (id : NodeId) (pieces : List NodeId) : Prop where
  arnodePart_eq : a'.arnodePart = a.arnodePart
  slots_le : a.nodeSlots ≤ a'.nodeSlots
  nodup : pieces.Nodup
  fresh : ∀ p ∈ pieces, p ≠ id → a.nodes.body? p = none
  piece : ∀ p ∈ pieces, ∃ b b', a.nodes.body? id = some b ∧ a'.nodes.body? p = some b' ∧ b'.location.layer = l ∧
    b'.location.category ≠ .unprocessed ∧ (b.data.owner = none → b'.data.owner = none)
  origin_eq : ∀ p ∈ pieces, ∀ {c c'}, a.info? id = some c → a'.info? p = some c' →
    c'.origin = c.origin ∧ c'.place.layer = c.place.layer
  raising : (∀ y, a.nodes.edge? id y = none) → ∀ p ∈ pieces, ∀ {c}, a'.info? p = some c → c.place.category = .posInc
  gone : id ∉ pieces → a'.nodes.body? id = none
  body?_eq : ∀ x, x ≠ id → x ∉ pieces → a'.nodes.body? x = a.nodes.body? x
  edge?_eq : ∀ x y, x ≠ id → y ≠ id → x ∉ pieces → y ∉ pieces → a'.nodes.edge? x y = a.nodes.edge? x y

section Resolving

variable {a a' : Abstraction α} {l : Nat} {id : NodeId} {v : Node α}

/-- Moving a node leaves one piece, the node itself. -/
theorem resolved_promote (hv : a.nodes.get? id = some v) {old slot : Slot} (hplace : v.location = ⟨l, .unprocessed, old⟩)
    (h : NodesBecome a a' (fun x => if x = id then some ⟨⟨l, .posInc, slot⟩, false, v.data⟩ else a.nodes.body? x)
      a.nodes.edge?) : Resolved a a' l id [id] := by
  have hnew : a'.nodes.body? id = some ⟨⟨l, .posInc, slot⟩, false, v.data⟩ := by rw [h.body?_eq, if_pos rfl]
  refine ⟨h.arnodePart_eq, h.slots_le, by simp, by simp, ?_, ?_, ?_, by simp, ?_, fun x y _ _ _ _ => h.edge?_eq x y⟩
  · intro p hp
    rw [List.mem_singleton.mp hp]
    exact ⟨v.body, _, Graph.body?_of_get? hv, hnew, rfl, by simp, fun howner => howner⟩
  · intro p hp c c' hc hc'
    rw [info?_of_get? hv] at hc
    rw [List.mem_singleton.mp hp, info?, hnew] at hc'
    cases hc
    cases hc'
    exact ⟨rfl, (congrArg Location.layer hplace).symm⟩
  · intro _ p hp c hc
    rw [List.mem_singleton.mp hp, info?, hnew] at hc
    cases hc
    rfl
  · intro x hx _
    rw [h.body?_eq, if_neg hx]

/-- A node that is divided has an outgoing edge. -/
theorem NodesSound.exists_edge (h : a.NodesSound) (hv : a.nodes.get? id = some v) (hedges : ¬v.outgoing.isEmpty = true) :
    ∃ y w, a.nodes.edge? id y = some w := by
  simp only [EdgeSet.isEmpty_iff, not_forall] at hedges
  obtain ⟨key, hkey⟩ := hedges
  obtain ⟨⟨w, y⟩, hget⟩ := Option.ne_none_iff_exists'.mp hkey
  obtain ⟨_, _, _, hedge⟩ := (h.graph.edges_iff hv .outgoing key w y).mp hget
  exact ⟨y, w, hedge⟩

end Resolving

variable [Scalar α] {net : Feedforward α}

/-- The nodes represent the network. -/
structure Represents (a : Abstraction α) (net : Feedforward α) : Prop where
  sound : a.NodesSound
  faithful : Faithful net a.info? a.nodes.edge?
  roles_eq : a.roles = (List.range net.depth).map (Network.roleOf net.depth)

namespace Represents

variable {a a' : Abstraction α} {l : Nat} {id : NodeId}

theorem of_nodePart (h : a.Represents net) (hpart : a'.nodePart = a.nodePart) : a'.Represents net := by
  refine ⟨h.sound.of_nodePart hpart, ?_, ?_⟩
  · rw [info?_of_nodePart hpart, edge?_of_nodePart hpart]
    exact h.faithful
  · exact (roles_of_nodePart hpart).trans h.roles_eq

/-- The layers have the roles that their numbers give them. -/
theorem role_eq (h : a.Represents net) {layer : Layer} (hlayer : a.layers[l]? = some layer) :
    l < net.depth ∧ layer.role = Network.roleOf net.depth l := by
  have hrole : a.roles[l]? = some layer.role := by rw [roles, List.getElem?_map, hlayer, Option.map_some]
  rw [h.roles_eq, List.getElem?_map, Option.map_eq_some_iff] at hrole
  obtain ⟨m, hm, hrole⟩ := hrole
  obtain ⟨hlt, rfl⟩ := List.getElem?_eq_some_iff.mp hm
  rw [List.length_range] at hlt
  rw [List.getElem_range] at hrole
  exact ⟨hlt, hrole.symm⟩

/-- The input layer is the first one. -/
theorem input_iff (h : a.Represents net) {layer : Layer} (hlayer : a.layers[l]? = some layer) :
    layer.role = .input ↔ l = 0 := by
  rw [(h.role_eq hlayer).2, Network.roleOf]
  by_cases hl : l = 0
  · simp [hl]
  · by_cases hlast : l + 1 = net.depth <;> simp [hl, hlast]

end Represents

/-- A node with outgoing edges is resolved into its pieces. -/
theorem Divided.resolved {a a' : Abstraction α} {l : Nat} {id : NodeId} {v : Node α} {made : List (NodeId × Location)}
    (h : Divided a a' l id v made) (hv : a.nodes.get? id = some v) (hl : v.location.layer = l)
    (hsome : ∃ y w, a.nodes.edge? id y = some w) : Resolved a a' l id (made.map Prod.fst) := by
  have hbody := Graph.body?_of_get? hv
  have hnone : ∀ {x}, x ∉ made.map Prod.fst → placeOf made x = none := by
    intro x hx
    refine lookupBy_eq_none_iff.mpr fun p hp heq => hx ?_
    exact List.mem_map.mpr ⟨p, hp, heq⟩
  refine ⟨h.becomes.arnodePart_eq, h.becomes.slots_le, h.pieces.nodup, ?_, ?_, ?_, fun hnone => ?_, ?_, ?_, ?_⟩
  · intro x hx _
    obtain ⟨p, hp, rfl⟩ := List.mem_map.mp hx
    exact h.pieces.fresh p hp
  · intro x hx
    obtain ⟨p, hp, rfl⟩ := List.mem_map.mp hx
    refine ⟨_, pieceBody v p.2, hbody, ?_, h.pieces.layer_eq p hp, h.cemented p hp, fun _ => rfl⟩
    rw [h.becomes.body?_eq, if_neg (h.piece_ne hbody hp), bodyWith, h.placeOf_of_mem hp]
  · intro x hx c c' hc hc'
    obtain ⟨p, hp, rfl⟩ := List.mem_map.mp hx
    rw [info?_of_get? hv] at hc
    rw [h.info_piece hbody hp] at hc'
    cases hc
    cases hc'
    exact ⟨rfl, (h.pieces.layer_eq p hp).trans hl.symm⟩
  · obtain ⟨y, w, hedge⟩ := hsome
    rw [hnone y] at hedge
    cases hedge
  · intro _
    rw [h.becomes.body?_eq, if_pos rfl]
  · intro x hx hmem
    rw [h.becomes.body?_eq, if_neg hx, bodyWith, hnone hmem]
  · intro x y hx hy hxmem hymem
    exact h.edge_old hx hy (hnone hxmem) (hnone hymem)

/-- A node of the input layer, and one without outgoing edges, is moved as it is. -/
theorem promote_represents {a : Abstraction α} {l : Nat} {id : NodeId} {v : Node α} {old : Slot} (h : a.Represents net)
    (hv : a.nodes.get? id = some v) (hplace : v.location = ⟨l, .unprocessed, old⟩)
    (hfree : l = 0 ∨ v.outgoing.isEmpty = true) :
    (promote l id).Meets a (fun _ a' => a'.Represents net ∧ Resolved a a' l id [id]) Step.Never := by
  have hid := info?_of_get? hv
  refine (promote_meets h.sound hv hplace).imp ?_
  rintro _ a' ⟨slot, ha'⟩
  refine ⟨⟨ha'.sound, ?_, (roles_of_arnodePart ha'.arnodePart_eq).trans h.roles_eq⟩, resolved_promote hv hplace ha'⟩
  · have hedge : a'.nodes.edge? = a.nodes.edge? := funext fun x => funext fun y => ha'.edge?_eq x y
    rw [hedge]
    have hcategory : v.body.info.place.category = .unprocessed := congrArg Location.category hplace
    have hlayer : v.body.info.place.layer = l := congrArg Location.layer hplace
    refine h.faithful.promote ⟨l, .posInc, slot⟩ hid hcategory hlayer.symm rfl ?_ fun x => ?_
    · rw [hlayer]
      refine hfree.imp_right fun hempty y => ?_
      cases hedge : a.nodes.edge? id y with
      | none => rfl
      | some w =>
        obtain ⟨_, u, hv', hu, _⟩ := h.sound.graph.ends hedge
        rw [hv] at hv'
        cases hv'
        have hget := (h.sound.graph.edges_iff hv .outgoing u.location.key w y).mpr ⟨u, hu, rfl, hedge⟩
        rw [Vertex.edges, EdgeSet.isEmpty_iff.mp hempty] at hget
        cases hget
    · rw [info?, ha'.body?_eq]
      split <;> rfl

/-- Any other node is divided. -/
theorem divide_represents {a : Abstraction α} {l : Nat} {id : NodeId} {v : Node α} {slot : Slot} (h : a.Represents net)
    (hv : a.nodes.get? id = some v) (hplace : v.location = ⟨l, .unprocessed, slot⟩) (hinner : l ≠ 0)
    (hedges : ¬v.outgoing.isEmpty = true) :
    (divide l id v).Meets a (fun pieces a' => a'.Represents net ∧ Resolved a a' l id pieces)
      (fun e a' => (e = .successorUnprocessed id (l + 1) ∧ a.FeedsUnprocessed id) ∧ a' = a ∨ NodesFull e a') := by
  refine (divide_meets h.sound hv hplace).mono ?_ fun e a' hfail => hfail.imp_right And.left
  rintro _ a' ⟨made, rfl, hdiv⟩
  have hlayer : v.location.layer = l := congrArg Location.layer hplace
  have hsome := h.sound.exists_edge hv hedges
  have hfaithful := hdiv.faithful h.faithful hv hlayer hinner (congrArg Location.category hplace) hsome
  exact ⟨⟨hdiv.becomes.sound, hfaithful, (roles_of_arnodePart hdiv.becomes.arnodePart_eq).trans h.roles_eq⟩,
    hdiv.resolved hv hlayer hsome⟩

/-- The nodes represent the network, unless their arena has run full. -/
def Intact (net : Feedforward α) (a : Abstraction α) : Prop := a.Represents net ∨ Arena.span ≤ a.nodeSlots

/-- What an attempt to classify a node does to the nodes. -/
inductive Treated (net : Feedforward α) (a a' : Abstraction α) (l : Nat) (id : NodeId) : Prop
  /-- Nothing. -/
  | kept (hpart : a'.nodePart = a.nodePart)
  /-- A node that was not classified yet is resolved into its pieces. -/
  | resolved {c : NodeInfo α} (hid : a.info? id = some c) (hcategory : c.place.category = .unprocessed)
      {a₁ : Abstraction α} {pieces : List NodeId} (hrep : a₁.Represents net) (h : Resolved a a₁ l id pieces)
      (hpart : a'.nodePart = a₁.nodePart)

theorem Treated.represents {a a' : Abstraction α} {l : Nat} {id : NodeId} (h : Treated net a a' l id)
    (hrep : a.Represents net) : a'.Represents net := by
  cases h with
  | kept hpart => exact hrep.of_nodePart hpart
  | resolved _ _ hrep₁ _ hpart => exact hrep₁.of_nodePart hpart

/-- Whatever becomes of the arnodes, classifying a node resolves it or does nothing, unless the arena of the nodes runs
full. -/
theorem classifyNode_treated {a : Abstraction α} (h : a.Represents net) (l : Nat) (id : NodeId) :
    (classifyNode l id).Meets a (fun _ a' => Treated net a a' l id) (fun _ a' => Treated net a a' l id ∨
      (∃ c, a.info? id = some c ∧ c.place.category = .unprocessed) ∧ Arena.span ≤ a'.nodeSlots) := by
  unfold classifyNode
  rw [Step.meets_bind, Step.meets_read]
  cases hlayer : a.layer l with
  | error e => exact Or.inl (.kept rfl)
  | ok layer =>
    dsimp only
    rw [Step.meets_bind, Step.meets_read]
    cases hv : a.nodes.get? id with
    | none =>
      rw [node, Arena.get_of_none hv]
      exact Or.inl (.kept rfl)
    | some v =>
      rw [node, Arena.get_of_get? hv]
      dsimp only
      rw [Step.meets_bind, Step.meets_ofExcept, checkLayer]
      by_cases hl : v.location.layer = l
      swap
      · rw [if_neg hl]
        exact Or.inl (.kept rfl)
      rw [if_pos hl]
      dsimp only
      rw [Step.meets_ite]
      refine ⟨fun _ => Or.inl (.kept rfl), fun hcategory => ?_⟩
      have hid := info?_of_get? hv
      have hunprocessed : v.body.info.place.category = .unprocessed := not_not.mp hcategory
      have hplace : v.location = ⟨l, .unprocessed, v.location.slot⟩ := by
        rw [← hl, ← not_not.mp hcategory]
      rw [Step.meets_ite]
      constructor
      · intro hfree
        rw [Step.meets_bind]
        have hfree' : l = 0 ∨ v.outgoing.isEmpty = true := hfree.imp_left (h.input_iff (getElem?_of_layer hlayer)).mp
        refine (promote_represents h hv hplace hfree').mono ?_ fun _ _ hfalse => hfalse.elim
        rintro _ a₁ ⟨h₁, hresolved⟩
        rw [Step.meets_bind]
        exact (keeps_wrap l [id] a₁).mono (fun _ _ hpart => .resolved hid hunprocessed h₁ hresolved hpart)
          fun _ _ hpart => Or.inl (.resolved hid hunprocessed h₁ hresolved hpart)
      · intro hfree
        rw [Step.meets_bind]
        have hinner : l ≠ 0 := fun hzero => (not_or.mp hfree).1 ((h.input_iff (getElem?_of_layer hlayer)).mpr hzero)
        refine (divide_represents h hv hplace hinner (not_or.mp hfree).2).mono ?_ ?_
        · rintro pieces a₁ ⟨h₁, hresolved⟩
          exact (Step.Within.mapM pieces (fun p => keeps_wrap l [p]) a₁).mono
            (fun _ _ hpart => .resolved hid hunprocessed h₁ hresolved hpart)
            fun _ _ hpart => Or.inl (.resolved hid hunprocessed h₁ hresolved hpart)
        · rintro e a₁ (⟨_, rfl⟩ | hfull)
          · exact Or.inl (.kept rfl)
          · exact Or.inr ⟨⟨_, hid, hunprocessed⟩, hfull.2⟩

/-- Preprocessing a layer keeps what classifying one of its nodes does, and fails as that does. -/
theorem preprocess_meets_of {I : Abstraction α → Prop} {fail : Error → Abstraction α → Prop} {l : Nat}
    (hclassify : ∀ {a}, I a → ∀ id, (classifyNode l id).Meets a (fun _ a' => I a') fail) {a : Abstraction α} (h : I a)
    (hlayer : ∀ e, fail e a) : (preprocess l).Meets a (fun _ a' => I a') fail := by
  unfold preprocess
  rw [Step.meets_bind, Step.meets_read]
  cases a.layer l with
  | error e => exact hlayer e
  | ok layer =>
    dsimp only
    rw [Step.meets_bind]
    refine Step.Meets.mapM (fun _ _ (a' : Abstraction α) => I a') h ?_
    intro _ _ e _ a' _ ha'
    exact hclassify ha' e.2

theorem preprocess_intact {a : Abstraction α} (h : a.Represents net) (l : Nat) :
    (preprocess l).Meets a (fun _ a' => a'.Represents net) (fun _ a' => a'.Intact net) :=
  preprocess_meets_of (I := fun a => a.Represents net)
    (fun ha id => (classifyNode_treated ha l id).mono (fun _ _ ht => ht.represents ha)
      fun _ _ hfail => hfail.imp (fun ht => ht.represents ha) And.right)
    h fun _ => Or.inl h

theorem Intact.of_nodePart {a a' : Abstraction α} (h : a.Intact net) (hpart : a'.nodePart = a.nodePart) : a'.Intact net := by
  refine h.imp (fun hrep => hrep.of_nodePart hpart) fun hfull => ?_
  rwa [nodeSlots_of_nodePart hpart]

/-- An arena that has run full stays so. -/
theorem preserves_intact (l : Nat) : Step.Preserves (Intact net) (preprocess l : Step (Abstraction α) (List ArNodeId)) := by
  intro a
  by_cases hrep : a.Represents net
  · exact (preprocess_intact hrep l).mono (fun _ _ h _ => Or.inl h) fun _ _ h _ => h
  · refine (grows_preprocess l a).mono (fun _ a' h hintact => ?_) fun _ a' h hintact => ?_
    · exact Or.inr ((hintact.resolve_left hrep).trans h)
    · exact Or.inr ((hintact.resolve_left hrep).trans h)

end Abstraction

end ReluAbstraction
