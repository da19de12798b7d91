import ReluAbstraction.Network
import ReluAbstraction.Proofs.Pieces

/-!
# Nodes that compute what their neurons compute

The nodes stand for a network faithfully when every node carries the bias of its neuron and gets each nonzero weight of
its neuron from exactly one node of the neuron that the weight comes from. Classifying a node keeps this: a moved node keeps
its edges, and the pieces of a node share its incoming edges and divide its outgoing ones among them.
-/

namespace ReluAbstraction

variable {α : Type}

/-- What a node is, its edges and its holder left out. -/
structure NodeInfo (α : Type) where
  /-- Where the node sits. -/
  place : Location
  /-- Bias of the neuron. -/
  bias : α
  /-- The neuron. -/
  origin : NeuronRef

/-- The part of a body that does not change with the holder. -/
def Body.info (b : Body (NodeData α)) : NodeInfo α := ⟨b.location, b.data.bias, b.data.origin⟩

namespace Abstraction

/-- What a node is, its edges and its holder left out. -/
def info? (a : Abstraction α) (x : NodeId) : Option (NodeInfo α) := (a.nodes.body? x).map Body.info

variable {a : Abstraction α}

theorem info?_of_get? {x : NodeId} {v : Node α} (hv : a.nodes.get? x = some v) : a.info? x = some v.body.info := by
  rw [info?, Graph.body?_of_get? hv, Option.map_some]

theorem get?_of_info? {x : NodeId} {c : NodeInfo α} (hx : a.info? x = some c) :
    ∃ v, a.nodes.get? x = some v ∧ v.body.info = c := by
  obtain ⟨b, hb, rfl⟩ := Option.map_eq_some_iff.mp hx
  obtain ⟨v, hv, rfl⟩ := Graph.body?_eq_some_iff.mp hb
  exact ⟨v, hv, rfl⟩

end Abstraction

/-- Every node is in the layer of its neuron. -/
def Abstraction.Aligned (a : Abstraction α) : Prop := ∀ ⦃x c⦄, a.info? x = some c → c.origin.layer = c.place.layer

variable [Scalar α]

/-- Nodes and edges that stand for a network. -/
structure Faithful (net : Feedforward α) (info : NodeId → Option (NodeInfo α)) (edge : NodeId → NodeId → Option α) :
    Prop where
  ends : ∀ {x y w}, edge x y = some w → ∃ b c, info x = some b ∧ info y = some c ∧ c.place.layer = b.place.layer + 1
  origin_layer : ∀ {x b}, info x = some b → b.origin.layer = b.place.layer
  layer_lt : ∀ {x b}, info x = some b → b.place.layer < net.depth
  index_lt : ∀ {x b}, info x = some b → b.origin.index < net.width b.place.layer
  bias_eq : ∀ {x b}, info x = some b → b.bias = net.bias b.place.layer b.origin.index
  weight_eq : ∀ {x y w b c}, edge x y = some w → info x = some b → info y = some c →
    w = net.weight c.place.layer c.origin.index b.origin.index
  weight_ne : ∀ {x y w}, edge x y = some w → (w == 0) = false
  source_unique : ∀ {x x' y w w' b b'}, edge x y = some w → edge x' y = some w' → info x = some b → info x' = some b' →
    b.origin.index = b'.origin.index → x = x'
  exists_source : ∀ {y c l i}, info y = some c → c.place.layer = l + 1 → i < net.width l →
    (net.weight (l + 1) c.origin.index i == 0) = false → ∃ x b w, info x = some b ∧ b.origin.index = i ∧ edge x y = some w
  exists_node : ∀ {l j}, l < net.depth → j < net.width l → ∃ x b, info x = some b ∧ b.place.layer = l ∧ b.origin.index = j
  classified : ∀ {x y w b c}, edge x y = some w → info x = some b → info y = some c → b.place.category ≠ .unprocessed →
    1 ≤ b.place.layer → Category.classify? w c.place.category = some b.place.category
  unsplit : ∀ {x x' b b'}, info x = some b → info x' = some b' → b.place.layer = 0 ∨ b.place.category = .unprocessed →
    b.place.layer = b'.place.layer → b.origin.index = b'.origin.index → x = x'
  idle : ∀ {x b}, info x = some b → b.place.category ≠ .unprocessed → 1 ≤ b.place.layer → (∀ y, edge x y = none) →
    b.place.category = .posInc ∧
      ∀ {j}, j < net.width (b.place.layer + 1) → (net.weight (b.place.layer + 1) j b.origin.index == 0) = true

namespace Faithful

variable {net : Feedforward α} {info : NodeId → Option (NodeInfo α)} {edge : NodeId → NodeId → Option α}

/-- If a neuron has one node, and that has no outgoing edges, then nothing reads the neuron. -/
theorem weight_eq_zero (h : Faithful net info edge) {x : NodeId} {b : NodeInfo α} (hx : info x = some b)
    (hunprocessed : b.place.category = .unprocessed) (hnone : ∀ y, edge x y = none) {j : Nat}
    (hj : j < net.width (b.place.layer + 1)) : (net.weight (b.place.layer + 1) j b.origin.index == 0) = true := by
  by_contra hne
  have hdepth : b.place.layer + 1 < net.depth := by
    by_contra hge
    rw [Feedforward.width, List.getElem?_eq_none (by rw [Feedforward.depth] at hge; omega)] at hj
    exact absurd hj (Nat.not_lt_zero j)
  obtain ⟨y, c, hy, hcl, rfl⟩ := h.exists_node hdepth hj
  obtain ⟨x', b', w, hx', hindex, hedge⟩ :=
    h.exists_source hy hcl (h.index_lt hx) (Bool.eq_false_iff.mpr hne)
  obtain ⟨b'', c', hb'', hc', hnext⟩ := h.ends hedge
  obtain rfl : b' = b'' := Option.some.inj (hx'.symm.trans hb'')
  obtain rfl : c = c' := Option.some.inj (hy.symm.trans hc')
  obtain rfl : x = x' := h.unsplit hx hx' (.inr hunprocessed) (by omega) hindex.symm
  rw [hnone] at hedge
  cases hedge

/-- An input has one node. -/
theorem input_unique (h : Faithful net info edge) {x x' : NodeId} {b b' : NodeInfo α} (hx : info x = some b)
    (hx' : info x' = some b') (hl : b.place.layer = 0) (hl' : b'.place.layer = 0)
    (hindex : b.origin.index = b'.origin.index) : x = x' := h.unsplit hx hx' (.inl hl) (hl.trans hl'.symm) hindex

/-- No node has an edge to itself. -/
theorem ne_of_edge (h : Faithful net info edge) {x y : NodeId} {w : α} (hedge : edge x y = some w) : y ≠ x := by
  rintro rfl
  obtain ⟨b, c, hb, hc, hnext⟩ := h.ends hedge
  rw [hb] at hc
  cases hc
  omega

/-- A classified node has no edge into a node that is not. -/
theorem target_classified (h : Faithful net info edge) {x y : NodeId} {w : α} {b c : NodeInfo α} (hedge : edge x y = some w)
    (hx : info x = some b) (hy : info y = some c) (hcemented : b.place.category ≠ .unprocessed)
    (hone : 1 ≤ b.place.layer) : c.place.category ≠ .unprocessed := by
  intro hunprocessed
  have hclass := h.classified hedge hx hy hcemented hone
  rw [hunprocessed] at hclass
  cases hclass

end Faithful

/-- Nodes and edges that come from others. Every node has the neuron of its parent, in the same layer, and its edges are
edges of its parent; all sources of the parent have a child that is a source of the node, and only one. -/
structure Inherits (parent : NodeId → NodeId) (info : NodeId → Option (NodeInfo α)) (edge : NodeId → NodeId → Option α)
    (info' : NodeId → Option (NodeInfo α)) (edge' : NodeId → NodeId → Option α) : Prop where
  info_parent : ∀ {x c}, info' x = some c → ∃ c', info (parent x) = some c' ∧ c'.origin = c.origin ∧ c'.bias = c.bias ∧
    c'.place.layer = c.place.layer
  exists_child : ∀ {x c'}, info x = some c' → ∃ y c, info' y = some c ∧ c.origin = c'.origin ∧
    c.place.layer = c'.place.layer
  ends : ∀ {x y w}, edge' x y = some w → ∃ b c, info' x = some b ∧ info' y = some c
  edge_parent : ∀ {x y w}, edge' x y = some w → edge (parent x) (parent y) = some w
  source_unique : ∀ {x x' y w w'}, edge' x y = some w → edge' x' y = some w' → parent x = parent x' → x = x'
  exists_source : ∀ {x y w b d}, info' y = some d → info x = some b → edge x (parent y) = some w →
    ∃ x' b' w', info' x' = some b' ∧ b'.origin = b.origin ∧ edge' x' y = some w'

namespace Faithful

variable {net : Feedforward α} {info info' : NodeId → Option (NodeInfo α)} {edge edge' : NodeId → NodeId → Option α}

/-- Nodes and edges that come from faithful ones are faithful, provided that they are classified as they should be. -/
theorem of_inherits {parent : NodeId → NodeId} (h : Faithful net info edge) (hi : Inherits parent info edge info' edge')
    (hclassified : ∀ {x y w b c}, edge' x y = some w → info' x = some b → info' y = some c →
      b.place.category ≠ .unprocessed → 1 ≤ b.place.layer → Category.classify? w c.place.category = some b.place.category)
    (hunsplit : ∀ {x x' b b'}, info' x = some b → info' x' = some b' → b.place.layer = 0 ∨ b.place.category = .unprocessed →
      b.place.layer = b'.place.layer → b.origin.index = b'.origin.index → x = x')
    (hidle : ∀ {x b}, info' x = some b → b.place.category ≠ .unprocessed → 1 ≤ b.place.layer → (∀ y, edge' x y = none) →
      b.place.category = .posInc ∧
        ∀ {j}, j < net.width (b.place.layer + 1) → (net.weight (b.place.layer + 1) j b.origin.index == 0) = true) :
    Faithful net info' edge' where
  ends := by
    intro x y w hedge
    obtain ⟨b, c, hb, hc⟩ := hi.ends hedge
    obtain ⟨b', hb', _, _, hl⟩ := hi.info_parent hb
    obtain ⟨c', hc', _, _, hl'⟩ := hi.info_parent hc
    obtain ⟨_, _, hb'', hc'', hnext⟩ := h.ends (hi.edge_parent hedge)
    cases hb'.symm.trans hb''
    cases hc'.symm.trans hc''
    exact ⟨b, c, hb, hc, by rw [← hl, ← hl', hnext]⟩
  origin_layer := by
    intro x c hx
    obtain ⟨c', hc', horigin, _, hl⟩ := hi.info_parent hx
    rw [← horigin, ← hl, h.origin_layer hc']
  layer_lt := by
    intro x c hx
    obtain ⟨c', hc', _, _, hl⟩ := hi.info_parent hx
    rw [← hl]
    exact h.layer_lt hc'
  index_lt := by
    intro x c hx
    obtain ⟨c', hc', horigin, _, hl⟩ := hi.info_parent hx
    rw [← horigin, ← hl]
    exact h.index_lt hc'
  bias_eq := by
    intro x c hx
    obtain ⟨c', hc', horigin, hbias, hl⟩ := hi.info_parent hx
    rw [← horigin, ← hbias, ← hl]
    exact h.bias_eq hc'
  weight_eq := by
    intro x y w c d hedge hx hy
    obtain ⟨c', hc', horigin, _⟩ := hi.info_parent hx
    obtain ⟨d', hd', horigin', _, hl⟩ := hi.info_parent hy
    rw [← horigin, ← horigin', ← hl]
    exact h.weight_eq (hi.edge_parent hedge) hc' hd'
  weight_ne := fun hedge => h.weight_ne (hi.edge_parent hedge)
  source_unique := by
    intro x x' y w w' c d hedge hedge' hx hx' hindex
    obtain ⟨c', hc', horigin, _⟩ := hi.info_parent hx
    obtain ⟨d', hd', horigin', _⟩ := hi.info_parent hx'
    rw [← horigin, ← horigin'] at hindex
    refine hi.source_unique hedge hedge' ?_
    exact h.source_unique (hi.edge_parent hedge) (hi.edge_parent hedge') hc' hd' hindex
  exists_source := by
    intro y c l i hy hl hi' hweight
    obtain ⟨c', hc', horigin, _, hl'⟩ := hi.info_parent hy
    rw [← horigin] at hweight
    obtain ⟨x, b, w, hb, rfl, hedge⟩ := h.exists_source hc' (hl'.trans hl) hi' hweight
    obtain ⟨x', b', w', hb', horigin', hedge'⟩ := hi.exists_source hy hb hedge
    exact ⟨x', b', w', hb', by rw [horigin'], hedge'⟩
  exists_node := by
    intro l j hl hj
    obtain ⟨x, c, hc, rfl, rfl⟩ := h.exists_node hl hj
    obtain ⟨y, c', hc', horigin, hl'⟩ := hi.exists_child hc
    exact ⟨y, c', hc', hl', by rw [horigin]⟩
  classified := hclassified
  unsplit := hunsplit
  idle := hidle

/-- A node that moves within its layer is its own parent. -/
theorem inherits_of_moved (h : Faithful net info edge) {id : NodeId} {b : NodeInfo α} {place : Location}
    (hid : info id = some b) (hlayer : place.layer = b.place.layer)
    (hinfo : ∀ x, info' x = if x = id then some { b with place } else info x) :
    Inherits (fun x => x) info edge info' edge := by
  have hchild : ∀ {x c'}, info x = some c' → ∃ c, info' x = some c ∧ c.origin = c'.origin ∧
      c.place.layer = c'.place.layer := by
    intro x c' hx
    by_cases heq : x = id
    · subst heq
      rw [hid] at hx
      cases hx
      exact ⟨{ b with place }, by rw [hinfo, if_pos rfl], rfl, hlayer⟩
    · exact ⟨c', by rw [hinfo, if_neg heq, hx], rfl, rfl⟩
  refine ⟨fun {x c} hx => ?_, fun {x c'} hx => ⟨x, hchild hx⟩, fun {x y w} hedge => ?_, fun hedge => hedge, fun _ _ heq => heq,
    fun {x y w b' d} _ hx hedge => ?_⟩
  · rw [hinfo] at hx
    split at hx
    · next heq =>
      cases hx
      exact ⟨b, by rw [heq, hid], rfl, rfl, hlayer.symm⟩
    · exact ⟨c, hx, rfl, rfl, rfl⟩
  · obtain ⟨c, d, hc, hd, _⟩ := h.ends hedge
    obtain ⟨c', hc', _⟩ := hchild hc
    obtain ⟨d', hd', _⟩ := hchild hd
    exact ⟨c', d', hc', hd'⟩
  · obtain ⟨c, hc, horigin, _⟩ := hchild hx
    exact ⟨x, c, w, hc, horigin, hedge⟩

/-- Moving a node without outgoing edges, or one of the input layer, to the table of the first category. -/
theorem promote (h : Faithful net info edge) {id : NodeId} {b : NodeInfo α} (place : Location) (hid : info id = some b)
    (hunprocessed : b.place.category = .unprocessed) (hlayer : place.layer = b.place.layer)
    (hraising : place.category = .posInc) (hfree : b.place.layer = 0 ∨ ∀ y, edge id y = none)
    (hinfo : ∀ x, info' x = if x = id then some { b with place } else info x) : Faithful net info' edge := by
  have hi := h.inherits_of_moved hid hlayer hinfo
  -- Nodes other than the moved one are as they were.
  have hold : ∀ {x c}, info' x = some c → x ≠ id → info x = some c := by
    intro x c hx hne
    rwa [hinfo, if_neg hne] at hx
  refine h.of_inherits hi ?_ ?_ ?_
  · intro x y w c d hedge hx hy hcemented hone
    have hxid : x ≠ id := by
      rintro rfl
      obtain ⟨c', hc', _, _, hl⟩ := hi.info_parent hx
      rcases hfree with hzero | hnone
      · cases hid.symm.trans hc'
        omega
      · rw [hnone] at hedge
        cases hedge
    have hyid : y ≠ id := by
      rintro rfl
      exact h.target_classified hedge (hold hx hxid) hid hcemented hone hunprocessed
    exact h.classified hedge (hold hx hxid) (hold hy hyid) hcemented hone
  · intro x x' c d hx hx' hsingle hsame hindex
    obtain ⟨c', hc', horigin, _, hl⟩ := hi.info_parent hx
    obtain ⟨d', hd', horigin', _, hl'⟩ := hi.info_parent hx'
    rw [← horigin, ← horigin'] at hindex
    refine h.unsplit hc' hd' ?_ (hl.trans (hsame.trans hl'.symm)) hindex
    by_cases hxid : x = id
    · subst hxid
      cases hid.symm.trans hc'
      exact .inr hunprocessed
    · cases (hold hx hxid).symm.trans hc'
      exact hsingle
  · intro x c hx hcemented hone hnone
    by_cases hxid : x = id
    · subst hxid
      rw [hinfo, if_pos rfl] at hx
      cases hx
      refine ⟨hraising, fun hj => ?_⟩
      rw [hlayer] at hj ⊢
      exact h.weight_eq_zero hid hunprocessed hnone hj
    · exact h.idle (hold hx hxid) hcemented hone hnone

end Faithful

namespace Abstraction

namespace Divided

variable {net : Feedforward α} {a a' : Abstraction α} {l : Nat} {id : NodeId} {v : Node α}
  {made : List (NodeId × Location)}

/-- What a node of the divided state is: a piece, or a node that was there. -/
theorem info_cases (h : Divided a a' l id v made) {x : NodeId} {c : NodeInfo α} (hx : a'.info? x = some c) :
    x ≠ id ∧ ((∃ p ∈ made, p.1 = x ∧ c = ⟨p.2, v.data.bias, v.data.origin⟩) ∨
      placeOf made x = none ∧ a.info? x = some c) := by
  rw [info?, h.becomes.body?_eq] at hx
  split at hx
  · cases hx
  · next hne =>
    refine ⟨hne, ?_⟩
    unfold bodyWith at hx
    cases hplace : placeOf made x with
    | none =>
      rw [hplace] at hx
      exact Or.inr ⟨rfl, hx⟩
    | some place =>
      rw [hplace] at hx
      obtain ⟨p, hp, hpx, rfl⟩ := exists_of_lookupBy hplace
      exact Or.inl ⟨p, hp, hpx, (Option.some.inj hx).symm⟩

/-- Where an edge of the divided state comes from. -/
theorem edge_cases (h : Divided a a' l id v made) {x y : NodeId} {w : α} (hedge : a'.nodes.edge? x y = some w) :
    (∃ p ∈ made, p.1 = x ∧ a.nodes.edge? id y = some w ∧ a.asks id y = some p.2.category) ∨
      placeOf made x = none ∧ x ≠ id ∧
        ((∃ p ∈ made, p.1 = y ∧ a.nodes.edge? x id = some w) ∨
          placeOf made y = none ∧ y ≠ id ∧ a.nodes.edge? x y = some w) := by
  rw [h.becomes.edge?_eq] at hedge
  split at hedge
  · cases hedge
  · next hne =>
    obtain ⟨hx, hy⟩ := not_or.mp hne
    unfold edgeWith at hedge
    cases hplace : placeOf made x with
    | some place =>
      rw [hplace] at hedge
      obtain ⟨p, hp, hpx, rfl⟩ := exists_of_lookupBy hplace
      simp only [share, Option.ite_none_right_eq_some] at hedge
      exact Or.inl ⟨p, hp, hpx, hedge.2, hedge.1⟩
    | none =>
      rw [hplace] at hedge
      refine Or.inr ⟨rfl, hx, ?_⟩
      cases hplace' : placeOf made y with
      | some place =>
        obtain ⟨p, hp, hpy, _⟩ := exists_of_lookupBy hplace'
        simp only [hplace', Option.isSome_some, if_true] at hedge
        exact Or.inl ⟨p, hp, hpy, hedge⟩
      | none =>
        simp only [hplace', Option.isSome_none, Bool.false_eq_true, if_false] at hedge
        exact Or.inr ⟨rfl, hy, hedge⟩

theorem placeOf_of_mem (h : Divided a a' l id v made) {p : NodeId × Location} (hp : p ∈ made) :
    placeOf made p.1 = some p.2 := (lookupBy_eq_some_iff h.pieces.nodup).mpr ⟨p, hp, rfl, rfl⟩

theorem piece_ne (h : Divided a a' l id v made) {b : Body (NodeData α)} (hb : a.nodes.body? id = some b)
    {p : NodeId × Location} (hp : p ∈ made) : p.1 ≠ id := by
  intro heq
  have hfresh := h.pieces.fresh p hp
  rw [heq, hb] at hfresh
  cases hfresh

/-- A piece is a node of the divided state. -/
theorem info_piece (h : Divided a a' l id v made) {b : Body (NodeData α)} (hb : a.nodes.body? id = some b)
    {p : NodeId × Location} (hp : p ∈ made) : a'.info? p.1 = some ⟨p.2, v.data.bias, v.data.origin⟩ := by
  rw [info?, h.becomes.body?_eq, if_neg (h.piece_ne hb hp), bodyWith, h.placeOf_of_mem hp]
  rfl

theorem info_old (h : Divided a a' l id v made) {x : NodeId} (hx : x ≠ id) (hplace : placeOf made x = none) :
    a'.info? x = a.info? x := by
  rw [info?, h.becomes.body?_eq, if_neg hx, bodyWith, hplace, info?]

theorem placeOf_of_info (h : Divided a a' l id v made) {x : NodeId} {c : NodeInfo α} (hx : a.info? x = some c) :
    placeOf made x = none := by
  obtain ⟨b, hb, _⟩ := Option.map_eq_some_iff.mp hx
  exact h.pieces.placeOf_eq_none hb

/-- A piece has the edges that ask for its category. -/
theorem edge_piece (h : Divided a a' l id v made) {b : Body (NodeData α)} (hb : a.nodes.body? id = some b)
    {p : NodeId × Location} (hp : p ∈ made) {y : NodeId} {w : α} (hy : y ≠ id) (hedge : a.nodes.edge? id y = some w)
    (hasks : a.asks id y = some p.2.category) : a'.nodes.edge? p.1 y = some w := by
  rw [h.becomes.edge?_eq, if_neg (not_or.mpr ⟨h.piece_ne hb hp, hy⟩), edgeWith, h.placeOf_of_mem hp]
  simp [share, hasks, hedge]

/-- Every piece has the incoming edges of the node. -/
theorem edge_into_piece (h : Divided a a' l id v made) {b : Body (NodeData α)} (hb : a.nodes.body? id = some b)
    {p : NodeId × Location} (hp : p ∈ made) {x : NodeId} (hx : x ≠ id) (hplace : placeOf made x = none) :
    a'.nodes.edge? x p.1 = a.nodes.edge? x id := by
  rw [h.becomes.edge?_eq, if_neg (not_or.mpr ⟨hx, h.piece_ne hb hp⟩), edgeWith, hplace]
  simp [h.placeOf_of_mem hp]

theorem edge_old (h : Divided a a' l id v made) {x y : NodeId} (hx : x ≠ id) (hy : y ≠ id)
    (hplace : placeOf made x = none) (hplace' : placeOf made y = none) :
    a'.nodes.edge? x y = a.nodes.edge? x y := by
  rw [h.becomes.edge?_eq, if_neg (not_or.mpr ⟨hx, hy⟩), edgeWith, hplace]
  simp [hplace']

/-- The node that a node of the divided state comes from. -/
def parent (made : List (NodeId × Location)) (id x : NodeId) : NodeId := if (placeOf made x).isSome then id else x

theorem parent_piece (h : Divided a a' l id v made) {p : NodeId × Location} (hp : p ∈ made) :
    parent made id p.1 = id := by simp [parent, h.placeOf_of_mem hp]

theorem parent_old {x : NodeId} (hplace : placeOf made x = none) : parent made id x = x := by simp [parent, hplace]

/-- A piece has the neuron and the layer of the node. -/
theorem info_parent (h : Divided a a' l id v made) (hv : a.nodes.get? id = some v) (hl : v.location.layer = l)
    {x : NodeId} {c : NodeInfo α} (hx : a'.info? x = some c) :
    ∃ c', a.info? (parent made id x) = some c' ∧ c'.origin = c.origin ∧ c'.bias = c.bias ∧
      c'.place.layer = c.place.layer := by
  obtain ⟨_, ⟨p, hp, rfl, rfl⟩ | ⟨hplace, hold⟩⟩ := h.info_cases hx
  · rw [h.parent_piece hp]
    refine ⟨v.body.info, ?_, rfl, rfl, hl.trans (h.pieces.layer_eq p hp).symm⟩
    exact info?_of_get? hv
  · rw [parent_old hplace]
    exact ⟨c, hold, rfl, rfl, rfl⟩

/-- Every edge of the divided state was there between the nodes that the ends come from. -/
theorem edge_parent (h : Divided a a' l id v made) (hf : Faithful net a.info? a.nodes.edge?) {x y : NodeId} {w : α}
    (hedge : a'.nodes.edge? x y = some w) :
    a.nodes.edge? (parent made id x) (parent made id y) = some w := by
  rcases h.edge_cases hedge with ⟨p, hp, rfl, hold, _⟩ | ⟨hplace, _, ⟨p, hp, rfl, hold⟩ | ⟨hplace', _, hold⟩⟩
  · obtain ⟨_, d, _, hd, _⟩ := hf.ends hold
    rwa [h.parent_piece hp, parent_old (h.placeOf_of_info hd)]
  · rwa [parent_old hplace, h.parent_piece hp]
  · rwa [parent_old hplace, parent_old hplace']

/-- Two sources of one node that come from the same node are the same. -/
theorem source_eq_of_parent (h : Divided a a' l id v made) {x x' y : NodeId} {w w' : α}
    (hedge : a'.nodes.edge? x y = some w) (hedge' : a'.nodes.edge? x' y = some w')
    (hparent : parent made id x = parent made id x') : x = x' := by
  rcases h.edge_cases hedge with ⟨p, hp, rfl, _, hasks⟩ | ⟨hplace, hne, _⟩
  · rcases h.edge_cases hedge' with ⟨q, hq, rfl, _, hasks'⟩ | ⟨hplace', hne', _⟩
    · -- Both pieces take the edge to `y`, so they have one category and are one piece.
      rw [hasks] at hasks'
      have hcategory := Option.some.inj hasks'
      rw [List.inj_on_of_nodup_map h.categories_nodup hp hq hcategory]
    · rw [h.parent_piece hp, parent_old hplace'] at hparent
      exact absurd hparent.symm hne'
  · rcases h.edge_cases hedge' with ⟨q, hq, rfl, _, _⟩ | ⟨hplace', _, _⟩
    · rw [parent_old hplace, h.parent_piece hq] at hparent
      exact absurd hparent hne
    · rwa [parent_old hplace, parent_old hplace'] at hparent

/-- A source of the node that `y` comes from leaves a source of `y`. -/
theorem exists_source (h : Divided a a' l id v made) (hf : Faithful net a.info? a.nodes.edge?)
    (hv : a.nodes.get? id = some v) {x y : NodeId} {w : α} {b d : NodeInfo α} (hy : a'.info? y = some d)
    (hx : a.info? x = some b) (hedge : a.nodes.edge? x (parent made id y) = some w) :
    ∃ x' b' w', a'.info? x' = some b' ∧ b'.origin = b.origin ∧ a'.nodes.edge? x' y = some w' := by
  have hbody := Graph.body?_of_get? hv
  have hid : a.info? id = some v.body.info := info?_of_get? hv
  obtain ⟨hyid, hycases⟩ := h.info_cases hy
  by_cases hxid : x = id
  · subst hxid
    rw [hid] at hx
    cases hx
    rcases hycases with ⟨p, hp, rfl, _⟩ | ⟨hplace, _⟩
    · rw [h.parent_piece hp] at hedge
      exact absurd rfl (hf.ne_of_edge hedge)
    · rw [parent_old hplace] at hedge
      obtain ⟨category, hasks⟩ := h.asks_some hedge
      obtain ⟨p, hp, rfl⟩ := h.asked hasks
      exact ⟨p.1, _, w, h.info_piece hbody hp, rfl, h.edge_piece hbody hp hyid hedge hasks⟩
  · have hplace := h.placeOf_of_info hx
    refine ⟨x, b, w, (h.info_old hxid hplace).trans hx, rfl, ?_⟩
    rcases hycases with ⟨p, hp, rfl, _⟩ | ⟨hplace', _⟩
    · rwa [h.edge_into_piece hbody hp hxid hplace, ← h.parent_piece hp]
    · have hparent : parent made id y = y := parent_old hplace'
      rwa [h.edge_old hxid hyid hplace hplace', ← hparent]

/-- The pieces of a node with outgoing edges come from it, and all other nodes from themselves. -/
theorem inherits (h : Divided a a' l id v made) (hf : Faithful net a.info? a.nodes.edge?) (hv : a.nodes.get? id = some v)
    (hl : v.location.layer = l) (hedges : ∃ y w, a.nodes.edge? id y = some w) :
    Inherits (parent made id) a.info? a.nodes.edge? a'.info? a'.nodes.edge? where
  info_parent := h.info_parent hv hl
  exists_child := by
    intro x c hc
    by_cases hxid : x = id
    · subst hxid
      rw [info?_of_get? hv] at hc
      cases hc
      obtain ⟨y, w, hedge⟩ := hedges
      obtain ⟨category, hasks⟩ := h.asks_some hedge
      obtain ⟨p, hp, _⟩ := h.asked hasks
      exact ⟨p.1, _, h.info_piece (Graph.body?_of_get? hv) hp, rfl, (h.pieces.layer_eq p hp).trans hl.symm⟩
    · exact ⟨x, c, (h.info_old hxid (h.placeOf_of_info hc)).trans hc, rfl, rfl⟩
  ends := by
    intro x y w hedge
    obtain ⟨p, q, hp, hq, _⟩ := h.becomes.sound.graph.ends hedge
    exact ⟨p.body.info, q.body.info, info?_of_get? hp, info?_of_get? hq⟩
  edge_parent := h.edge_parent hf
  source_unique := h.source_eq_of_parent
  exists_source := h.exists_source hf hv

/-- Pieces are of the category that their edges ask for. -/
theorem classified (h : Divided a a' l id v made) (hf : Faithful net a.info? a.nodes.edge?) (hv : a.nodes.get? id = some v)
    (hunprocessed : v.location.category = .unprocessed) {x y : NodeId} {w : α} {c d : NodeInfo α}
    (hedge : a'.nodes.edge? x y = some w) (hx : a'.info? x = some c) (hy : a'.info? y = some d)
    (hcemented : c.place.category ≠ .unprocessed) (hone : 1 ≤ c.place.layer) :
    Category.classify? w d.place.category = some c.place.category := by
  rcases h.edge_cases hedge with ⟨p, hp, rfl, hold, hasks⟩ | ⟨hplace, hxid, ⟨p, hp, rfl, hold⟩ | ⟨hplace', hyid, hold⟩⟩
  · rw [h.info_piece (Graph.body?_of_get? hv) hp] at hx
    cases hx
    obtain ⟨_, e, _, he, _⟩ := hf.ends hold
    obtain ⟨hyid, _⟩ := h.info_cases hy
    rw [h.info_old hyid (h.placeOf_of_info he), info?, Option.map_eq_some_iff] at hy
    obtain ⟨b, hb, rfl⟩ := hy
    simpa [asks, hold, hb, Body.info] using hasks
  · rw [h.info_old hxid hplace] at hx
    exact absurd hunprocessed (hf.target_classified hold hx (info?_of_get? hv) hcemented hone)
  · rw [h.info_old hxid hplace] at hx
    rw [h.info_old hyid hplace'] at hy
    exact hf.classified hold hx hy hcemented hone

/-- A piece has an edge, and classified nodes that have none had none before. -/
theorem edge_eq_none (h : Divided a a' l id v made) (hf : Faithful net a.info? a.nodes.edge?)
    (hv : a.nodes.get? id = some v) (hunprocessed : v.location.category = .unprocessed) {x : NodeId} {c : NodeInfo α}
    (hx : a'.info? x = some c) (hcemented : c.place.category ≠ .unprocessed) (hone : 1 ≤ c.place.layer)
    (hnone : ∀ y, a'.nodes.edge? x y = none) : a.info? x = some c ∧ ∀ y, a.nodes.edge? x y = none := by
  obtain ⟨hxid, ⟨p, hp, rfl, _⟩ | ⟨hplace, hold⟩⟩ := h.info_cases hx
  · obtain ⟨y, hasks⟩ := h.asking p hp
    obtain ⟨w, hedge, _⟩ := Option.bind_eq_some_iff.mp hasks
    have hnone := hnone y
    rw [h.edge_piece (Graph.body?_of_get? hv) hp (hf.ne_of_edge hedge) hedge hasks] at hnone
    cases hnone
  · refine ⟨hold, fun y => Option.eq_none_iff_forall_ne_some.mpr fun w hedge => ?_⟩
    obtain ⟨_, d, _, hd, _⟩ := hf.ends hedge
    have hyid : y ≠ id := by
      rintro rfl
      exact hf.target_classified hedge hold (info?_of_get? hv) hcemented hone hunprocessed
    rw [← h.edge_old hxid hyid hplace (h.placeOf_of_info hd), hnone] at hedge
    cases hedge

/-- Replacing a node that is not an input and has outgoing edges by its pieces. -/
theorem faithful (h : Divided a a' l id v made) (hf : Faithful net a.info? a.nodes.edge?)
    (hv : a.nodes.get? id = some v) (hl : v.location.layer = l) (hinner : l ≠ 0)
    (hunprocessed : v.location.category = .unprocessed) (hedges : ∃ y w, a.nodes.edge? id y = some w) :
    Faithful net a'.info? a'.nodes.edge? := by
  refine hf.of_inherits (h.inherits hf hv hl hedges) (h.classified hf hv hunprocessed) ?_ ?_
  · intro x x' c d hx hx' hsingle hsame hindex
    obtain ⟨hxid, ⟨p, hp, _, rfl⟩ | ⟨_, hold⟩⟩ := h.info_cases hx
    · rcases hsingle with hzero | hunprocessed'
      · exact absurd ((h.pieces.layer_eq p hp).symm.trans hzero) hinner
      · exact absurd hunprocessed' (h.cemented p hp)
    · obtain ⟨d', hd', horigin, _, hl'⟩ := h.info_parent hv hl hx'
      have hparent := hf.unsplit hold hd' hsingle (hsame.trans hl'.symm) (by rw [horigin, hindex])
      obtain ⟨_, ⟨q, hq, rfl, _⟩ | ⟨hplace, _⟩⟩ := h.info_cases hx'
      · exact absurd (hparent.trans (h.parent_piece hq)) hxid
      · exact hparent.trans (parent_old hplace)
  · intro x c hx hcemented hone hnone
    obtain ⟨hold, hnone'⟩ := h.edge_eq_none hf hv hunprocessed hx hcemented hone hnone
    exact hf.idle hold hcemented hone hnone'

end Divided

end Abstraction

end ReluAbstraction
