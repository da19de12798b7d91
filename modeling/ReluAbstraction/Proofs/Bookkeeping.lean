import ReluAbstraction.Proofs.Counting

/-!
# Tables, arenas and holders agree

Where a node or an arnode is and who holds whom is written down several times: in the tables of the layers, in the entity
itself, in the list of members of an arnode and in the node that is held. Whatever was called, and whether or not it
succeeded, all these records agree.
-/

namespace ReluAbstraction

section Listings

variable {k : EntityKind} {α δ : Type} {chains : List (TableChain (Handle k))} {kinds : List TableKind} {g : Graph k α δ}

/-- No table of a layer lists a vertex that the layer lists already. -/
theorem Housed.handles_nodup (h : Housed chains kinds g) (hkinds : kinds.length ≤ 5) {l : Nat} {c : TableChain (Handle k)}
    (hc : chains[l]? = some c) : c.handles.Nodup := by
  have hcategory : ∀ t (ht : t < c.tables.length), ∃ category : Category, category.index = t ∧
      c.entries category.index = c.tables[t].toList := by
    intro t ht
    have hlength := congrArg List.length (h.kinds_eq c (List.mem_of_getElem? hc))
    rw [TableChain.kinds, List.length_map] at hlength
    obtain ⟨category, rfl⟩ := Category.exists_index (Nat.lt_of_lt_of_le (hlength ▸ ht) hkinds)
    exact ⟨category, rfl, by rw [TableChain.entries, List.getElem?_eq_getElem ht]⟩
  refine List.nodup_flatMap.mpr ⟨fun table htable => ?_, List.pairwise_iff_getElem.mpr fun t t' ht ht' hlt => ?_⟩
  · obtain ⟨t, ht, rfl⟩ := List.getElem_of_mem htable
    obtain ⟨category, _, hentries⟩ := hcategory t ht
    rw [← hentries]
    exact h.entries_nodup category hc
  · -- A vertex in two tables would be at two places.
    intro x hx hx'
    obtain ⟨category, hindex, hentries⟩ := hcategory t ht
    obtain ⟨category', hindex', hentries'⟩ := hcategory t' ht'
    dsimp only at hx hx'
    rw [← hentries] at hx
    rw [← hentries'] at hx'
    obtain ⟨⟨slot, y⟩, hlisted, rfl⟩ := List.mem_map.mp hx
    obtain ⟨⟨slot', y'⟩, hlisted', hy⟩ := List.mem_map.mp hx'
    obtain ⟨b, hb, hplace⟩ := (h.mem_entries_iff hc).mp hlisted
    obtain ⟨b', hb', hplace'⟩ := (h.mem_entries_iff hc).mp hlisted'
    dsimp only at hy
    rw [hy, hb] at hb'
    cases hb'
    rw [hplace] at hplace'
    have hsame : category = category' := congrArg Location.category hplace'
    rw [hsame] at hindex
    omega

/-- The tables of all layers list the live vertices, each once. -/
theorem Housed.count_handles (h : Housed chains kinds g) (hkinds : kinds.length ≤ 5) (x : Handle k) :
    (chains.flatMap TableChain.handles).count x = if (g.get? x).isSome then 1 else 0 := by
  have hlayer : ∀ l (hl : l < chains.length) y, y ∈ chains[l].handles ↔ ∃ b, g.body? y = some b ∧ b.location.layer = l :=
    fun l hl y => h.mem_handles_iff (List.getElem?_eq_getElem hl) hkinds
  have hnodup : (chains.flatMap TableChain.handles).Nodup := by
    refine List.nodup_flatMap.mpr ⟨fun c hc => ?_, List.pairwise_iff_getElem.mpr fun l l' hl hl' hlt => ?_⟩
    · obtain ⟨l, hl, rfl⟩ := List.getElem_of_mem hc
      exact h.handles_nodup hkinds (List.getElem?_eq_getElem hl)
    · intro y hy hy'
      obtain ⟨b, hb, hbl⟩ := (hlayer l hl y).mp hy
      obtain ⟨b', hb', hbl'⟩ := (hlayer l' hl' y).mp hy'
      rw [hb] at hb'
      cases hb'
      omega
  have hmem : x ∈ chains.flatMap TableChain.handles ↔ (g.get? x).isSome = true := by
    constructor
    · intro hx
      obtain ⟨c, hc, hx⟩ := List.mem_flatMap.mp hx
      obtain ⟨l, hl, rfl⟩ := List.getElem_of_mem hc
      obtain ⟨b, hb, _⟩ := (hlayer l hl x).mp hx
      obtain ⟨v, hv, _⟩ := Graph.body?_eq_some_iff.mp hb
      rw [hv]
      rfl
    · intro hx
      obtain ⟨v, hv⟩ := Option.isSome_iff_exists.mp hx
      have hb := Graph.body?_of_get? hv
      obtain ⟨c, hc, _⟩ := h.exists_chain hb
      exact List.mem_flatMap.mpr ⟨c, List.mem_of_getElem? hc, (h.mem_handles_iff hc hkinds).mpr ⟨v.body, hb, rfl⟩⟩
  rw [hnodup.count]
  simp only [hmem]

/-- The tables of the layers list the vertices of a graph. -/
structure Listed (chains : List (TableChain (Handle k))) (g : Graph k α δ) : Prop where
  /-- All tables together list each live vertex once and nothing else. -/
  count_eq : ∀ x, (chains.flatMap TableChain.handles).count x = if (g.get? x).isSome then 1 else 0
  /-- A table lists a vertex at a slot exactly if it is live and says that it is there. -/
  mem_entries_iff : ∀ {l c}, chains[l]? = some c → ∀ {category : Category} {slot x},
    (slot, x) ∈ c.entries category.index ↔ ∃ v, g.get? x = some v ∧ v.location = ⟨l, category, slot⟩
  /-- Every live vertex is in one of the layers. -/
  layer_lt : ∀ {x v}, g.get? x = some v → v.location.layer < chains.length

theorem Housed.listed (h : Housed chains kinds g) (hkinds : kinds.length ≤ 5) : Listed chains g where
  count_eq := h.count_handles hkinds
  mem_entries_iff := by
    intro l c hc category slot x
    rw [h.mem_entries_iff hc]
    constructor
    · rintro ⟨b, hb, hplace⟩
      obtain ⟨v, hv, rfl⟩ := Graph.body?_eq_some_iff.mp hb
      exact ⟨v, hv, hplace⟩
    · rintro ⟨v, hv, hplace⟩
      exact ⟨v.body, Graph.body?_of_get? hv, hplace⟩
  layer_lt := by
    intro x v hv
    obtain ⟨c, hc, _⟩ := h.exists_chain (Graph.body?_of_get? hv)
    exact (List.getElem?_eq_some_iff.mp hc).1

end Listings

variable {α : Type} [Scalar α]

/-- A layer whose arnodes are never merged: the inputs, the outputs, and the first hidden layer if an input can be
negative. -/
def Feedforward.Fixed (net : Feedforward α) (l : Nat) : Prop :=
  l = 0 ∨ l + 1 = net.depth ∨ l = 1 ∧ ∃ range ∈ net.inputs, range.low < 0

theorem Feedforward.Fixed.not_regroupable {net : Feedforward α} {l : Nat} (h : net.Fixed l) : ¬net.Regroupable l := by
  rcases h with hfirst | hend | ⟨hone, range, hrange, hlow⟩
  · exact not_regroupable_of_boundary (.inl hfirst)
  · exact not_regroupable_of_boundary (.inr hend)
  · rintro ⟨hfloor, _⟩
    have hsigned : (net.inputs.any fun range => decide (range.low < 0)) = true :=
      List.any_eq_true.mpr ⟨range, hrange, decide_eq_true hlow⟩
    rw [Feedforward.floor, if_pos hsigned] at hfloor
    omega

/-- All records of where nodes and arnodes are and of who holds whom agree. -/
structure Abstraction.Consistent (net : Feedforward α) (a : Abstraction α) : Prop where
  /-- The node tables list the nodes. -/
  nodes : Listed (a.layers.map Layer.nodes) a.nodes
  /-- The arnode tables list the arnodes. -/
  arnodes : Listed (a.layers.map Layer.arnodes) a.arnodes
  /-- An arnode has members, each named once. -/
  members : ∀ {x v}, a.arnodes.get? x = some v → v.data.members ≠ [] ∧ v.data.members.Nodup
  /-- Its members are live, classified, and in the same layer and category. -/
  member : ∀ {x v m}, a.arnodes.get? x = some v → m ∈ v.data.members → ∃ u, a.nodes.get? m = some u ∧
    u.location.layer = v.location.layer ∧ u.location.category = v.location.category ∧
    u.location.category ≠ .unprocessed
  /-- A node is owned by the arnode that it is a member of, and by no other. -/
  owner_iff : ∀ {m u}, a.nodes.get? m = some u → ∀ x,
    u.data.owner = some x ↔ ∃ v, a.arnodes.get? x = some v ∧ m ∈ v.data.members
  /-- The nodes that may move are those in the tables of unprocessed nodes. -/
  movable_iff : ∀ {m u}, a.nodes.get? m = some u → (u.movable = true ↔
    ∃ (l : Nat) (layer : Layer) (slot : Slot), a.layers[l]? = some layer ∧
      (slot, m) ∈ layer.nodes.entries Category.unprocessed.index)
  /-- Arnodes of a fixed layer have one member. -/
  single : ∀ {x v}, a.arnodes.get? x = some v → net.Fixed v.location.layer → v.data.members.length = 1

namespace Abstraction

variable {net : Feedforward α} {a : Abstraction α}

theorem Grounded.owner_iff (h : a.Grounded) {m : NodeId} {u : Node α} (hu : a.nodes.get? m = some u) (x : ArNodeId) :
    u.data.owner = some x ↔ ∃ v, a.arnodes.get? x = some v ∧ m ∈ v.data.members := by
  have hholder : a.holder? m = u.data.owner := by rw [holder?, Graph.body?_of_get? hu, Option.bind_some, Vertex.body_data]
  rw [← hholder]
  constructor
  · intro hx
    obtain ⟨b, hb, hm⟩ := h.owned.holder hx
    obtain ⟨v, hv, rfl⟩ := Graph.body?_eq_some_iff.mp hb
    exact ⟨v, hv, hm⟩
  · rintro ⟨v, hv, hm⟩
    exact (h.owned.mem_members_iff (Graph.body?_of_get? hv)).mp hm

omit [Scalar α] in
theorem NodesSound.movable_iff_listed (h : a.NodesSound) {m : NodeId} {u : Node α} (hu : a.nodes.get? m = some u) :
    u.movable = true ↔ ∃ (l : Nat) (layer : Layer) (slot : Slot), a.layers[l]? = some layer ∧
      (slot, m) ∈ layer.nodes.entries Category.unprocessed.index := by
  have hb := Graph.body?_of_get? hu
  have hmovable : u.movable = true ↔ u.location.category = .unprocessed := h.movable_iff hb
  rw [hmovable]
  constructor
  · intro hcategory
    obtain ⟨layer, hlayer, hat⟩ := h.exists_layer hb
    rw [Vertex.body_location, hcategory] at hat
    exact ⟨_, layer, _, hlayer, TableChain.mem_entries_iff.mpr hat⟩
  · rintro ⟨l, layer, slot, hlayer, hlisted⟩
    obtain ⟨b, hb', hplace⟩ := (h.housed.mem_entries_iff (getElem?_nodeChains hlayer)).mp hlisted
    rw [hb] at hb'
    cases hb'
    exact congrArg Location.category hplace

theorem Grounded.consistent (h : a.Grounded) (halone : a.Alone net.Regroupable) : a.Consistent net where
  nodes := h.nodes.housed.listed (by decide)
  arnodes := h.arnodes.housed.listed (by decide)
  members := fun hv => ⟨h.owned.ne_nil (Graph.body?_of_get? hv), h.owned.nodup (Graph.body?_of_get? hv)⟩
  member := by
    intro x v m hv hm
    have hb := Graph.body?_of_get? hv
    obtain ⟨c, hc, _, hlayer, hcategory⟩ := h.owned.member hb m hm
    obtain ⟨u, hu, rfl⟩ := get?_of_info? hc
    exact ⟨u, hu, hlayer, hcategory, fun hnot => h.arnodes.cemented hb (hcategory.symm.trans hnot)⟩
  owner_iff := h.owner_iff
  movable_iff := h.nodes.movable_iff_listed
  single := fun hv hfixed => (halone (Graph.body?_of_get? hv)).resolve_right hfixed.not_regroupable

end Abstraction

namespace Network

variable {net : Feedforward α} {property : Property α} {options : Options} {start n : Network α}

/-- Whatever was called, with whatever arguments and outcome, tables, arenas and holders agree, and arnodes of the fixed
layers have one member. -/
theorem consistent_of_reaches (hbuild : build net property options = .ok start) (h : Reaches start n) :
    n.abstraction.Consistent net := by
  obtain ⟨hsteady, hdrifts⟩ := h.adrift hbuild
  exact hsteady.coherent.grounded.consistent ((build_alone hbuild _).drifts (build_steady hbuild).coherent hdrifts)

/-- With nine variables the abstraction of the forked network cannot be completed, as there is none left for its second
input. The records agree even so. -/
theorem consistent_of_reaches_fork : ∃ start n e,
    build .fork ⟨.maximize, 0, 1⟩ { Options.standard with variableLimit := some 9 } = .ok start ∧
    complete start = .error e n ∧ Reaches start n ∧ n.abstraction.arnodes.size = 6 ∧
      n.abstraction.Consistent Feedforward.fork := by
  obtain ⟨start, n, e, hbuild, hcomplete, rfl, hsize⟩ :=
    exists_stopped .fork ⟨.maximize, 0, 1⟩ { Options.standard with variableLimit := some 9 }
      (P := fun n => n.abstraction.arnodes.size = 6) (by decide +kernel)
  have hreach : Reaches start (Call.complete.after start) := .step .refl .complete
  exact ⟨start, _, e, hbuild, hcomplete, hreach, hsize, consistent_of_reaches hbuild hreach⟩

end Network

end ReluAbstraction
