import ReluAbstraction.Abstraction.Activation
import ReluAbstraction.Proofs.Holding

/-!
# Folding edges

The abstract edge between two arnodes folds the edges between their members twice. The weight that the program computes
from its records is this fold, and the holders of the neighbours are the arnodes to which there is one.
-/

namespace ReluAbstraction

variable {α : Type}

/-- Some source has an edge to some target. -/
def touches (edge : NodeId → NodeId → Option α) (sources targets : List NodeId) : Bool :=
  sources.any fun s => targets.any fun t => (edge s t).isSome

theorem touches_iff {edge : NodeId → NodeId → Option α} {sources targets : List NodeId} :
    touches edge sources targets = true ↔ ∃ s ∈ sources, ∃ t ∈ targets, ∃ w, edge s t = some w := by
  simp [touches, Option.isSome_iff_exists]

theorem touches_congr {edge edge' : NodeId → NodeId → Option α} {sources targets : List NodeId}
    (h : ∀ s ∈ sources, ∀ t ∈ targets, edge' s t = edge s t) : touches edge' sources targets = touches edge sources targets := by
  rw [Bool.eq_iff_iff, touches_iff, touches_iff]
  refine exists_congr fun s => and_congr_right fun hs => exists_congr fun t => and_congr_right fun ht => ?_
  rw [h s hs t ht]

variable [Scalar α]

/-- The edges from sources to targets in one number: for each source its weights to the targets are reduced as the
targets' category says, a missing edge counting as zero, and the results as the sources' category says. -/
def Policy.fold (p : Policy) (edge : NodeId → NodeId → Option α) (source target : Category)
    (sources targets : List NodeId) : Option α :=
  (p.outgoing source).reduce? (sources.filterMap fun s =>
    (p.incoming target).reduce? (targets.map fun t => (edge s t).getD 0))

theorem Policy.fold_congr (p : Policy) {edge edge' : NodeId → NodeId → Option α} {source target : Category}
    {sources targets : List NodeId} (h : ∀ s ∈ sources, ∀ t ∈ targets, edge' s t = edge s t) :
    p.fold edge' source target sources targets = p.fold edge source target sources targets := by
  unfold fold
  congr 1
  refine List.filterMap_congr fun s hs => ?_
  rw [List.map_congr_left fun t ht => by rw [h s hs t ht]]

theorem Reduction.reduce?_eq_none_iff {r : Reduction} {xs : List α} : r.reduce? xs = none ↔ xs = [] := by
  cases xs <;> simp [Reduction.reduce?]

/-- There is a fold over members. -/
theorem Policy.exists_fold (p : Policy) (edge : NodeId → NodeId → Option α) (source target : Category)
    {sources targets : List NodeId} (hs : sources ≠ []) (ht : targets ≠ []) :
    ∃ w, p.fold edge source target sources targets = some w := by
  rw [← Option.ne_none_iff_exists', fold, ne_eq, Reduction.reduce?_eq_none_iff, List.filterMap_eq_nil_iff]
  obtain ⟨s, rest, rfl⟩ := List.exists_cons_of_ne_nil hs
  intro hall
  have hnone := hall s List.mem_cons_self
  rw [Reduction.reduce?_eq_none_iff, List.map_eq_nil_iff] at hnone
  exact ht hnone

namespace Abstraction

/-- The fold of the edges between the members of two arnodes; none if there is no edge. -/
def folded? (a : Abstraction α) (x y : ArNodeId) : Option α := do
  let b ← a.arnodes.body? x
  let c ← a.arnodes.body? y
  if touches a.nodes.edge? b.data.members c.data.members then
    a.policy.fold a.nodes.edge? b.location.category c.location.category b.data.members c.data.members
  else none

variable {a a' : Abstraction α}

theorem folded?_of_body? {x y : ArNodeId} {b c : Body (ArNodeData α)} (hb : a.arnodes.body? x = some b)
    (hc : a.arnodes.body? y = some c) : a.folded? x y =
      if touches a.nodes.edge? b.data.members c.data.members then
        a.policy.fold a.nodes.edge? b.location.category c.location.category b.data.members c.data.members
      else none := by simp [folded?, hb, hc]

theorem folded?_eq_none_left {x y : ArNodeId} (hx : a.arnodes.body? x = none) : a.folded? x y = none := by
  simp [folded?, hx]

theorem folded?_eq_none_right {x y : ArNodeId} (hy : a.arnodes.body? y = none) : a.folded? x y = none := by
  cases hx : a.arnodes.body? x <;> simp [folded?, hx, hy]

/-- Two arnodes have a fold if and only if a node of the first has an edge to a node of the second. -/
theorem Owned.isSome_folded?_iff (h : a.Owned) {x y : ArNodeId} :
    (a.folded? x y).isSome ↔ ∃ s t w, a.holder? s = some x ∧ a.holder? t = some y ∧ a.nodes.edge? s t = some w := by
  constructor
  · intro hsome
    simp only [folded?, Option.bind_eq_bind, Option.isSome_iff_exists, Option.bind_eq_some_iff] at hsome
    obtain ⟨w, b, hb, c, hc, hw⟩ := hsome
    split at hw
    · next htouch =>
      obtain ⟨s, hs, t, ht, w, hedge⟩ := touches_iff.mp htouch
      have hx := (h.mem_members_iff hb).mp hs
      have hy := (h.mem_members_iff hc).mp ht
      exact ⟨s, t, w, hx, hy, hedge⟩
    · cases hw
  · rintro ⟨s, t, w, hs, ht, hedge⟩
    obtain ⟨b, hb, hmem⟩ := h.holder hs
    obtain ⟨c, hc, hmem'⟩ := h.holder ht
    rw [folded?_of_body? hb hc, if_pos (touches_iff.mpr ⟨s, hmem, t, hmem', w, hedge⟩), Option.isSome_iff_exists]
    exact Policy.exists_fold _ _ _ _ (h.ne_nil hb) (h.ne_nil hc)

/-- A fold leads from a layer to the next one. -/
theorem Grounded.layer_of_folded? (h : a.Grounded) {x y : ArNodeId} {b c : Body (ArNodeData α)} {w : α}
    (hb : a.arnodes.body? x = some b) (hc : a.arnodes.body? y = some c) (hw : a.folded? x y = some w) :
    c.location.layer = b.location.layer + 1 := by
  obtain ⟨s, t, w', hs, ht, hedge⟩ := h.owned.isSome_folded?_iff.mp (Option.isSome_of_eq_some hw)
  obtain ⟨v, u, hv, hu, hlayer⟩ := h.nodes.graph.ends hedge
  obtain ⟨hpl, _⟩ := h.owned.place_of_mem hb ((h.owned.mem_members_iff hb).mpr hs) (info?_of_get? hv)
  obtain ⟨hql, _⟩ := h.owned.place_of_mem hc ((h.owned.mem_members_iff hc).mpr ht) (info?_of_get? hu)
  rw [← hpl, ← hql]
  exact hlayer

/-- An arnode has no fold to itself. -/
theorem Grounded.folded?_self (h : a.Grounded) (x : ArNodeId) : a.folded? x x = none := by
  cases hb : a.arnodes.body? x with
  | none => exact folded?_eq_none_left hb
  | some b =>
    refine Option.eq_none_iff_forall_ne_some.mpr fun w hw => ?_
    have hlayer := h.layer_of_folded? hb hb hw
    omega

/-- Folds only depend on the nodes and on who holds them. -/
theorem Recast.folded?_eq (h : Recast a a') : a'.folded? = a.folded? := by
  funext x y
  have hedge := edge?_of_nodePart h.nodePart_eq
  have hpolicy := policy_of_nodePart h.nodePart_eq
  cases hx : a'.arnodes.body? x with
  | none =>
    have hidle := h.idle_eq x
    rw [hx, Option.map_none, eq_comm, Option.map_eq_none_iff] at hidle
    simp [folded?, hx, hidle]
  | some b' =>
    cases hy : a'.arnodes.body? y with
    | none =>
      have hidle := h.idle_eq y
      rw [hy, Option.map_none, eq_comm, Option.map_eq_none_iff] at hidle
      simp [folded?, hy, hidle]
    | some c' =>
      obtain ⟨b, hb, hlocation, hmembers, _⟩ := h.exists_body? hx
      obtain ⟨c, hc, hlocation', hmembers', _⟩ := h.exists_body? hy
      rw [folded?_of_body? hx hy, folded?_of_body? hb hc, hedge, hpolicy, hlocation, hmembers, hlocation', hmembers']

/-- The program's weight of an abstract edge into the next layer is the fold. -/
theorem Grounded.abstractWeight?_eq (h : a.Grounded) {x y : ArNodeId} {b c : Body (ArNodeData α)}
    (hb : a.arnodes.body? x = some b) (hc : a.arnodes.body? y = some c)
    (hlayer : c.location.layer = b.location.layer + 1) : a.abstractWeight? x y = .ok (a.folded? x y) := by
  obtain ⟨u, hu, rfl⟩ := Graph.body?_eq_some_iff.mp hb
  obtain ⟨v, hv, rfl⟩ := Graph.body?_eq_some_iff.mp hc
  let key (m : NodeId) : EdgeKey := ((a.info? m).map (·.place.key)).getD default
  have hkeys : (v.data.members.mapM fun m => do return (← a.node m).location.key : Except Error _) =
      .ok (v.data.members.map key) := by
    refine mapM_eq_ok_map key fun m hm => ?_
    obtain ⟨p, hp, _⟩ := h.owned.member hc m hm
    obtain ⟨n, hn, rfl⟩ := get?_of_info? hp
    simp only [node, Arena.get_of_get? hn, key, hp]
    rfl
  have hfound : (u.data.members.mapM fun m => do
      let edges := (← a.node m).outgoing
      return (v.data.members.map key).map fun key => (edges.get? key).map (·.weight) : Except Error _) =
      .ok (u.data.members.map fun s => v.data.members.map fun t => a.nodes.edge? s t) := by
    refine mapM_eq_ok_map _ fun s hs => ?_
    obtain ⟨p, hp, _, hpl, _⟩ := h.owned.member hb s hs
    obtain ⟨m, hm, rfl⟩ := get?_of_info? hp
    simp only [node, Arena.get_of_get? hm, bind, Except.bind, pure, Except.pure, List.map_map, Except.ok.injEq]
    refine List.map_congr_left fun t ht => ?_
    obtain ⟨q, hq, _, hql, _⟩ := h.owned.member hc t ht
    obtain ⟨n, hn, rfl⟩ := get?_of_info? hq
    have hfaces : Direction.outgoing.Faces m.location.layer n.location.layer := by
      change n.body.info.place.layer = m.body.info.place.layer + 1
      rw [hql, hpl]
      exact hlayer
    have hweight := h.nodes.graph.weight_at_key hm hn hfaces
    have hkey : key t = n.location.key := by
      simp only [key, hq]
      rfl
    simp only [Function.comp_apply, hkey]
    exact hweight
  have hany : ((u.data.members.map fun s => v.data.members.map fun t => a.nodes.edge? s t).any (·.any Option.isSome)) =
      touches a.nodes.edge? u.data.members v.data.members := by
    simp [touches, List.any_map, Function.comp_def]
  simp only [abstractWeight?, arnode, Arena.get_of_get? hu, Arena.get_of_get? hv, bind, Except.bind]
  simp only [bind, Except.bind, pure, Except.pure] at hkeys hfound ⊢
  simp only [hkeys, hfound, hany, folded?_of_body? hb hc, Vertex.body_data, Vertex.body_location]
  by_cases htouch : touches a.nodes.edge? u.data.members v.data.members = true
  · simp [htouch, Policy.fold, List.filterMap_map, Function.comp_def]
  · simp [htouch]

/-- When every neighbour on a side has a holder, the program finds these holders, each once. -/
theorem Grounded.neighborOwners_eq (h : a.Grounded) {x : ArNodeId} {b : Body (ArNodeData α)} {d : Direction}
    (hb : a.arnodes.body? x = some b)
    (hheld : ∀ m ∈ b.data.members, ∀ t w, d.along a.nodes.edge? m t = some w → (a.holder? t).isSome) :
    ∃ owners, a.neighborOwners x d = .ok owners ∧ owners.Nodup ∧
      ∀ y, y ∈ owners ↔ ∃ m ∈ b.data.members, ∃ t w, d.along a.nodes.edge? m t = some w ∧ a.holder? t = some y := by
  obtain ⟨u, hu, rfl⟩ := Graph.body?_eq_some_iff.mp hb
  let near (m : NodeId) : List NodeId := ((a.nodes.get? m).map fun v => (v.edges d).neighbors).getD []
  let owner (t : NodeId) : ArNodeId := (a.holder? t).getD x
  have hnear : ∀ m ∈ u.data.members, ∀ t, t ∈ near m ↔ ∃ w, d.along a.nodes.edge? m t = some w := by
    intro m hm t
    obtain ⟨p, hp, _⟩ := h.owned.member hb m hm
    obtain ⟨v, hv, rfl⟩ := get?_of_info? hp
    simp only [near, hv, Option.map_some, Option.getD_some]
    exact h.nodes.graph.mem_neighbors_iff hv
  have hread : (u.data.members.mapM fun m => do
      ((← a.node m).edges d).neighbors.mapM a.ownerOf : Except Error _) =
      .ok (u.data.members.map fun m => (near m).map owner) := by
    refine mapM_eq_ok_map _ fun m hm => ?_
    obtain ⟨p, hp, _⟩ := h.owned.member hb m hm
    obtain ⟨v, hv, rfl⟩ := get?_of_info? hp
    have heq : near m = (v.edges d).neighbors := by simp [near, hv]
    simp only [node, Arena.get_of_get? hv, bind, Except.bind, heq]
    refine mapM_eq_ok_map owner fun t ht => ?_
    rw [← heq] at ht
    obtain ⟨w, hw⟩ := (hnear m hm t).mp ht
    obtain ⟨y, hy⟩ := Option.isSome_iff_exists.mp (hheld m hm t w hw)
    rw [ownerOf_eq hy]
    simp [owner, hy]
  let all : List ArNodeId := (u.data.members.map fun m => (near m).map owner).flatten
  refine ⟨(all.foldl SortedSet.add (.empty : SortedSet ArNodeId)).keys, ?_, SortedMap.keys_nodup, fun y => ?_⟩
  · simp only [neighborOwners, arnode, Arena.get_of_get? hu, bind, Except.bind]
    simp only [bind, Except.bind] at hread
    rw [hread]
    rfl
  · rw [SortedSet.mem_keys_foldl_add]
    simp only [all, SortedMap.keys, SortedMap.toList_empty, List.map_nil, List.not_mem_nil, or_false, List.mem_flatten,
      List.mem_map, exists_exists_and_eq_and, Vertex.body_data]
    refine exists_congr fun m => and_congr_right fun hm => ?_
    constructor
    · rintro ⟨t, ht, rfl⟩
      obtain ⟨w, hw⟩ := (hnear m hm t).mp ht
      obtain ⟨y, hy⟩ := Option.isSome_iff_exists.mp (hheld m hm t w hw)
      exact ⟨t, w, hw, by simp [owner, hy]⟩
    · rintro ⟨t, w, hw, hy⟩
      exact ⟨t, (hnear m hm t).mpr ⟨w, hw⟩, by simp [owner, hy]⟩

/-- The holders of the nodes that an arnode feeds are the arnodes to which it has a fold. -/
theorem Grounded.outgoing_owners (h : a.Grounded) {x : ArNodeId} {b : Body (ArNodeData α)}
    (hb : a.arnodes.body? x = some b)
    (hheld : ∀ m ∈ b.data.members, ∀ t w, a.nodes.edge? m t = some w → (a.holder? t).isSome) :
    ∃ owners, a.neighborOwners x .outgoing = .ok owners ∧ owners.Nodup ∧ ∀ y, y ∈ owners ↔ (a.folded? x y).isSome := by
  obtain ⟨owners, hread, hnodup, hmem⟩ := h.neighborOwners_eq (d := .outgoing) hb hheld
  refine ⟨owners, hread, hnodup, fun y => (hmem y).trans ?_⟩
  rw [h.owned.isSome_folded?_iff]
  constructor
  · rintro ⟨m, hm, t, w, hw, hy⟩
    have hx := (h.owned.mem_members_iff hb).mp hm
    exact ⟨m, t, w, hx, hy, hw⟩
  · rintro ⟨m, t, w, hx, hy, hw⟩
    have hm := (h.owned.mem_members_iff hb).mpr hx
    exact ⟨m, hm, t, w, hw, hy⟩

/-- The holders of the nodes that feed an arnode are the arnodes from which it has a fold. -/
theorem Grounded.incoming_owners (h : a.Grounded) {x : ArNodeId} {b : Body (ArNodeData α)}
    (hb : a.arnodes.body? x = some b)
    (hheld : ∀ m ∈ b.data.members, ∀ s w, a.nodes.edge? s m = some w → (a.holder? s).isSome) :
    ∃ owners, a.neighborOwners x .incoming = .ok owners ∧ owners.Nodup ∧ ∀ y, y ∈ owners ↔ (a.folded? y x).isSome := by
  obtain ⟨owners, hread, hnodup, hmem⟩ := h.neighborOwners_eq (d := .incoming) hb hheld
  refine ⟨owners, hread, hnodup, fun y => (hmem y).trans ?_⟩
  rw [h.owned.isSome_folded?_iff]
  constructor
  · rintro ⟨m, hm, s, w, hw, hy⟩
    have hx := (h.owned.mem_members_iff hb).mp hm
    exact ⟨s, m, w, hy, hx, hw⟩
  · rintro ⟨s, m, w, hy, hx, hw⟩
    have hm := (h.owned.mem_members_iff hb).mpr hx
    exact ⟨m, hm, s, w, hw, hy⟩

end Abstraction

end ReluAbstraction
