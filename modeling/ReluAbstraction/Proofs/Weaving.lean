import ReluAbstraction.Proofs.Folding

/-!
# Activation

Forward activation gives an arnode all of its outgoing folds as edges, at both ends. Full activation with recalculation
gives one that has none yet all of its incoming folds; otherwise it only confirms. Each is described by the edges, bodies
and marks that it leads to.
-/

namespace ReluAbstraction

/-- An arnode in another state. -/
def Body.reaching {α : Type} (b : Body (ArNodeData α)) (state : ActivationState) : Body (ArNodeData α) :=
  { b with data := { b.data with state } }

namespace Abstraction

variable {α : Type}

/-- Whether an arnode has its outgoing edges. -/
def isForward (a : Abstraction α) (x : ArNodeId) : Bool := (a.arnodes.body? x).any (·.data.state.isForward)

theorem isForward_of_body? {a : Abstraction α} {x : ArNodeId} {b : Body (ArNodeData α)}
    (hb : a.arnodes.body? x = some b) : a.isForward x = b.data.state.isForward := by simp [isForward, hb]

theorem isForward_eq_false {a : Abstraction α} {x : ArNodeId} (hx : a.arnodes.body? x = none) : a.isForward x = false := by
  simp [isForward, hx]

theorem exists_of_isForward {a : Abstraction α} {x : ArNodeId} (hx : a.isForward x = true) :
    ∃ v, a.arnodes.get? x = some v ∧ v.data.state.isForward = true := by
  obtain ⟨b, hb, hforward⟩ := (Option.any_eq_true _ _).mp hx
  obtain ⟨v, hv, rfl⟩ := Graph.body?_eq_some_iff.mp hb
  exact ⟨v, hv, hforward⟩

theorem requireReady_eq {a : Abstraction α} {x : ArNodeId} (hx : a.isForward x = true) : a.requireReady x = .ok () := by
  obtain ⟨v, hv, hforward⟩ := exists_of_isForward hx
  simp only [requireReady, arnode, Arena.get_of_get? hv, hforward, bind, Except.bind]
  rfl

/-- In the middle of an activation: only edges and marks have changed so far. -/
structure Linked (a a' : Abstraction α) (edges : ArNodeId → ArNodeId → Option α) (marked : ArNodeId → Prop) : Prop where
  rest_eq : a' = { a with arnodes := a'.arnodes, encoding := a'.encoding }
  graph : a'.arnodes.Realizes 4 edges
  body?_eq : ∀ x, a'.arnodes.body? x = a.arnodes.body? x
  remarked : Encoding.Remarked a.encoding a'.encoding marked

/-- What activating the arnode `id` leads to. -/
structure Activated (a a' : Abstraction α) (id : ArNodeId) (state : ActivationState)
    (edges : ArNodeId → ArNodeId → Option α) (marked : ArNodeId → Prop) : Prop where
  sound : a'.ArnodesSound
  nodePart_eq : a'.nodePart = a.nodePart
  holder?_eq : a'.holder? = a.holder?
  body?_eq : ∀ x, a'.arnodes.body? x = if x = id then (a.arnodes.body? id).map (·.reaching state) else a.arnodes.body? x
  edge?_eq : ∀ x y, a'.arnodes.edge? x y = edges x y
  remarked : Encoding.Remarked a.encoding a'.encoding marked

variable {a a' : Abstraction α} {edges : ArNodeId → ArNodeId → Option α} {marked : ArNodeId → Prop} {id : ArNodeId}
  {state : ActivationState}

theorem ArnodesSound.linked_self (h : a.ArnodesSound) :
    Linked a a a.arnodes.edge? fun x => a.encoding.isStale x = true :=
  ⟨rfl, h.graph, fun _ => rfl, Encoding.remarked_self _⟩

theorem Linked.congr {edges' : ArNodeId → ArNodeId → Option α} {marked' : ArNodeId → Prop} (h : Linked a a' edges marked)
    (hedges : ∀ x y, edges x y = edges' x y) (hmarked : ∀ x, marked x ↔ marked' x) : Linked a a' edges' marked' := by
  obtain rfl : edges = edges' := funext fun x => funext fun y => hedges x y
  exact ⟨h.rest_eq, h.graph, h.body?_eq, h.remarked.congr hmarked⟩

theorem Linked.recast (h : Linked a a' edges marked) (ha : a.ArnodesSound) : Recast a a' := by
  have hedge : a'.arnodes.edge? = edges := funext fun x => funext fun y => h.graph.edge?_eq x y
  have hchains : a'.arnodeChains = a.arnodeChains := by rw [h.rest_eq]; rfl
  refine ⟨⟨?_, ?_⟩, ?_, ?_, fun x => by rw [h.body?_eq], h.remarked.pool_eq⟩
  · rw [hedge]
    exact h.graph
  · rw [hchains]
    exact ha.housed.of_same_bodies fun x => by rw [h.body?_eq]
  · rw [h.rest_eq]
    rfl
  · rw [h.rest_eq]
    rfl

/-- One more edge between arnodes of neighbouring layers. -/
theorem Linked.link_meets (h : Linked a a' edges marked) {x y : ArNodeId} {b c : Body (ArNodeData α)} {d : Direction}
    (hb : a.arnodes.body? x = some b) (hc : a.arnodes.body? y = some c)
    (hfaces : d.Faces b.location.layer c.location.layer) (w : α) :
    (onArnodes (Graph.link x d y w true)).Meets a' (fun _ a'' => Linked a a'' (d.assign edges x y w) marked) Step.Never := by
  rw [← h.body?_eq] at hb hc
  obtain ⟨v, hv, rfl⟩ := Graph.body?_eq_some_iff.mp hb
  obtain ⟨u, hu, rfl⟩ := Graph.body?_eq_some_iff.mp hc
  unfold onArnodes
  rw [Step.meets_zoom]
  refine (Graph.link_meets h.graph hv hu hfaces w).mono ?_ fun _ _ hfalse => hfalse.elim
  rintro _ g ⟨hg, hbody, _⟩
  refine ⟨?_, hg, fun z => (hbody z).trans (h.body?_eq z), h.remarked⟩
  rw [h.rest_eq]

theorem Linked.mark (h : Linked a a' edges marked) (x : ArNodeId) :
    Linked a { a' with encoding := a'.encoding.markStale x } edges fun z => z = x ∨ marked z := by
  refine ⟨?_, h.graph, h.body?_eq, h.remarked.mark x⟩
  rw [h.rest_eq]

/-- Moving the state on ends an activation. -/
theorem Linked.advance_meets (h : Linked a a' edges marked) (ha : a.ArnodesSound) {b : Body (ArNodeData α)}
    (hb : a.arnodes.body? id = some b) (hstate : b.data.state.rank ≤ state.rank) :
    (advance id state).Meets a' (fun _ a'' => Activated a a'' id state edges marked) Step.Never := by
  have hb' := hb
  rw [← h.body?_eq] at hb'
  obtain ⟨v, hv, rfl⟩ := Graph.body?_eq_some_iff.mp hb'
  have hadvance : v.data.state.advance state = .ok state := by
    rw [Vertex.body_data] at hstate
    simp [ActivationState.advance, Nat.not_lt.mpr hstate]
  unfold advance onArnodes
  rw [Step.meets_zoom]
  have hedit := Graph.edit_meets (f := fun v => do
    return { v with data := { v.data with state := ← v.data.state.advance state } }) hv (by
      simp only [hadvance, bind, Except.bind]
      rfl)
  refine hedit.mono ?_ fun _ _ hfalse => hfalse.elim
  intro _ g hg
  have hgraph : g.Realizes 4 edges := h.graph.of_edited hv hg rfl fun d => by cases d <;> rfl
  have hedge : g.edge? = edges := funext fun x => funext fun y => hgraph.edge?_eq x y
  have hbody : ∀ x, g.body? x = if x = id then (a.arnodes.body? id).map (·.reaching state) else a.arnodes.body? x := by
    intro x
    unfold Graph.body?
    rw [hg.get?_eq]
    split
    · have hid : (a.arnodes.get? id).map Vertex.body = some v.body := hb
      rw [hid]
      rfl
    · exact h.body?_eq x
  have hrecast := h.recast ha
  refine ⟨⟨?_, ?_⟩, ?_, ?_, hbody, fun x y => hgraph.edge?_eq x y, h.remarked⟩
  · change g.Realizes 4 g.edge?
    rw [hedge]
    exact hgraph
  · refine hrecast.sound.housed.of_same_bodies fun x => ?_
    change (g.body? x).map Body.location = _
    rw [hbody, h.body?_eq]
    split
    · next hx =>
      rw [hx, Option.map_map]
      rfl
    · rfl
  · exact hrecast.nodePart_eq
  · exact hrecast.holder?_eq

theorem Activated.congr {edges' : ArNodeId → ArNodeId → Option α} (h : Activated a a' id state edges marked)
    (hedges : ∀ x y, edges x y = edges' x y) : Activated a a' id state edges' marked :=
  ⟨h.sound, h.nodePart_eq, h.holder?_eq, h.body?_eq, fun x y => (h.edge?_eq x y).trans (hedges x y), h.remarked⟩

theorem Activated.recast (h : Activated a a' id state edges marked) : Recast a a' := by
  refine ⟨h.sound, h.nodePart_eq, h.holder?_eq, fun x => ?_, h.remarked.pool_eq⟩
  rw [h.body?_eq]
  split
  · next hx =>
    rw [hx, Option.map_map]
    rfl
  · rfl

/-- Only the arnode itself gets another state. -/
theorem Activated.isForward_eq (h : Activated a a' id state edges marked) {b : Body (ArNodeData α)}
    (hb : a.arnodes.body? id = some b) (x : ArNodeId) :
    a'.isForward x = if x = id then state.isForward else a.isForward x := by
  unfold isForward
  rw [h.body?_eq]
  split
  · simp [hb, Body.reaching]
  · rfl

variable [Scalar α]

/-- In the middle of an activation the program still computes the folds of the start. -/
theorem Linked.abstractWeight?_eq (h : Linked a a' edges marked) (ha : a.Grounded) {x y : ArNodeId}
    {b c : Body (ArNodeData α)} (hb : a.arnodes.body? x = some b) (hc : a.arnodes.body? y = some c)
    (hlayer : c.location.layer = b.location.layer + 1) : a'.abstractWeight? x y = .ok (a.folded? x y) := by
  have hrecast := h.recast ha.arnodes
  rw [← h.body?_eq] at hb hc
  rw [(hrecast.grounded ha).abstractWeight?_eq hb hc hlayer, hrecast.folded?_eq]

/-- Forward activation sets an edge for each outgoing fold. -/
theorem forwardActivate_links (h : a.Grounded) {b : Body (ArNodeData α)} (hb : a.arnodes.body? id = some b)
    (hstate : b.data.state.isForward = false)
    (hheld : ∀ m ∈ b.data.members, ∀ t w, a.nodes.edge? m t = some w → (a.holder? t).isSome) :
    (forwardActivate id).Meets a (fun _ a' => Activated a a' id .forwardActivated
      (fun x y => if x = id ∧ (a.folded? id y).isSome then a.folded? id y else a.arnodes.edge? x y)
      (fun x => a.encoding.isStale x = true ∨ (a.folded? id x).isSome)) Step.Never := by
  obtain ⟨targets, htargets, _, hmem⟩ := h.outgoing_owners hb hheld
  obtain ⟨v, hv, rfl⟩ := Graph.body?_eq_some_iff.mp hb
  have hread : a.arnode id = .ok v := Arena.get_of_get? hv
  rw [Vertex.body_data] at hstate
  unfold forwardActivate
  rw [Step.meets_bind, Step.meets_read, hread]
  simp only [hstate, Bool.false_eq_true, if_false]
  rw [Step.meets_bind, Step.meets_read, htargets]
  dsimp only
  rw [Step.meets_bind]
  -- After each target, its edge is the fold and it is marked.
  refine (Step.Meets.forM (fun done a' => Linked a a'
    (fun x y => if x = id ∧ y ∈ done then a.folded? id y else a.arnodes.edge? x y)
    (fun x => a.encoding.isStale x = true ∨ x ∈ done)) ?_ ?_).imp ?_
  · exact h.arnodes.linked_self.congr (fun x y => by simp) fun x => by simp
  · intro done y rest a' hsplit hlinked
    obtain ⟨w, hw⟩ := Option.isSome_iff_exists.mp ((hmem y).mp (by simp [hsplit]))
    obtain ⟨_, t, _, _, hy, _⟩ := h.owned.isSome_folded?_iff.mp (Option.isSome_of_eq_some hw)
    obtain ⟨c, hc, _⟩ := h.owned.holder hy
    have hlayer := h.layer_of_folded? hb hc hw
    rw [Step.meets_bind, Step.meets_read, hlinked.abstractWeight?_eq h hb hc hlayer, hw]
    dsimp only
    rw [Step.meets_bind]
    refine (hlinked.link_meets (d := .outgoing) hb hc hlayer w).imp fun _ a'' hlinked' => ?_
    refine (hlinked'.mark y).congr (fun x z => ?_) fun x => ?_
    · simp only [Direction.assign, List.mem_append, List.mem_singleton]
      by_cases hx : x = id
      · by_cases hz : z = y
        · simp [hx, hz, hw]
        · simp [hx, hz]
      · simp [hx]
    · simp only [List.mem_append, List.mem_singleton]
      tauto
  · intro _ a' hlinked
    have hrank : v.body.data.state.rank ≤ ActivationState.forwardActivated.rank := by
      rw [Vertex.body_data]
      simp only [ActivationState.isForward, decide_eq_false_iff_not, not_le] at hstate
      exact Nat.le_of_lt hstate
    exact (hlinked.congr (fun x y => by simp only [hmem]) fun x => by rw [hmem]).advance_meets h.arnodes hb hrank

/-- Forward activation gives an arnode without outgoing edges all of its outgoing folds. -/
theorem forwardActivate_meets (h : a.Grounded) {b : Body (ArNodeData α)} (hb : a.arnodes.body? id = some b)
    (hstate : b.data.state.isForward = false) (hnone : ∀ y, a.arnodes.edge? id y = none)
    (hheld : ∀ m ∈ b.data.members, ∀ t w, a.nodes.edge? m t = some w → (a.holder? t).isSome) :
    (forwardActivate id).Meets a (fun _ a' => Activated a a' id .forwardActivated
      (fun x y => if x = id then a.folded? id y else a.arnodes.edge? x y)
      (fun x => a.encoding.isStale x = true ∨ (a.folded? id x).isSome)) Step.Never := by
  refine (forwardActivate_links h hb hstate hheld).imp fun _ a' ha' => ha'.congr fun x y => ?_
  by_cases hx : x = id
  · subst hx
    cases hfold : a.folded? x y with
    | none => simp [hnone]
    | some w => simp
  · simp [hx]

/-- Confirming a forward activated arnode whose sources have their outgoing edges comes to moving its state on. -/
theorem confirm_meets_of_advance (h : a.Grounded) {v : ArNode α} (hv : a.arnodes.get? id = some v)
    (hstate : v.data.state = .forwardActivated)
    (hready : ∀ x w, a.arnodes.edge? x id = some w → a.isForward x = true) (check : Bool)
    {post : Unit → Abstraction α → Prop} {fail : Error → Abstraction α → Prop}
    (hadvance : (advance id .fullyActivated).Meets a post fail) : (confirm id check).Meets a post fail := by
  have hread : a.arnode id = .ok v := Arena.get_of_get? hv
  have hforward : requireForward v.data.state = .ok () := by rw [hstate]; rfl
  unfold confirm
  rw [Step.meets_bind, Step.meets_read, hread]
  simp only [hforward]
  rw [if_neg (by rw [hstate]; decide), Step.meets_bind, Step.meets_ofExcept]
  dsimp only
  cases check with
  | false => exact hadvance
  | true =>
    simp only [if_true]
    rw [Step.meets_bind]
    refine (Step.Meets.forM (fun _ a' => a' = a) rfl ?_).imp fun _ a' ha' => by rw [ha']; exact hadvance
    rintro done x rest a' hsplit rfl
    have hx : x ∈ (v.edges .incoming).neighbors := by
      change x ∈ v.incoming.neighbors
      rw [hsplit]
      simp
    obtain ⟨w, hw⟩ := (h.arnodes.graph.mem_neighbors_iff hv).mp hx
    rw [Step.meets_read, requireReady_eq (hready x w hw)]

/-- Confirming a forward activated arnode leaves all edges as they are. -/
theorem confirm_meets (h : a.Grounded) {b : Body (ArNodeData α)} (hb : a.arnodes.body? id = some b)
    (hstate : b.data.state = .forwardActivated)
    (hready : ∀ x w, a.arnodes.edge? x id = some w → a.isForward x = true) (check : Bool) :
    (confirm id check).Meets a (fun _ a' => Activated a a' id .fullyActivated a.arnodes.edge?
      (fun x => a.encoding.isStale x = true)) Step.Never := by
  obtain ⟨v, hv, rfl⟩ := Graph.body?_eq_some_iff.mp hb
  exact confirm_meets_of_advance h hv hstate hready check
    (h.arnodes.linked_self.advance_meets h.arnodes hb (by rw [hstate]; decide))

/-- Full activation of a forward activated arnode, all of whose edges are from arnodes that it has a fold from: there is no
edge to drop, and what is left is to set the edges and to move the state on. -/
theorem fullyActivate_meets_of_recalculate (h : a.Grounded) {v : ArNode α} (hv : a.arnodes.get? id = some v)
    (hstate : v.data.state = .forwardActivated)
    (hheld : ∀ m ∈ v.data.members, ∀ s w, a.nodes.edge? s m = some w → (a.holder? s).isSome)
    (hready : ∀ x, (a.folded? x id).isSome → a.isForward x = true)
    (hfold : ∀ x w, a.arnodes.edge? x id = some w → (a.folded? x id).isSome)
    {post : Unit → Abstraction α → Prop} {fail : Error → Abstraction α → Prop}
    (hlast : ∀ sources : List ArNodeId, (∀ x, x ∈ sources ↔ (a.folded? x id).isSome) →
      (do sources.forM (recalculate id)
          recode (·.markStale id)
          advance id .fullyActivated : Step (Abstraction α) Unit).Meets a post fail) :
    (fullyActivate id).Meets a post fail := by
  obtain ⟨sources, hsources, _, hmem⟩ := h.incoming_owners (Graph.body?_of_get? hv) hheld
  have hread : a.arnode id = .ok v := Arena.get_of_get? hv
  have hforward : requireForward v.data.state = .ok () := by rw [hstate]; rfl
  unfold fullyActivate
  rw [Step.meets_bind, Step.meets_read, hread]
  simp only [hforward]
  rw [if_neg (by rw [hstate]; decide), Step.meets_bind, Step.meets_ofExcept]
  dsimp only
  rw [Step.meets_bind, Step.meets_read, hsources]
  dsimp only
  rw [Step.meets_bind]
  refine (Step.Meets.forM (fun _ a' => a' = a) rfl ?_).imp ?_
  · rintro done x rest a' hsplit rfl
    rw [Step.meets_read, requireReady_eq (hready x ((hmem x).mp (by simp [hsplit])))]
  rintro _ a' rfl
  rw [Step.meets_bind, Step.meets_read, hread]
  dsimp only
  rw [Step.meets_bind]
  refine (Step.Meets.forM (fun _ a'' => a'' = a') rfl ?_).imp ?_
  · rintro done x rest a'' hsplit rfl
    have hx : x ∈ (v.edges .incoming).neighbors := by
      change x ∈ v.incoming.neighbors
      rw [hsplit]
      simp
    obtain ⟨w, hw⟩ := (h.arnodes.graph.mem_neighbors_iff hv).mp hx
    rw [if_pos ((hmem x).mpr (hfold x w hw))]
    rfl
  rintro _ a'' rfl
  exact hlast sources hmem

/-- Full activation gives a forward activated arnode without incoming edges all of its incoming folds. -/
theorem fullyActivate_meets (h : a.Grounded) {b : Body (ArNodeData α)} (hb : a.arnodes.body? id = some b)
    (hstate : b.data.state = .forwardActivated) (hnone : ∀ x, a.arnodes.edge? x id = none)
    (hheld : ∀ m ∈ b.data.members, ∀ s w, a.nodes.edge? s m = some w → (a.holder? s).isSome)
    (hready : ∀ x, (a.folded? x id).isSome → a.isForward x = true) :
    (fullyActivate id).Meets a (fun _ a' => Activated a a' id .fullyActivated
      (fun x y => if y = id then a.folded? x id else a.arnodes.edge? x y)
      (fun x => x = id ∨ a.encoding.isStale x = true)) Step.Never := by
  obtain ⟨v, hv, rfl⟩ := Graph.body?_eq_some_iff.mp hb
  refine fullyActivate_meets_of_recalculate h hv hstate hheld hready (fun x w hw => by rw [hnone] at hw; cases hw) ?_
  intro sources hmem
  rw [Step.meets_bind]
  refine (Step.Meets.forM (fun done a' => Linked a a'
    (fun x y => if y = id ∧ x ∈ done then a.folded? x id else a.arnodes.edge? x y)
    (fun x => a.encoding.isStale x = true)) ?_ ?_).imp ?_
  · exact h.arnodes.linked_self.congr (fun x y => by simp) fun x => Iff.rfl
  · intro done x rest a' hsplit hlinked
    obtain ⟨w, hw⟩ := Option.isSome_iff_exists.mp ((hmem x).mp (by simp [hsplit]))
    obtain ⟨s, _, _, hx, _, _⟩ := h.owned.isSome_folded?_iff.mp (Option.isSome_of_eq_some hw)
    obtain ⟨c, hc, _⟩ := h.owned.holder hx
    have hlayer := h.layer_of_folded? hc hb hw
    rw [recalculate, Step.meets_bind, Step.meets_read, hlinked.abstractWeight?_eq h hc hb hlayer, hw]
    dsimp only
    refine (hlinked.link_meets (d := .incoming) hb hc hlayer w).imp fun _ a'' hlinked' => ?_
    refine hlinked'.congr (fun z y => ?_) fun _ => Iff.rfl
    simp only [Direction.assign, List.mem_append, List.mem_singleton]
    by_cases hy : y = id
    · by_cases hz : z = x
      · simp [hy, hz, hw]
      · simp [hy, hz]
    · simp [hy]
  · intro _ a' hlinked
    rw [Step.meets_bind, recode, Step.meets_modify]
    refine ((hlinked.mark id).congr (fun x y => ?_) fun x => Iff.rfl).advance_meets h.arnodes hb
      (by rw [hstate]; decide)
    by_cases hy : y = id
    · subst hy
      rw [if_pos rfl]
      by_cases hx : x ∈ sources
      · simp [hx]
      · have hfold : a.folded? x y = none := by simpa [hmem] using hx
        simp [hx, hnone, hfold]
    · simp [hy]

/-- The edges of the arnodes are the folds out of those that are forward activated. At most one arnode, made last, still
waits for its incoming edges. -/
structure Woven (a : Abstraction α) (pending : Option ArNodeId) : Prop where
  grounded : a.Grounded
  edge?_eq : ∀ x y, a.arnodes.edge? x y = if a.isForward x = true ∧ pending ≠ some y then a.folded? x y else none

/-- The fold of two arnodes depends on their bodies and on the nodes. -/
theorem folded?_congr (hpart : a'.nodePart = a.nodePart) {x y : ArNodeId}
    (hx : a'.arnodes.body? x = a.arnodes.body? x) (hy : a'.arnodes.body? y = a.arnodes.body? y) :
    a'.folded? x y = a.folded? x y := by
  simp only [folded?, hx, hy, edge?_of_nodePart hpart, policy_of_nodePart hpart]

namespace Woven

variable {pending : Option ArNodeId}

/-- An edge is a fold, and comes from a forward activated arnode. -/
theorem of_edge (h : Woven a pending) {x y : ArNodeId} {w : α} (hedge : a.arnodes.edge? x y = some w) :
    a.isForward x = true ∧ a.folded? x y = some w := by
  rw [h.edge?_eq] at hedge
  split at hedge
  · next hcond => exact ⟨hcond.1, hedge⟩
  · cases hedge

/-- What keeps holders, edges and progress keeps the weave. -/
theorem of_recast (h : Woven a pending) (hr : Recast a a') (hedge : ∀ x y, a'.arnodes.edge? x y = a.arnodes.edge? x y)
    (hforward : ∀ x, a'.isForward x = a.isForward x) : Woven a' pending := by
  refine ⟨hr.grounded h.grounded, fun x y => ?_⟩
  rw [hedge, hforward, hr.folded?_eq, h.edge?_eq]

/-- A new arnode waits for its incoming edges. -/
theorem wrap (h : Woven a none) {members : List NodeId} {b : Body (ArNodeData α)} (hw : Wrapped a a' members id b) :
    Woven a' (some id) := by
  refine ⟨hw.grounded h.grounded, fun x y => ?_⟩
  rw [hw.edge?_eq, h.edge?_eq]
  by_cases hy : y = id
  · subst hy
    rw [folded?_eq_none_right hw.fresh]
    simp
  · by_cases hx : x = id
    · subst hx
      have hold : a.isForward x = false := isForward_eq_false hw.fresh
      have hnew : a'.isForward x = false := by
        rw [isForward_of_body? hw.body?_self, hw.state_eq]
        rfl
      simp [hold, hnew]
    · have hxb : a'.arnodes.body? x = a.arnodes.body? x := by rw [hw.body?_eq, if_neg hx]
      have hyb : a'.arnodes.body? y = a.arnodes.body? y := by rw [hw.body?_eq, if_neg hy]
      have hpending : (some id : Option ArNodeId) ≠ some y := fun heq => hy (Option.some.inj heq).symm
      simp [folded?_congr hw.nodePart_eq hxb hyb, isForward, hxb, hpending]

theorem unwrap (h : Woven a none) {b : Body (ArNodeData α)} (hu : Unwrapped a a' id b) : Woven a' none := by
  refine ⟨hu.grounded h.grounded, fun x y => ?_⟩
  rw [hu.edge?_eq]
  have hgone : a'.arnodes.body? id = none := by rw [hu.body?_eq, if_pos rfl]
  by_cases hx : x = id
  · subst hx
    simp [folded?_eq_none_left hgone]
  · by_cases hy : y = id
    · subst hy
      simp [folded?_eq_none_right hgone]
    · have hxb : a'.arnodes.body? x = a.arnodes.body? x := by rw [hu.body?_eq, if_neg hx]
      have hyb : a'.arnodes.body? y = a.arnodes.body? y := by rw [hu.body?_eq, if_neg hy]
      simp [hx, hy, h.edge?_eq, folded?_congr hu.nodePart_eq hxb hyb, isForward, hxb]

/-- Forward activation, provided no fold leads to an arnode that still waits. -/
theorem forward (h : Woven a pending) {b : Body (ArNodeData α)} (hb : a.arnodes.body? id = some b)
    (ha : Activated a a' id .forwardActivated (fun x y => if x = id then a.folded? id y else a.arnodes.edge? x y) marked)
    (hpending : ∀ y, pending = some y → a.folded? id y = none) : Woven a' pending := by
  refine ⟨ha.recast.grounded h.grounded, fun x y => ?_⟩
  rw [ha.edge?_eq, ha.isForward_eq hb, ha.recast.folded?_eq]
  by_cases hx : x = id
  · subst hx
    by_cases hy : pending = some y
    · simp [hy, hpending y hy]
    · simp [hy, ActivationState.isForward, ActivationState.rank]
  · simp [hx, h.edge?_eq]

/-- Confirmation of an arnode that is forward activated. -/
theorem confirm (h : Woven a pending) {b : Body (ArNodeData α)} (hb : a.arnodes.body? id = some b)
    (hstate : b.data.state.isForward = true) (ha : Activated a a' id .fullyActivated a.arnodes.edge? marked) :
    Woven a' pending := by
  refine h.of_recast ha.recast ha.edge?_eq fun x => ?_
  rw [ha.isForward_eq hb]
  split
  · next hx => rw [hx, isForward_of_body? hb, hstate]; rfl
  · rfl

/-- Once the arnode that waits has its incoming edges, none waits. -/
theorem complete (h : Woven a (some id)) {b : Body (ArNodeData α)} (hb : a.arnodes.body? id = some b)
    (hstate : b.data.state.isForward = true) (hready : ∀ x, (a.folded? x id).isSome → a.isForward x = true)
    (ha : Activated a a' id .fullyActivated (fun x y => if y = id then a.folded? x id else a.arnodes.edge? x y) marked) :
    Woven a' none := by
  refine ⟨ha.recast.grounded h.grounded, fun x y => ?_⟩
  have hforward : a'.isForward x = a.isForward x := by
    rw [ha.isForward_eq hb]
    split
    · next hx => rw [hx, isForward_of_body? hb, hstate]; rfl
    · rfl
  rw [ha.edge?_eq, hforward, ha.recast.folded?_eq]
  by_cases hy : y = id
  · subst hy
    cases hfold : a.folded? x y with
    | none => simp
    | some w => simp [hready x (by simp [hfold])]
  · simp [hy, h.edge?_eq, Ne.symm hy]

end Woven

end Abstraction

end ReluAbstraction
