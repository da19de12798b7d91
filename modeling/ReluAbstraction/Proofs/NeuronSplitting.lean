import ReluAbstraction.Proofs.Calls
import ReluAbstraction.Proofs.Slots
import ReluAbstraction.Scalar.Exact

/-!
# Splitting neurons

However a network under verification is changed, its nodes are the neurons of the network, split but not altered. Stages
other than preprocessing, merges, splits and questions to a solver leave the nodes alone; preprocessing keeps what they
compute.
-/

namespace ReluAbstraction

variable {α : Type}

open Step

namespace Network

/-- The half of the nodes. -/
def nodePart (n : Network α) : List (LayerRole × TableChain NodeId) × Graph .node α (NodeData α) × Policy :=
  n.abstraction.nodePart

theorem keeps_onAbstraction {β : Type} {step : Step (Abstraction α) β} (h : Keeps Abstraction.nodePart step) :
    Keeps nodePart (onAbstraction step) := h.zoom fun _ _ hs => hs

theorem keeps_surroundings {β : Type} {step : Step (Abstraction α) β} (h : Keeps Abstraction.surroundings step) :
    Keeps nodePart (onAbstraction step) := keeps_onAbstraction (h.comp Prod.snd)

theorem keeps_moveFrontier (f : Frontier → Frontier) : Keeps nodePart (moveFrontier f : Step (Network α) Unit) :=
  fun _ => rfl

theorem keeps_setBound (v : VarId) (bound : Bound α) : Keeps nodePart (setBound v bound) :=
  keeps_surroundings (Abstraction.keeps_recode _)

theorem keeps_fullNext : Keeps nodePart (fullNext : Step (Network α) (Option Nat)) := by
  unfold fullNext
  refine Within.get.bind fun n => ?_
  dsimp only
  cases n.frontier.full with
  | none => exact Within.pure _
  | some l =>
    refine Within.ite (Within.throw _) (Within.get.bind fun m => ?_)
    refine (keeps_surroundings (Abstraction.keeps_confirmLayer l _)).bind fun _ => ?_
    exact (keeps_moveFrontier _).bind fun _ => Within.pure _

theorem keeps_countCall (event : Event) : Keeps nodePart (countCall event : Step (Network α) Unit) :=
  (keeps_surroundings (Abstraction.keeps_count event)).bind fun _ => fun _ => rfl

/-- Bounding the new arnodes of a layer and moving the frontier on leaves the nodes alone. -/
theorem keeps_boundCreated (l : Nat) (created : List ArNodeId) : Keeps nodePart (do
    if l = 0 then created.forM boundInput
    else if l + 1 = (← get).abstraction.layers.length then created.forM boundOutput
    moveFrontier fun f => { f with preprocess := Frontier.before? l }
    return some l : Step (Network α) (Option Nat)) :=
  within_boundCreated keeps_setBound (fun _ => keeps_moveFrontier _) l created

variable [Scalar α]

theorem keeps_forwardNext : Keeps nodePart (forwardNext : Step (Network α) (Option Nat)) := by
  unfold forwardNext
  refine Within.get.bind fun n => ?_
  dsimp only
  cases n.frontier.forward with
  | none => exact Within.pure _
  | some l =>
    refine Within.ite (Within.throw _) ?_
    refine (keeps_surroundings (Abstraction.keeps_forwardActivateLayer l)).bind fun _ => ?_
    exact (keeps_moveFrontier _).bind fun _ => Within.pure _

theorem keeps_abstractQuery : Keeps nodePart (abstractQuery : Step (Network α) (Query α)) :=
  (keeps_surroundings Abstraction.keeps_refreshEquations).discard.bind fun _ =>
    keeps_surroundings Abstraction.keeps_preparedQuery

/-- What depends on the nodes only and is kept by preprocessing is kept by every call, whatever its outcome. -/
theorem preserves_run {I : Abstraction α → Prop} (hpart : ∀ {a a'}, I a → a'.nodePart = a.nodePart → I a')
    (hpreprocess : ∀ l, Preserves I (Abstraction.preprocess l)) (c : Call α) :
    Preserves (fun n : Network α => I n.abstraction) c.run := by
  have hkeeps : ∀ {β : Type} {step : Step (Network α) β}, Keeps nodePart step →
      Preserves (fun n : Network α => I n.abstraction) step := fun h => h.mono fun _ _ hs hn => hpart hn hs
  refine Call.within_run ?_ (hkeeps keeps_forwardNext) (hkeeps keeps_fullNext) (fun l first second => hkeeps ?_)
    (fun l id cells => hkeeps ?_) (hkeeps keeps_abstractQuery) (fun event => hkeeps (keeps_countCall event)) c
  · unfold preprocessNext
    refine Within.get.bind fun n => ?_
    cases n.frontier.preprocess with
    | none => exact Within.pure _
    | some l =>
      have hstage : Preserves (fun n : Network α => I n.abstraction) (onAbstraction (Abstraction.preprocess l)) :=
        (hpreprocess l).zoom fun _ _ hs => hs
      exact hstage.bind fun created => hkeeps (keeps_boundCreated l created)
  · exact (Within.read _).bind fun _ => keeps_onAbstraction (Abstraction.keeps_merge l first second)
  · exact (Within.read _).bind fun _ => keeps_onAbstraction (Abstraction.keeps_split l id cells)

end Network

/-- The vertex has an outgoing edge of the given weight to another one. -/
def Vertex.HasEdge {k : EntityKind} {δ : Type} (v : Vertex k α δ) (y : Handle k) (w : α) : Prop :=
  ∃ key, v.outgoing.get? key = some ⟨w, y⟩

variable [Scalar α] {net : Feedforward α}

/-- The nodes of an abstraction are the neurons of a network, split but not altered. -/
structure SplitsNeurons (net : Feedforward α) (a : Abstraction α) : Prop where
  /-- A node carries the bias of its neuron. -/
  bias_eq : ∀ {x v}, a.nodes.get? x = some v → v.data.bias = net.bias v.data.origin.layer v.data.origin.index
  /-- A weight that is not zero comes from exactly one node of the neuron it comes from. -/
  one_source : ∀ {x v l i}, a.nodes.get? x = some v → v.data.origin.layer = l + 1 → i < net.width l →
    (net.weight (l + 1) v.data.origin.index i == 0) = false → ∃ s u, a.nodes.get? s = some u ∧
      u.data.origin = ⟨l, i⟩ ∧ u.HasEdge x (net.weight (l + 1) v.data.origin.index i) ∧
        ∀ s' u' w, a.nodes.get? s' = some u' → u'.data.origin = ⟨l, i⟩ → u'.HasEdge x w →
          s' = s ∧ w = net.weight (l + 1) v.data.origin.index i
  /-- A weight that is zero comes from no node. -/
  no_source : ∀ {x v l i}, a.nodes.get? x = some v → v.data.origin.layer = l + 1 → i < net.width l →
    (net.weight (l + 1) v.data.origin.index i == 0) = true → ∀ s u w, a.nodes.get? s = some u →
      u.data.origin = ⟨l, i⟩ → ¬u.HasEdge x w
  /-- Every neuron keeps a node. -/
  exists_node : ∀ {l j}, l < net.depth → j < net.width l → ∃ x v, a.nodes.get? x = some v ∧ v.data.origin = ⟨l, j⟩
  /-- An edge is recorded at both ends under the place of the other end. -/
  recorded : ∀ {x v}, a.nodes.get? x = some v → ∀ d key w y, (v.edges d).get? key = some ⟨w, y⟩ →
    ∃ u, a.nodes.get? y = some u ∧ u.location.key = key ∧ (u.edges d.reverse).get? v.location.key = some ⟨w, x⟩
  /-- The outgoing edges of a classified node between the boundary layers ask for its category. -/
  classified : ∀ {x v}, a.nodes.get? x = some v → v.location.category.isCemented = true → 1 ≤ v.location.layer →
    v.location.layer + 1 < net.depth → ∀ {y u w}, v.HasEdge y w → a.nodes.get? y = some u →
      Category.classify? w u.location.category = some v.location.category

namespace Abstraction.Represents

variable {a : Abstraction α}

theorem hasEdge_iff (h : a.Represents net) {x y : NodeId} {v : Node α} {w : α} (hv : a.nodes.get? x = some v) :
    v.HasEdge y w ↔ a.nodes.edge? x y = some w := by
  constructor
  · rintro ⟨key, hget⟩
    obtain ⟨_, _, _, hedge⟩ := (h.sound.graph.edges_iff hv .outgoing key w y).mp hget
    exact hedge
  · intro hedge
    obtain ⟨_, u, _, hu, _⟩ := h.sound.graph.ends hedge
    exact ⟨u.location.key, (h.sound.graph.edges_iff hv .outgoing _ w y).mpr ⟨u, hu, rfl, hedge⟩⟩

/-- Nodes that represent a network split its neurons. -/
theorem splitsNeurons (h : a.Represents net) : SplitsNeurons net a := by
  have hf := h.faithful
  have hlayer : ∀ {x v}, a.nodes.get? x = some v → v.data.origin.layer = v.location.layer :=
    fun hv => hf.origin_layer (info?_of_get? hv)
  -- A source of a node through an edge is one of the layer before, and the edge has the weight of the neurons.
  have hweight : ∀ {x v s u w l i}, a.nodes.get? x = some v → v.data.origin.layer = l + 1 → a.nodes.get? s = some u →
      u.data.origin = ⟨l, i⟩ → u.HasEdge x w → w = net.weight (l + 1) v.data.origin.index i := by
    intro x v s u w l i hv hl hu horigin hedge
    have hw := hf.weight_eq ((h.hasEdge_iff hu).mp hedge) (info?_of_get? hu) (info?_of_get? hv)
    have hindex : u.body.info.origin.index = i := congrArg NeuronRef.index horigin
    have hplace : v.body.info.place.layer = l + 1 := (hlayer hv).symm.trans hl
    rw [hindex, hplace] at hw
    exact hw
  refine ⟨?_, ?_, ?_, ?_, ?_, ?_⟩
  · intro x v hv
    rw [hlayer hv]
    exact hf.bias_eq (info?_of_get? hv)
  · intro x v l i hv hl hi hne
    have hplace : v.body.info.place.layer = l + 1 := (hlayer hv).symm.trans hl
    obtain ⟨s, b, w, hb, hindex, hedge⟩ := hf.exists_source (info?_of_get? hv) hplace hi hne
    obtain ⟨u, hu, rfl⟩ := get?_of_info? hb
    obtain ⟨u', v', hu', hv', hfaces⟩ := h.sound.graph.ends hedge
    rw [hu] at hu'
    rw [hv] at hv'
    cases hu'
    cases hv'
    have horigin : u.data.origin = ⟨l, i⟩ := by
      have hul : u.data.origin.layer = l := by
        rw [hlayer hu]
        change v.location.layer = l + 1 at hplace
        omega
      rw [← hul, ← hindex]
      rfl
    have hedge' := (h.hasEdge_iff hu).mpr hedge
    rw [hweight hv hl hu horigin hedge'] at hedge'
    refine ⟨s, u, hu, horigin, hedge', fun s' u' w' hu' horigin' hother => ⟨?_, hweight hv hl hu' horigin' hother⟩⟩
    refine hf.source_unique ((h.hasEdge_iff hu').mp hother) hedge (info?_of_get? hu') (info?_of_get? hu) ?_
    exact congrArg NeuronRef.index (horigin'.trans horigin.symm)
  · intro x v l i hv hl _ hzero s u w hu horigin hedge
    have hne := hf.weight_ne ((h.hasEdge_iff hu).mp hedge)
    rw [hweight hv hl hu horigin hedge, hzero] at hne
    cases hne
  · intro l j hl hj
    obtain ⟨x, b, hb, hbl, hbj⟩ := hf.exists_node hl hj
    obtain ⟨v, hv, rfl⟩ := get?_of_info? hb
    refine ⟨x, v, hv, ?_⟩
    have hvl : v.data.origin.layer = l := (hlayer hv).trans hbl
    rw [← hvl, ← hbj]
    rfl
  · intro x v hv d key w y hget
    obtain ⟨u, hu, hkey, hedge⟩ := (h.sound.graph.edges_iff hv d key w y).mp hget
    refine ⟨u, hu, hkey, (h.sound.graph.edges_iff hu d.reverse _ w x).mpr ⟨v, hv, rfl, ?_⟩⟩
    rw [Direction.along_reverse]
    exact hedge
  · intro x v hv hcemented hone _ y u w hedge hu
    have hcategory : v.body.info.place.category ≠ .unprocessed := by
      simpa [Category.isCemented, Body.info] using hcemented
    exact hf.classified ((h.hasEdge_iff hv).mp hedge) (info?_of_get? hv) (info?_of_get? hu) hcategory hone

end Abstraction.Represents

/-- Preprocessing only splits neurons: whatever calls have been made, and however they ended, the nodes are the neurons of
the network, split but not altered. There have to be five handles for each neuron, or the arena of the nodes must have a
fresh slot. -/
theorem Network.splitsNeurons_of_reaches {property : Property α} {options : Options} {start n : Network α}
    (hbuild : Network.build net property options = .ok start) (hreach : Network.Reaches start n)
    (hroom : 5 * net.shape.sum < Arena.span ∨ n.abstraction.nodes.slots.size < Arena.span) :
    SplitsNeurons net n.abstraction := by
  have hrep : n.abstraction.Represents net := by
    rcases hroom with hroom | hroom
    · have hbudgeted : n.abstraction.Budgeted net (5 * net.shape.sum) :=
        hreach.invariant (Network.build_budgeted hbuild)
          (Network.preserves_run (fun h hpart => h.of_nodePart hpart) (Abstraction.preserves_budgeted hroom))
      exact hbudgeted.represents
    · have hintact : n.abstraction.Intact net :=
        hreach.invariant (Or.inl (Network.build_represents hbuild).1)
          (Network.preserves_run (fun h hpart => h.of_nodePart hpart) Abstraction.preserves_intact)
      exact hintact.resolve_right (Nat.not_le.mpr hroom)
  exact hrep.splitsNeurons

/-- A network whose first hidden neuron raises one output and lowers the other, so that preprocessing splits it. -/
def Feedforward.fork : Feedforward Rat where
  inputs := [⟨0, 1⟩, ⟨0, 1⟩]
  layers := [⟨[[1, -1], [2, 1]], [0, 1]⟩, ⟨[[1, 1], [-1, 1]], [0, 0]⟩]

/-- After the abstraction of the forked network was completed, its nodes are the neurons, split but not altered. -/
theorem Network.splitsNeurons_fork : ∃ start n, Network.build .fork ⟨.maximize, 0, 1⟩ .standard = .ok start ∧
    Network.Reaches start n ∧ n.frontier.isComplete = true ∧ 5 * Feedforward.fork.shape.sum < Arena.span ∧
      SplitsNeurons .fork n.abstraction := by
  obtain ⟨start, n, hbuild, _, hreach, hcomplete⟩ := Network.exists_completed .fork ⟨.maximize, 0, 1⟩ .standard
    (P := fun _ n => n.frontier.isComplete = true) (by decide +kernel)
  have hroom : 5 * Feedforward.fork.shape.sum < Arena.span := by decide
  exact ⟨start, n, hbuild, hreach.reaches, hcomplete, hroom,
    Network.splitsNeurons_of_reaches hbuild hreach.reaches (.inl hroom)⟩

end ReluAbstraction
