import ReluAbstraction.Proofs.Bounding
import ReluAbstraction.Proofs.Calls
import ReluAbstraction.Proofs.Frontiers

/-!
# Networks in order

As long as each stage succeeds or is turned down because it is not its turn, a network is in order: its nodes represent
the network it was built from, its arnodes form a weave over them, the frontier says how far each layer is built, the
bounds of the boundary layers are set, and the abstraction has come about by changes of the known kinds. A stage that
succeeds keeps this. All other calls keep it whether or not they succeed.
-/

namespace ReluAbstraction

variable {α : Type}

namespace Abstraction

/-- Classified nodes, and the edges between them, are as before. -/
structure Persists (a a' : Abstraction α) : Prop where
  info?_eq : ∀ {m c}, a.info? m = some c → c.place.category ≠ .unprocessed → a'.info? m = some c
  edge?_eq : ∀ {x y c d}, a.info? x = some c → c.place.category ≠ .unprocessed → a.info? y = some d →
    d.place.category ≠ .unprocessed → a'.nodes.edge? x y = a.nodes.edge? x y

namespace Persists

variable {a a' a'' : Abstraction α}

theorem of_nodePart (h : a.nodePart = a'.nodePart) : Persists a a' :=
  ⟨fun hm _ => by rw [← info?_of_nodePart h]; exact hm, fun _ _ _ _ => by rw [edge?_of_nodePart h]⟩

theorem trans (h : Persists a a') (h' : Persists a' a'') : Persists a a'' := by
  refine ⟨fun hm hc => h'.info?_eq (h.info?_eq hm hc) hc, fun hx hxc hy hyc => ?_⟩
  rw [h'.edge?_eq (h.info?_eq hx hxc) hxc (h.info?_eq hy hyc) hyc, h.edge?_eq hx hxc hy hyc]

end Persists

variable [Scalar α]

/-- The abstraction has the nodes that preprocessing gives, from `start` down to where `left` layers are left. -/
inductive Traced (start : Abstraction α) : Nat → Abstraction α → Prop
  /-- No layer is preprocessed. -/
  | start {depth : Nat} {a : Abstraction α} (hpart : a.nodePart = start.nodePart) (hdepth : start.layers.length = depth) :
      Traced start depth a
  /-- One more layer is preprocessed. -/
  | next {l : Nat} {a a' a'' : Abstraction α} {created : List ArNodeId} (h : Traced start (l + 1) a)
      (hstage : preprocess l a = .ok created a') (hkept : Persists a a') (hpart : a''.nodePart = a'.nodePart) :
      Traced start l a''

theorem Traced.of_nodePart {start a a' : Abstraction α} {left : Nat} (h : Traced start left a)
    (hpart : a'.nodePart = a.nodePart) : Traced start left a' := by
  cases h with
  | start hpart' hdepth => exact .start (hpart.trans hpart') hdepth
  | next h hstage hkept hpart' => exact .next h hstage hkept (hpart.trans hpart')

end Abstraction

section Rules

variable [Scalar α]

/-- The first layer whose arnodes may be merged and split. -/
def Feedforward.floor (net : Feedforward α) : Nat := if net.inputs.any fun range => range.low < 0 then 2 else 1

theorem Feedforward.floor_pos (net : Feedforward α) : 1 ≤ net.floor := by
  unfold floor
  split <;> decide

/-- Layers between the boundary layers, without the first one if an input can be negative. -/
def Feedforward.Regroupable (net : Feedforward α) (l : Nat) : Prop := net.floor ≤ l ∧ l + 1 < net.depth

theorem Feedforward.not_regroupable_of_boundary {net : Feedforward α} {l : Nat} (h : l = 0 ∨ l + 1 = net.depth) :
    ¬net.Regroupable l := by
  rintro ⟨hfirst, hlast⟩
  have hpos := net.floor_pos
  omega

/-- Bounds that belong to a neuron: the ends of the range of an input, and the bound that the property puts on its
output. -/
inductive Feedforward.Limits (net : Feedforward α) (property : Property α) : NeuronRef → Bound α → Prop
  /-- Lowest value of an input. -/
  | low {i : Nat} {range : InputRange α} (h : net.inputs[i]? = some range) : Limits net property ⟨0, i⟩ (.lower range.low)
  /-- Highest value of an input. -/
  | high {i : Nat} {range : InputRange α} (h : net.inputs[i]? = some range) : Limits net property ⟨0, i⟩ (.upper range.high)
  /-- Bound of the property's output. -/
  | output : Limits net property ⟨net.depth - 1, property.output⟩ property.bound

omit [Scalar α] in
/-- Only the neurons of the boundary layers have bounds. -/
theorem Feedforward.Limits.layer_eq {net : Feedforward α} {property : Property α} {r : NeuronRef} {bound : Bound α}
    (h : net.Limits property r bound) : r.layer = 0 ∨ r.layer = net.depth - 1 := by
  cases h with
  | low _ => exact .inl rfl
  | high _ => exact .inl rfl
  | output => exact .inr rfl

omit [Scalar α] in
/-- After the inputs, only the output of the property has a bound. -/
theorem Feedforward.Limits.eq_output {net : Feedforward α} {property : Property α} {r : NeuronRef} {bound : Bound α}
    (h : net.Limits property r bound) (hr : r.layer ≠ 0) :
    r = ⟨net.depth - 1, property.output⟩ ∧ bound = property.bound := by
  cases h with
  | low _ => exact absurd rfl hr
  | high _ => exact absurd rfl hr
  | output => exact ⟨rfl, rfl⟩

omit [Scalar α] in
/-- A neuron has one bound on each side. -/
theorem Feedforward.Limits.not_clash {net : Feedforward α} {property : Property α} (hdepth : 2 ≤ net.depth) {r : NeuronRef}
    {bound bound' : Bound α} (h : net.Limits property r bound) (h' : net.Limits property r bound') :
    ¬Query.Clash bound bound' := by
  have hzero : (0 : Nat) ≠ net.depth - 1 := by omega
  have hself : ¬Query.Clash property.bound property.bound := by
    unfold Property.bound
    cases property.goal <;> simp [Query.Clash]
  generalize hr : r = r' at h'
  cases h <;> cases h' <;> simp_all [Query.Clash]

/-- No bounds belong to an arnode of a hidden layer. -/
theorem Abstraction.sets_of_hidden {net : Feedforward α} {property : Property α} {a : Abstraction α} (hg : a.Grounded)
    (haligned : a.Aligned) {x : ArNodeId} {b : Body (ArNodeData α)} (hb : a.arnodes.body? x = some b)
    (hfirst : b.location.layer ≠ 0) (hlast : b.location.layer + 1 ≠ net.depth) : a.Sets (net.Limits property) x := by
  intro b' m c bound hb' hm hc hbound
  obtain rfl : b = b' := Option.some.inj (hb.symm.trans hb')
  obtain ⟨hl, _⟩ := hg.owned.place_of_mem hb (List.mem_of_mem_head? (by rw [hm]; rfl)) hc
  have horigin := haligned hc
  rcases hbound.layer_eq with hzero | hend
  · omega
  · omega

end Rules

namespace Network

/-- An abstraction without arnodes. -/
theorem arnodesSound_empty (roles : List LayerRole) (limit : Option Nat) (policy : Policy) :
    (Abstraction.empty roles limit policy : Abstraction α).ArnodesSound := by
  refine ⟨realizes_edge?_empty 4, housed_empty fun c hc => ?_⟩
  simp only [Abstraction.arnodeChains, Abstraction.empty, List.map_map, List.mem_map] at hc
  obtain ⟨role, _, rfl⟩ := hc
  rfl

/-- The network with one more bound in its query. -/
def bounded (n : Network α) (v : VarId) (bound : Bound α) : Network α :=
  { n with abstraction := { n.abstraction with
    encoding := { n.abstraction.encoding with query := n.abstraction.encoding.query.setBound v bound } } }

theorem meets_setBound {n : Network α} {v : VarId} {bound : Bound α} {post : Unit → Network α → Prop} {fail : Error → Network α → Prop} :
    (setBound v bound).Meets n post fail ↔ post () (n.bounded v bound) := Iff.rfl

variable [Scalar α]

/-- A network in order, taken up as `start`. -/
structure Orderly (net : Feedforward α) (property : Property α) (start n : Network α) : Prop where
  represents : n.abstraction.Represents net
  woven : Abstraction.Woven n.abstraction none
  ordered : n.frontier.Ordered net.depth
  staged : n.abstraction.Staged n.frontier net.depth
  property_eq : n.property = property
  inputs_eq : n.inputs = net.inputs
  concrete_eq : n.concrete = .ofNetwork net property
  history : Abstraction.Changes net.Regroupable (net.Limits property) (fun _ => True) start.abstraction n.abstraction
  traced : ∃ left, n.frontier.preprocess = Frontier.before? left ∧
    Abstraction.Traced start.abstraction left n.abstraction
  limited : 2 ≤ net.depth → ∀ x, Abstraction.Sets (net.Limits property) n.abstraction x

variable {net : Feedforward α} {property : Property α} {start n : Network α}

/-- What leaves the nodes alone leaves the trace of preprocessing alone. -/
theorem Orderly.traced_of_nodePart (h : Orderly net property start n) {a : Abstraction α}
    (hpart : a.nodePart = n.abstraction.nodePart) : ∃ left, n.frontier.preprocess = Frontier.before? left ∧
      Abstraction.Traced start.abstraction left a := by
  obtain ⟨left, hleft, htraced⟩ := h.traced
  exact ⟨left, hleft, htraced.of_nodePart hpart⟩

/-- Number of layers. -/
theorem Orderly.length_eq (h : Orderly net property start n) : n.abstraction.layers.length = net.depth := by
  have hlength := congrArg List.length h.represents.roles_eq
  simpa [Abstraction.roles] using hlength

theorem Orderly.exists_layer (h : Orderly net property start n) {l : Nat} (hl : l < net.depth) :
    ∃ layer, n.abstraction.layers[l]? = some layer :=
  ⟨_, List.getElem?_eq_getElem (by rw [h.length_eq]; exact hl)⟩

/-- What changes equations and the query only keeps a network in order. -/
theorem Orderly.refreshed (h : Orderly net property start n) {a : Abstraction α}
    (hr : Abstraction.Refreshed n.abstraction a)
    (hchange : Abstraction.Changes net.Regroupable (net.Limits property) (fun _ => True) n.abstraction a)
    (hbounds : ∀ {v bound}, n.abstraction.encoding.query.HasBound v bound → a.encoding.query.HasBound v bound) :
    Orderly net property start { n with abstraction := a } where
  represents := h.represents.of_nodePart hr.nodePart_eq
  woven := hr.woven h.woven
  ordered := h.ordered
  staged := h.staged.refreshed hr
  property_eq := h.property_eq
  inputs_eq := h.inputs_eq
  concrete_eq := h.concrete_eq
  history := Relation.ReflTransGen.trans h.history hchange
  traced := h.traced_of_nodePart hr.nodePart_eq
  limited := fun hdepth x => hr.recast.sets hbounds (h.limited hdepth x)

/-- A network that was just taken up is in order. -/
theorem build_orderly {options : Options} (h : build net property options = .ok start) :
    Orderly net property start start := by
  obtain ⟨hrep, hpart, hnodes⟩ := build_represents h
  obtain ⟨_, _, _, a, _, hstart⟩ := build_eq_ok h
  have harnodes : start.abstraction.arnodes = Arena.empty := congrArg (fun p => p.2.1) hpart
  have hencoding : start.abstraction.encoding = .empty options.variableLimit := congrArg (fun p => p.2.2.1) hpart
  have hnone : ∀ x, start.abstraction.arnodes.body? x = none := by
    intro x
    simp [harnodes, Graph.body?]
  have hfree : ∀ m, start.abstraction.holder? m = none := by
    intro m
    cases hm : start.abstraction.nodes.body? m with
    | none => rw [Abstraction.holder?, hm, Option.bind_none]
    | some b => rw [Abstraction.holder?, hm, Option.bind_some, (hnodes hm).2]
  have hgrounded : start.abstraction.Grounded := by
    refine ⟨hrep.sound, (arnodesSound_empty _ _ _).of_arnodePart hpart, ⟨?_, ?_, ?_, ?_, ?_⟩,
      ⟨hencoding ▸ IdPool.wellFormed_ofLimit? _, ?_, ?_, ?_⟩⟩
    all_goals simp [hnone, hfree]
  have hedge : ∀ x y, start.abstraction.arnodes.edge? x y = none := by
    intro x y
    simp [harnodes, Graph.edge?]
  have hfrontier : start.frontier = .start net.depth := by rw [hstart]
  have hlength : start.abstraction.layers.length = net.depth := by
    have hlength := congrArg List.length hrep.roles_eq
    simpa [Abstraction.roles] using hlength
  have hunprocessed : ∀ {m c}, start.abstraction.info? m = some c → c.place.category = .unprocessed := by
    intro m c hm
    obtain ⟨b, hb, rfl⟩ := Option.map_eq_some_iff.mp hm
    exact (hnodes hb).1
  refine ⟨hrep, ⟨hgrounded, fun x y => ?_⟩, ?_, ⟨fun {m c} hm hp => ?_, fun hm _ => hunprocessed hm,
    fun hm hc => absurd (hunprocessed hm) hc, by simp [hnone], by simp [hnone]⟩, by rw [hstart], by rw [hstart], by rw [hstart], .refl, ?_,
    fun _ x b _ _ _ hb => absurd hb (by simp [hnone])⟩
  · simp [hedge, Abstraction.isForward, hnone]
  · rw [hfrontier]
    exact Frontier.ordered_start net.depth
  · rw [hfrontier, Frontier.isPreprocessed, Frontier.start, Frontier.passed_before?, decide_eq_true_eq] at hp
    have hlt := hrep.faithful.layer_lt hm
    omega
  · rw [hfrontier]
    exact ⟨net.depth, rfl, .start rfl hlength⟩

section Bounds

/-- Between two networks only bounds of the abstract query have been set. -/
structure Bounded (net : Feedforward α) (property : Property α) (n n' : Network α) : Prop where
  rest_eq : n' = { n with abstraction := n'.abstraction }
  refreshed : Abstraction.Refreshed n.abstraction n'.abstraction
  changes : ∀ free ripe, Abstraction.Changes free (net.Limits property) ripe n.abstraction n'.abstraction
  sets : 2 ≤ net.depth → ∀ {x}, Abstraction.Sets (net.Limits property) n.abstraction x →
    Abstraction.Sets (net.Limits property) n'.abstraction x

theorem bounded_self (h : n.abstraction.ArnodesSound) : Bounded net property n n :=
  ⟨rfl, .refl h, fun _ _ => .refl, fun _ _ hsets => hsets⟩

theorem Bounded.trans {n' n'' : Network α} (h : Bounded net property n n') (h' : Bounded net property n' n'') :
    Bounded net property n n'' := by
  refine ⟨?_, h.refreshed.trans h'.refreshed,
    fun free ripe => Relation.ReflTransGen.trans (h.changes free ripe) (h'.changes free ripe),
    fun hdepth _ hsets => h'.sets hdepth (h.sets hdepth hsets)⟩
  rw [h'.rest_eq, h.rest_eq]

/-- Setting a bound that belongs to the neuron of an arnode's first node. -/
theorem bounded_bounded (hg : n.abstraction.Grounded) {id : ArNodeId} {b : Body (ArNodeData α)} {m : NodeId}
    {c : NodeInfo α} {bound : Bound α} (hb : n.abstraction.arnodes.body? id = some b)
    (hm : b.data.members.head? = some m) (hc : n.abstraction.info? m = some c) (hbound : net.Limits property c.origin bound) :
    Bounded net property n (n.bounded b.data.vars.incoming bound) := by
  refine ⟨rfl, .of_recode hg.arnodes _ rfl, fun _ _ => .single (.bound hb hm hc hbound rfl), fun hdepth x hsets => ?_⟩
  intro b' m' c' bound' hb' hm' hc' hbound'
  refine (hsets hb' hm' hc' hbound').setBound bound fun hvar => ?_
  -- No other arnode has the variable.
  obtain rfl : x = id := hg.vars.disjoint hb' hb (.inl rfl) (.inl hvar)
  obtain rfl : b = b' := Option.some.inj (hb.symm.trans hb')
  obtain rfl : m = m' := Option.some.inj (hm.symm.trans hm')
  obtain rfl : c = c' := Option.some.inj (hc.symm.trans hc')
  exact hbound'.not_clash hdepth hbound

omit [Scalar α] in
/-- An arnode's bounds are set once those of its first node are. -/
theorem sets_of_first {id : ArNodeId} {b : Body (ArNodeData α)} {m : NodeId} {c : NodeInfo α}
    (hb : n.abstraction.arnodes.body? id = some b) (hm : b.data.members.head? = some m)
    (hc : n.abstraction.info? m = some c)
    (hbounds : ∀ {bound}, net.Limits property c.origin bound →
      n.abstraction.encoding.query.HasBound b.data.vars.incoming bound) :
    Abstraction.Sets (net.Limits property) n.abstraction id := by
  intro b' m' c' bound hb' hm' hc' hbound
  obtain rfl : b = b' := Option.some.inj (hb.symm.trans hb')
  obtain rfl : m = m' := Option.some.inj (hm.symm.trans hm')
  obtain rfl : c = c' := Option.some.inj (hc.symm.trans hc')
  exact hbounds hbound

/-- The first node of an arnode gives the neuron that the bounds are chosen by. -/
theorem firstNeuron?_eq (hg : n.abstraction.Grounded) {id : ArNodeId} {v : ArNode α}
    (hv : n.abstraction.arnodes.get? id = some v) : ∃ m c, v.data.members.head? = some m ∧
      n.abstraction.info? m = some c ∧ c.place.layer = v.location.layer ∧ n.firstNeuron? v = .ok (some c.origin.index) := by
  have hb := Graph.body?_of_get? hv
  obtain ⟨m, rest, hmembers⟩ := List.exists_cons_of_ne_nil (hg.owned.ne_nil hb)
  rw [Vertex.body_data] at hmembers
  obtain ⟨c, hc, _, hlayer, _⟩ := hg.owned.member hb m (by simp [hmembers])
  obtain ⟨u, hu, rfl⟩ := Abstraction.get?_of_info? hc
  have hread : n.abstraction.node m = .ok u := Arena.get_of_get? hu
  refine ⟨m, u.body.info, by simp [hmembers], hc, hlayer, ?_⟩
  simp only [firstNeuron?, hmembers, hread]
  rfl

/-- A node of the first layer does not come from an input. -/
def Astray (net : Feedforward α) (a : Abstraction α) : Prop :=
  ∃ m c, a.info? m = some c ∧ c.place.layer = 0 ∧ net.inputs.length ≤ c.origin.index

theorem not_astray {a : Abstraction α} (h : a.Represents net) : ¬Astray net a := by
  rintro ⟨m, c, hc, hl, hle⟩
  have hlt := h.faithful.index_lt hc
  rw [hl] at hlt
  exact absurd hlt (Nat.not_lt.mpr hle)

/-- Bounding an arnode of the first layer. Only an arnode that does not come from an input is turned down. -/
theorem boundInput_meets (hg : n.abstraction.Grounded) (haligned : n.abstraction.Aligned) (hinputs : n.inputs = net.inputs)
    {id : ArNodeId} {b : Body (ArNodeData α)} (hb : n.abstraction.arnodes.body? id = some b) (hl : b.location.layer = 0) :
    (boundInput id).Meets n (fun _ n' => Bounded net property n n' ∧
        (2 ≤ net.depth → Abstraction.Sets (net.Limits property) n'.abstraction id))
      (fun _ n' => Astray net n.abstraction ∧ n' = n) := by
  obtain ⟨v, hv, rfl⟩ := Graph.body?_eq_some_iff.mp hb
  obtain ⟨m, c, hm, hc, hcl, hfirst⟩ := firstNeuron?_eq hg hv
  have horigin : c.origin = ⟨0, c.origin.index⟩ := by
    have hlayer : c.origin.layer = 0 := (haligned hc).trans (hcl.trans hl)
    rw [← hlayer]
  have hread : n.abstraction.arnode id = .ok v := Arena.get_of_get? hv
  unfold boundInput
  rw [Step.meets_bind, Step.meets_read, hread]
  dsimp only
  rw [Step.meets_bind, Step.meets_read, hfirst]
  dsimp only
  rw [Step.meets_bind, Step.meets_get]
  cases hrange : n.inputs[c.origin.index]? with
  | none =>
    rw [hinputs, List.getElem?_eq_none_iff] at hrange
    exact ⟨⟨m, c, hc, hcl.trans hl, hrange⟩, rfl⟩
  | some range =>
    rw [hinputs] at hrange
    dsimp only
    rw [Step.meets_bind, meets_setBound, meets_setBound]
    have hlow : net.Limits property c.origin (.lower range.low) := horigin ▸ .low hrange
    have hhigh : net.Limits property c.origin (.upper range.high) := horigin ▸ .high hrange
    have hfirst := bounded_bounded hg hb hm hc hlow
    refine ⟨hfirst.trans (bounded_bounded (hfirst.refreshed.recast.grounded hg) hb hm hc hhigh), fun hdepth =>
      sets_of_first hb hm hc fun {bound} hbound => ?_⟩
    generalize hr : c.origin = r at hbound
    rw [horigin] at hr
    cases hbound with
    | low h =>
      cases hr
      rw [hrange] at h
      cases h
      have hset := Query.hasBound_setBound_self n.abstraction.encoding.query v.data.vars.incoming (.lower range.low)
      exact hset.setBound (.upper range.high) fun _ hclash => hclash
    | high h =>
      cases hr
      rw [hrange] at h
      cases h
      exact Query.hasBound_setBound_self (n.abstraction.encoding.query.setBound v.data.vars.incoming (.lower range.low))
        v.data.vars.incoming (.upper range.high)
    | output =>
      have hzero : 0 = net.depth - 1 := congrArg NeuronRef.layer hr
      omega

theorem boundOutput_meets (hg : n.abstraction.Grounded) (haligned : n.abstraction.Aligned)
    (hproperty : n.property = property) {id : ArNodeId} {b : Body (ArNodeData α)}
    (hb : n.abstraction.arnodes.body? id = some b) (hl : b.location.layer + 1 = net.depth) :
    (boundOutput id).Meets n (fun _ n' => Bounded net property n n' ∧
        (2 ≤ net.depth → Abstraction.Sets (net.Limits property) n'.abstraction id)) Step.Never := by
  obtain ⟨v, hv, rfl⟩ := Graph.body?_eq_some_iff.mp hb
  obtain ⟨m, c, hm, hc, hcl, hfirst⟩ := firstNeuron?_eq hg hv
  have hread : n.abstraction.arnode id = .ok v := Arena.get_of_get? hv
  unfold boundOutput
  rw [Step.meets_bind, Step.meets_read, hread]
  dsimp only
  rw [Step.meets_bind, Step.meets_get, Step.meets_bind, Step.meets_read, hfirst]
  dsimp only
  have hlayer : c.origin.layer = net.depth - 1 := by
    rw [haligned hc, hcl]
    exact Nat.eq_sub_of_add_eq hl
  have houtput : ∀ {bound}, 2 ≤ net.depth → net.Limits property c.origin bound →
      c.origin.index = property.output ∧ bound = property.bound := by
    intro bound hdepth hbound
    obtain ⟨horigin, hb⟩ := hbound.eq_output (by omega)
    exact ⟨congrArg NeuronRef.index horigin, hb⟩
  rw [Step.meets_ite, hproperty]
  constructor
  · intro hindex
    have horigin : c.origin = ⟨net.depth - 1, property.output⟩ := by rw [← hlayer, ← hindex]
    have hbound : net.Limits property c.origin property.bound := horigin ▸ .output
    refine ⟨bounded_bounded hg hb hm hc hbound, fun hdepth => sets_of_first hb hm hc fun {bound} hbound => ?_⟩
    rw [(houtput hdepth hbound).2]
    exact Query.hasBound_setBound_self _ _ _
  · intro hindex
    refine ⟨bounded_self hg.arnodes, fun hdepth => sets_of_first hb hm hc fun {bound} hbound => ?_⟩
    exact absurd (houtput hdepth hbound).1 hindex

/-- Bounding the new arnodes of a boundary layer one by one. -/
theorem boundAll_meets (hg : n.abstraction.Grounded) (haligned : n.abstraction.Aligned) {l : Nat}
    {created : List ArNodeId} (hcreated : ∀ x ∈ created, ∃ b, n.abstraction.arnodes.body? x = some b ∧ b.location.layer = l)
    {op : ArNodeId → Step (Network α) Unit}
    (hop : ∀ {n' x b}, Bounded net property n n' → n'.abstraction.Grounded → n'.abstraction.Aligned →
      n'.abstraction.arnodes.body? x = some b → b.location.layer = l →
      (op x).Meets n' (fun _ n'' => Bounded net property n' n'' ∧
        (2 ≤ net.depth → Abstraction.Sets (net.Limits property) n''.abstraction x))
        (fun _ n'' => Astray net n'.abstraction ∧ n'' = n')) :
    (created.forM op).Meets n (fun _ n' => Bounded net property n n' ∧
        (2 ≤ net.depth → ∀ x ∈ created, Abstraction.Sets (net.Limits property) n'.abstraction x))
      (fun _ n' => Astray net n.abstraction ∧ Bounded net property n n') := by
  refine Step.Meets.forM (fun done n' => Bounded net property n n' ∧
    (2 ≤ net.depth → ∀ x ∈ done, Abstraction.Sets (net.Limits property) n'.abstraction x))
    ⟨bounded_self hg.arnodes, by simp⟩ ?_
  rintro done x rest n' hsplit ⟨hbounded, hsets⟩
  obtain ⟨b, hb, hl⟩ := hcreated x (by simp [hsplit])
  obtain ⟨b', hb', hlocation, _⟩ := hbounded.refreshed.recast.symm_body? hb
  have hg' := hbounded.refreshed.recast.grounded hg
  have haligned' : n'.abstraction.Aligned := by
    intro x c hc
    rw [Abstraction.info?_of_nodePart hbounded.refreshed.nodePart_eq] at hc
    exact haligned hc
  refine (hop hbounded hg' haligned' hb' (hlocation ▸ hl)).mono (fun _ n'' hnext => ⟨hbounded.trans hnext.1,
    fun hdepth y hy => ?_⟩) ?_
  · rcases List.mem_append.mp hy with hy | hy
    · exact hnext.1.sets hdepth (hsets hdepth y hy)
    · rw [List.mem_singleton.mp hy]
      exact hnext.2 hdepth
  rintro e n'' ⟨⟨m, c, hc, hastray⟩, rfl⟩
  exact ⟨⟨m, c, Abstraction.info?_of_nodePart hbounded.refreshed.nodePart_eq ▸ hc, hastray⟩, hbounded⟩

end Bounds

section Stages

/-- Preprocessing keeps what is classified already. -/
theorem persists_of_classified {a a' : Abstraction α} {l : Nat} {ids : List NodeId} {created : List ArNodeId}
    (hc : Abstraction.Classified net a a' l ids created) (hids : ∀ m, m ∈ ids ↔ ∃ c, a.info? m = some c ∧ c.place.layer = l)
    (hunprocessed : ∀ {m c}, a.info? m = some c → c.place.layer = l → c.place.category = .unprocessed) :
    Abstraction.Persists a a' := by
  have hnot : ∀ {m c}, a.info? m = some c → c.place.category ≠ .unprocessed → m ∉ ids := by
    intro m c hm hcemented hmem
    obtain ⟨c', hc', hl⟩ := (hids m).mp hmem
    rw [hm] at hc'
    cases hc'
    exact hcemented (hunprocessed hm hl)
  exact ⟨fun hm hcemented => (hc.old hm (hnot hm hcemented)).1,
    fun hx hxc hy hyc => hc.edge?_eq hx hy (hnot hx hxc) (hnot hy hyc)⟩

/-- Up to the layer that is next to be preprocessed, nodes are unprocessed and nobody holds them. -/
theorem Orderly.unprocessed (h : Orderly net property start n) {l : Nat} (hl : n.frontier.preprocess = some l) {m : NodeId}
    {c : NodeInfo α} (hm : n.abstraction.info? m = some c) (hml : c.place.layer ≤ l) :
    c.place.category = .unprocessed ∧ n.abstraction.holder? m = none := by
  have hpre : n.frontier.isPreprocessed c.place.layer = false := by
    rw [Frontier.isPreprocessed, hl, Frontier.passed_some, decide_eq_false_iff_not]
    omega
  exact ⟨h.staged.unprocessed hm hpre, h.staged.holder?_eq_none h.woven.grounded hm hpre⟩

/-- What preprocessing does to the abstraction of a network in order. -/
theorem Orderly.preprocess_meets (h : Orderly net property start n) {l : Nat} (hl : n.frontier.preprocess = some l) :
    (Abstraction.preprocess l).Meets n.abstraction (fun created a => ∃ ids,
        Abstraction.Classified net n.abstraction a l ids created ∧
          ∀ m, m ∈ ids ↔ ∃ c, n.abstraction.info? m = some c ∧ c.place.layer = l)
      (Abstraction.Starved n.abstraction) := by
  obtain ⟨layer, hlayer⟩ := h.exists_layer (h.ordered.preprocess_lt hl)
  refine Abstraction.preprocess_meets h.represents h.woven hlayer (fun hm hml => (h.unprocessed hl hm hml.le).1)
    (fun hm hml => (h.unprocessed hl hm hml).2) fun {m c} hm hml => h.staged.category_ne h.woven.grounded hm ?_
  rw [Frontier.isPreprocessed, hl, Frontier.passed_some, decide_eq_true_eq]
  omega

/-- Once a layer is classified, whatever bounds are set, moving the frontier on leaves the network in order. -/
theorem Orderly.preprocessed (h : Orderly net property start n) {l : Nat} (hl : n.frontier.preprocess = some l)
    {a₁ : Abstraction α} {ids : List NodeId} {created : List ArNodeId}
    (hstage : Abstraction.preprocess l n.abstraction = .ok created a₁)
    (hc : Abstraction.Classified net n.abstraction a₁ l ids created)
    (hids : ∀ m, m ∈ ids ↔ ∃ c, n.abstraction.info? m = some c ∧ c.place.layer = l) {n' : Network α}
    (hbounded : Bounded net property { n with abstraction := a₁ } n')
    (hsets : 2 ≤ net.depth → ∀ x ∈ created, Abstraction.Sets (net.Limits property) n'.abstraction x) :
    Orderly net property start { n' with frontier := { n'.frontier with preprocess := Frontier.before? l } } := by
  have hunprocessed : ∀ {m c}, n.abstraction.info? m = some c → c.place.layer = l → c.place.category = .unprocessed :=
    fun hm hml => (h.unprocessed hl hm hml.le).1
  rw [hbounded.rest_eq]
  have hr := hbounded.refreshed
  refine ⟨hc.represents.of_nodePart hr.nodePart_eq, hr.woven hc.woven, h.ordered.preprocess hl,
    (h.staged.classified h.ordered hl hc hids).refreshed hr, h.property_eq, h.inputs_eq, h.concrete_eq, ?_, ?_,
    fun hdepth x => ?_⟩
  · have hmoves : Abstraction.Moves net.Regroupable n.abstraction a₁ :=
      Relation.ReflTransGen.mono (fun _ _ hmove => hmove.mono fun _ hfalse => hfalse.elim) _ _ hc.moves
    exact Relation.ReflTransGen.trans h.history (Relation.ReflTransGen.trans hmoves.changes (hbounded.changes _ _))
  · obtain ⟨left, hleft, htraced⟩ := h.traced
    have hnext : left = l + 1 := by
      rw [hl] at hleft
      cases left with
      | zero => cases hleft
      | succ left => rw [Option.some.inj hleft]
    exact ⟨l, rfl, .next (hnext ▸ htraced) hstage (persists_of_classified hc hids hunprocessed) hr.nodePart_eq⟩
  · cases hx : a₁.arnodes.body? x with
    | none =>
      intro b' _ _ _ hb'
      obtain ⟨b, hb, _⟩ := hr.exists_body? hb'
      exact absurd hb (by simp [hx])
    | some b =>
      rcases hc.body?_cases hx with hold | ⟨hnew, _⟩
      · have hlasts := (Abstraction.Moves.lasts hc.moves h.woven.grounded hold fun hfalse => hfalse).2
        exact hbounded.sets hdepth (hlasts.sets (h.limited hdepth x))
      · exact hsets hdepth x hnew

/-- Preprocessing the next layer leads to a network in order, if there is room for it. -/
theorem Orderly.preprocessNext_meets (h : Orderly net property start n) :
    preprocessNext.Meets n (fun _ n' => Orderly net property start n')
      (fun e n' => Abstraction.Starved n.abstraction e n'.abstraction) := by
  unfold preprocessNext
  rw [Step.meets_bind, Step.meets_get]
  cases hl : n.frontier.preprocess with
  | none => exact h
  | some l =>
    dsimp only
    rw [Step.meets_bind, onAbstraction, Step.meets_zoom]
    refine (h.preprocess_meets hl).ok_eq.imp ?_
    rintro created a₁ ⟨hstage, ids, hc, hids⟩
    -- Which bounds are set depends on the layer; the rest of the stage is the same for all of them.
    have hdone : ∀ {n'}, Bounded net property { n with abstraction := a₁ } n' ∧
        (2 ≤ net.depth → ∀ x ∈ created, Abstraction.Sets (net.Limits property) n'.abstraction x) →
        (do moveFrontier fun f => { f with preprocess := Frontier.before? l }
            return some l : Step (Network α) (Option Nat)).Meets n' (fun _ n' => Orderly net property start n')
          (fun e n' => Abstraction.Starved n.abstraction e n'.abstraction) := by
      rintro n' ⟨hbounded, hsets⟩
      exact h.preprocessed hl hstage hc hids hbounded hsets
    have hg₁ := hc.woven.grounded
    have haligned : a₁.Aligned := fun _ _ hx => hc.represents.faithful.origin_layer hx
    have hlength : a₁.layers.length = net.depth := by
      have hlength := congrArg List.length hc.represents.roles_eq
      simpa [Abstraction.roles] using hlength
    rw [Step.meets_ite]
    constructor
    · rintro rfl
      rw [Step.meets_bind]
      refine (boundAll_meets hg₁ haligned hc.made fun {n' x b} hbounded hg haligned hb hbl => ?_).mono
        (fun _ n' => hdone) fun _ _ hfail => absurd hfail.1 (not_astray hc.represents)
      refine boundInput_meets hg haligned ?_ hb hbl
      rw [hbounded.rest_eq]
      exact h.inputs_eq
    · intro hne
      rw [Step.meets_bind, Step.meets_get, Step.meets_ite]
      constructor
      · intro hlast
        rw [Step.meets_bind]
        refine (boundAll_meets hg₁ haligned hc.made fun {n' x b} hbounded hg haligned hb hbl => ?_).mono
          (fun _ n' => hdone) fun _ _ hfail => absurd hfail.1 (not_astray hc.represents)
        refine (boundOutput_meets hg haligned ?_ hb ?_).mono (fun _ _ hb => hb) fun _ _ hfalse => hfalse.elim
        · rw [hbounded.rest_eq]
          exact h.property_eq
        · rw [hbl, ← hlength]
          exact hlast
      · intro hinner
        refine hdone ⟨bounded_self hg₁.arnodes, fun _ x hx => ?_⟩
        obtain ⟨b, hb, hbl⟩ := hc.made x hx
        refine Abstraction.sets_of_hidden hg₁ haligned hb (by omega) ?_
        rw [hbl, ← hlength]
        exact hinner

/-- Activating arnodes leaves their bounds set. -/
theorem Orderly.limited_of_progress (h : Orderly net property start n) {a : Abstraction α} {state : ActivationState}
    {done : List ArNodeId} (hp : Abstraction.Progress n.abstraction a state done) (hdepth : 2 ≤ net.depth) (x : ArNodeId) :
    Abstraction.Sets (net.Limits property) a x := by
  cases hx : n.abstraction.arnodes.body? x with
  | none =>
    intro b' _ _ _ hb'
    obtain ⟨b, hb, _⟩ := hp.recast.exists_body? hb'
    exact absurd hb (by simp [hx])
  | some b =>
    have hlasts := (Abstraction.Moves.lasts hp.moves h.woven.grounded hx fun hfalse => hfalse).2
    exact hlasts.sets (h.limited hdepth x)

/-- Moves that regroup no layer belong to the history of a network. -/
theorem Orderly.history_of_progress (h : Orderly net property start n) {a : Abstraction α} {state : ActivationState}
    {done : List ArNodeId} (hp : Abstraction.Progress n.abstraction a state done) :
    Abstraction.Changes net.Regroupable (net.Limits property) (fun _ => True) start.abstraction a := by
  have hmoves : Abstraction.Moves net.Regroupable n.abstraction a :=
    Relation.ReflTransGen.mono (fun _ _ hmove => hmove.mono fun _ hfalse => hfalse.elim) _ _ hp.moves
  exact Relation.ReflTransGen.trans h.history hmoves.changes

/-- What forward activation does to the abstraction of a network in order. -/
theorem Orderly.forwardActivateLayer_meets (h : Orderly net property start n) {l : Nat} (hl : n.frontier.forward = some l) :
    (Abstraction.forwardActivateLayer l).Meets n.abstraction (fun _ a => ∃ done,
        Abstraction.Progress n.abstraction a .forwardActivated done ∧
          ∀ x, x ∈ done ↔ ∃ b, n.abstraction.arnodes.body? x = some b ∧ b.location.layer = l) Step.Never := by
  obtain ⟨layer, hlayer⟩ := h.exists_layer (h.ordered.forward_lt hl)
  have hforward : ∀ m, n.frontier.isForwardActivated m = decide (l < m) :=
    fun m => by rw [Frontier.isForwardActivated, hl, Frontier.passed_some]
  refine Abstraction.forwardActivateLayer_meets h.woven hlayer (fun {x b} hb hbl => ?_) fun {m c} hm hml => ?_
  · rw [h.staged.forward hb, hforward, hbl]
    simp
  · refine h.staged.held hm (h.ordered.preprocessed (h.represents.faithful.layer_lt hm) ?_)
    rw [hforward, hml, decide_eq_true_eq]
    exact Nat.lt_succ_self l

/-- Forward activating the next layer leads to a network in order, or is turned down and changes nothing. -/
theorem Orderly.forwardNext_meets (h : Orderly net property start n) :
    forwardNext.Meets n (fun _ n' => Orderly net property start n')
      (fun e n' => n.frontier.canForward = false ∧ n' = n ∧ ∃ fault, e = .frontierViolation fault) := by
  unfold forwardNext
  rw [Step.meets_bind, Step.meets_get]
  dsimp only
  cases hl : n.frontier.forward with
  | none => exact h
  | some l =>
    dsimp only
    rw [Step.meets_ite]
    refine ⟨fun hready => ⟨by simpa [Frontier.canForward, hl] using hready, rfl, _, rfl⟩, fun hready => ?_⟩
    have hready : n.frontier.isPreprocessed l = true := by simpa using hready
    rw [Step.meets_bind, onAbstraction, Step.meets_zoom]
    refine (h.forwardActivateLayer_meets hl).mono ?_ fun _ _ hfalse => hfalse.elim
    rintro _ a ⟨done, hp, hdone⟩
    exact ⟨h.represents.of_nodePart hp.recast.nodePart_eq, hp.woven, h.ordered.forward hl hready,
      h.staged.forwarded h.ordered hl hp hdone, h.property_eq, h.inputs_eq, h.concrete_eq, h.history_of_progress hp,
      h.traced_of_nodePart hp.recast.nodePart_eq, h.limited_of_progress hp⟩

/-- What full activation does to the abstraction of a network in order. -/
theorem Orderly.confirmLayer_meets (h : Orderly net property start n) {l : Nat} (hl : n.frontier.full = some l)
    (hbefore : n.frontier.isForwardActivated (l - 1) = true) (check : Bool) :
    (Abstraction.confirmLayer l check).Meets n.abstraction (fun _ a => ∃ done,
        Abstraction.Progress n.abstraction a .fullyActivated done ∧
          ∀ x, x ∈ done ↔ ∃ b, n.abstraction.arnodes.body? x = some b ∧ b.location.layer = l) Step.Never := by
  have hforward : n.frontier.isForwardActivated l = true := Frontier.passed_mono hbefore (Nat.sub_le l 1)
  have hidle : n.frontier.isFullyActivated l = false := by
    simp [Frontier.isFullyActivated, hl, Frontier.passed_some]
  obtain ⟨layer, hlayer⟩ := h.exists_layer (h.ordered.full_lt hl)
  refine Abstraction.confirmLayer_meets h.woven hlayer (fun {x b} hb hbl => ?_) check
  have hstate := h.staged.forward hb
  have hnot : b.data.state ≠ .fullyActivated := by
    rw [ne_eq, h.staged.full hb, hbl, hidle]
    decide
  rw [hbl, hforward] at hstate
  cases hs : b.data.state with
  | notActivated =>
    rw [hs] at hstate
    cases hstate
  | forwardActivated => rfl
  | fullyActivated => exact absurd hs hnot

/-- Fully activating the next layer leads to a network in order, or is turned down and changes nothing. -/
theorem Orderly.fullNext_meets (h : Orderly net property start n) :
    fullNext.Meets n (fun _ n' => Orderly net property start n')
      (fun e n' => n.frontier.canFullyActivate = false ∧ n' = n ∧ ∃ fault, e = .frontierViolation fault) := by
  unfold fullNext
  rw [Step.meets_bind, Step.meets_get]
  dsimp only
  cases hl : n.frontier.full with
  | none => exact h
  | some l =>
    dsimp only
    rw [Step.meets_ite]
    refine ⟨fun hready => ⟨by simpa using hready, rfl, _, rfl⟩, fun hready => ?_⟩
    obtain ⟨hone, hbefore⟩ : 1 ≤ l ∧ n.frontier.isForwardActivated (l - 1) = true := by
      simpa [Frontier.canFullyActivate, hl, Nat.one_le_iff_ne_zero] using hready
    have hforward : n.frontier.isForwardActivated l = true := Frontier.passed_mono hbefore (Nat.sub_le l 1)
    rw [Step.meets_bind, Step.meets_get, Step.meets_bind, onAbstraction, Step.meets_zoom]
    refine (h.confirmLayer_meets hl hbefore n.checkActivation).mono ?_ fun _ _ hfalse => hfalse.elim
    rintro _ a ⟨done, hp, hdone⟩
    exact ⟨h.represents.of_nodePart hp.recast.nodePart_eq, hp.woven, h.ordered.full hl hbefore,
      h.staged.confirmed hone hl hforward hp hdone, h.property_eq, h.inputs_eq, h.concrete_eq, h.history_of_progress hp,
      h.traced_of_nodePart hp.recast.nodePart_eq, h.limited_of_progress hp⟩

/-- The step leads from a network in order to one in order, unless there is no room for it. -/
def StaysOrderly {β : Type} (net : Feedforward α) (property : Property α) (start : Network α) (step : Step (Network α) β) :
    Prop :=
  ∀ n, Orderly net property start n → step.Meets n (fun _ n' => Orderly net property start n')
    (fun e _ => e.IsExhausted)

theorem staysOrderly_advance : StaysOrderly net property start (advance : Step (Network α) Bool) := by
  intro n h
  unfold advance
  rw [Step.meets_bind, Step.meets_get]
  dsimp only
  rw [Step.meets_ite, Step.meets_ite, Step.meets_ite, Step.meets_ite]
  refine ⟨fun hfull => ?_, fun hfull => ⟨fun hforward => ?_, fun hforward => ⟨fun _ => ?_, fun hpre =>
    ⟨fun hstuck => ?_, fun _ => h⟩⟩⟩⟩
  · rw [Step.meets_bind, Step.meets_discard]
    exact h.fullNext_meets.mono (fun _ _ h' => h') fun _ _ h' => absurd hfull (by simp [h'.1])
  · rw [Step.meets_bind, Step.meets_discard]
    exact h.forwardNext_meets.mono (fun _ _ h' => h') fun _ _ h' => absurd hforward (by simp [h'.1])
  · rw [Step.meets_bind, Step.meets_discard]
    exact h.preprocessNext_meets.mono (fun _ _ h' => h') fun _ _ hstarved => hstarved.1
  · have hcomplete := h.ordered.isComplete_of_stuck (by simpa using hfull) (by simpa using hforward) (by simpa using hpre)
    exact absurd hstuck (by simp [hcomplete])

theorem staysOrderly_advanceUpTo (steps : Nat) :
    StaysOrderly net property start (advanceUpTo steps : Step (Network α) Unit) := by
  induction steps with
  | zero => exact fun _ h => h
  | succ steps ih =>
    intro n h
    rw [advanceUpTo, Step.meets_bind]
    refine (staysOrderly_advance n h).imp fun more n' h' => ?_
    rw [Step.meets_ite]
    exact ⟨fun _ => ih n' h', fun _ => h'⟩

end Stages

section Regrouping

/-- A layer that may be regrouped now is fully activated and lies between the boundary layers. -/
theorem regroupable_of_requireRefinable (hinputs : n.inputs = net.inputs)
    (hlength : n.abstraction.layers.length = net.depth) {l : Nat} (hl : n.requireRefinable l = .ok ()) :
    net.Regroupable l ∧ n.frontier.isFullyActivated l = true := by
  have hcontains : n.refinable.contains l = true := by
    by_contra hnot
    rw [requireRefinable, if_neg hnot] at hl
    cases hl
  have hfloor : (if n.hasSignedInputs then 2 else 1) = net.floor := by
    rw [hasSignedInputs, hinputs]
    rfl
  simp only [LayerRange.contains, refinable, decide_eq_true_eq, hlength, hfloor] at hcontains
  have hpos := net.floor_pos
  cases hfull : n.frontier.full with
  | none =>
    rw [hfull] at hcontains
    have hfirst : net.floor ≤ l := by
      refine le_trans ?_ hcontains.1
      dsimp only
      split <;> omega
    refine ⟨⟨hfirst, by omega⟩, ?_⟩
    simp [Frontier.isFullyActivated, hfull, Frontier.passed, hpos.trans hfirst]
  | some next =>
    rw [hfull] at hcontains
    have hfirst : net.floor ≤ l ∧ next + 1 ≤ l := by
      refine ⟨le_trans ?_ hcontains.1, le_trans ?_ hcontains.1⟩ <;> dsimp only <;> split <;> omega
    refine ⟨⟨hfirst.1, by omega⟩, ?_⟩
    simp [Frontier.isFullyActivated, hfull, Frontier.passed_some, hpos.trans hfirst.1, Nat.lt_of_succ_le hfirst.2]

theorem Orderly.of_requireRefinable (h : Orderly net property start n) {l : Nat} (hl : n.requireRefinable l = .ok ()) :
    net.Regroupable l ∧ n.frontier.isFullyActivated l = true :=
  regroupable_of_requireRefinable h.inputs_eq h.length_eq hl

theorem Orderly.framed (h : Orderly net property start n) {l : Nat} (hl : n.requireRefinable l = .ok ()) :
    Abstraction.Framed n.abstraction l := by
  obtain ⟨hregroup, hfull⟩ := h.of_requireRefinable hl
  exact h.staged.framed h.ordered h.woven.grounded (Nat.lt_of_succ_lt hregroup.2) hfull h.represents.faithful.layer_lt

/-- Regrouping a layer that may be regrouped keeps a network in order. -/
theorem Orderly.regrouped (h : Orderly net property start n) {l : Nat} (hl : n.requireRefinable l = .ok ())
    {a : Abstraction α} (hr : Abstraction.Regrouped n.abstraction a l) :
    Orderly net property start { n with abstraction := a } := by
  obtain ⟨hregroup, hfull⟩ := h.of_requireRefinable hl
  refine ⟨h.represents.of_nodePart hr.nodePart_eq, hr.woven, h.ordered,
    h.staged.regrouped h.ordered (Nat.lt_of_succ_lt hregroup.2) hfull hr, h.property_eq, h.inputs_eq,
    h.concrete_eq, ?_, h.traced_of_nodePart hr.nodePart_eq, fun hdepth x => ?_⟩
  · have hmoves : Abstraction.Moves net.Regroupable n.abstraction a :=
      Relation.ReflTransGen.mono (fun _ _ hmove => hmove.mono fun m hm => hm ▸ hregroup) _ _ hr.moves
    exact Relation.ReflTransGen.trans h.history hmoves.changes
  · have hg := hr.woven.grounded
    have haligned : a.Aligned := fun _ _ hx =>
      (h.represents.of_nodePart hr.nodePart_eq).faithful.origin_layer hx
    cases hx : a.arnodes.body? x with
    | none => exact fun b' _ _ _ hb' => absurd hb' (by simp [hx])
    | some b =>
      by_cases hbl : b.location.layer = l
      · have hpos := net.floor_pos
        have hlow := hregroup.1
        have hhigh := hregroup.2
        exact Abstraction.sets_of_hidden hg haligned hx (by omega) (by omega)
      · have hold := (hr.body?_cases hx).resolve_right fun hnew => hbl hnew.1
        exact (Abstraction.Moves.lasts hr.moves h.woven.grounded hold hbl).2.sets (h.limited hdepth x)

/-- Merging leads to a network in order, or is refused and changes nothing. -/
theorem Orderly.merge_meets (h : Orderly net property start n) (l : Nat) (first second : ArNodeId) :
    (merge l first second).Meets n (fun id n' => n.requireRefinable l = .ok () ∧ Orderly net property start n' ∧
        n' = { n with abstraction := n'.abstraction } ∧ ∃ b₁ b₂ b,
        Abstraction.MergedInto n.abstraction n'.abstraction l first second id b₁ b₂ b) (fun _ n' => n' = n) := by
  unfold merge
  rw [Step.meets_bind, Step.meets_read]
  cases hl : n.requireRefinable l with
  | error e => rfl
  | ok _ =>
    dsimp only
    rw [onAbstraction, Step.meets_zoom]
    refine (Abstraction.merge_meets h.woven (h.framed hl) first second).mono ?_ ?_
    · rintro id a ⟨hr, hmerged⟩
      exact ⟨rfl, h.regrouped hl hr, rfl, hmerged⟩
    · rintro _ a rfl
      rfl

/-- Splitting leads to a network in order, or is refused and changes nothing. -/
theorem Orderly.split_meets (h : Orderly net property start n) (l : Nat) (id : ArNodeId) (cells : List (List NodeId)) :
    (split l id cells).Meets n (fun parts n' => Orderly net property start n' ∧
        Abstraction.SplitInto n.abstraction n'.abstraction id cells parts) (fun _ n' => n' = n) := by
  unfold split
  rw [Step.meets_bind, Step.meets_read]
  cases hl : n.requireRefinable l with
  | error e => rfl
  | ok _ =>
    dsimp only
    rw [onAbstraction, Step.meets_zoom]
    refine (Abstraction.split_meets h.woven (h.framed hl) id cells).mono ?_ ?_
    · rintro parts a ⟨hr, hsplit⟩
      exact ⟨h.regrouped hl hr, hsplit⟩
    · rintro _ a rfl
      rfl

end Regrouping

section Queries

/-- The abstract query can always be given. -/
theorem abstractQuery_meets (hsound : n.abstraction.ArnodesSound) :
    abstractQuery.Meets n (fun q n' => ∃ rebuilt a, Abstraction.refreshEquations n.abstraction = .ok rebuilt a ∧
        Abstraction.Refreshed n.abstraction n'.abstraction ∧
        n' = { n with abstraction := { a with encoding := a.encoding.prepare } } ∧
        q = a.encoding.prepare.query) Step.Never := by
  unfold abstractQuery
  rw [Step.meets_bind, Step.meets_discard, onAbstraction, Step.meets_zoom]
  refine (Abstraction.refreshEquations_meets hsound).ok_eq.imp ?_
  rintro rebuilt a ⟨hrefresh, hr⟩
  have hprepare : Abstraction.Refreshed a { a with encoding := a.encoding.prepare } := .of_recode hr.sound _ rfl
  exact ⟨rebuilt, a, hrefresh, hr.trans hprepare, rfl, rfl⟩

/-- Giving the abstract query keeps a network in order. -/
theorem Orderly.abstractQuery_meets (h : Orderly net property start n) :
    abstractQuery.Meets n (fun q n' => Orderly net property start n' ∧ ∃ rebuilt a,
        Abstraction.refreshEquations n.abstraction = .ok rebuilt a ∧
        n' = { n with abstraction := { a with encoding := a.encoding.prepare } } ∧
        q = a.encoding.prepare.query) Step.Never := by
  refine (Network.abstractQuery_meets h.woven.grounded.arnodes).imp ?_
  rintro q n' ⟨rebuilt, a, hrefresh, hr, rfl, rfl⟩
  refine ⟨h.refreshed hr (.tail (.single (.refresh trivial hrefresh)) (.prepare rfl)) fun {v bound} hbound => ?_, rebuilt, a,
    hrefresh, rfl, rfl⟩
  have hkept := (Abstraction.preserves_hasBound_refreshEquations v bound n.abstraction).of_ok hrefresh hbound
  cases bound <;> exact hkept

/-- Counting calls keeps a network in order. -/
theorem Orderly.countCall (h : Orderly net property start n) (event : Event) :
    Step.Meets (Network.countCall event) n (fun _ n' => Orderly net property start n') Step.Never := by
  refine ⟨⟨?_, h.represents.faithful, h.represents.roles_eq⟩, h.woven.recount _, h.ordered, ?_, h.property_eq, h.inputs_eq,
    h.concrete_eq, .tail h.history (.move (.recount _ rfl)), h.traced_of_nodePart rfl, h.limited⟩
  · exact h.represents.sound.of_nodePart rfl
  · exact h.staged.of_nodePart rfl rfl (fun _ => Iff.rfl) h.staged.forward h.staged.full

/-- Verification keeps a network in order, whatever the solver does. -/
theorem verify_orderly {σ : Type} {s : Session σ α} (h : Orderly net property start s.network) (solver : Solver σ α)
    (options : SolveOptions) :
    (Session.verify solver options).Meets s (fun _ s' => Orderly net property start s'.network)
      (fun _ s' => Orderly net property start s'.network) := by
  have hquery : Step.Preserves (Orderly net property start) (abstractQuery : Step (Network α) (Query α)) :=
    Step.within_of_meets fun hn => hn.abstractQuery_meets.mono (fun _ _ hn' => hn'.1) fun _ _ hfalse => hfalse.elim
  have hcount : ∀ event, Step.Preserves (Orderly net property start) (Network.countCall event : Step (Network α) Unit) :=
    fun event => Step.within_of_meets fun hn => (hn.countCall event).mono (fun _ _ hn' => hn') fun _ _ hfalse => hfalse.elim
  exact (within_verify hquery hcount solver options s).mono (fun _ _ h' => h' h) fun _ _ h' => h' h

end Queries

/-- Every call leads from a network in order to one in order, unless it is a stage that there is no room for. -/
theorem Orderly.run_meets (h : Orderly net property start n) (c : Call α) :
    c.run.Meets n (fun _ n' => Orderly net property start n')
      (fun e n' => c.isStage = true ∧ e.IsExhausted ∨ Orderly net property start n') := by
  cases c with
  | preprocess =>
    rw [Call.run, Step.meets_discard]
    exact h.preprocessNext_meets.mono (fun _ _ h' => h') fun _ _ hstarved => .inl ⟨rfl, hstarved.1⟩
  | forward =>
    rw [Call.run, Step.meets_discard]
    exact h.forwardNext_meets.mono (fun _ _ h' => h') fun _ _ h' => .inr (h'.2.1 ▸ h)
  | full =>
    rw [Call.run, Step.meets_discard]
    exact h.fullNext_meets.mono (fun _ _ h' => h') fun _ _ h' => .inr (h'.2.1 ▸ h)
  | advance =>
    rw [Call.run, Step.meets_discard]
    exact (staysOrderly_advance n h).mono (fun _ _ h' => h') fun _ _ hfull => .inl ⟨rfl, hfull⟩
  | complete =>
    rw [Call.run, Network.complete, Step.meets_bind, Step.meets_get]
    exact (staysOrderly_advanceUpTo _ n h).mono (fun _ _ h' => h') fun _ _ hfull => .inl ⟨rfl, hfull⟩
  | merge l first second =>
    rw [Call.run, Step.meets_discard]
    exact (h.merge_meets l first second).mono (fun _ _ h' => h'.2.1) fun _ _ h' => .inr (h' ▸ h)
  | split l id cells =>
    rw [Call.run, Step.meets_discard]
    exact (h.split_meets l id cells).mono (fun _ _ h' => h'.1) fun _ _ h' => .inr (h' ▸ h)
  | abstractQuery =>
    rw [Call.run, Step.meets_discard]
    exact h.abstractQuery_meets.mono (fun _ _ h' => h'.1) fun _ _ hfalse => hfalse.elim
  | verify solver options state =>
    refine Call.meets_verify ?_
    exact (verify_orderly h solver options).mono (fun _ _ h' => h') fun _ _ h' => .inr h'

/-- A call keeps a network in order, unless it is a stage that runs out of room. -/
theorem Orderly.after (h : Orderly net property start n) {c : Call α}
    (hroom : c.isStage = true → ∀ {e n'}, c.run n = .error e n' → ¬e.IsExhausted) :
    Orderly net property start (c.after n) := by
  have hmeets := h.run_meets c
  unfold Call.after Step.outcome
  cases hrun : c.run n with
  | ok b n' => exact hmeets.of_ok hrun
  | error e n' =>
    rcases hmeets.of_error hrun with ⟨hstage, hfull⟩ | h'
    · exact absurd hfull (hroom hstage hrun)
    · exact h'

/-- Networks reached by calls whose stages are in turn are in order. -/
theorem ReachesInOrder.orderly {options : Options} (hbuild : build net property options = .ok start)
    (h : ReachesInOrder start n) : Orderly net property start n := by
  induction h with
  | refl => exact build_orderly hbuild
  | @step n _ c hturn ih =>
    refine ih.after fun hstage {e n'} hrun => ?_
    have hturn := hturn hstage
    rw [Call.InTurn, hrun] at hturn
    obtain ⟨fault, rfl⟩ := hturn
    rintro ⟨limit, hlimit⟩
    cases hlimit

end Network

end ReluAbstraction
