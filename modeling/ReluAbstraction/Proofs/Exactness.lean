import ReluAbstraction.Proofs.Solutions

/-!
# Fully refined abstractions

In a complete abstraction whose arnodes hold one node each, an arnode computes the value of its neuron. If every neuron is
fed, the abstract query has a solution with given inputs if and only if they are admissible and reach the region.
-/

namespace ReluAbstraction

/-- Every neuron that is not an input has a weight other than zero. -/
def Feedforward.Fed (net : Feedforward Rat) : Prop :=
  ∀ l < net.depth, ∀ j < net.width l, 1 ≤ l → ∃ i < net.width (l - 1), net.weight l j i ≠ 0

namespace Abstraction

variable {net : Feedforward Rat} {property : Property Rat} {a : Abstraction Rat} {inputs : List Rat}

/-- Every arnode holds one node. -/
def Single (a : Abstraction Rat) : Prop := ∀ ⦃x b⦄, a.arnodes.body? x = some b → b.data.members.length = 1

theorem Recast.single {a' : Abstraction Rat} (h : Recast a a') (hsingle : a.Single) : a'.Single := by
  intro x b' hb'
  obtain ⟨b, hb, _, hmembers, _⟩ := h.exists_body? hb'
  rw [← hmembers]
  exact hsingle hb

/-- Looking through all arnodes tells whether each holds one node. -/
theorem single_of_all (h : (a.arnodes.toList.all fun v => v.2.data.members.length == 1) = true) : a.Single := by
  intro x b hb
  obtain ⟨v, hv, rfl⟩ := Graph.body?_eq_some_iff.mp hb
  have hmem := List.all_eq_true.mp h (x, v) (Arena.mem_toList_iff.mpr hv)
  exact beq_iff_eq.mp hmem

/-- Neuron of the first node of an arnode. -/
def originOf (a : Abstraction Rat) (x : ArNodeId) : NeuronRef :=
  ((((a.arnodes.body? x).bind fun b => b.data.members.head?).bind a.info?).map fun c => c.origin).getD ⟨0, 0⟩

theorem originOf_of_head? {x : ArNodeId} {b : Body (ArNodeData Rat)} {m : NodeId} {c : NodeInfo Rat}
    (hb : a.arnodes.body? x = some b) (hm : b.data.members.head? = some m) (hc : a.info? m = some c) :
    a.originOf x = c.origin := by simp [originOf, hb, hm, hc]

/-- An arnode lies in the layer of its neuron. -/
theorem originOf_layer (hg : a.Grounded) (haligned : a.Aligned) {x : ArNodeId} {b : Body (ArNodeData Rat)}
    (hb : a.arnodes.body? x = some b) : (a.originOf x).layer = b.location.layer := by
  obtain ⟨m, rest, hm⟩ := List.exists_cons_of_ne_nil (hg.owned.ne_nil hb)
  obtain ⟨c, hc, _, hlayer, _⟩ := hg.owned.member hb m (by simp [hm])
  rw [originOf_of_head? hb (by simp [hm]) hc]
  exact (haligned hc).trans hlayer

/-- The one node of an arnode. -/
theorem Single.exists_member (h : a.Single) (hg : a.Grounded) (haligned : a.Aligned) {x : ArNodeId}
    {b : Body (ArNodeData Rat)} (hb : a.arnodes.body? x = some b) : ∃ m c, b.data.members = [m] ∧ a.info? m = some c ∧
      c.origin.layer = b.location.layer ∧ c.place.layer = b.location.layer ∧ a.originOf x = c.origin := by
  obtain ⟨m, hm⟩ := List.length_eq_one_iff.mp (h hb)
  obtain ⟨c, hc, _, hlayer, _⟩ := hg.owned.member hb m (by simp [hm])
  exact ⟨m, c, hm, hc, (haligned hc).trans hlayer, hlayer, originOf_of_head? hb (by simp [hm]) hc⟩

/-- Between arnodes with one node each, the fold is the edge of the nodes. -/
theorem folded?_singleton {x y : ArNodeId} {b c : Body (ArNodeData Rat)} {m t : NodeId} (hb : a.arnodes.body? x = some b)
    (hc : a.arnodes.body? y = some c) (hm : b.data.members = [m]) (ht : c.data.members = [t]) :
    a.folded? x y = a.nodes.edge? m t := by
  rw [folded?_of_body? hb hc, hm, ht]
  cases hedge : a.nodes.edge? m t with
  | none => simp [touches, hedge]
  | some w => simp [touches, hedge, Policy.fold, Reduction.reduce?_singleton]

namespace Finished

variable (h : Finished net a) (hsingle : a.Single)

include h hsingle

/-- From the values of the neurons before, an arnode computes the value of its own neuron. -/
theorem inflow_eq {fired : ArNodeId → Rat} {y : ArNodeId} {b : Body (ArNodeData Rat)} {l : Nat}
    (hb : a.arnodes.body? y = some b) (hl : b.location.layer = l + 1)
    (hfired : ∀ {s w}, a.arnodes.edge? s y = some w → fired s = net.valueAt inputs l (a.originOf s).index) :
    a.inflow fired y = net.rawAt inputs (l + 1) (a.originOf y).index := by
  have haligned : a.Aligned := fun _ _ hx => h.represents.faithful.origin_layer hx
  obtain ⟨t, c, ht, hc, _, hlayer, horigin⟩ := hsingle.exists_member h.grounded haligned hb
  rw [horigin, h.rawAt_eq hb (by simp [ht]) hc hl, inflow]
  congr 1
  · refine congrArg List.sum (List.map_congr_left fun s hs => ?_)
    obtain ⟨w, hw⟩ := h.grounded.arnodes.mem_sourcesOf_iff.mp hs
    obtain ⟨bs, _, hbs, _⟩ := h.grounded.arnodes.live_of_edge hw
    obtain ⟨m, d, hm, hd, _, _, hsource⟩ := hsingle.exists_member h.grounded haligned hbs
    rw [hfired hw, h.edge?_eq, folded?_singleton hbs hb hm ht, membersOf_of_body? hbs, hm, hsource]
    simp [neuronOf_of_info? hd]
  · have hbias := h.grounded.owned.bias_eq hb
    rw [ht, List.map_singleton, Reduction.reduce?_singleton, Option.some.injEq] at hbias
    have hnode : a.biasOf t = net.bias (l + 1) c.origin.index := by
      rw [biasOf, hc, Option.map_some, Option.getD_some, h.represents.faithful.bias_eq hc, hlayer, hl]
    rw [← hnode, hbias]
    simp [biasAt, hb]

/-- If all neurons meet their bounds, their values are admitted by the query. -/
theorem settles_values (hbounds : net.WithinLimits property inputs) :
    a.Settles net property (fun x => net.rawAt inputs (a.originOf x).layer (a.originOf x).index)
      (fun x => net.valueAt inputs (a.originOf x).layer (a.originOf x).index) := by
  have haligned : a.Aligned := fun _ _ hx => h.represents.faithful.origin_layer hx
  have hlayer : ∀ {x b}, a.arnodes.body? x = some b → (a.originOf x).layer = b.location.layer :=
    fun hb => originOf_layer h.grounded haligned hb
  refine ⟨fun {x b} hb hne => ?_, fun {x b} hb => ?_, fun {x b m c bound} hb hm hc hlimits => ?_⟩
  · obtain ⟨s, hs⟩ := List.exists_mem_of_ne_nil _ hne
    obtain ⟨w, hw⟩ := h.grounded.arnodes.mem_sourcesOf_iff.mp hs
    obtain ⟨bs, b', hbs, hb', hnext⟩ := h.grounded.arnodes.live_of_edge hw
    obtain rfl : b = b' := Option.some.inj (hb.symm.trans hb')
    rw [hlayer hb, hnext]
    refine (h.inflow_eq hsingle hb hnext fun {s w} hw => ?_).symm
    obtain ⟨bs', b', hbs', hb', hnext'⟩ := h.grounded.arnodes.live_of_edge hw
    obtain rfl : b = b' := Option.some.inj (hb.symm.trans hb')
    rw [hlayer hbs', Nat.succ_injective (hnext'.symm.trans hnext)]
  · rw [Feedforward.valueAt_eq, hlayer hb]
  · rw [originOf_of_head? hb hm hc]
    exact hbounds hlimits

/-- If every neuron is fed, values that the query admits are those of the neurons. -/
theorem raw_eq (hfed : net.Fed) {raw fired : ArNodeId → Rat} (hs : a.Settles net property raw fired)
    (hinputs : ∀ {x b}, a.arnodes.body? x = some b → b.location.layer = 0 → raw x = net.rawAt inputs 0 (a.originOf x).index)
    {x : ArNodeId} {b : Body (ArNodeData Rat)} (hb : a.arnodes.body? x = some b) :
    raw x = net.rawAt inputs b.location.layer (a.originOf x).index := by
  have haligned : a.Aligned := fun _ _ hx => h.represents.faithful.origin_layer hx
  -- Layer by layer: the values of the sources are known.
  generalize hl : b.location.layer = l
  induction l generalizing x b with
  | zero => exact hinputs hb hl
  | succ l ih =>
    obtain ⟨t, c, ht, hc, _, hlayer, horigin⟩ := hsingle.exists_member h.grounded haligned hb
    have hf := h.represents.faithful
    have hplace : c.place.layer = l + 1 := hlayer.trans hl
    have hne : a.sourcesOf x ≠ [] := by
      obtain ⟨i, hi, hweight⟩ := hfed (l + 1) (hplace ▸ hf.layer_lt hc) c.origin.index (hplace ▸ hf.index_lt hc) (by omega)
      obtain ⟨m, _, w, _, _, hw⟩ := hf.exists_source hc hplace hi (decide_eq_false hweight)
      obtain ⟨s, hs, _⟩ := List.mem_flatMap.mp (h.mem_feeders hb (by simp [ht]) hw)
      exact List.ne_nil_of_mem hs
    rw [hs.inflow hb hne]
    refine h.inflow_eq hsingle hb hl fun {s w} hw => ?_
    obtain ⟨bs, b', hbs, hb', hnext⟩ := h.grounded.arnodes.live_of_edge hw
    obtain rfl : b = b' := Option.some.inj (hb.symm.trans hb')
    have hbelow : bs.location.layer = l := Nat.succ_injective (hnext.symm.trans hl)
    rw [hs.rectified hbs, hbelow, ih hbs hbelow, Feedforward.valueAt_eq]

/-- Values of neurons that the query admits meet all bounds. -/
theorem withinLimits_of_settles (hwidth : property.output < net.width (net.depth - 1)) {raw fired : ArNodeId → Rat}
    (hs : a.Settles net property raw fired)
    (hraw : ∀ {x b}, a.arnodes.body? x = some b → raw x = net.rawAt inputs b.location.layer (a.originOf x).index) :
    net.WithinLimits property inputs := by
  intro r bound hlimits
  have hdepth : 0 < net.depth := Nat.succ_pos _
  have hr : r.layer < net.depth ∧ r.index < net.width r.layer := by
    cases hlimits with
    | low hi => exact ⟨hdepth, (List.getElem?_eq_some_iff.mp hi).1⟩
    | high hi => exact ⟨hdepth, (List.getElem?_eq_some_iff.mp hi).1⟩
    | output => exact ⟨Nat.sub_lt hdepth Nat.one_pos, hwidth⟩
  -- Some arnode stands for the neuron.
  obtain ⟨m, c, hc, hlayer, hindex⟩ := h.represents.faithful.exists_node hr.1 hr.2
  obtain ⟨x, hx⟩ := Option.isSome_iff_exists.mp (h.held hc)
  obtain ⟨b, hb, hmem⟩ := h.grounded.owned.holder hx
  have haligned : a.Aligned := fun _ _ hx => h.represents.faithful.origin_layer hx
  obtain ⟨m', c', hm', hc', hl, _, horigin⟩ := hsingle.exists_member h.grounded haligned hb
  rw [hm', List.mem_singleton] at hmem
  subst hmem
  obtain rfl : c = c' := Option.some.inj (hc.symm.trans hc')
  have heq : c.origin = r := by
    have hsame : c.origin.layer = r.layer := (h.represents.faithful.origin_layer hc).trans hlayer
    cases r
    cases hc'' : c.origin
    simp_all
  have hadmits := hs.bounds hb (by simp [hm']) hc (heq.symm ▸ hlimits)
  rw [hraw hb, horigin, heq, ← hl, heq] at hadmits
  exact hadmits

end Finished

end Abstraction

namespace Network

variable {net : Feedforward Rat} {property : Property Rat} {options : Options} {start n : Network Rat}

/-- With one node for each arnode, the query has solutions for the inputs that are admissible and reach the region. -/
theorem Posed.exact {q : Query Rat} {a : Abstraction Rat} (h : Posed net property n q a) (hsingle : a.Single)
    (hnet : net.Shaped) (hfed : net.Fed) (hlayers : net.layers ≠ [])
    (houtput : property.output < net.width net.layers.length) {inputs : List Rat}
    (hlength : inputs.length = net.inputs.length) :
    (∃ values, q.isSatisfiedBy values .exact = true ∧ a.Feeds values inputs) ↔
      net.Admits inputs ∧ net.Attains property inputs := by
  have hf := h.finished.represents.faithful
  have haligned : a.Aligned := fun _ _ hx => hf.origin_layer hx
  rw [Feedforward.admits_and_attains_iff hnet hlayers houtput hlength]
  constructor
  · rintro ⟨values, hvalues, hfeeds⟩
    obtain ⟨raw, fired, hs, hraw⟩ := h.settles hvalues
    refine h.finished.withinLimits_of_settles hsingle houtput hs (h.finished.raw_eq hsingle hfed hs fun {x b} hb hl => ?_)
    obtain ⟨m, c, hm, hc, _, _, horigin⟩ := hsingle.exists_member h.finished.grounded haligned hb
    have hinput := hfeeds hb hl (by simp [hm]) hc
    rw [hraw hb, horigin, Feedforward.rawAt, hinput, Option.getD_some]
  · intro hbounds
    obtain ⟨values, hvalues, hvalue⟩ := h.exists_solution (h.finished.settles_values hsingle hbounds)
    refine ⟨values, hvalues, ?_⟩
    intro x b m c hb hl hm hc
    obtain ⟨m', c', hm', hc', horigin, hlayer, hfirst⟩ := hsingle.exists_member h.finished.grounded haligned hb
    rw [hm', List.mem_singleton] at hm
    subst hm
    obtain rfl : c = c' := Option.some.inj (hc.symm.trans hc')
    have hlt : c.origin.index < inputs.length := by
      rw [hlength]
      have hindex := hf.index_lt hc
      rw [hlayer, hl] at hindex
      exact hindex
    rw [hvalue hb, hfirst, horigin, hl, Feedforward.rawAt, List.getElem?_eq_getElem hlt, Option.getD_some]

/-- In a network all of whose neurons are fed, a complete abstraction whose arnodes hold one node each is exact: for any
inputs, the abstract query has a solution that gives them to the input layer if and only if they are admissible and reach
the region of the property. -/
theorem abstractQuery_exact_of_single (hvalid : net.validate = .ok ()) (hfed : net.Fed)
    (hbuild : build net property options = .ok start) (hreach : ReachesInOrder start n)
    (hcomplete : n.frontier.isComplete = true) (hsingle : n.abstraction.Single) :
    ∃ q n', abstractQuery n = .ok q n' ∧ ∀ inputs : List Rat, inputs.length = net.inputs.length →
      ((∃ values, q.isSatisfiedBy values .exact = true ∧ n.abstraction.Feeds values inputs) ↔
        net.Admits inputs ∧ net.Attains property inputs) := by
  obtain ⟨q, n', hok, hposed, _⟩ := (hreach.abstractQuery_posed hbuild hcomplete).exists_ok
  obtain ⟨hdepth, houtput, _⟩ := build_eq_ok hbuild
  refine ⟨q, n', hok, fun inputs hlength => ?_⟩
  simp only [← hposed.recast.feeds_iff]
  exact hposed.exact (hposed.recast.single hsingle) (Feedforward.shaped_of_validate hvalid) hfed
    (Feedforward.layers_ne_nil hdepth) houtput hlength

/-- In the forked network, completed and with one node for each arnode, the inputs one and one solve the query. -/
theorem abstractQuery_exact_of_single_fork : ∃ start n, build .fork ⟨.maximize, 0, 1⟩ .standard = .ok start ∧
    ReachesInOrder start n ∧ n.frontier.isComplete = true ∧ n.abstraction.Single ∧ Feedforward.fork.Fed ∧
    ∃ q n' values, abstractQuery n = .ok q n' ∧ q.isSatisfiedBy values .exact = true ∧ n.abstraction.Feeds values [1, 1] := by
  have hfed : Feedforward.fork.Fed := by
    unfold Feedforward.Fed
    decide +kernel
  have hadmits : Feedforward.fork.Admits [1, 1] ∧ Feedforward.fork.Attains ⟨.maximize, 0, 1⟩ [1, 1] := by
    refine ⟨?_, [4, 4], by decide +kernel, by decide +kernel⟩
    simp [Feedforward.Admits, Feedforward.fork]
  obtain ⟨start, n, hbuild, _, hreach, hfinished, hall⟩ := exists_completed .fork ⟨.maximize, 0, 1⟩ .standard
    (P := fun _ n => n.frontier.isComplete = true ∧
      (n.abstraction.arnodes.toList.all fun v => v.2.data.members.length == 1) = true) (by decide +kernel)
  have hsingle : n.abstraction.Single := Abstraction.single_of_all hall
  obtain ⟨q, n', hok, hexact⟩ := abstractQuery_exact_of_single (by decide +kernel) hfed hbuild hreach hfinished hsingle
  obtain ⟨values, hvalues, hfeeds⟩ := (hexact [1, 1] rfl).mpr hadmits
  exact ⟨start, n, hbuild, hreach, hfinished, hsingle, hfed, q, n', values, hok, hvalues, hfeeds⟩

end Network

end ReluAbstraction
