import Mathlib.Tactic
import ReluAbstraction.Proofs.AbstractGraph
import ReluAbstraction.Proofs.Valuation

/-!
# The query of a complete abstraction

Once the frontier is complete, every node has a holder and all edges are there. The solutions of the abstract query are
then the values of the arnodes, before and after their ReLUs, that follow the edges and meet the bounds of the neurons.
-/

namespace ReluAbstraction

/-- On the inputs, all neurons meet their bounds. -/
def Feedforward.WithinLimits (net : Feedforward Rat) (property : Property Rat) (inputs : List Rat) : Prop :=
  ∀ ⦃r bound⦄, net.Limits property r bound → bound.Admits (net.rawAt inputs r.layer r.index)

/-- Inputs in their ranges that reach the region are those on which all neurons meet their bounds. -/
theorem Feedforward.admits_and_attains_iff {net : Feedforward Rat} {property : Property Rat} {inputs : List Rat}
    (hnet : net.Shaped) (hlayers : net.layers ≠ []) (houtput : property.output < net.width net.layers.length)
    (hlength : inputs.length = net.inputs.length) :
    net.Admits inputs ∧ net.Attains property inputs ↔ net.WithinLimits property inputs := by
  rw [Feedforward.attains_iff hnet hlayers houtput hlength]
  constructor
  · rintro ⟨hadmits, hattains⟩ r bound hlimits
    have hrange : ∀ {i range}, net.inputs[i]? = some range →
        range.low ≤ net.rawAt inputs 0 i ∧ net.rawAt inputs 0 i ≤ range.high := by
      intro i range hi
      obtain ⟨hlt, rfl⟩ := List.getElem?_eq_some_iff.mp hi
      have hlt' : i < inputs.length := hlength ▸ hlt
      have hvalue : net.rawAt inputs 0 i = inputs[i] := by simp [rawAt, hlt']
      rw [hvalue]
      exact (List.forall₂_iff_get.mp hadmits).2 i hlt hlt'
    cases hlimits with
    | low hi => exact (hrange hi).1
    | high hi => exact (hrange hi).2
    | output => exact hattains
  · intro hlimits
    refine ⟨List.forall₂_iff_get.mpr ⟨hlength.symm, fun i hi hi' => ?_⟩, hlimits .output⟩
    have hvalue : net.rawAt inputs 0 i = inputs[i] := by simp [rawAt, hi']
    have hget : net.inputs[i]? = some net.inputs[i] := List.getElem?_eq_getElem hi
    rw [List.get_eq_getElem, List.get_eq_getElem, ← hvalue]
    exact ⟨hlimits (.low hget), hlimits (.high hget)⟩

namespace Abstraction

/-- The layers with ReLUs are those between the boundary layers. -/
theorem Represents.boundary_eq {α : Type} [Scalar α] {net : Feedforward α} {a : Abstraction α} (h : a.Represents net) {l : Nat}
    (hl : l < net.depth) : a.boundary l = !net.isHidden l := by
  have hrole : a.roles[l]? = some (Network.roleOf net.depth l) := by
    rw [h.roles_eq, List.getElem?_map, List.getElem?_range hl, Option.map_some]
  rw [boundary, hrole, Option.any_some, Feedforward.isHidden, Network.roleOf]
  by_cases hfirst : l = 0
  · subst hfirst
    simp
  · by_cases hlast : l + 1 = net.depth
    · simp [hfirst, hlast]
    · have hhidden : 1 ≤ l ∧ l + 1 < net.depth := by omega
      simp [hfirst, hlast, hhidden]

variable {net : Feedforward Rat} {property : Property Rat} {a a' : Abstraction Rat} {values : Assignment Rat}
  {inputs : List Rat}

/-- The variables of the input layer have the values of the inputs. -/
def Feeds (a : Abstraction Rat) (values : Assignment Rat) (inputs : List Rat) : Prop :=
  ∀ ⦃x b m c⦄, a.arnodes.body? x = some b → b.location.layer = 0 → m ∈ b.data.members → a.info? m = some c →
    inputs[c.origin.index]? = some (values.value b.data.vars.incoming)

theorem Recast.feeds_iff (h : Recast a a') : a'.Feeds values inputs ↔ a.Feeds values inputs := by
  have hinfo := info?_of_nodePart h.nodePart_eq
  constructor
  · intro hfeeds x b m c hb hl hm hc
    obtain ⟨b', hb', hlocation, hmembers, hvars, _⟩ := h.symm_body? hb
    rw [← hvars]
    exact hfeeds hb' (hlocation ▸ hl) (hmembers ▸ hm) (by rw [hinfo, hc])
  · intro hfeeds x b' m c hb' hl hm hc
    obtain ⟨b, hb, hlocation, hmembers, hvars, _⟩ := h.exists_body? hb'
    rw [← hvars]
    exact hfeeds hb (hlocation ▸ hl) (hmembers ▸ hm) (by rw [← hinfo, hc])

/-- Values of the arnodes, before and after their ReLUs, that the query of the abstraction admits. -/
structure Settles (net : Feedforward Rat) (property : Property Rat) (a : Abstraction Rat) (raw fired : ArNodeId → Rat) :
    Prop where
  inflow : ∀ {x b}, a.arnodes.body? x = some b → a.sourcesOf x ≠ [] → raw x = a.inflow fired x
  rectified : ∀ {x b}, a.arnodes.body? x = some b → fired x = net.rectifyAt b.location.layer (raw x)
  bounds : ∀ {x b m c bound}, a.arnodes.body? x = some b → b.data.members.head? = some m → a.info? m = some c →
    net.Limits property c.origin bound → bound.Admits (raw x)

/-- The weighted sum of an arnode depends on the values of its sources. -/
theorem inflow_congr (hg : a.Grounded) {f g : ArNodeId → Rat} {x : ArNodeId}
    (h : ∀ {s w}, a.arnodes.edge? s x = some w → f s = g s) : a.inflow f x = a.inflow g x := by
  unfold inflow
  congr 2
  refine List.map_congr_left fun s hs => ?_
  obtain ⟨w, hw⟩ := hg.arnodes.mem_sourcesOf_iff.mp hs
  rw [h hw]

end Abstraction

namespace Network

variable {net : Feedforward Rat} {property : Property Rat} {options : Options} {start n : Network Rat} {q : Query Rat}
  {a : Abstraction Rat}

/-- The query of a complete abstraction, which is `a` once the query was given. -/
structure Posed (net : Feedforward Rat) (property : Property Rat) (n : Network Rat) (q : Query Rat) (a : Abstraction Rat) :
    Prop where
  finished : a.Finished net
  mirror : a.Mirror net.Regroupable (net.Limits property) (fun _ => False)
  query_eq : q = a.encoding.query
  declared : ∀ v, q.Mentions v → v < q.varCount
  covered : ∀ {x b v}, a.arnodes.body? x = some b → b.data.vars.Uses v → v < q.varCount
  limited : ∀ x, a.Sets (net.Limits property) x
  recast : Abstraction.Recast n.abstraction a

/-- The query of a complete abstraction can be given. -/
theorem ReachesInOrder.abstractQuery_posed (hreach : ReachesInOrder start n) (hbuild : build net property options = .ok start)
    (hcomplete : n.frontier.isComplete = true) :
    abstractQuery.Meets n (fun q n' => Posed net property n q n'.abstraction ∧ Orderly net property start n' ∧
      n'.frontier = n.frontier) Step.Never := by
  have horderly := hreach.orderly hbuild
  have hmirror := (hreach.within fun n => comparable_exact n.abstraction).abstractQuery_mirror hbuild
  have hstep := (hmirror.and (abstractQuery_meets horderly.woven.grounded.arnodes)).and horderly.abstractQuery_meets
  refine hstep.mono ?_ fun _ _ hfail => hfail.2
  rintro q n' ⟨⟨⟨hq, hcoherent, hmirror, hcount⟩, _, _, _, hrefreshed, hn', _⟩, horderly', _⟩
  have hfrontier : n'.frontier = n.frontier := by rw [hn']
  obtain ⟨⟨hpre, hforward⟩, _⟩ : (n'.frontier.preprocess = none ∧ n'.frontier.forward = none) ∧ n'.frontier.full = none := by
    rw [hfrontier]
    simpa [Frontier.isComplete] using hcomplete
  have hmirrors := hmirror.mirrors hcoherent (by rw [← hq]; exact hcount)
  refine ⟨⟨⟨horderly'.represents, horderly'.woven.grounded, fun x y => ?_, fun {m c} hm => ?_, fun {m c} hm hl => ?_,
    hmirror.alone⟩, hmirror, hq, ?_, fun hb hv => hcount (hmirror.covered hb hv), ?_, hrefreshed.recast⟩, horderly', hfrontier⟩
  · rw [horderly'.woven.edge?_eq]
    cases hx : n'.abstraction.arnodes.body? x with
    | none => rw [Abstraction.folded?_eq_none_left hx, ite_self]
    | some b =>
      have hactive : n'.abstraction.isForward x = true := by
        rw [Abstraction.isForward_of_body? hx, horderly'.staged.forward hx, Frontier.isForwardActivated, hforward]
        rfl
      rw [if_pos ⟨hactive, by simp⟩]
  · refine horderly'.staged.held hm ?_
    rw [Frontier.isPreprocessed, hpre]
    rfl
  · refine horderly'.staged.raising hm (fun hunprocessed => ?_) hl
    obtain ⟨x, hx⟩ := Option.isSome_iff_exists.mp (horderly'.staged.held hm (by rw [Frontier.isPreprocessed, hpre]; rfl))
    obtain ⟨b, hb, _, _, hcategory⟩ := horderly'.woven.grounded.owned.exists_of_holder? hx hm
    exact horderly'.woven.grounded.arnodes.cemented hb (hcategory.symm.trans hunprocessed)
  · rw [hq]
    exact fun v hv => (hmirrors.mentioned hv).1
  · exact horderly'.limited (build_eq_ok hbuild).1

namespace Posed

/-- The layers of live arnodes. -/
theorem layer_lt (h : Posed net property n q a) {x : ArNodeId} {b : Body (ArNodeData Rat)}
    (hb : a.arnodes.body? x = some b) : b.location.layer < net.depth := by
  obtain ⟨m, rest, hmembers⟩ := List.exists_cons_of_ne_nil (h.finished.grounded.owned.ne_nil hb)
  obtain ⟨c, hc, _, hlayer, _⟩ := h.finished.grounded.owned.member hb m (by simp [hmembers])
  rw [← hlayer]
  exact h.finished.represents.faithful.layer_lt hc

theorem isHidden_iff (h : Posed net property n q a) {x : ArNodeId} {b : Body (ArNodeData Rat)}
    (hb : a.arnodes.body? x = some b) : a.boundary b.location.layer = false ↔ net.isHidden b.location.layer = true := by
  rw [h.finished.represents.boundary_eq (h.layer_lt hb)]
  simp

/-- Values of the arnodes that the query admits are a solution of it. -/
theorem exists_solution (h : Posed net property n q a) {raw fired : ArNodeId → Rat} (hs : a.Settles net property raw fired) :
    ∃ values, q.isSatisfiedBy values .exact = true ∧
      ∀ {x b}, a.arnodes.body? x = some b → values.value b.data.vars.incoming = raw x := by
  have hg := h.finished.grounded
  obtain ⟨f, hf⟩ := hg.exists_values raw fired fun {x b} hb hboundary => by
    have hnot : net.isHidden b.location.layer = false := by
      rw [← Bool.not_eq_true, ← h.isHidden_iff hb, hboundary]
      decide
    rw [hs.rectified hb, Feedforward.rectifyAt_of_not_hidden hnot]
  have hsources : ∀ {s y w}, a.arnodes.edge? s y = some w → f (a.outgoingVar s) = fired s := by
    intro s y w hw
    obtain ⟨b, _, hb, _⟩ := hg.arnodes.live_of_edge hw
    rw [Abstraction.outgoingVar_of_body? hb, (hf hb).2]
  have hsolved : q.SolvedBy f := by
    rw [h.query_eq]
    refine (h.mirror.solvedBy_iff hg).mpr ⟨fun {v bound} hbound => ?_, fun {x b} hb hne => ?_, fun {x b} hb hboundary => ?_⟩
    · obtain ⟨x, b, m, c, hb, hv, hm, hc, hlimits⟩ := h.mirror.bounds hbound
      rw [← hv, (hf hb).1]
      exact hs.bounds hb hm hc hlimits
    · rw [(hf hb).1, hs.inflow hb hne]
      exact Abstraction.inflow_congr hg fun hw => (hsources hw).symm
    · rw [(hf hb).1, (hf hb).2, hs.rectified hb, Feedforward.rectifyAt_of_hidden ((h.isHidden_iff hb).mp hboundary)]
  obtain ⟨values, hvalues, hvalue⟩ := hsolved.exists_assignment h.declared
  exact ⟨values, hvalues, fun hb => by rw [hvalue _ (h.covered hb (.inl rfl)), (hf hb).1]⟩

/-- A solution of the query gives values of the arnodes. -/
theorem settles (h : Posed net property n q a) {values : Assignment Rat} (hvalues : q.isSatisfiedBy values .exact = true) :
    ∃ raw fired, a.Settles net property raw fired ∧
      ∀ {x b}, a.arnodes.body? x = some b → raw x = values.value b.data.vars.incoming := by
  have hg := h.finished.grounded
  have hsolved := Query.isSatisfiedBy_exact_iff.mp hvalues
  rw [h.query_eq] at hsolved
  obtain ⟨hbounds, hequations, hrelus⟩ := (h.mirror.solvedBy_iff hg).mp hsolved
  let raw : ArNodeId → Rat := fun x =>
    ((a.arnodes.body? x).map fun b => values.value b.data.vars.incoming).getD 0
  have hraw : ∀ {x b}, a.arnodes.body? x = some b → raw x = values.value b.data.vars.incoming := by
    intro x b hb
    simp [raw, hb]
  refine ⟨raw, fun x => values.value (a.outgoingVar x), ⟨fun hb hne => ?_, fun {x b} hb => ?_, fun hb hm hc hlimits => ?_⟩, hraw⟩
  · rw [hraw hb]
    exact hequations hb hne
  · rw [hraw hb, Abstraction.outgoingVar_of_body? hb]
    cases hhidden : net.isHidden b.location.layer with
    | true =>
      rw [Feedforward.rectifyAt_of_hidden hhidden]
      exact hrelus hb ((h.isHidden_iff hb).mpr hhidden)
    | false =>
      have hboundary : b.data.vars.isBoundary = true := by
        rw [hg.vars.isBoundary_eq hb, h.finished.represents.boundary_eq (h.layer_lt hb), hhidden]
        rfl
      rw [Feedforward.rectifyAt_of_not_hidden hhidden, ← beq_iff_eq.mp hboundary]
  · rw [hraw hb]
    have hset := h.limited _ hb hm hc hlimits
    exact hbounds hset

end Posed

end Network

end ReluAbstraction
