import ReluAbstraction.Proofs.Mirroring
import ReluAbstraction.Proofs.NeuronSplitting

/-!
# The abstract query

Whatever was called before, and whether or not it succeeded, the abstract query is read off the live arnodes and their
edges.
-/

namespace ReluAbstraction

variable {α : Type}

namespace Abstraction

variable [Scalar α] {a : Abstraction α} {net : Feedforward α} {property : Property α}

/-- The query is the one of the live arnodes and their edges. -/
structure Mirrors (net : Feedforward α) (property : Property α) (a : Abstraction α) (q : Query α) : Prop where
  /-- The ReLUs are one for each arnode between the boundary layers. -/
  relus : ∃ ids : List ArNodeId, ids.Nodup ∧
    (∀ x, x ∈ ids ↔ ∃ b, a.arnodes.body? x = some b ∧ a.boundary b.location.layer = false) ∧
    List.Forall₂ (fun x r => ∃ b, a.arnodes.body? x = some b ∧ r = ⟨b.data.vars.incoming, b.data.vars.outgoing⟩) ids q.relus
  /-- The equations are one for each arnode with an incoming edge, over all its sources in some order. -/
  equations : ∃ ids : List ArNodeId, ids.Nodup ∧
    (∀ x, x ∈ ids ↔ (∃ b, a.arnodes.body? x = some b) ∧ ∃ s w, a.arnodes.edge? s x = some w) ∧
    List.Forall₂ (fun x e => ∃ b, ∃ sources : List ArNodeId, a.arnodes.body? x = some b ∧ sources.Nodup ∧
      (∀ s, s ∈ sources ↔ ∃ w, a.arnodes.edge? s x = some w) ∧
      e = ⟨⟨-1, b.data.vars.incoming⟩ :: sources.map (a.term x), -b.data.bias⟩) ids q.equations
  /-- No two arnodes share a variable. -/
  disjoint : ∀ {x y b c v}, a.arnodes.body? x = some b → a.arnodes.body? y = some c →
    b.data.vars.Uses v → c.data.vars.Uses v → x = y
  /-- Between the boundary layers an arnode has two variables. -/
  incoming_ne : ∀ {x b}, a.arnodes.body? x = some b → a.boundary b.location.layer = false →
    b.data.vars.incoming ≠ b.data.vars.outgoing
  /-- The variables in use are those of the arnodes. -/
  issued_iff : ∀ v, a.encoding.pool.Issued v ↔ ∃ x b, a.arnodes.body? x = some b ∧ b.data.vars.Uses v
  /-- The query mentions no other variable, and declares those that it mentions. -/
  mentioned : ∀ {v}, q.Mentions v → v < q.varCount ∧ ∃ x b, a.arnodes.body? x = some b ∧ b.data.vars.Uses v
  /-- A bound belongs to the one node of an arnode that stands for an input or for the property's output. -/
  bounds : ∀ {v bound}, q.HasBound v bound → ∃ x b m c, a.arnodes.body? x = some b ∧ b.data.vars.incoming = v ∧
    b.data.members = [m] ∧ a.info? m = some c ∧ net.Limits property c.origin bound ∧
    (b.location.layer = 0 ∨ b.location.layer + 1 = net.depth ∧ c.origin = ⟨net.depth - 1, property.output⟩)

namespace Mirror

variable {limits : NeuronRef → Bound α → Prop} {free : Nat → Prop}

/-- An equation of the query belongs to a live arnode with an incoming edge. -/
theorem exists_of_equation (h : Mirror free limits (fun _ => False) a) {x : ArNodeId} {e : Equation α}
    (hx : a.equation? x = some e) : ∃ b, ∃ sources : List ArNodeId, a.arnodes.body? x = some b ∧ sources ≠ [] ∧ sources.Nodup ∧
      (∀ s, s ∈ sources ↔ ∃ w, a.arnodes.edge? s x = some w) ∧
      e = ⟨⟨-1, b.data.vars.incoming⟩ :: sources.map (a.term x), -b.data.bias⟩ := by
  obtain ⟨b, hb, he⟩ := equation?_eq_some_iff.mp hx
  obtain ⟨sources, hnodup, hsources, heq⟩ := h.current hb not_false
  rw [he, equationOver] at heq
  split at heq
  · cases heq
  · next hne => exact ⟨b, sources, hb, hne, hnodup, hsources, Option.some.inj heq⟩

/-- The arnodes that have an equation. -/
theorem isSome_equation?_iff (h : Mirror free limits (fun _ => False) a) (x : ArNodeId) :
    (a.equation? x).isSome ↔ (∃ b, a.arnodes.body? x = some b) ∧ ∃ s w, a.arnodes.edge? s x = some w := by
  constructor
  · intro hsome
    obtain ⟨e, he⟩ := Option.isSome_iff_exists.mp hsome
    obtain ⟨b, sources, hb, hne, _, hsources, _⟩ := h.exists_of_equation he
    obtain ⟨s, hs⟩ := List.exists_mem_of_ne_nil sources hne
    exact ⟨⟨b, hb⟩, s, (hsources s).mp hs⟩
  · rintro ⟨⟨b, hb⟩, s, hedge⟩
    obtain ⟨sources, _, hsources, heq⟩ := h.current hb not_false
    rw [equation?, hb, Option.bind_some, heq, equationOver, if_neg (List.ne_nil_of_mem ((hsources s).mpr hedge))]
    rfl

/-- A bound of the query belongs to an arnode of a boundary layer. Neither of these layers can be regrouped, so the
arnode has one member. -/
theorem exists_of_hasBound {marked : ArNodeId → Prop} (h : Mirror net.Regroupable (net.Limits property) marked a)
    (hc : Coherent net a) {v : VarId} {bound : Bound α} (hbound : a.encoding.query.HasBound v bound) :
    ∃ x b m c, a.arnodes.body? x = some b ∧ b.data.vars.incoming = v ∧ b.data.members = [m] ∧ a.info? m = some c ∧
      net.Limits property c.origin bound ∧
      (b.location.layer = 0 ∨ b.location.layer + 1 = net.depth ∧ c.origin = ⟨net.depth - 1, property.output⟩) := by
  obtain ⟨x, b, m, c, hb, hv, hm, hinfo, hlimits⟩ := h.bounds hbound
  have hmem : m ∈ b.data.members := List.mem_of_mem_head? (by rw [hm]; rfl)
  obtain ⟨hlayer, _⟩ := hc.grounded.owned.place_of_mem hb hmem hinfo
  have horigin : c.origin.layer = b.location.layer := (hc.aligned hinfo).trans hlayer
  have hplace : b.location.layer = 0 ∨ b.location.layer + 1 = net.depth ∧ c.origin = ⟨net.depth - 1, property.output⟩ := by
    have hdepth : 0 < net.depth := Nat.succ_pos _
    generalize c.origin = origin at hlimits horigin
    cases hlimits with
    | low _ => exact .inl horigin.symm
    | high _ => exact .inl horigin.symm
    | output => exact .inr ⟨by rw [← horigin]; exact Nat.sub_add_cancel hdepth, rfl⟩
  have hfree : ¬net.Regroupable b.location.layer :=
    Feedforward.not_regroupable_of_boundary (hplace.imp_right fun hlast => hlast.1)
  obtain ⟨m', hmembers⟩ := List.length_eq_one_iff.mp ((h.alone hb).resolve_right hfree)
  rw [hmembers, List.head?_cons, Option.some.injEq] at hm
  exact ⟨x, b, m, c, hb, hv, by rw [hmembers, hm], hinfo, hlimits, hplace⟩

/-- With all equations up to date, the query is the one of the live arnodes. -/
theorem mirrors (h : Mirror net.Regroupable (net.Limits property) (fun _ => False) a) (hc : Coherent net a)
    (hcount : ∀ {v}, a.encoding.pool.Covers v → v < a.encoding.query.varCount) :
    Mirrors net property a a.encoding.query := by
  have hg := hc.grounded
  have hmentioned : ∀ {x b v}, a.arnodes.body? x = some b → b.data.vars.Uses v → v < a.encoding.query.varCount ∧
      ∃ x b, a.arnodes.body? x = some b ∧ b.data.vars.Uses v := fun hb hv => ⟨hcount (h.covered hb hv), _, _, hb, hv⟩
  constructor
  case relus =>
    obtain ⟨ids, hnodup, hids, hpairs⟩ := h.relus.exists_forall₂
    refine ⟨ids, hnodup, fun x => ?_, hpairs.imp fun x r hr => ?_⟩
    · rw [hids]
      constructor
      · intro hsome
        obtain ⟨r, hr⟩ := Option.isSome_iff_exists.mp hsome
        obtain ⟨b, hb, hboundary, _⟩ := hg.vars.relu?_eq_some_iff.mp hr
        exact ⟨b, hb, hboundary⟩
      · rintro ⟨b, hb, hboundary⟩
        exact Option.isSome_of_eq_some (hg.vars.relu?_eq_some_iff.mpr ⟨b, hb, hboundary, rfl⟩)
    · obtain ⟨b, hb, _, heq⟩ := hg.vars.relu?_eq_some_iff.mp hr
      exact ⟨b, hb, heq⟩
  case equations =>
    obtain ⟨ids, hnodup, hids, hpairs⟩ := h.equations.exists_forall₂
    refine ⟨ids, hnodup, fun x => (hids x).trans (h.isSome_equation?_iff x), hpairs.imp fun x e he => ?_⟩
    obtain ⟨b, sources, hb, _, hrest⟩ := h.exists_of_equation he
    exact ⟨b, sources, hb, hrest⟩
  case disjoint => exact fun hb hc hv hv' => hg.vars.disjoint hb hc hv hv'
  case incoming_ne =>
    intro x b hb hboundary heq
    rw [← hg.vars.isBoundary_eq hb, VarPair.isBoundary, heq, beq_self_eq_true] at hboundary
    cases hboundary
  case issued_iff => exact h.issued_iff
  case mentioned =>
    rintro v (⟨bound, hbound⟩ | ⟨e, he, t, ht, rfl⟩ | ⟨r, hr, hv⟩)
    · obtain ⟨x, b, _, _, hb, rfl, _⟩ := h.bounds hbound
      exact hmentioned hb (.inl rfl)
    · obtain ⟨x, hx⟩ := h.equations.mem_iff.mp he
      obtain ⟨b, sources, hb, _, _, hsources, rfl⟩ := h.exists_of_equation hx
      rcases List.mem_cons.mp ht with rfl | ht
      · exact hmentioned hb (.inl rfl)
      · obtain ⟨s, hs, rfl⟩ := List.mem_map.mp ht
        obtain ⟨w, hw⟩ := (hsources s).mp hs
        obtain ⟨c, _, hlive, _⟩ := hg.arnodes.live_of_edge hw
        refine hmentioned hlive (.inr ?_)
        rw [term, outgoingVar_of_body? hlive]
    · obtain ⟨x, hx⟩ := h.relus.mem_iff.mp hr
      obtain ⟨b, hb, _, rfl⟩ := hg.vars.relu?_eq_some_iff.mp hx
      exact hmentioned hb hv
  case bounds => exact h.exists_of_hasBound hc

end Mirror

end Abstraction

namespace Network

variable [Scalar α] {net : Feedforward α} {property : Property α} {options : Options} {start n : Network α}

/-- The query of a network that was just taken up is a mirror of no arnodes. -/
theorem build_mirror (h : build net property options = .ok start) :
    Abstraction.Mirror net.Regroupable (net.Limits property) (fun x => start.abstraction.encoding.isStale x = true)
      start.abstraction := by
  obtain ⟨_, hpart, _⟩ := build_represents h
  have harnodes : start.abstraction.arnodes = Arena.empty := congrArg (fun p => p.2.1) hpart
  have hencoding : start.abstraction.encoding = .empty options.variableLimit := congrArg (fun p => p.2.2.1) hpart
  have hnone : ∀ x, start.abstraction.arnodes.body? x = none := by
    intro x
    simp [harnodes, Graph.body?]
  refine ⟨?_, ?_, by simp [hnone], by simp [hnone], ?_, by simp [hnone], fun v => ?_, fun {v} hv => ?_, by simp [hnone]⟩
  · rw [hencoding]
    exact enumerates_nil fun x => by rw [Abstraction.relu?, hnone, Option.bind_none]
  · rw [hencoding]
    exact enumerates_nil fun x => by rw [Abstraction.equation?, hnone, Option.bind_none]
  · intro v bound hbound
    rw [hencoding] at hbound
    cases bound <;> cases hbound
  · rw [hencoding, IdPool.Issued, ← Bool.not_eq_true]
    simp only [hnone, reduceCtorEq, false_and, exists_false, iff_false]
    rintro ⟨hlt, hused⟩
    exact hused ((IdPool.isFree_ofLimit? _ v).mpr hlt)
  · rw [hencoding] at hv ⊢
    exact (IdPool.isFree_ofLimit? _ v).mp hv

/-- The abstract query can always be given, with all equations up to date and all variables in use declared. -/
theorem ReachesWithin.abstractQuery_mirror (hreach : ReachesWithin (fun n => n.abstraction.Comparable) start n)
    (hbuild : build net property options = .ok start) :
    abstractQuery.Meets n (fun q n' => q = n'.abstraction.encoding.query ∧ Abstraction.Coherent net n'.abstraction ∧
      Abstraction.Mirror net.Regroupable (net.Limits property) (fun _ => False) n'.abstraction ∧
      ∀ {v}, n'.abstraction.encoding.pool.Covers v → v < q.varCount) Step.Never := by
  obtain ⟨hsteady, hdrifts⟩ := hreach.adrift hbuild
  have hmirror := (build_mirror hbuild).drifts (build_steady hbuild).coherent hdrifts
  have hg := hsteady.coherent.grounded
  refine (abstractQuery_meets hg.arnodes).imp ?_
  rintro q n' ⟨rebuilt, a, hrefresh, _, rfl, rfl⟩
  have hcurrent := (hmirror.refreshEquations_meets hg hreach.holds).of_ok hrefresh
  have hrefreshing : Abstraction.Drift net.Regroupable (net.Limits property) Abstraction.Comparable n.abstraction a :=
    .change (.refresh hreach.holds hrefresh)
  have hpreparing : Abstraction.Drift net.Regroupable (net.Limits property) Abstraction.Comparable a
    { a with encoding := a.encoding.prepare } := .change (.prepare rfl)
  have hcoherent := hsteady.coherent.drift hrefreshing
  refine ⟨rfl, hcoherent.drift hpreparing, ?_, fun {v} hcovers => ?_⟩
  · refine hcurrent.of_alike hcoherent.grounded (fun _ => rfl) (fun _ => rfl) (fun hx => ⟨hx, fun _ => rfl⟩)
      (Encoding.retained_of_pool rfl rfl rfl) fun {v bound} hbound => .inl ?_
    cases bound <;> exact hbound
  · obtain ⟨top, htop, hle⟩ := hcovers
    have hcount : a.encoding.prepare.query.varCount = top + 1 := by
      simp only [Encoding.prepare, show a.encoding.pool.maxUsed = some top from htop]
    omega

/-- After any calls, of which any may have failed, the abstract query can be given and is the one of the live arnodes,
provided that no bias or weight that came up differs from itself. -/
theorem abstractQuery_mirrors (hbuild : build net property options = .ok start)
    (hreach : ReachesWithin (fun n => n.abstraction.Comparable) start n) :
    ∃ q n', abstractQuery n = .ok q n' ∧ Abstraction.Mirrors net property n'.abstraction q := by
  obtain ⟨q, n', hok, rfl, hcoherent, hmirror, hcount⟩ := (hreach.abstractQuery_mirror hbuild).exists_ok
  exact ⟨_, n', hok, hmirror.mirrors hcoherent hcount⟩

/-- Exact numbers equal themselves. -/
theorem comparable_exact (a : Abstraction Rat) : a.Comparable := by
  have hself : ∀ x : Rat, Scalar.isNaN x = false := fun x => by simp [Scalar.isNaN, BEq.beq]
  exact ⟨hself _, fun _ => hself _, fun _ => hself _⟩

/-- With nine variables the abstraction of the forked network cannot be completed. The query is still the one of the arnodes
that were made. -/
theorem abstractQuery_mirrors_fork : ∃ start n e,
    build .fork ⟨.maximize, 0, 1⟩ { Options.standard with variableLimit := some 9 } = .ok start ∧
    complete start = .error e n ∧ ∃ q n', abstractQuery n = .ok q n' ∧
      Abstraction.Mirrors .fork ⟨.maximize, 0, 1⟩ n'.abstraction q := by
  obtain ⟨start, n, e, hbuild, hcomplete, rfl, _⟩ :=
    exists_stopped .fork ⟨.maximize, 0, 1⟩ { Options.standard with variableLimit := some 9 } (P := fun _ => True)
      (by decide +kernel)
  have hreach : ReachesWithin (fun n => n.abstraction.Comparable) start (Call.complete.after start) :=
    .step (.refl (comparable_exact _)) .complete (comparable_exact _)
  exact ⟨start, _, e, hbuild, hcomplete, abstractQuery_mirrors hbuild hreach⟩

end Network

end ReluAbstraction
