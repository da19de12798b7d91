import Mathlib.Tactic
import ReluAbstraction.Proofs.AbstractQuery
import ReluAbstraction.Proofs.Evaluation

/-!
# Solutions of the abstract query

In a finished abstraction every node has a holder and every arnode has its edges. A weighted sum of the network can then be
taken arnode by arnode: the nodes that feed a node are spread over the sources of its holder. On the other side, values of
the variables solve the abstract query if and only if every arnode with sources has the weighted sum of their values.
-/

namespace ReluAbstraction

/-- A sum over a list is a sum over numbers, if the entries that count have different numbers and no number that counts is
left out. -/
theorem sum_map_eq_sum_range {ι : Type} {xs : List ι} (hxs : xs.Nodup) (counts : ι → Prop) (key : ι → Nat) {f : ι → Rat}
    {g : Nat → Rat} {n : Nat} (hrest : ∀ x ∈ xs, ¬counts x → f x = 0)
    (hkey : ∀ x ∈ xs, counts x → key x < n ∧ f x = g (key x))
    (hinj : ∀ x ∈ xs, ∀ y ∈ xs, counts x → counts y → key x = key y → x = y)
    (hsurj : ∀ i < n, g i ≠ 0 → ∃ x ∈ xs, counts x ∧ key x = i) :
    (xs.map f).sum = ((List.range n).map g).sum := by
  classical
  rw [← List.sum_toFinset f hxs, ← List.sum_toFinset g List.nodup_range, List.toFinset_range]
  have hleft : ∑ x ∈ xs.toFinset, f x = ∑ x ∈ xs.toFinset with counts x, f x := by
    refine (Finset.sum_filter_of_ne fun x hx hne => ?_).symm
    by_contra hnot
    exact hne (hrest x (List.mem_toFinset.mp hx) hnot)
  rw [hleft]
  refine Finset.sum_bij_ne_zero (fun x _ _ => key x) ?_ ?_ ?_ ?_
  · intro x hx _
    obtain ⟨hmem, hcounts⟩ := Finset.mem_filter.mp hx
    exact Finset.mem_range.mpr (hkey x (List.mem_toFinset.mp hmem) hcounts).1
  · intro x hx _ y hy _ heq
    obtain ⟨hmem, hcounts⟩ := Finset.mem_filter.mp hx
    obtain ⟨hmem', hcounts'⟩ := Finset.mem_filter.mp hy
    exact hinj x (List.mem_toFinset.mp hmem) y (List.mem_toFinset.mp hmem') hcounts hcounts' heq
  · intro i hi hne
    obtain ⟨x, hx, hcounts, rfl⟩ := hsurj i (Finset.mem_range.mp hi) hne
    refine ⟨x, Finset.mem_filter.mpr ⟨List.mem_toFinset.mpr hx, hcounts⟩, ?_, rfl⟩
    rw [(hkey x hx hcounts).2]
    exact hne
  · intro x hx _
    obtain ⟨hmem, hcounts⟩ := Finset.mem_filter.mp hx
    exact (hkey x (List.mem_toFinset.mp hmem) hcounts).2

namespace Abstraction

section Reading

variable {α : Type} {a : Abstraction α}

/-- Number of the neuron that a node comes from. -/
def neuronOf (a : Abstraction α) (m : NodeId) : Nat := ((a.info? m).map fun c => c.origin.index).getD 0

theorem neuronOf_of_info? {m : NodeId} {c : NodeInfo α} (hm : a.info? m = some c) : a.neuronOf m = c.origin.index := by
  simp [neuronOf, hm]

/-- The nodes that an arnode holds. -/
def membersOf (a : Abstraction α) (x : ArNodeId) : List NodeId :=
  ((a.arnodes.body? x).map fun b => b.data.members).getD []

theorem membersOf_of_body? {x : ArNodeId} {b : Body (ArNodeData α)} (hb : a.arnodes.body? x = some b) :
    a.membersOf x = b.data.members := by simp [membersOf, hb]

/-- The arnodes that have an edge to an arnode. -/
def sourcesOf (a : Abstraction α) (x : ArNodeId) : List ArNodeId :=
  ((a.arnodes.get? x).map fun v => v.incoming.neighbors).getD []

theorem ArnodesSound.sourcesOf_nodup (h : a.ArnodesSound) (x : ArNodeId) : (a.sourcesOf x).Nodup := by
  unfold sourcesOf
  cases hv : a.arnodes.get? x with
  | none => exact .nil
  | some v => exact h.graph.neighbors_nodup hv .incoming

theorem ArnodesSound.mem_sourcesOf_iff (h : a.ArnodesSound) {x s : ArNodeId} :
    s ∈ a.sourcesOf x ↔ ∃ w, a.arnodes.edge? s x = some w := by
  unfold sourcesOf
  cases hv : a.arnodes.get? x with
  | some v => exact h.graph.mem_neighbors_iff hv (d := .incoming)
  | none =>
    refine ⟨fun hs => by simp at hs, ?_⟩
    rintro ⟨w, hw⟩
    obtain ⟨_, c, _, hc, _⟩ := h.live_of_edge hw
    obtain ⟨v, hv', _⟩ := Graph.body?_eq_some_iff.mp hc
    rw [hv] at hv'
    cases hv'

end Reading

/-- Bias of an arnode. -/
def biasAt (a : Abstraction Rat) (x : ArNodeId) : Rat := ((a.arnodes.body? x).map fun b => b.data.bias).getD 0

/-- Weighted sum of an arnode over given values of its sources. -/
def inflow (a : Abstraction Rat) (before : ArNodeId → Rat) (x : ArNodeId) : Rat :=
  ((a.sourcesOf x).map fun s => (a.arnodes.edge? s x).getD 0 * before s).sum + a.biasAt x

/-- All stages are through: every node has a holder, and the arnodes have their edges. -/
structure Finished (net : Feedforward Rat) (a : Abstraction Rat) : Prop where
  represents : a.Represents net
  grounded : a.Grounded
  edge?_eq : ∀ x y, a.arnodes.edge? x y = a.folded? x y
  held : ∀ {m c}, a.info? m = some c → (a.holder? m).isSome
  raising : ∀ {m c}, a.info? m = some c → c.place.layer + 1 = net.depth → c.place.category = .posInc
  alone : ∀ {x b}, a.arnodes.body? x = some b → b.data.members.length = 1 ∨ net.Regroupable b.location.layer

variable {net : Feedforward Rat} {a : Abstraction Rat} {inputs : List Rat}

/-- The nodes of the sources of an arnode. -/
def feeders (a : Abstraction Rat) (y : ArNodeId) : List NodeId := (a.sourcesOf y).flatMap a.membersOf

/-- No node belongs to two sources. -/
theorem Grounded.feeders_nodup (h : a.Grounded) (y : ArNodeId) : (a.feeders y).Nodup := by
  refine List.nodup_flatMap.mpr ⟨fun s hs => ?_, ?_⟩
  · obtain ⟨w, hw⟩ := h.arnodes.mem_sourcesOf_iff.mp hs
    obtain ⟨b, _, hb, _⟩ := h.arnodes.live_of_edge hw
    rw [membersOf_of_body? hb]
    exact h.owned.nodup hb
  · refine (h.arnodes.sourcesOf_nodup y).imp_of_mem fun {s s'} hs hs' hne m hm hm' => hne ?_
    obtain ⟨w, hw⟩ := h.arnodes.mem_sourcesOf_iff.mp hs
    obtain ⟨w', hw'⟩ := h.arnodes.mem_sourcesOf_iff.mp hs'
    obtain ⟨b, _, hb, _⟩ := h.arnodes.live_of_edge hw
    obtain ⟨b', _, hb', _⟩ := h.arnodes.live_of_edge hw'
    rw [membersOf_of_body? hb] at hm
    rw [membersOf_of_body? hb'] at hm'
    exact h.owned.eq_of_mem hb hb' hm hm'

namespace Finished

/-- Whatever feeds a node belongs to a source of its holder. -/
theorem mem_feeders (h : Finished net a) {y : ArNodeId} {b : Body (ArNodeData Rat)} {m t : NodeId} {w : Rat}
    (hb : a.arnodes.body? y = some b) (ht : t ∈ b.data.members) (hw : a.nodes.edge? m t = some w) : m ∈ a.feeders y := by
  obtain ⟨c, _, hm, _⟩ := h.represents.faithful.ends hw
  obtain ⟨s, hs⟩ := Option.isSome_iff_exists.mp (h.held hm)
  obtain ⟨bs, hbs, hmem⟩ := h.grounded.owned.holder hs
  have hholder := (h.grounded.owned.mem_members_iff hb).mp ht
  have hfold : (a.folded? s y).isSome := h.grounded.owned.isSome_folded?_iff.mpr ⟨m, t, w, hs, hholder, hw⟩
  refine List.mem_flatMap.mpr ⟨s, ?_, by rw [membersOf_of_body? hbs]; exact hmem⟩
  rw [h.grounded.arnodes.mem_sourcesOf_iff, h.edge?_eq]
  exact Option.isSome_iff_exists.mp hfold

/-- The nodes that feed a node, spread over the sources of its holder, give its weighted sum. -/
theorem rawAt_eq (h : Finished net a) {y : ArNodeId} {b : Body (ArNodeData Rat)} {t : NodeId} {c : NodeInfo Rat} {l : Nat}
    (hb : a.arnodes.body? y = some b) (ht : t ∈ b.data.members) (hc : a.info? t = some c)
    (hl : b.location.layer = l + 1) : net.rawAt inputs (l + 1) c.origin.index =
      ((a.sourcesOf y).map fun s => ((a.membersOf s).map fun m =>
        (a.nodes.edge? m t).getD 0 * net.valueAt inputs l (a.neuronOf m)).sum).sum + net.bias (l + 1) c.origin.index := by
  have hf := h.represents.faithful
  obtain ⟨hplace, _⟩ := h.grounded.owned.place_of_mem hb ht hc
  have hlayer : c.place.layer = l + 1 := hplace.trans hl
  have hnested : ∀ f : NodeId → Rat, ((a.sourcesOf y).map fun s => ((a.membersOf s).map f).sum).sum =
      ((a.feeders y).map f).sum := by
    intro f
    rw [feeders, List.map_flatMap, List.flatMap_def, List.sum_flatten, List.map_map]
    rfl
  rw [hnested]
  -- What counts is an edge: it has the weight of its neuron, and no neuron has two edges to the same node.
  have hedge : ∀ {m w}, a.nodes.edge? m t = some w → ∃ d, a.info? m = some d ∧ d.origin.index < net.width l ∧
      w = net.weight (l + 1) c.origin.index d.origin.index := by
    intro m w hw
    obtain ⟨d, c', hd, hc', hnext⟩ := hf.ends hw
    rw [hc] at hc'
    cases hc'
    have hbelow : d.place.layer = l := Nat.succ_injective (hnext.symm.trans hlayer)
    refine ⟨d, hd, hbelow ▸ hf.index_lt hd, ?_⟩
    rw [hf.weight_eq hw hd hc, hlayer]
  refine congrArg (· + net.bias (l + 1) c.origin.index) (Eq.symm ?_)
  refine sum_map_eq_sum_range (h.grounded.feeders_nodup y) (fun m => (a.nodes.edge? m t).isSome) a.neuronOf ?_ ?_ ?_ ?_
  · intro m _ hnone
    rw [Option.not_isSome_iff_eq_none.mp hnone, Option.getD_none, zero_mul]
  · intro m _ hsome
    obtain ⟨w, hw⟩ := Option.isSome_iff_exists.mp hsome
    obtain ⟨d, hd, hlt, rfl⟩ := hedge hw
    rw [neuronOf_of_info? hd, hw, Option.getD_some]
    exact ⟨hlt, rfl⟩
  · intro m _ m' _ hsome hsome' heq
    obtain ⟨w, hw⟩ := Option.isSome_iff_exists.mp hsome
    obtain ⟨w', hw'⟩ := Option.isSome_iff_exists.mp hsome'
    obtain ⟨d, hd, _⟩ := hedge hw
    obtain ⟨d', hd', _⟩ := hedge hw'
    rw [neuronOf_of_info? hd, neuronOf_of_info? hd'] at heq
    exact hf.source_unique hw hw' hd hd' heq
  · intro i hi hne
    have hweight : (net.weight (l + 1) c.origin.index i == 0) = false := by
      refine decide_eq_false fun hzero => hne ?_
      rw [hzero]
      exact zero_mul _
    obtain ⟨m, d, w, hm, hindex, hw⟩ := hf.exists_source hc hlayer hi hweight
    exact ⟨m, h.mem_feeders hb ht hw, by rw [hw]; rfl, by rw [neuronOf_of_info? hm, hindex]⟩

end Finished

section Solutions

variable {free : Nat → Prop} {limits : NeuronRef → Bound Rat → Prop} {f : VarId → Rat}

/-- Value of the equation of an arnode. -/
theorem Grounded.sum_equation (hg : a.Grounded) {x : ArNodeId} {b : Body (ArNodeData Rat)} {sources : List ArNodeId}
    (hb : a.arnodes.body? x = some b) (hnodup : sources.Nodup)
    (hsources : ∀ s, s ∈ sources ↔ ∃ w, a.arnodes.edge? s x = some w) :
    ((⟨-1, b.data.vars.incoming⟩ :: sources.map (a.term x)).map fun t : Addend Rat => t.coefficient * f t.var).sum =
      -b.data.bias ↔ f b.data.vars.incoming = a.inflow (fun s => f (a.outgoingVar s)) x := by
  have hperm : sources.Perm (a.sourcesOf x) := by
    refine (List.perm_ext_iff_of_nodup hnodup (hg.arnodes.sourcesOf_nodup x)).mpr fun s => ?_
    rw [hsources, hg.arnodes.mem_sourcesOf_iff]
  have hsum : ((sources.map (a.term x)).map fun t : Addend Rat => t.coefficient * f t.var).sum =
      ((a.sourcesOf x).map fun s => (a.arnodes.edge? s x).getD 0 * f (a.outgoingVar s)).sum := by
    rw [List.map_map]
    exact (hperm.map _).sum_eq
  have hbias : a.biasAt x = b.data.bias := by simp [biasAt, hb]
  rw [List.map_cons, List.sum_cons, hsum, inflow, hbias]
  change -1 * f b.data.vars.incoming + _ = -b.data.bias ↔ _
  constructor <;> intro h <;> linarith

/-- Values of the variables solve the abstract query if and only if they meet the bounds, every arnode with sources has its
weighted sum, and the ReLUs hold. -/
theorem Mirror.solvedBy_iff (h : Mirror free limits (fun _ => False) a) (hg : a.Grounded) :
    a.encoding.query.SolvedBy f ↔ (∀ {v bound}, a.encoding.query.HasBound v bound → bound.Admits (f v)) ∧
      (∀ {x b}, a.arnodes.body? x = some b → a.sourcesOf x ≠ [] →
        f b.data.vars.incoming = a.inflow (fun s => f (a.outgoingVar s)) x) ∧
      ∀ {x b}, a.arnodes.body? x = some b → a.boundary b.location.layer = false →
        f b.data.vars.outgoing = max (f b.data.vars.incoming) 0 := by
  constructor
  · intro hsolved
    refine ⟨hsolved.bounds, fun {x b} hb hne => ?_, fun {x b} hb hboundary => ?_⟩
    · obtain ⟨s, hs⟩ := List.exists_mem_of_ne_nil _ hne
      obtain ⟨e, he⟩ := Option.isSome_iff_exists.mp
        ((h.isSome_equation?_iff x).mpr ⟨⟨b, hb⟩, s, hg.arnodes.mem_sourcesOf_iff.mp hs⟩)
      obtain ⟨b', sources, hb', _, hnodup, hsources, rfl⟩ := h.exists_of_equation he
      rw [hb] at hb'
      cases hb'
      exact (hg.sum_equation hb hnodup hsources).mp (hsolved.equations _ (h.equations.mem_iff.mpr ⟨x, he⟩))
    · refine hsolved.relus ⟨b.data.vars.incoming, b.data.vars.outgoing⟩ (h.relus.mem_iff.mpr ⟨x, ?_⟩)
      exact hg.vars.relu?_eq_some_iff.mpr ⟨b, hb, hboundary, rfl⟩
  · rintro ⟨hbounds, hequations, hrelus⟩
    refine ⟨hbounds, fun e he => ?_, fun r hr => ?_⟩
    · obtain ⟨x, hx⟩ := h.equations.mem_iff.mp he
      obtain ⟨b, sources, hb, hne, hnodup, hsources, rfl⟩ := h.exists_of_equation hx
      obtain ⟨s, hs⟩ := List.exists_mem_of_ne_nil _ hne
      refine (hg.sum_equation hb hnodup hsources).mpr (hequations hb (List.ne_nil_of_mem (a := s) ?_))
      exact hg.arnodes.mem_sourcesOf_iff.mpr ((hsources s).mp hs)
    · obtain ⟨x, hx⟩ := h.relus.mem_iff.mp hr
      obtain ⟨b, hb, hboundary, rfl⟩ := hg.vars.relu?_eq_some_iff.mp hx
      exact hrelus hb hboundary

/-- Every arnode can be given its own two values, as long as they agree where it has one variable. -/
theorem Grounded.exists_values (hg : a.Grounded) (before after : ArNodeId → Rat)
    (hboundary : ∀ {x b}, a.arnodes.body? x = some b → a.boundary b.location.layer = true → before x = after x) :
    ∃ f : VarId → Rat, ∀ {x b}, a.arnodes.body? x = some b →
      f b.data.vars.incoming = before x ∧ f b.data.vars.outgoing = after x := by
  classical
  let f : VarId → Rat := fun v =>
    if h : ∃ x b, a.arnodes.body? x = some b ∧ b.data.vars.incoming = v then before h.choose
    else if h : ∃ x b, a.arnodes.body? x = some b ∧ b.data.vars.outgoing = v then after h.choose else 0
  have hincoming : ∀ {x b}, a.arnodes.body? x = some b → f b.data.vars.incoming = before x := by
    intro x b hb
    have hex : ∃ y c, a.arnodes.body? y = some c ∧ c.data.vars.incoming = b.data.vars.incoming := ⟨x, b, hb, rfl⟩
    obtain ⟨c, hc, heq⟩ := hex.choose_spec
    have hself : hex.choose = x := hg.vars.disjoint hc hb (.inl heq.symm) (.inl rfl)
    change dite _ _ _ = _
    rw [dif_pos hex, hself]
  refine ⟨f, fun {x b} hb => ⟨hincoming hb, ?_⟩⟩
  by_cases hex : ∃ y c, a.arnodes.body? y = some c ∧ c.data.vars.incoming = b.data.vars.outgoing
  · obtain ⟨y, c, hc, heq⟩ := hex
    obtain rfl := hg.vars.disjoint hc hb (.inl rfl) (.inr heq)
    rw [hb] at hc
    cases hc
    rw [← heq, hincoming hb]
    refine hboundary hb ?_
    rw [← hg.vars.isBoundary_eq hb, VarPair.isBoundary, heq, beq_self_eq_true]
  · have hex' : ∃ y c, a.arnodes.body? y = some c ∧ c.data.vars.outgoing = b.data.vars.outgoing := ⟨x, b, hb, rfl⟩
    obtain ⟨c, hc, heq⟩ := hex'.choose_spec
    have hself : hex'.choose = x := hg.vars.disjoint hc hb (.inr heq.symm) (.inr rfl)
    change dite _ _ _ = _
    rw [dif_neg hex, dif_pos hex', hself]

end Solutions

end Abstraction

end ReluAbstraction
