import ReluAbstraction.Proofs.Advancing
import ReluAbstraction.Proofs.Bookkeeping
import ReluAbstraction.Proofs.NeuronSplitting

/-!
# Preprocessed layers

Once the frontier has passed a layer, no node of the layer waits to be classified, whatever calls have failed. That its nodes
have arnodes, and that inputs and output have their bounds, takes more: preprocessing that runs out of variables has
classified a node without wrapping it, and does not come back to it when it is tried again. As long as no stage runs out of
room, the layers that the frontier has passed are covered.
-/

namespace ReluAbstraction

/-- A layer is preprocessed once no entry is left in its table of unprocessed nodes. -/
theorem Layer.isPreprocessed_iff {layer : Layer} :
    layer.isPreprocessed = true ↔ layer.nodes.entries Category.unprocessed.index = [] := by
  rw [Layer.isPreprocessed, beq_iff_eq, TableChain.tableSize, TableChain.entries]
  cases layer.nodes.tables[Category.unprocessed.index]? with
  | none => simp
  | some table => exact Table.size_eq_zero_iff

variable {α : Type} [Scalar α] {net : Feedforward α} {property : Property α} {options : Options}

omit [Scalar α] in
theorem Abstraction.Cleared.isPreprocessed {a : Abstraction α} {l : Nat} (h : a.Cleared l) (hnodes : a.NodesSound)
    {layer : Layer} (hlayer : a.layers[l]? = some layer) : layer.isPreprocessed = true := by
  rw [Layer.isPreprocessed_iff, ← List.map_eq_nil_iff (f := (·.2)), List.eq_nil_iff_forall_not_mem]
  intro m hm
  obtain ⟨c, hc, hl, hwaits⟩ := (hnodes.mem_unprocessed_iff hlayer).mp hm
  exact h hc hl hwaits

namespace Network

variable {start n n' : Network α}

section Sweeping

/-- In the layers that the frontier has passed, no node waits to be classified. -/
structure Swept (net : Feedforward α) (property : Property α) (n : Network α) : Prop where
  steady : Steady net property n
  cleared : ∀ {l}, n.frontier.isPreprocessed l = true → n.abstraction.Cleared l

theorem build_swept (hbuild : build net property options = .ok start) : Swept net property start := by
  have h := build_orderly hbuild
  exact ⟨build_steady hbuild, fun hl _ _ hm hlayer => h.staged.category_ne h.woven.grounded hm (hlayer ▸ hl)⟩

/-- Where preprocessing does not go on, nothing that happens makes a node wait. -/
theorem Swept.drifts (h : Swept net property n) (hsame : n'.frontier.preprocess = n.frontier.preprocess)
    (hadrift : Adrift net property net.Regroupable (fun _ => True) n n') : Swept net property n' := by
  obtain ⟨hsteady, hdrifts⟩ := hadrift h.steady
  refine ⟨hsteady, fun {l} hl => Abstraction.Cleared.thins (h.cleared ?_) (h.steady.coherent.thins hdrifts)⟩
  rwa [Frontier.isPreprocessed, hsame] at hl

theorem sweeps_of_adrift {β : Type} {step : Step (Network α) β}
    (hadrift : Step.Within (Adrift net property net.Regroupable (fun _ => True)) step)
    (hkeeps : Step.Keeps (fun n => n.frontier.preprocess) step) : Step.Preserves (Swept net property) step :=
  fun n => ((hadrift n).and (hkeeps n)).mono (fun _ _ hboth h => h.drifts hboth.2 hboth.1)
    fun _ _ hboth h => h.drifts hboth.2 hboth.1

/-- Preprocessing that succeeds leaves no node of its layer to be classified. -/
theorem Steady.preprocessNext_cleared (h : Steady net property n) {l : Nat} (hl : n.frontier.preprocess = some l) :
    preprocessNext.Meets n (fun _ n' => n'.abstraction.Cleared l) (fun _ _ => True) := by
  have hout : (Abstraction.preprocess l).Meets n.abstraction (fun created a => Abstraction.Grown net.Regroupable
      (net.Limits property) (fun _ => True) n.abstraction a l created ∧ a.Cleared l)
      (fun _ a => Abstraction.Drifts net.Regroupable (net.Limits property) (fun _ => True) n.abstraction a) :=
    h.coherent.preprocess_outcome l
  unfold preprocessNext
  rw [Step.meets_bind, Step.meets_get, hl]
  dsimp only
  rw [Step.meets_bind, onAbstraction, Step.meets_zoom]
  refine hout.mono (fun created a₁ hgrown => ?_) fun _ _ _ => trivial
  have hcleared : a₁.Cleared l := hgrown.2
  exact (keeps_boundCreated l created { n with abstraction := a₁ }).mono
    (fun _ n' hpart => hcleared.thins (Abstraction.thins_of_nodePart hpart)) fun _ _ _ => trivial

theorem sweeps_preprocessNext : Step.Preserves (Swept net property) (preprocessNext : Step (Network α) (Option Nat)) := by
  refine Step.within_of_meets (I := Swept net property) fun {n} h => ?_
  cases hl : n.frontier.preprocess with
  | none =>
    unfold preprocessNext
    rw [Step.meets_bind, Step.meets_get, hl]
    exact h
  | some l =>
    have hadrift : preprocessNext.Meets n (fun _ n' => Adrift net property net.Regroupable (fun _ => True) n n')
      (fun _ n' => Adrift net property net.Regroupable (fun _ => True) n n') := adrift_preprocessNext n
    refine ((hadrift.and (preprocessNext_frontier hl)).and (h.steady.preprocessNext_cleared hl)).mono ?_ ?_
    · rintro _ n' ⟨⟨hd, _, hfrontier⟩, hcleared⟩
      obtain ⟨hsteady, hdrifts⟩ := hd h.steady
      refine ⟨hsteady, fun {k} hk => ?_⟩
      rw [Frontier.isPreprocessed, hfrontier, Frontier.passed_before?, decide_eq_true_iff] at hk
      rcases Nat.eq_or_lt_of_le hk with rfl | hlt
      · exact hcleared
      · refine Abstraction.Cleared.thins (h.cleared ?_) (h.steady.coherent.thins hdrifts)
        rw [Frontier.isPreprocessed, hl, Frontier.passed_some]
        exact decide_eq_true hlt
    · rintro _ n' ⟨⟨hd, hfrontier⟩, _⟩
      exact h.drifts (by rw [hfrontier]) hd

theorem adrift_abstractQuery :
    Step.Within (Adrift net property net.Regroupable (fun _ => True)) (abstractQuery : Step (Network α) (Query α)) := by
  have hquery : Step.Within (fun n n' => Steady net property n → Adrift net property net.Regroupable (fun _ => True) n n')
      (abstractQuery : Step (Network α) (Query α)) :=
    Step.within_of_meets fun h => (h.abstractQuery_outcome trivial).mono (fun _ _ hd => hd) fun _ _ hfalse => hfalse.elim
  exact hquery.mono fun _ _ hd h => hd h h

/-- Whatever the call and its outcome, no node of a layer behind the frontier gets to wait. -/
theorem sweeps_run (c : Call α) : Step.Preserves (Swept net property) c.run := by
  have honly : ∀ {β : Type} (step : Step (Abstraction α) β),
      Step.Keeps (fun n : Network α => n.frontier.preprocess) (onAbstraction step) :=
    fun step => keepsRest_onAbstraction (fun _ _ => rfl) step
  refine Call.within_run sweeps_preprocessNext
    (sweeps_of_adrift adrift_forwardNext (keepsRest_forwardNext (fun _ _ => rfl) fun _ _ => rfl))
    (sweeps_of_adrift adrift_fullNext (keepsRest_fullNext (fun _ _ => rfl) fun _ _ => rfl))
    (fun l first second => sweeps_of_adrift (adrift_merge l first second) (.bind (.read _) fun _ => honly _))
    (fun l id cells => sweeps_of_adrift (adrift_split l id cells) (.bind (.read _) fun _ => honly _))
    (sweeps_of_adrift adrift_abstractQuery (.bind (honly _).discard fun _ => honly _))
    (fun event => sweeps_of_adrift (adrift_countCall event) fun _ => rfl) c

theorem Reaches.swept (hbuild : build net property options = .ok start) (h : Reaches start n) : Swept net property n :=
  h.invariant (build_swept hbuild) sweeps_run

end Sweeping

section Covering

/-- The networks that calls lead to when no stage runs out of variables or room. -/
inductive ReachesWithRoom (start : Network α) : Network α → Prop
  /-- No call. -/
  | refl : ReachesWithRoom start start
  /-- One more call, with any outcome but that. -/
  | step {n : Network α} (h : ReachesWithRoom start n) (c : Call α)
      (hroom : c.isStage = true → ∀ {e n'}, c.run n = .error e n' → ¬e.IsExhausted) : ReachesWithRoom start (c.after n)

theorem ReachesWithRoom.orderly (hbuild : build net property options = .ok start) (h : ReachesWithRoom start n) :
    Orderly net property start n := by
  induction h with
  | refl => exact build_orderly hbuild
  | step _ c hroom ih => exact ih.after hroom

/-- The nodes of layer `l` have arnodes, and the bounds that belong to the layer are set. -/
structure Covers (net : Feedforward α) (property : Property α) (n : Network α) (l : Nat) : Prop where
  /-- Every node is owned by a live arnode. -/
  owned : ∀ {m u}, n.abstraction.nodes.get? m = some u → u.location.layer = l → ∃ x v, u.data.owner = some x ∧
    n.abstraction.arnodes.get? x = some v ∧ m ∈ v.data.members
  /-- The variable of an input has exactly the declared range. -/
  ranged : l = 0 → ∀ {x v}, n.abstraction.arnodes.get? x = some v → v.location.layer = 0 → ∃ m u range,
    v.data.members = [m] ∧ n.abstraction.nodes.get? m = some u ∧ u.data.origin.layer = 0 ∧
    net.inputs[u.data.origin.index]? = some range ∧
    n.abstraction.encoding.query.lower.get? v.data.vars.incoming = some range.low ∧
    n.abstraction.encoding.query.upper.get? v.data.vars.incoming = some range.high
  /-- The property's output has a node, and the variable of its arnode has the bound of the property. -/
  bounded : l + 1 = net.depth → (∃ m u, n.abstraction.nodes.get? m = some u ∧ u.data.origin = ⟨l, property.output⟩) ∧
    ∀ {m u}, n.abstraction.nodes.get? m = some u → u.data.origin = ⟨l, property.output⟩ → ∃ x v,
      n.abstraction.arnodes.get? x = some v ∧ v.data.members = [m] ∧
      n.abstraction.encoding.query.HasBound v.data.vars.incoming property.bound

/-- The one node of an arnode of a boundary layer, with the bounds of its neuron. -/
theorem Orderly.bounds_of_boundary (h : Orderly net property start n) (hbuild : build net property options = .ok start)
    {x : ArNodeId} {v : ArNode α} (hv : n.abstraction.arnodes.get? x = some v)
    (hend : v.location.layer = 0 ∨ v.location.layer + 1 = net.depth) : ∃ m u, v.data.members = [m] ∧
      n.abstraction.nodes.get? m = some u ∧ u.location.layer = v.location.layer ∧
      ∀ {bound}, net.Limits property u.data.origin bound →
        n.abstraction.encoding.query.HasBound v.data.vars.incoming bound := by
  have hb := Graph.body?_of_get? hv
  obtain ⟨m, hmembers⟩ := List.length_eq_one_iff.mp
    ((h.alone hbuild hb).resolve_right (Feedforward.not_regroupable_of_boundary hend))
  rw [Vertex.body_data] at hmembers
  obtain ⟨c, hc, _, hlayer, _⟩ := h.woven.grounded.owned.member hb m (by simp [hmembers])
  obtain ⟨u, hu, rfl⟩ := Abstraction.get?_of_info? hc
  have hhead : v.data.members.head? = some m := by rw [hmembers, List.head?_cons]
  exact ⟨m, u, hmembers, hu, hlayer, fun hbound => h.limited (build_eq_ok hbuild).1 x hb hhead hc hbound⟩

/-- In a network in order, a node of a layer that the frontier has passed has an owner. -/
theorem Orderly.exists_owner (h : Orderly net property start n) {m : NodeId} {u : Node α}
    (hu : n.abstraction.nodes.get? m = some u) (hl : n.frontier.isPreprocessed u.location.layer = true) :
    ∃ x v, u.data.owner = some x ∧ n.abstraction.arnodes.get? x = some v ∧ m ∈ v.data.members ∧
      v.location.layer = u.location.layer := by
  have hinfo := Abstraction.info?_of_get? hu
  obtain ⟨x, hx⟩ := Option.isSome_iff_exists.mp (h.staged.held hinfo hl)
  obtain ⟨b, hb, hm⟩ := h.woven.grounded.owned.holder hx
  obtain ⟨c, hc, _, hlayer, _⟩ := h.woven.grounded.owned.member hb m hm
  obtain rfl := Option.some.inj (hinfo.symm.trans hc)
  obtain ⟨v, hv, rfl⟩ := Graph.body?_eq_some_iff.mp hb
  exact ⟨x, v, (h.woven.grounded.owner_iff hu x).mpr ⟨v, hv, hm⟩, hv, hm, hlayer.symm⟩

/-- In a network in order, the layers that the frontier has passed are covered. -/
theorem Orderly.covers (h : Orderly net property start n) (hbuild : build net property options = .ok start) {l : Nat}
    (hl : n.frontier.isPreprocessed l = true) : Covers net property n l where
  owned := by
    rintro m u hu rfl
    obtain ⟨x, v, howner, hv, hm, _⟩ := h.exists_owner hu hl
    exact ⟨x, v, howner, hv, hm⟩
  ranged := by
    rintro rfl x v hv hlayer
    obtain ⟨m, u, hmembers, hu, hul, hbounds⟩ := h.bounds_of_boundary hbuild hv (.inl hlayer)
    have hinfo := Abstraction.info?_of_get? hu
    have hplace : u.body.info.place.layer = 0 := hul.trans hlayer
    have horigin : u.data.origin.layer = 0 := (h.represents.faithful.origin_layer hinfo).trans hplace
    have hindex := h.represents.faithful.index_lt hinfo
    rw [hplace] at hindex
    have hrange : net.inputs[u.data.origin.index]? = some _ := List.getElem?_eq_getElem hindex
    have heq : u.data.origin = ⟨0, u.data.origin.index⟩ := by rw [← horigin]
    rw [heq] at hbounds
    exact ⟨m, u, _, hmembers, hu, horigin, hrange, hbounds (.low hrange), hbounds (.high hrange)⟩
  bounded := by
    intro hlast
    obtain ⟨_, houtput, _⟩ := build_eq_ok hbuild
    have hlayers : l = net.layers.length := Nat.succ.inj hlast
    constructor
    · obtain ⟨m, c, hc, hplace, hindex⟩ := h.represents.faithful.exists_node (l := l) (by omega) (hlayers ▸ houtput)
      obtain ⟨u, hu, rfl⟩ := Abstraction.get?_of_info? hc
      have horigin : u.data.origin.layer = l := (h.represents.faithful.origin_layer hc).trans hplace
      exact ⟨m, u, hu, by rw [← horigin, ← hindex]; rfl⟩
    · intro m u hu horigin
      have hplace : u.location.layer = l := by
        have hlayer := h.represents.faithful.origin_layer (Abstraction.info?_of_get? hu)
        exact hlayer.symm.trans (congrArg NeuronRef.layer horigin)
      obtain ⟨x, v, _, hv, hm, hvl⟩ := h.exists_owner hu (by rw [hplace]; exact hl)
      obtain ⟨m', u', hmembers, hu', _, hbounds⟩ := h.bounds_of_boundary hbuild hv (.inr (by omega))
      rw [hmembers, List.mem_singleton] at hm
      subst hm
      obtain rfl := Option.some.inj (hu.symm.trans hu')
      refine ⟨x, v, hv, hmembers, hbounds ?_⟩
      rw [horigin, show l = net.depth - 1 by omega]
      exact .output

/-- After any calls with any outcome, the table of unprocessed nodes is empty in every layer that the frontier has passed. If
no stage has run out of room, such a layer is covered: every node is owned by a live arnode, the inputs have exactly their
declared ranges, and the property's output has the bound of the property. -/
theorem covers_of_reaches (hbuild : build net property options = .ok start) (hreach : Reaches start n) {l : Nat}
    {layer : Layer} (hlayer : n.abstraction.layers[l]? = some layer) (hl : n.frontier.isPreprocessed l = true) :
    layer.isPreprocessed = true ∧ (ReachesWithRoom start n → Covers net property n l) := by
  have hswept := hreach.swept hbuild
  have hcleared : n.abstraction.Cleared l := hswept.cleared hl
  exact ⟨hcleared.isPreprocessed hswept.steady.coherent.grounded.nodes hlayer,
    fun hroom => (hroom.orderly hbuild).covers hbuild hl⟩

end Covering

end Network

/-- One output that repeats the only input. -/
def Feedforward.relay : Feedforward Rat := ⟨[⟨0, 1⟩], [⟨[[1]], [0]⟩]⟩

namespace Network

/-- With two variables both layers of the relaying network are preprocessed and covered. -/
theorem covers_of_reaches_relay : ∃ start n layer,
    build .relay ⟨.maximize, 0, 1⟩ { Options.standard with variableLimit := some 2 } = .ok start ∧
    complete start = .ok () n ∧ Reaches start n ∧ ReachesWithRoom start n ∧ n.abstraction.layers[0]? = some layer ∧
    n.frontier.isPreprocessed 0 = true ∧ layer.isPreprocessed = true ∧ Covers .relay ⟨.maximize, 0, 1⟩ n 0 := by
  obtain ⟨start, n, hbuild, hcomplete, hreach, hsome, hl⟩ :=
    exists_completed .relay ⟨.maximize, 0, 1⟩ { Options.standard with variableLimit := some 2 }
      (P := fun _ n => n.abstraction.layers[0]?.isSome = true ∧ n.frontier.isPreprocessed 0 = true) (by decide +kernel)
  obtain ⟨layer, hlayer⟩ := Option.isSome_iff_exists.mp hsome
  have hafter : Call.complete.after start = n := Call.after_of_ok hcomplete
  have hroom : ReachesWithRoom start n := hafter ▸ .step .refl .complete fun _ e n' hfail => by
    have hfail : complete start = .error e n' := hfail
    rw [hcomplete] at hfail
    cases hfail
  obtain ⟨hempty, hcovers⟩ := covers_of_reaches hbuild hreach.reaches hlayer hl
  exact ⟨start, n, layer, hbuild, hcomplete, hreach.reaches, hroom, hlayer, hl, hempty, hcovers hroom⟩

/-- Without a variable the output layer cannot be preprocessed, but the second attempt is taken for a success: the node of
the output was classified by the first one, and nothing owns it. -/
theorem not_covers_of_retry : ∃ start n₁ n₂,
    build .relay ⟨.maximize, 0, 1⟩ { Options.standard with variableLimit := some 0 } = .ok start ∧
    preprocessNext start = .error (.exhausted 0) n₁ ∧ preprocessNext n₁ = .ok (some 1) n₂ ∧ Reaches start n₂ ∧
    n₂.frontier.isPreprocessed 1 = true ∧ ¬Covers .relay ⟨.maximize, 0, 1⟩ n₂ 1 := by
  obtain ⟨start, hbuild, hmeets⟩ := exists_ok_of_toOption
    (r := build .relay ⟨.maximize, 0, 1⟩ { Options.standard with variableLimit := some 0 })
    (P := fun start => preprocessNext.Meets start (fun _ _ => False) fun e n₁ => e = .exhausted 0 ∧
      preprocessNext.Meets n₁ (fun l n₂ => l = some 1 ∧ n₂.frontier.isPreprocessed 1 = true ∧
        (n₂.abstraction.nodes.get? ⟨1, 0⟩).any (fun u => decide (u.location.layer = 1 ∧ u.data.owner = none)) = true) Step.Never)
    (by decide +kernel)
  obtain ⟨_, n₁, hfail, rfl, hagain⟩ := hmeets.exists_error
  obtain ⟨_, n₂, hretry, rfl, hl, hnode⟩ := hagain.exists_ok
  obtain ⟨u, hu, hboth⟩ := (Option.any_eq_true _ _).mp hnode
  obtain ⟨hlayer, hnone⟩ := of_decide_eq_true hboth
  have hafter : Call.preprocess.after start = n₁ := Call.after_of_meets (P := (· = n₁)) (by
    rw [Call.run, Step.meets_discard, Step.Meets, hfail])
  have hafter' : Call.preprocess.after n₁ = n₂ := Call.after_of_meets (P := (· = n₂)) (by
    rw [Call.run, Step.meets_discard, Step.Meets, hretry])
  have hreach : Reaches start n₂ := hafter' ▸ .step (hafter ▸ .step .refl .preprocess) .preprocess
  refine ⟨start, n₁, n₂, hbuild, hfail, hretry, hreach, hl, fun hcovers => ?_⟩
  obtain ⟨x, _, howner, _⟩ := hcovers.owned hu hlayer
  rw [hnone] at howner
  cases howner

end Network

end ReluAbstraction
