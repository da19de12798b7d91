import ReluAbstraction.Proofs.Choices

/-!
# Verdicts

Verification asks the solver for a solution of the abstract query, and then whether the inputs of this solution lead the
network into the region. With a solver that always answers, verification of a complete abstraction always gives a verdict,
and the verdict tells what the solver has answered.
-/

namespace ReluAbstraction

variable {σ α : Type}

namespace Solver

/-- The solver answers every query. -/
def Total (solver : Solver σ α) : Prop := ∀ q options state, ∃ o state', solver.solve q options state = .ok o state'

end Solver

namespace Network

/-- The network with one more solver call counted. -/
def counted (n : Network α) (event : Event) : Network α :=
  { n with
    abstraction := { n.abstraction with metrics := n.abstraction.metrics.count event }
    solverCalls := n.solverCalls + 1 }

variable [Scalar α] {net : Feedforward α} {property : Property α} {options : Options} {start n : Network α}

section Consulting

/-- Between two networks only equations, the abstract query and the counts have changed. -/
structure Consulted (n n' : Network α) : Prop where
  refreshed : Abstraction.Refreshed n.abstraction n'.abstraction
  rest_eq : n' = { n with abstraction := n'.abstraction, solverCalls := n'.solverCalls }

omit [Scalar α] in
theorem consulted_self (h : n.abstraction.ArnodesSound) : Consulted n n := ⟨.refl h, rfl⟩

omit [Scalar α] in
theorem Consulted.trans {n' n'' : Network α} (h : Consulted n n') (h' : Consulted n' n'') : Consulted n n'' :=
  ⟨h.refreshed.trans h'.refreshed, by rw [h'.rest_eq, h.rest_eq]⟩

omit [Scalar α] in
theorem consulted_counted (h : n.abstraction.ArnodesSound) (event : Event) : Consulted n (n.counted event) :=
  ⟨⟨⟨h.graph, h.housed⟩, rfl, rfl, fun _ => rfl, fun _ _ => rfl, rfl⟩, rfl⟩

/-- Giving the abstract query makes no solver call. -/
theorem abstractQuery_consulted (h : n.abstraction.ArnodesSound) :
    abstractQuery.Meets n (fun _ n' => Consulted n n' ∧ n'.solverCalls = n.solverCalls) Step.Never := by
  refine (abstractQuery_meets h).imp ?_
  rintro q n' ⟨rebuilt, a, _, hrefreshed, rfl, _⟩
  exact ⟨⟨hrefreshed, rfl⟩, rfl⟩

/-- As `Consulted`, from networks with sound arnodes on. -/
private def Asked (n n' : Network α) : Prop := n.abstraction.ArnodesSound → Consulted n n'

private instance : Std.Refl (α := Network α) Asked := ⟨fun _ h => consulted_self h⟩

private instance : IsTrans (Network α) Asked := ⟨fun _ _ _ h h' hs => (h hs).trans (h' (h hs).refreshed.sound)⟩

/-- Verification leaves the arnodes, their edges, the frontier and the concrete query alone, whatever the solver does. -/
theorem verify_consulted {s : Session σ α} (h : s.network.abstraction.ArnodesSound) (solver : Solver σ α)
    (solveOptions : SolveOptions) :
    (Session.verify solver solveOptions).Meets s (fun _ s' => Consulted s.network s'.network)
      (fun _ s' => Consulted s.network s'.network) := by
  have hquery : Step.Within Asked (abstractQuery : Step (Network α) (Query α)) :=
    Step.within_of_meets fun hn => (abstractQuery_consulted hn).mono (fun _ _ hc => hc.1) fun _ _ hfalse => hfalse.elim
  have hcount : ∀ event, Step.Within Asked (countCall event : Step (Network α) Unit) :=
    fun event n hn => consulted_counted hn event
  exact (within_verify hquery hcount solver solveOptions s).mono (fun _ _ hc => hc h) fun _ _ hc => hc h

end Consulting

section Inputs

/-- The inputs have the values of the given arnodes of the input layer. -/
private def Fills (n : Network α) (values : Assignment α) (done : List ArNodeId) (inputs : List α) : Prop :=
  ∀ x ∈ done, ∀ ⦃b m c⦄, n.abstraction.arnodes.body? x = some b → b.location.layer = 0 → m ∈ b.data.members →
    n.abstraction.info? m = some c → inputs[c.origin.index]? = some (values.value b.data.vars.incoming)

/-- One more arnode sets its own input and no other. -/
private theorem Orderly.fills_next (h : Orderly net property start n) (hbuild : build net property options = .ok start)
    {values : Assignment α} {done : List ArNodeId} {inputs : List α} {x : ArNodeId} {v : ArNode α}
    (hv : n.abstraction.arnodes.get? x = some v) (hl : v.location.layer = 0) (hsize : inputs.length = net.inputs.length)
    (hfills : n.Fills values done inputs) : ∃ inputs', v.data.members.foldlM (fun inputs member => do
        let neuron := (← n.abstraction.node member).data.origin.index
        return inputs.set neuron (values.value v.data.vars.incoming)) inputs = .ok inputs' ∧
      inputs'.length = net.inputs.length ∧ n.Fills values (done ++ [x]) inputs' := by
  have hg := h.woven.grounded
  have hb := Graph.body?_of_get? hv
  have hfixed : ¬net.Regroupable 0 := fun hzero => absurd hzero.1 (Nat.not_le.mpr net.floor_pos)
  obtain ⟨m, hm⟩ := List.length_eq_one_iff.mp ((h.alone hbuild hb).resolve_right (hl ▸ hfixed))
  have hmembers : v.data.members = [m] := hm
  obtain ⟨c, hc, hholder, hcl, _⟩ := hg.owned.member hb m (by simp [hmembers])
  obtain ⟨d, hd, hdc⟩ := Option.map_eq_some_iff.mp hc
  obtain ⟨u, hu, rfl⟩ := Graph.body?_eq_some_iff.mp hd
  have hread : n.abstraction.node m = .ok u := Arena.get_of_get? hu
  have horigin : u.data.origin = c.origin := congrArg NodeInfo.origin hdc
  have hindex : c.origin.index < inputs.length := by
    have hlt := h.represents.faithful.index_lt hc
    rw [hcl.trans hl] at hlt
    rw [hsize]
    exact hlt
  refine ⟨inputs.set c.origin.index (values.value v.data.vars.incoming), ?_, by rw [List.length_set, hsize], ?_⟩
  · simp only [hmembers, hread, horigin, List.foldlM_cons, List.foldlM_nil, bind, Except.bind, pure, Except.pure]
  · intro y hy b' m' c' hb' hl' hm' hc'
    obtain ⟨e, he, hholder', hel, _⟩ := hg.owned.member hb' m' hm'
    obtain rfl : c' = e := Option.some.inj (hc'.symm.trans he)
    -- The same input belongs to the same node, and so to the same arnode.
    by_cases hsame : c.origin.index = c'.origin.index
    · obtain rfl : m = m' := h.represents.faithful.input_unique hc hc' (hcl.trans hl) (hel.trans hl') hsame
      obtain rfl : x = y := Option.some.inj (hholder.symm.trans hholder')
      obtain rfl : b' = v.body := Option.some.inj (hb'.symm.trans hb)
      rw [← hsame, List.getElem?_set_self hindex]
      rfl
    · rw [List.getElem?_set_ne hsame]
      rcases List.mem_append.mp hy with hdone | hx
      · exact hfills y hdone hb' hl' hm' hc'
      · obtain rfl := List.mem_singleton.mp hx
        obtain rfl : b' = v.body := Option.some.inj (hb'.symm.trans hb)
        rw [hm, List.mem_singleton] at hm'
        subst hm'
        exact absurd (congrArg (·.origin.index) (Option.some.inj (hc.symm.trans hc'))) hsame

/-- Values of the abstract variables give every input the value of its arnode. -/
theorem Orderly.inputsOf_eq (h : Orderly net property start n) (hbuild : build net property options = .ok start)
    (values : Assignment α) : ∃ inputs, n.inputsOf values = .ok inputs ∧ inputs.length = net.inputs.length ∧
      ∀ ⦃x b m c⦄, n.abstraction.arnodes.body? x = some b → b.location.layer = 0 → m ∈ b.data.members →
        n.abstraction.info? m = some c → inputs[c.origin.index]? = some (values.value b.data.vars.incoming) := by
  have hpos : 0 < net.depth := Nat.lt_of_lt_of_le Nat.zero_lt_two (build_eq_ok hbuild).1
  obtain ⟨layer, hlayer⟩ := h.exists_layer hpos
  obtain ⟨ids, hids, hmem⟩ := arnodesIn_eq h.woven.grounded.arnodes hlayer
  have hlength : n.concrete.inputs.length = net.inputs.length := by
    rw [h.concrete_eq]
    simp [ConcreteEncoding.ofNetwork, Feedforward.width]
  let read (inputs : List α) (id : ArNodeId) : Except Error (List α) := do
    let arnode ← n.abstraction.arnode id
    arnode.data.members.foldlM (fun inputs member => do
      let neuron := (← n.abstraction.node member).data.origin.index
      return inputs.set neuron (values.value arnode.data.vars.incoming)) inputs
  obtain ⟨inputs, hinputs, hsize, hfills⟩ : ∃ inputs, ids.foldlM read (List.replicate net.inputs.length 0) = .ok inputs ∧
      inputs.length = net.inputs.length ∧ n.Fills values ids inputs := by
    refine exists_foldlM_ok (fun done inputs => inputs.length = net.inputs.length ∧ n.Fills values done inputs)
      ⟨List.length_replicate, fun _ hx => absurd hx List.not_mem_nil⟩ ?_
    rintro done x rest inputs hsplit ⟨hsize, hfills⟩
    obtain ⟨b, hb, hbl⟩ := (hmem x).mp (by simp [hsplit])
    obtain ⟨v, hv, rfl⟩ := Graph.body?_eq_some_iff.mp hb
    have hread : n.abstraction.arnode x = .ok v := Arena.get_of_get? hv
    obtain ⟨inputs', hinputs', hnext⟩ := h.fills_next hbuild hv hbl hsize hfills
    exact ⟨inputs', by simp only [read, hread, bind, Except.bind] at hinputs' ⊢; exact hinputs', hnext⟩
  refine ⟨inputs, ?_, hsize, fun x b m c hb hl => hfills x ((hmem x).mpr ⟨b, hb, hl⟩) hb hl⟩
  simp only [inputsOf, hids, hlength, bind, Except.bind]
  exact hinputs

end Inputs

end Network

namespace Session

variable [Scalar α] {net : Feedforward α} {property : Property α} {options : Options} {start : Network α}

/-- How verification comes to its verdict and what it leaves, where `n` has just given the abstract query `q` and the solver
is in the given state. -/
inductive Verified (solver : Solver σ α) (solveOptions : SolveOptions) (state : σ) (n : Network α) (q : Query α) :
    Verdict α → Network α → Prop
  /-- The abstract query has no solution. -/
  | unsat {o : SolveOutcome α} {state₁ : σ} (hanswer : solver.solve q solveOptions state = .ok o state₁)
      (hnone : o.isSat = false) : Verified solver solveOptions state n q .unsat (n.counted .abstractSolve)
  /-- It has one, but its inputs do not reach the region. -/
  | spurious {o replay : SolveOutcome α} {state₁ state₂ : σ} {inputs : List α}
      (hanswer : solver.solve q solveOptions state = .ok o state₁) (hsome : o.isSat = true)
      (hinputs : n.inputsOf o.assignment = .ok inputs)
      (hreplay : solver.solve (n.concrete.pinned inputs) solveOptions state₁ = .ok replay state₂)
      (hnone : replay.isSat = false) :
      Verified solver solveOptions state n q .spurious ((n.counted .abstractSolve).counted .concreteSolve)
  /-- Its inputs reach the region. -/
  | sat {o replay : SolveOutcome α} {state₁ state₂ : σ} {inputs : List α}
      (hanswer : solver.solve q solveOptions state = .ok o state₁) (hsome : o.isSat = true)
      (hinputs : n.inputsOf o.assignment = .ok inputs)
      (hreplay : solver.solve (n.concrete.pinned inputs) solveOptions state₁ = .ok replay state₂)
      (hreached : replay.isSat = true) :
      Verified solver solveOptions state n q (.sat ⟨inputs, n.concrete.outputs.map replay.assignment.value⟩)
        ((n.counted .abstractSolve).counted .concreteSolve)

omit [Scalar α] in
/-- A solver that always answers does so when asked. -/
theorem ask_meets {solver : Solver σ α} (htotal : solver.Total) (options : SolveOptions) (event : Event) (q : Query α)
    (s : Session σ α) : (ask solver options event q).Meets s
      (fun o s' => solver.solve q options s.solver = .ok o s'.solver ∧ s'.network = s.network.counted event) Step.Never := by
  unfold ask
  rw [Step.meets_bind, onNetwork, Step.meets_zoom]
  change Step.Meets (onSolver (solver.solve q options)) { s with network := s.network.counted event } _ _
  rw [onSolver, Step.meets_zoom]
  obtain ⟨o, state, hsolve⟩ := htotal q options s.solver
  unfold Step.Meets
  rw [hsolve]
  exact ⟨rfl, rfl⟩

/-- With a solver that always answers, verification of a complete abstraction always comes to a verdict. -/
theorem verify_meets {solver : Solver σ α} (htotal : solver.Total) (solveOptions : SolveOptions) {s : Session σ α}
    (h : Network.Orderly net property start s.network) (hbuild : Network.build net property options = .ok start)
    (hcomplete : s.network.frontier.isComplete = true) : (verify solver solveOptions).Meets s
      (fun verdict s' => ∃ q n, Network.abstractQuery s.network = .ok q n ∧
        Verified solver solveOptions s.solver n q verdict s'.network)
      Step.Never := by
  unfold verify
  rw [Step.meets_bind, Step.meets_get, Step.meets_ite]
  refine ⟨fun hincomplete => ?_, fun _ => ?_⟩
  · rw [hcomplete] at hincomplete
    cases hincomplete
  rw [Step.meets_bind, onNetwork, Step.meets_zoom]
  refine h.abstractQuery_meets.ok_eq.mono ?_ fun _ _ hfail => hfail
  rintro q n ⟨hquery, h', _⟩
  rw [Step.meets_bind]
  refine (ask_meets htotal _ _ q { s with network := n }).imp ?_
  rintro abstracted s₁ ⟨hanswer, hs₁⟩
  rw [Step.meets_ite]
  constructor
  · intro hnone
    refine ⟨q, n, hquery, ?_⟩
    rw [hs₁]
    exact .unsat hanswer (by simpa using hnone)
  · intro hsome
    obtain ⟨inputs, hinputs, _⟩ := h'.inputsOf_eq hbuild abstracted.assignment
    have hread : s₁.network.inputsOf abstracted.assignment = .ok inputs := by
      rw [hs₁]
      exact hinputs
    rw [Step.meets_bind, Step.meets_read, hread]
    dsimp only
    rw [Step.meets_bind, Step.meets_get, Step.meets_bind]
    refine (ask_meets htotal _ _ _ s₁).imp ?_
    rintro replay s₂ ⟨hreplay, hs₂⟩
    rw [hs₁] at hreplay hs₂
    have hsat : abstracted.isSat = true := by simpa using hsome
    rw [Step.meets_ite]
    constructor
    · intro hnone
      refine ⟨q, n, hquery, ?_⟩
      rw [hs₂]
      exact .spurious hanswer hsat hinputs hreplay (by simpa using hnone)
    · intro hreached
      refine ⟨q, n, hquery, ?_⟩
      rw [hs₂, hs₁]
      exact .sat hanswer hsat hinputs hreplay (by simpa using hreached)

end Session

end ReluAbstraction
