import ReluAbstraction.Proofs.ConcreteQuery
import ReluAbstraction.Proofs.Runs
import ReluAbstraction.Proofs.Soundness

/-!
# Answers with an exact solver

With a solver that gives a solution of every query that has one, a run is as good as its abstraction. If every neuron is
fed, the last abstraction that a run can come to is exact, so a run without a budget does not end without an answer.
-/

namespace ReluAbstraction

variable {σ : Type}

namespace Solver

/-- The solver answers every query, with values that satisfy it, or with none if there are no such values. -/
structure Exact (solver : Solver σ Rat) : Prop where
  total : solver.Total
  sat : ∀ {q options state o state'}, solver.solve q options state = .ok o state' → o.isSat = true →
    q.isSatisfiedBy o.assignment .exact = true
  unsat : ∀ {q options state o state'}, solver.solve q options state = .ok o state' → o.isSat = false →
    ∀ values, q.isSatisfiedBy values .exact = false

/-- A query that has a solution has one with a value in it. -/
theorem exists_values {q : Query Rat} {values : Assignment Rat} (h : q.isSatisfiedBy values .exact = true) :
    ∃ values' : Assignment Rat, values'.isEmpty = false ∧ q.isSatisfiedBy values' .exact = true := by
  refine ⟨values.insert 0 (values.value 0), ?_, ?_⟩
  · rw [← Bool.not_eq_true, SortedMap.isEmpty_iff]
    intro hempty
    have hzero := hempty 0
    rw [SortedMap.get?_insert, if_pos rfl] at hzero
    cases hzero
  · rw [Query.isSatisfiedBy_exact_iff] at h ⊢
    have hvalue : Assignment.value (values.insert 0 (values.value 0)) = values.value := by
      funext v
      rw [Assignment.value, SortedMap.get?_insert]
      split
      · next hv => rw [hv, Option.getD_some]
      · rfl
    rw [hvalue]
    exact h

open scoped Classical in
/-- The solver that chooses a solution whenever there is one. -/
noncomputable def oracle : Solver Unit Rat where
  solve q _ := pure
    { assignment := if h : ∃ values : Assignment Rat, values.isEmpty = false ∧ q.isSatisfiedBy values .exact = true
        then h.choose else .empty
      stats := .zero }

theorem oracle_exact : oracle.Exact := by
  refine ⟨fun _ _ _ => ⟨_, _, rfl⟩, ?_, ?_⟩
  · intro q _ _ o _ ho hsat
    cases ho
    by_cases h : ∃ values : Assignment Rat, values.isEmpty = false ∧ q.isSatisfiedBy values .exact = true
    · simp only [dif_pos h]
      exact h.choose_spec.2
    · simp only [SolveOutcome.isSat, dif_neg h] at hsat
      cases hsat
  · intro q _ _ o _ ho hsat values
    cases ho
    by_cases h : ∃ values : Assignment Rat, values.isEmpty = false ∧ q.isSatisfiedBy values .exact = true
    · simp [SolveOutcome.isSat, dif_pos h, h.choose_spec.1] at hsat
    · rw [← Bool.not_eq_true]
      exact fun hvalues => h (exists_values hvalues)

end Solver

/-- One output that is always zero, as its only weight is. -/
def Feedforward.unfed : Feedforward Rat := ⟨[⟨0, 1⟩], [⟨[[0]], [0]⟩]⟩

namespace Session

open Network

variable {net : Feedforward Rat} {property : Property Rat} {options : Options} {start n n₁ n' : Network Rat}
  {solver : Solver σ Rat} {solveOptions : SolveOptions} {state : σ} {q : Query Rat}

/-- With an exact solver, the verdict `unsat` means that the abstract query has no solution. -/
theorem Verified.unsatisfiable (h : Verified solver solveOptions state n q .unsat n') (hexact : solver.Exact) (values : Assignment Rat) :
    q.isSatisfiedBy values .exact = false := by
  cases h with
  | unsat hanswer hnone => exact hexact.unsat hanswer hnone values

/-- The solution of the query behind a verdict that is not `unsat`, with the inputs that it gives. -/
theorem exists_feeds (hbuild : build net property options = .ok start) (h : Orderly net property start n)
    {values : Assignment Rat} {inputs : List Rat} (hinputs : n.inputsOf values = .ok inputs) :
    inputs.length = net.inputs.length ∧ n.abstraction.Feeds values inputs := by
  obtain ⟨inputs', hinputs', hlength, hfeeds⟩ := h.inputsOf_eq hbuild values
  obtain rfl : inputs = inputs' := Except.ok.inj (hinputs.symm.trans hinputs')
  exact ⟨hlength, hfeeds⟩

/-- If every neuron is fed, a spurious solution leaves something to split: in an abstraction whose arnodes hold one node
each, the inputs of any solution reach the region. -/
theorem bestSplit_ne_of_spurious (hexact : solver.Exact) (hvalid : net.validate = .ok ()) (hfed : net.Fed)
    (hbuild : build net property options = .ok start) (hreach : ReachesInOrder start n)
    (hcomplete : n.frontier.isComplete = true) (hquery : abstractQuery n = .ok q n₁)
    (hverified : Verified solver solveOptions state n₁ q .spurious n') : n'.bestSplit ≠ .error .noSplitCandidate := by
  intro hnone
  obtain ⟨hposed, ho, hfrontier⟩ := (hreach.abstractQuery_posed hbuild hcomplete).of_ok hquery
  obtain ⟨hdepth, houtput, _⟩ := build_eq_ok hbuild
  have hnet := Feedforward.shaped_of_validate hvalid
  have hsingle : n₁.abstraction.Single := by
    obtain ⟨hfrontier', habstraction⟩ := hverified.rest_eq
    have halone := (hverified.orderly ho).alone_of_bestSplit hbuild (by rw [hfrontier', hfrontier, hcomplete]) hnone
    rw [habstraction] at halone
    exact fun x b hb => (halone hb).resolve_right not_false
  cases hverified with
  | spurious hanswer hsome hinputs hreplay hempty =>
    obtain ⟨hlength, hfeeds⟩ := exists_feeds hbuild ho hinputs
    have hattains := ((hposed.exact hsingle hnet hfed (Feedforward.layers_ne_nil hdepth) houtput hlength).mp
      ⟨_, hexact.sat hanswer hsome, hfeeds⟩).2
    obtain ⟨values, hvalues⟩ := (ConcreteEncoding.exists_pinned_iff hnet hdepth houtput hlength).mpr hattains
    rw [ho.concrete_eq] at hreplay
    rw [hexact.unsat hreplay hempty values] at hvalues
    cases hvalues

/-- Refinement reaches an answer in a network all of whose neurons are fed. With an exact solver and no budget for splits,
a run that can complete the abstraction finds that the region is out of reach, or inputs that reach it, in whatever order
edges are taken. In any complete abstraction, a spurious solution leaves something to split. -/
theorem run_conclusive_of_fed (hvalid : net.validate = .ok ()) (hfed : net.Fed)
    (hbuild : build net property options = .ok start) (hexact : solver.Exact) (solveOptions : SolveOptions) (state : σ) :
    (∀ completed, Network.complete start = .ok () completed → ∀ budget : Budget, budget.splits = none → ∀ order,
      ∃ report s', runIn order solver solveOptions budget ⟨start, state⟩ = .ok report s' ∧
        (report.outcome = .unsat ∨ ∃ counterexample, report.outcome = .sat counterexample)) ∧
    ∀ n s', ReachesInOrder start n → n.frontier.isComplete = true →
      verify solver solveOptions ⟨n, state⟩ = .ok .spurious s' → s'.network.bestSplit ≠ .error .noSplitCandidate := by
  constructor
  · intro completed hcomplete budget hbudget order
    obtain ⟨report, s', hrun, ⟨n, _, q, n₁, verdict, h, hquery, hverified, hsettled⟩, _⟩ :=
      (runIn_meets hexact.total hbuild hcomplete order solveOptions budget state).exists_ok
    refine ⟨report, s', hrun, ?_⟩
    generalize report.outcome = outcome at hsettled ⊢
    cases hsettled with
    | unsat => exact .inl rfl
    | sat counterexample => exact .inr ⟨counterexample, rfl⟩
    | budgetSpent hspent =>
      rw [hbudget] at hspent
      cases hspent
    | fullyRefined _ hnone =>
      exact absurd hnone (bestSplit_ne_of_spurious hexact hvalid hfed hbuild h.reaches h.complete hquery hverified)
  · intro n s' hreach hcomplete hverify
    obtain ⟨q, n₁, hquery, hverified⟩ :=
      (verify_meets hexact.total solveOptions (s := ⟨n, state⟩) (hreach.orderly hbuild) hbuild hcomplete).of_ok hverify
    exact bestSplit_ne_of_spurious hexact hvalid hfed hbuild hreach hcomplete hquery hverified

/-- If the query has no solution after all merges, the region is found to be out of reach. -/
theorem run_of_unsatisfiable (hexact : solver.Exact) (hbuild : build net property options = .ok start)
    {completed : Network Rat} (hcomplete : Network.complete start = .ok () completed) {budget : Budget} {merges : Nat}
    (hcoarsen : coarsen budget.merges completed = .ok merges n) (hquery : abstractQuery n = .ok q n₁)
    (hnone : ∀ values, q.isSatisfiedBy values .exact = false) (solveOptions : SolveOptions) (state : σ) :
    ∃ report s', run solver solveOptions budget ⟨start, state⟩ = .ok report s' ∧ report.outcome = .unsat := by
  have h := (((complete_underway hbuild hcomplete).coarsenIn_meets hbuild _ budget.merges).of_ok hcoarsen).1
  obtain ⟨verdict, s₁, hverify, q', n₂, hquery', hverified⟩ :=
    (verify_meets hexact.total solveOptions (s := ⟨n, state⟩) (h.reaches.orderly hbuild) hbuild h.complete).exists_ok
  obtain ⟨rfl, rfl⟩ : q' = q ∧ n₂ = n₁ := by
    rw [hquery] at hquery'
    cases hquery'
    exact ⟨rfl, rfl⟩
  have hnot : ∀ {o : SolveOutcome Rat} {state'}, solver.solve q' solveOptions state = .ok o state' → ¬o.isSat = true := by
    intro o state' hanswer hsome
    have hvalues := hexact.sat hanswer hsome
    rw [hnone] at hvalues
    cases hvalues
  have hunsat : verdict = .unsat := by
    generalize s₁.network = m at hverified
    cases hverified with
    | unsat => rfl
    | spurious hanswer hsome => exact absurd hsome (hnot hanswer)
    | sat hanswer hsome => exact absurd hsome (hnot hanswer)
  subst hunsat
  obtain ⟨report, s', hrun, houtcome, _⟩ := runIn_of_first hcomplete budget hcoarsen hverify .unsat
  exact ⟨report, s', hrun, houtcome⟩

/-- In the forked network every neuron is fed, so that a run with a solver that chooses solutions has an answer. -/
theorem run_conclusive_of_fed_fork : Feedforward.fork.validate = .ok () ∧ Feedforward.fork.Fed ∧ Solver.oracle.Exact ∧
    ∃ start completed, build .fork ⟨.maximize, 0, 1⟩ .standard = .ok start ∧
    Network.complete start = .ok () completed ∧ ∃ report s', run Solver.oracle default ⟨none, none⟩ ⟨start, ()⟩ = .ok report s' ∧
      (report.outcome = .unsat ∨ ∃ counterexample, report.outcome = .sat counterexample) := by
  have hvalid : Feedforward.fork.validate = .ok () := by decide +kernel
  have hfed : Feedforward.fork.Fed := by
    unfold Feedforward.Fed
    decide +kernel
  obtain ⟨start, completed, hbuild, hcomplete, _⟩ := exists_completed .fork ⟨.maximize, 0, 1⟩ .standard
    (P := fun _ _ => True) (by decide +kernel)
  exact ⟨hvalid, hfed, Solver.oracle_exact, start, completed, hbuild, hcomplete,
    (run_conclusive_of_fed hvalid hfed hbuild Solver.oracle_exact default ()).1 completed hcomplete ⟨none, none⟩ rfl _⟩

/-- An arnode without incoming edges has no equation, so its value is free in the abstract query. Where an output is always
zero, a solution with the output one is spurious, and there is nothing to split. -/
theorem run_inconclusive_of_unfed : Feedforward.unfed.validate = .ok () ∧ Solver.oracle.Exact ∧
    ∃ start, build .unfed ⟨.maximize, 0, 1⟩ .standard = .ok start ∧
      ∀ (σ : Type) (solver : Solver σ Rat), solver.Exact → ∀ state, ∃ report s',
        run solver default ⟨none, none⟩ ⟨start, state⟩ = .ok report s' ∧
          report.outcome = .inconclusive .fullyRefined := by
  have hvalid : Feedforward.unfed.validate = .ok () := by decide +kernel
  have hattains : ∀ inputs : List Rat, inputs.length = 1 → ¬Feedforward.unfed.Attains ⟨.maximize, 0, 1⟩ inputs := by
    intro inputs hlength hattains
    rw [Feedforward.attains_iff (Feedforward.shaped_of_validate hvalid) (by decide) (by decide) hlength] at hattains
    have hraw : Feedforward.unfed.rawAt inputs 1 0 = 0 := by
      simp [Feedforward.rawAt, Feedforward.weighted, Feedforward.weight, Feedforward.bias, Feedforward.width,
        Feedforward.unfed]
    have hle : (1 : Rat) ≤ Feedforward.unfed.rawAt inputs 1 0 := hattains
    rw [hraw] at hle
    exact absurd hle (by decide)
  obtain ⟨start, completed, hbuild, hcomplete, _, hmeets⟩ := exists_completed .unfed ⟨.maximize, 0, 1⟩ .standard
    (P := fun _ completed => (coarsen none).Meets completed (fun _ n => abstractQuery.Meets n
      (fun q _ => q.isSatisfiedBy (SortedMap.ofList [(0, 1), (1, 0)]) .exact = true) Step.Never) Step.Never) (by decide +kernel)
  obtain ⟨_, n, hcoarsen, hsatisfied⟩ := hmeets.exists_ok
  refine ⟨hvalid, Solver.oracle_exact, start, hbuild, fun σ solver hexact state => ?_⟩
  have h := (((complete_underway hbuild hcomplete).coarsenIn_meets hbuild _ none).of_ok hcoarsen).1
  have ho := h.reaches.orderly hbuild
  obtain ⟨verdict, s₁, hverify, q, n₁, hquery, hverified⟩ :=
    (verify_meets hexact.total default (s := ⟨n, state⟩) ho hbuild h.complete).exists_ok
  have ho₁ := (ho.recast_of_abstractQuery hquery).2.2
  have hsolution := hsatisfied.of_ok hquery
  have hspurious : verdict = .spurious := by
    generalize s₁.network = m at hverified
    cases hverified with
    | unsat hanswer hnone =>
      rw [hexact.unsat hanswer hnone] at hsolution
      cases hsolution
    | spurious => rfl
    | sat _ _ hinputs hreplay hreached =>
      obtain ⟨hlength, _⟩ := exists_feeds hbuild ho₁ hinputs
      rw [ho₁.concrete_eq] at hreplay
      refine absurd ?_ (hattains _ hlength)
      exact (ConcreteEncoding.exists_pinned_iff (Feedforward.shaped_of_validate hvalid) (by decide) (by decide)
        hlength).mp ⟨_, hexact.sat hreplay hreached⟩
  subst hspurious
  have hnone : s₁.network.bestSplit = .error .noSplitCandidate := by
    rcases (hverified.orderly ho₁).bestSplit_cases with ⟨c, _, hcan⟩ | ⟨hnone, _⟩
    · obtain ⟨⟨hfirst, hlast⟩, _⟩ := (hverified.orderly ho₁).of_requireRefinable hcan.refinable
      have hpos := Feedforward.unfed.floor_pos
      have hdepth : Feedforward.unfed.depth = 2 := rfl
      omega
    · exact hnone
  obtain ⟨report, s', hreport, houtcome, _⟩ :=
    runIn_of_first hcomplete ⟨none, none⟩ hcoarsen hverify (.fullyRefined (by decide) hnone)
  exact ⟨report, s', hreport, houtcome⟩

end Session

end ReluAbstraction
