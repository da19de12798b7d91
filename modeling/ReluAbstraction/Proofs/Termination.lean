import ReluAbstraction.Proofs.Runs

/-!
# Runs come to an end

A run decides by itself which arnodes to merge and which to split. Whatever was called on a complete abstraction before,
its decisions can be carried out: candidates are live, and there are two free variables for each split that is left. Each
merge leaves one arnode less and each split one more, so both loops of a run end by themselves. The number of steps that
they are given never makes a difference.
-/

namespace ReluAbstraction

variable {σ α : Type} [Scalar α]

namespace Network

variable {net : Feedforward α} {property : Property α} {options : Options} {start completed n : Network α}

/-- On a complete abstraction the stages do nothing. -/
theorem Call.run_of_complete {c : Call α} (hstage : c.isStage = true) (hcomplete : n.frontier.isComplete = true) :
    c.run n = .ok () n := by
  obtain ⟨⟨hpre, hforward⟩, hfull⟩ : (n.frontier.preprocess = none ∧ n.frontier.forward = none) ∧
      n.frontier.full = none := by
    simpa [Frontier.isComplete] using hcomplete
  have hadvance : Network.advance n = .ok false n := by
    rw [Network.advance, Step.get_bind_eq]
    simp only [Frontier.canFullyActivate, Frontier.canForward, hpre, hforward, hfull, hcomplete]
    rfl
  cases c with
  | preprocess =>
    refine Step.discard_eq_ok (b := none) ?_
    rw [preprocessNext, Step.get_bind_eq, hpre]
    rfl
  | forward =>
    refine Step.discard_eq_ok (b := none) ?_
    rw [forwardNext, Step.get_bind_eq]
    simp only [hforward]
    rfl
  | full =>
    refine Step.discard_eq_ok (b := none) ?_
    rw [fullNext, Step.get_bind_eq]
    simp only [hfull]
    rfl
  | advance => exact Step.discard_eq_ok hadvance
  | complete =>
    rw [Call.run, Network.complete, Step.get_bind_eq, advanceUpTo, Step.bind_eq_of_ok hadvance]
    rfl
  | merge l first second => cases hstage
  | split l id cells => cases hstage
  | abstractQuery => cases hstage
  | verify solver options state => cases hstage

namespace Underway

/-- No call, whatever its outcome, takes a run out of its way. -/
theorem after (h : Underway start n) (hbuild : build net property options = .ok start) (c : Call α) :
    Underway start (c.after n) := by
  have ho := h.reaches.orderly hbuild
  by_cases hstage : c.isStage = true
  · have hsame : c.after n = n := by simp [Call.after, Step.outcome, Call.run_of_complete hstage h.complete]
    rwa [hsame]
  have hreaches : ReachesInOrder start (c.after n) := h.reaches.step c fun hstage' => absurd hstage' hstage
  cases c with
  | merge l first second =>
    refine Call.after_of_meets ?_
    rw [Call.run, Step.meets_discard]
    exact (ho.merge_meets l first second).ok_eq.mono (fun _ _ hok => (h.merge hbuild hok.1).1) fun _ _ heq => heq ▸ h
  | split l id cells =>
    refine Call.after_of_meets ?_
    rw [Call.run, Step.meets_discard]
    exact (ho.split_meets l id cells).ok_eq.mono (fun _ _ hok => (h.split hbuild hok.1).1) fun _ _ heq => heq ▸ h
  | abstractQuery =>
    refine (h.consulted hbuild hreaches (Call.after_of_meets ?_)).1
    rw [Call.run, Step.meets_discard]
    exact (abstractQuery_consulted ho.woven.grounded.arnodes).mono (fun _ _ hc => hc.1) fun _ _ hfalse => hfalse.elim
  | verify solver solveOptions state =>
    refine (h.consulted hbuild hreaches (Call.after_of_meets ?_)).1
    exact Call.meets_verify (verify_consulted ho.woven.grounded.arnodes solver solveOptions)
  | preprocess => exact absurd rfl hstage
  | forward => exact absurd rfl hstage
  | full => exact absurd rfl hstage
  | advance => exact absurd rfl hstage
  | complete => exact absurd rfl hstage

/-- A merge that is chosen can be carried out, and if none is chosen there is none. -/
theorem bestMergeIn_outcome (h : Underway start n) (hbuild : build net property options = .ok start)
    (order : ArNodeId → EdgeSet.Listing α ArNodeId) :
    match n.bestMergeIn order with
    | .ok c => ∃ merged n', applyMerge c n = .ok merged n' ∧
        n'.abstraction.arnodes.size + 1 = n.abstraction.arnodes.size
    | .error e => e = .noMergeCandidate := by
  rcases h.bestMergeIn_cases hbuild order with ⟨c, merged, n', hbest, hmerge, _, hsize, _⟩ | hbest
  · rw [hbest]
    exact ⟨merged, n', hmerge, hsize⟩
  · rw [hbest]

/-- A split that is chosen can be carried out, and if none is chosen there is none. -/
theorem bestSplit_outcome (h : Underway start n) (hbuild : build net property options = .ok start) :
    match n.bestSplit with
    | .ok c => ∃ parts n', Network.applySplit c n = .ok parts n' ∧
        n'.abstraction.arnodes.size = n.abstraction.arnodes.size + 1
    | .error e => e = .noSplitCandidate := by
  rcases h.bestSplit_cases hbuild with ⟨c, parts, n', hbest, hsplit, _, hsize, _⟩ | hbest
  · rw [hbest]
    exact ⟨parts, n', hsplit, hsize⟩
  · rw [hbest]

/-- Merging stops by itself before as many steps are made as there are arnodes. -/
theorem coarsenUpToIn_add (h : Underway start n) (hbuild : build net property options = .ok start)
    (order : Network α → ArNodeId → EdgeSet.Listing α ArNodeId) (limit : Option Nat) {fuel : Nat}
    (hfuel : n.abstraction.arnodes.size ≤ fuel) (more merges : Nat) :
    coarsenUpToIn order limit (fuel + more) merges n = coarsenUpToIn order limit fuel merges n := by
  induction fuel generalizing n merges with
  | zero => exact absurd hfuel (Nat.not_le.mpr (h.size_pos hbuild))
  | succ fuel ih =>
    rw [Nat.add_right_comm, coarsenUpToIn, coarsenUpToIn]
    by_cases hspent : Budget.spent limit merges = true
    · rw [if_pos hspent, if_pos hspent]
    rw [if_neg hspent, if_neg hspent, Step.get_bind_eq, Step.get_bind_eq]
    rcases h.bestMergeIn_cases hbuild (order n) with ⟨c, merged, n₁, hbest, hmerge, h₁, hsize, _⟩ | hbest
    · rw [hbest]
      dsimp only
      rw [Step.bind_eq_of_ok (Step.discard_eq_ok hmerge), Step.bind_eq_of_ok (Step.discard_eq_ok hmerge)]
      exact ih h₁ (by omega) (merges + 1)
    · rw [hbest]

end Underway

/-- Whatever is called on the complete abstraction, a run stays on its way. -/
theorem underway_of_reaches (hbuild : build net property options = .ok start)
    (hcomplete : complete start = .ok () completed) (h : Reaches completed n) : Underway start n := by
  induction h with
  | refl => exact complete_underway hbuild hcomplete
  | step _ c ih => exact ih.after hbuild c

end Network

namespace Session

open Network

variable {net : Feedforward α} {property : Property α} {options : Options} {start completed : Network α}
  {solver : Solver σ α}

/-- Verifying and splitting stops by itself, as there are no more arnodes than nodes. -/
theorem refineUpTo_add (htotal : solver.Total) (hbuild : build net property options = .ok start)
    (solveOptions : SolveOptions) (limit : Option Nat) {fuel : Nat} (splits : Nat) {s : Session σ α}
    (h : Underway start s.network)
    (hfuel : s.network.abstraction.nodes.size < s.network.abstraction.arnodes.size + fuel) (more : Nat) :
    refineUpTo solver solveOptions limit (fuel + more) splits s = refineUpTo solver solveOptions limit fuel splits s := by
  induction fuel generalizing s splits with
  | zero => exact absurd hfuel (Nat.not_lt.mpr (h.reaches.orderly hbuild).woven.grounded.size_le)
  | succ fuel ih =>
    obtain ⟨verdict, s₁, hverify, q, n, hquery, hverified⟩ :=
      (verify_meets htotal solveOptions (h.reaches.orderly hbuild) hbuild h.complete).exists_ok
    obtain ⟨h₁, hsize, _⟩ := underway_of_verify h hbuild hverify hquery hverified
    rw [Nat.add_right_comm, refineUpTo, refineUpTo, Step.bind_eq_of_ok hverify, Step.bind_eq_of_ok hverify]
    cases verdict with
    | unsat => rfl
    | sat counterexample => rfl
    | spurious =>
      dsimp only
      by_cases hspent : Budget.spent limit splits = true
      · rw [if_pos hspent, if_pos hspent]
      rw [if_neg hspent, if_neg hspent, Step.get_bind_eq, Step.get_bind_eq]
      rcases h₁.bestSplit_cases hbuild with ⟨c, parts, n₂, hbest, hsplit, h₂, hmore, _⟩ | hbest
      · have hnodes := h.nodes_size_eq h₂
        have hzoom : onNetwork (applySplit c) s₁ = .ok parts { s₁ with network := n₂ } := by
          simp [onNetwork, Step.zoom, hsplit]
        rw [hbest]
        dsimp only
        rw [Step.bind_eq_of_ok (Step.discard_eq_ok hzoom), Step.bind_eq_of_ok (Step.discard_eq_ok hzoom)]
        exact ih (splits + 1) h₂ (by dsimp only; omega)
      · rw [hbest]

/-- A run comes to an end and never fails on its own decisions, provided that the solver always answers and that the
abstraction can be completed. It makes fewer merges than there are arnodes at first and no more splits than merges, with
two solver calls for each split and one or two more for the answer. Neither of its loops would do anything else with more
steps. Whatever was called on the complete abstraction, a merge or a split that is chosen succeeds and leaves one
arnode less or one more, and if none is chosen there is none. All this holds in whatever order the edges of each source are
taken. -/
theorem run_terminates (hbuild : build net property options = .ok start)
    (hcomplete : Network.complete start = .ok () completed) (htotal : solver.Total) (solveOptions : SolveOptions)
    (budget : Budget) (state : σ) :
    completed.frontier.isComplete = true ∧
    (∀ order, ∃ report s', runIn order solver solveOptions budget ⟨start, state⟩ = .ok report s' ∧
      report.merges < completed.abstraction.arnodes.size ∧ report.refinements ≤ report.merges ∧
      (report.outcome = .unsat → report.solverCalls = 2 * report.refinements + 1) ∧
      (report.outcome ≠ .unsat → report.solverCalls = 2 * report.refinements + 2)) ∧
    ∀ n, Reaches completed n →
      (∀ order more, coarsenUpToIn order budget.merges (n.abstraction.arnodes.size + more) 0 n =
        coarsenIn order budget.merges n) ∧
      (∀ more state, refineUpTo solver solveOptions budget.splits (n.abstraction.nodes.size + 1 + more) 0 ⟨n, state⟩ =
        refine solver solveOptions budget.splits ⟨n, state⟩) ∧
      (∀ order, match n.bestMergeIn order with
        | .ok c => ∃ merged n', applyMerge c n = .ok merged n' ∧
            n'.abstraction.arnodes.size + 1 = n.abstraction.arnodes.size
        | .error e => e = .noMergeCandidate) ∧
      (match n.bestSplit with
        | .ok c => ∃ parts n', applySplit c n = .ok parts n' ∧
            n'.abstraction.arnodes.size = n.abstraction.arnodes.size + 1
        | .error e => e = .noSplitCandidate) := by
  refine ⟨(complete_underway hbuild hcomplete).complete, fun order => ?_, ?_⟩
  · obtain ⟨report, s', hrun, _, hbalanced⟩ :=
      (runIn_meets htotal hbuild hcomplete order solveOptions budget state).exists_ok
    have hcalls := hbalanced.calls_eq
    refine ⟨report, s', hrun, hbalanced.merges_lt, hbalanced.refinements_le, fun hunsat => ?_, fun hother => ?_⟩
    · rw [hcalls, hunsat]
      rfl
    · rw [hcalls]
      cases houtcome : report.outcome with
      | unsat => exact absurd houtcome hother
      | sat counterexample => rfl
      | inconclusive reason => rfl
  · intro n hreach
    have h := underway_of_reaches hbuild hcomplete hreach
    refine ⟨fun order more => ?_, fun more state => ?_, h.bestMergeIn_outcome hbuild, h.bestSplit_outcome hbuild⟩
    · exact h.coarsenUpToIn_add hbuild order budget.merges (Nat.le_refl _) more 0
    · exact refineUpTo_add htotal hbuild solveOptions budget.splits 0 (s := ⟨n, state⟩) h (by dsimp only; omega) more

end Session

/-- A solver that finds a value for the first variable and nothing, in turn. -/
def Solver.wavering : Solver Bool Rat where
  solve _ _ := do
    let finds ← get
    set !finds
    return ⟨if finds then SortedMap.empty.insert 0 0 else .empty, .zero⟩

theorem Solver.wavering_total : Solver.wavering.Total := fun _ _ _ => ⟨_, _, rfl⟩

/-- With ten variables the forked network has none left once its abstraction is complete. A solver that never lets a
counterexample pass has the one merge taken back, and the run ends after four solver calls. -/
theorem Session.run_terminates_fork : Solver.wavering.Total ∧ ∃ start completed report s',
    Network.build .fork ⟨.maximize, 0, 1⟩ { Options.standard with variableLimit := some 10 } = .ok start ∧
    Network.complete start = .ok () completed ∧ completed.abstraction.encoding.pool.available = 0 ∧
    run Solver.wavering default ⟨none, none⟩ ⟨start, true⟩ = .ok report s' ∧ report.merges = 1 ∧ report.refinements = 1 ∧
    report.merges < completed.abstraction.arnodes.size ∧ report.solverCalls = 4 := by
  obtain ⟨start, completed, hbuild, hcomplete, _, hspent, hreport⟩ :=
    Network.exists_completed .fork ⟨.maximize, 0, 1⟩ { Options.standard with variableLimit := some 10 }
      (P := fun start completed => completed.abstraction.encoding.pool.available = 0 ∧
        (run Solver.wavering default ⟨none, none⟩).Meets ⟨start, true⟩
          (fun report _ => report.merges = 1 ∧ report.refinements = 1 ∧ report.outcome ≠ .unsat) Step.Never)
      (by decide +kernel)
  obtain ⟨_, hruns, _⟩ := run_terminates hbuild hcomplete Solver.wavering_total default ⟨none, none⟩ true
  obtain ⟨report, s', hrun, hmerges, _, _, hcalls⟩ := hruns fun _ _ => .bySlot
  obtain ⟨hone, hrefinements, hsat⟩ := hreport.of_ok hrun
  refine ⟨Solver.wavering_total, start, completed, report, s', hbuild, hcomplete, hspent, hrun, hone, hrefinements,
    hmerges, ?_⟩
  rw [hcalls hsat, hrefinements]

end ReluAbstraction
