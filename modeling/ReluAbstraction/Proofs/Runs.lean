import ReluAbstraction.Proofs.Advancing
import ReluAbstraction.Proofs.Verdicts

/-!
# Whole runs

A run completes the abstraction, merges, and then verifies and splits in turn. Each merge leaves one arnode less and each
split one more, and whenever an arnode can be split there are variables for it. So a run whose solver always answers comes
to an end, and its answer is what the last verdict says.
-/

namespace ReluAbstraction

variable {σ α : Type}

/-- Arnodes that keep their nodes are as many as before. -/
theorem Abstraction.Recast.size_eq {a a' : Abstraction α} (h : Recast a a') (hs : a.ArnodesSound) :
    a'.arnodes.size = a.arnodes.size := by
  rw [← hs.card_handles, ← h.sound.card_handles]
  congr 1
  ext x
  rw [Graph.mem_handles_iff, Graph.mem_handles_iff]
  constructor
  · rintro ⟨b', hb'⟩
    obtain ⟨b, hb, _⟩ := h.exists_body? hb'
    exact ⟨b, hb⟩
  · rintro ⟨b, hb⟩
    obtain ⟨b', hb', _⟩ := h.symm_body? hb
    exact ⟨b', hb'⟩

variable [Scalar α]

namespace Network

variable {net : Feedforward α} {property : Property α} {options : Options} {start n n' : Network α}

/-- A network in a run: its abstraction is complete, with the nodes that it had then, and there are two free variables for
each split that is left. -/
structure Underway (start n : Network α) : Prop where
  reaches : ReachesInOrder start n
  complete : n.frontier.isComplete = true
  room : 2 * n.abstraction.nodes.size ≤ n.abstraction.encoding.pool.available + 2 * n.abstraction.arnodes.size
  nodes : ∃ completed, Network.complete start = .ok () completed ∧ n.abstraction.nodePart = completed.abstraction.nodePart

/-- In a complete abstraction every node has a holder. -/
theorem Orderly.held_of_complete (h : Orderly net property start n) (hcomplete : n.frontier.isComplete = true) {m : NodeId}
    {c : NodeInfo α} (hm : n.abstraction.info? m = some c) : (n.abstraction.holder? m).isSome := by
  refine h.staged.held hm ?_
  simp only [Frontier.isComplete, Bool.and_eq_true, Option.isNone_iff_eq_none] at hcomplete
  rw [Frontier.isPreprocessed, hcomplete.1.1]
  rfl

/-- Completing the abstraction makes one arnode for each node. -/
theorem size_eq_of_complete (hbuild : build net property options = .ok start) (hcomplete : complete start = .ok () n) :
    n.abstraction.arnodes.size = n.abstraction.nodes.size := by
  have h := (ReachesInOrder.of_complete hcomplete).orderly hbuild
  have hdone := (build_orderly hbuild).complete_meets.of_ok hcomplete
  exact h.woven.grounded.size_eq_of_alone (complete_alone hbuild hcomplete) fun hm => h.held_of_complete hdone hm

/-- Completing the abstraction takes a run up. -/
theorem complete_underway (hbuild : build net property options = .ok start) (hcomplete : complete start = .ok () n) :
    Underway start n := by
  refine ⟨.of_complete hcomplete, (build_orderly hbuild).complete_meets.of_ok hcomplete, ?_, n, hcomplete, rfl⟩
  rw [size_eq_of_complete hbuild hcomplete]
  exact Nat.le_add_left _ _

namespace Underway

/-- A merge leaves one arnode less. -/
theorem merge (h : Underway start n) (hbuild : build net property options = .ok start) {l : Nat}
    {first second merged : ArNodeId} (hmerge : Network.merge l first second n = .ok merged n') :
    Underway start n' ∧ n'.abstraction.arnodes.size + 1 = n.abstraction.arnodes.size ∧ n'.solverCalls = n.solverCalls := by
  have ho := h.reaches.orderly hbuild
  have hreaches := h.reaches.merge hmerge
  have ho' := hreaches.orderly hbuild
  obtain ⟨_, hne, hrest, b₁, b₂, b, hfusion⟩ := (ho.merge_fusion _ _ _).of_ok hmerge
  obtain ⟨_, _, _, _, _, _, hinto⟩ := (ho.merge_meets _ _ _).of_ok hmerge
  have hsize := hfusion.size_eq hne ho.woven.grounded.arnodes ho'.woven.grounded.arnodes
  have hnodes := Abstraction.nodes_size_of_nodePart hfusion.nodePart_eq
  have hroom := h.room
  have havailable := hinto.available_eq
  obtain ⟨completed, hcomplete, hpart⟩ := h.nodes
  refine ⟨⟨hreaches, ?_, by omega, completed, hcomplete, hfusion.nodePart_eq.trans hpart⟩, hsize, by rw [hrest]⟩
  rw [hrest]
  exact h.complete

/-- A split leaves as many arnodes more as there are cells, less one. -/
theorem split (h : Underway start n) (hbuild : build net property options = .ok start) {l : Nat} {id : ArNodeId}
    {cells : List (List NodeId)} {parts : List ArNodeId} (hsplit : Network.split l id cells n = .ok parts n') :
    Underway start n' ∧ n'.abstraction.arnodes.size + 1 = n.abstraction.arnodes.size + cells.length ∧
      n'.solverCalls = n.solverCalls := by
  have ho := h.reaches.orderly hbuild
  have hreaches := h.reaches.split hsplit
  have ho' := hreaches.orderly hbuild
  obtain ⟨_, _, hrest, b, _, hfission⟩ := (ho.split_fission _ _ _).of_ok hsplit
  obtain ⟨_, _, _, _, havailable⟩ := (ho.split_meets _ _ _).of_ok hsplit
  have hsize := hfission.size_eq ho.woven.grounded.arnodes ho'.woven.grounded.arnodes
  have hnodes := Abstraction.nodes_size_of_nodePart hfission.nodePart_eq
  have hroom := h.room
  obtain ⟨completed, hcomplete, hpart⟩ := h.nodes
  refine ⟨⟨hreaches, ?_, by omega, completed, hcomplete, hfission.nodePart_eq.trans hpart⟩, hsize, by rw [hrest]⟩
  rw [hrest]
  exact h.complete

/-- Splitting an arnode in two leaves one arnode more. -/
theorem applySplit (h : Underway start n) (hbuild : build net property options = .ok start) {c : SplitCandidate α}
    {parts : List ArNodeId} (hsplit : Network.applySplit c n = .ok parts n') :
    Underway start n' ∧ n'.abstraction.arnodes.size = n.abstraction.arnodes.size + 1 ∧
      n'.solverCalls = n.solverCalls := by
  obtain ⟨h', hsize, hcalls⟩ := h.split hbuild hsplit
  have hcells : c.partition.length = 2 := rfl
  exact ⟨h', by omega, hcalls⟩

/-- The nodes are those that the abstraction had when it was completed. -/
theorem nodes_size_eq (h : Underway start n) (h' : Underway start n') :
    n'.abstraction.nodes.size = n.abstraction.nodes.size := by
  obtain ⟨completed, hcomplete, hpart⟩ := h.nodes
  obtain ⟨completed', hcomplete', hpart'⟩ := h'.nodes
  rw [hcomplete] at hcomplete'
  cases hcomplete'
  exact Abstraction.nodes_size_of_nodePart (hpart'.trans hpart.symm)

/-- There is always an arnode, as some node is an input. -/
theorem size_pos (h : Underway start n) (hbuild : build net property options = .ok start) :
    0 < n.abstraction.arnodes.size := by
  have ho := h.reaches.orderly hbuild
  obtain ⟨hdepth, _, hwidth, _⟩ := build_eq_ok hbuild
  have hzero : 0 < net.depth := by omega
  obtain ⟨m, c, hm, _⟩ := ho.represents.faithful.exists_node hzero (Nat.pos_of_ne_zero (hwidth 0 hzero))
  obtain ⟨x, hx⟩ := Option.isSome_iff_exists.mp (ho.held_of_complete h.complete hm)
  obtain ⟨b, hb, _⟩ := ho.woven.grounded.owned.holder hx
  rw [← ho.woven.grounded.arnodes.card_handles]
  exact Finset.card_pos.mpr ⟨x, Graph.mem_handles_iff.mpr ⟨b, hb⟩⟩

/-- Consulting the solver leaves a run where it is. -/
theorem consulted (h : Underway start n) (hbuild : build net property options = .ok start)
    (hreaches : ReachesInOrder start n') (hconsulted : Consulted n n') :
    Underway start n' ∧ n'.abstraction.arnodes.size = n.abstraction.arnodes.size := by
  have hrecast := hconsulted.refreshed.recast
  have hsize := hrecast.size_eq (h.reaches.orderly hbuild).woven.grounded.arnodes
  obtain ⟨completed, hcomplete, hpart⟩ := h.nodes
  refine ⟨⟨hreaches, ?_, ?_, completed, hcomplete, hrecast.nodePart_eq.trans hpart⟩, hsize⟩
  · rw [hconsulted.rest_eq]
    exact h.complete
  · rw [hsize, Abstraction.nodes_size_of_nodePart hrecast.nodePart_eq, hrecast.pool_eq]
    exact h.room

/-- Whenever there is a candidate, the split can be carried out. -/
theorem applySplit_eq_ok (h : Underway start n) (hbuild : build net property options = .ok start) {c : SplitCandidate α}
    (hc : n.CanSplit c) : ∃ parts n', Network.applySplit c n = .ok parts n' := by
  have ho := h.reaches.orderly hbuild
  obtain ⟨b, hb, _, htwo, _⟩ := hc.body
  have hlt := ho.woven.grounded.size_lt hb htwo
  have hroom := h.room
  exact ho.applySplit_eq_ok hc (by omega)

/-- A merge that is chosen can be carried out and leaves one arnode less. -/
theorem bestMergeIn_cases (h : Underway start n) (hbuild : build net property options = .ok start)
    (order : ArNodeId → EdgeSet.Listing α ArNodeId) :
    (∃ c merged n', n.bestMergeIn order = .ok c ∧ applyMerge c n = .ok merged n' ∧ Underway start n' ∧
      n'.abstraction.arnodes.size + 1 = n.abstraction.arnodes.size ∧ n'.solverCalls = n.solverCalls) ∨
    n.bestMergeIn order = .error .noMergeCandidate := by
  have ho := h.reaches.orderly hbuild
  refine (ho.bestMergeIn_cases order).imp_left ?_
  rintro ⟨c, hbest, hc⟩
  obtain ⟨merged, n', hmerge⟩ := ho.applyMerge_eq_ok hc
  exact ⟨c, merged, n', hbest, hmerge, h.merge hbuild hmerge⟩

/-- A split that is chosen can be carried out and leaves one arnode more. -/
theorem bestSplit_cases (h : Underway start n) (hbuild : build net property options = .ok start) :
    (∃ c parts n', n.bestSplit = .ok c ∧ Network.applySplit c n = .ok parts n' ∧ Underway start n' ∧
      n'.abstraction.arnodes.size = n.abstraction.arnodes.size + 1 ∧ n'.solverCalls = n.solverCalls) ∨
    n.bestSplit = .error .noSplitCandidate := by
  rcases (h.reaches.orderly hbuild).bestSplit_cases with ⟨c, hbest, hc⟩ | ⟨hbest, _⟩
  · obtain ⟨parts, n', hsplit⟩ := h.applySplit_eq_ok hbuild hc
    exact .inl ⟨c, parts, n', hbest, hsplit, h.applySplit hbuild hsplit⟩
  · exact .inr hbest

/-- While merging goes on, arnodes are traded for merges. -/
theorem coarsenUpToIn_meets (h : Underway start n) (hbuild : build net property options = .ok start)
    (order : Network α → ArNodeId → EdgeSet.Listing α ArNodeId) (limit : Option Nat) (fuel merges : Nat) :
    (coarsenUpToIn order limit fuel merges).Meets n (fun total n' => Underway start n' ∧
      total + n'.abstraction.arnodes.size = merges + n.abstraction.arnodes.size ∧ n'.solverCalls = n.solverCalls)
      Step.Never := by
  induction fuel generalizing n merges with
  | zero => exact ⟨h, rfl, rfl⟩
  | succ fuel ih =>
    rw [coarsenUpToIn, Step.meets_ite]
    refine ⟨fun _ => ⟨h, rfl, rfl⟩, fun _ => ?_⟩
    rw [Step.meets_bind, Step.meets_get]
    rcases h.bestMergeIn_cases hbuild (order n) with ⟨c, merged, n₁, hbest, hmerge, h₁, hsize, hcalls⟩ | hbest
    · rw [hbest]
      dsimp only
      rw [Step.meets_bind, Step.Meets, Step.discard_eq_ok hmerge]
      refine (ih h₁ (merges + 1)).imp ?_
      rintro total n' ⟨h', hcount, hcalls'⟩
      exact ⟨h', by omega, hcalls'.trans hcalls⟩
    · rw [hbest]
      exact ⟨h, rfl, rfl⟩

theorem coarsenIn_meets (h : Underway start n) (hbuild : build net property options = .ok start)
    (order : Network α → ArNodeId → EdgeSet.Listing α ArNodeId) (limit : Option Nat) :
    (coarsenIn order limit).Meets n (fun merges n' => Underway start n' ∧
      merges + n'.abstraction.arnodes.size = n.abstraction.arnodes.size ∧ n'.solverCalls = n.solverCalls) Step.Never := by
  rw [coarsenIn, Step.meets_bind, Step.meets_get]
  refine (h.coarsenUpToIn_meets hbuild order limit _ 0).imp ?_
  rintro merges n' ⟨h', hcount, hcalls⟩
  exact ⟨h', by omega, hcalls⟩

end Underway

/-- Giving the abstract query changes neither the arnodes nor the frontier. -/
theorem Orderly.recast_of_abstractQuery (h : Orderly net property start n) {q : Query α}
    (hquery : abstractQuery n = .ok q n') :
    Abstraction.Recast n.abstraction n'.abstraction ∧ n'.frontier = n.frontier ∧ Orderly net property start n' := by
  obtain ⟨_, _, _, hrefreshed, hn', _⟩ :=
    (Network.abstractQuery_meets h.woven.grounded.arnodes).of_ok hquery
  refine ⟨hrefreshed.recast, by rw [hn'], ?_⟩
  exact (h.abstractQuery_meets.of_ok hquery).1

end Network

namespace Session

open Network

variable {net : Feedforward α} {property : Property α} {options : Options} {start n n' : Network α}
  {solver : Solver σ α}

/-- Verification counts calls and changes nothing else in the network that has given the query. -/
theorem Verified.rest_eq {solveOptions : SolveOptions} {state : σ} {q : Query α} {verdict : Verdict α}
     (h : Verified solver solveOptions state n q verdict n') :
    n'.frontier = n.frontier ∧ n'.abstraction = { n.abstraction with metrics := n'.abstraction.metrics } := by
  cases h <;> exact ⟨rfl, rfl⟩

theorem Verified.orderly {solveOptions : SolveOptions} {state : σ} {q : Query α} {verdict : Verdict α}
     (h : Verified solver solveOptions state n q verdict n')
    (ho : Orderly net property start n) : Orderly net property start n' := by
  have hcounted : ∀ {m : Network α}, Orderly net property start m → ∀ event, Orderly net property start (m.counted event) :=
    fun hm event => (hm.countCall event).of_ok rfl
  cases h with
  | unsat => exact hcounted ho _
  | spurious => exact hcounted (hcounted ho _) _
  | sat => exact hcounted (hcounted ho _) _

end Session

/-- Number of solver calls that lead to a verdict. -/
def Verdict.calls : Verdict α → Nat
  | .unsat => 1
  | .sat _ | .spurious => 2

/-- Number of solver calls of the verification that a run ends with. -/
def RunOutcome.calls : RunOutcome α → Nat
  | .unsat => 1
  | .sat _ | .inconclusive _ => 2

/-- The counts of a report fit together, where the complete abstraction had `total` arnodes. -/
structure Report.Balanced (report : Report α) (total : Nat) : Prop where
  merges_lt : report.merges < total
  refinements_le : report.refinements ≤ report.merges
  calls_eq : report.solverCalls = 2 * report.refinements + report.outcome.calls

namespace Session

open Network

variable {net : Feedforward α} {property : Property α} {options : Options} {start n n' : Network α}
  {solver : Solver σ α} {order : Network α → ArNodeId → EdgeSet.Listing α ArNodeId}

theorem Verified.solverCalls_eq {solveOptions : SolveOptions} {state : σ} {q : Query α} {verdict : Verdict α}
     (h : Verified solver solveOptions state n q verdict n') :
    n'.solverCalls = n.solverCalls + verdict.calls := by
  cases h <;> rfl

/-- Verification leaves a run where it is. -/
theorem underway_of_verify {s s' : Session σ α} (h : Underway start s.network)
    (hbuild : build net property options = .ok start) {solveOptions : SolveOptions} {verdict : Verdict α} {q : Query α}
    (hverify : verify solver solveOptions s = .ok verdict s') (hquery : abstractQuery s.network = .ok q n)
    (hverified : Verified solver solveOptions s.solver n q verdict s'.network) : Underway start s'.network ∧
      s'.network.abstraction.arnodes.size = s.network.abstraction.arnodes.size ∧
      s'.network.solverCalls = s.network.solverCalls + verdict.calls := by
  have hsound := (h.reaches.orderly hbuild).woven.grounded.arnodes
  obtain ⟨h', hsize⟩ := h.consulted hbuild (h.reaches.verify hverify)
    ((verify_consulted hsound solver solveOptions).of_ok hverify)
  refine ⟨h', hsize, ?_⟩
  rw [hverified.solverCalls_eq, ((abstractQuery_consulted hsound).of_ok hquery).2]

/-- What a run makes of its last verdict. -/
inductive Settled (limit : Option Nat) (n : Network α) (splits : Nat) : Verdict α → RunOutcome α → Prop
  /-- The region is out of reach. -/
  | unsat : Settled limit n splits .unsat .unsat
  /-- The region is reached. -/
  | sat (counterexample : Counterexample α) : Settled limit n splits (.sat counterexample) (.sat counterexample)
  /-- There should be a split, but no more is allowed. -/
  | budgetSpent (hspent : Budget.spent limit splits = true) :
      Settled limit n splits .spurious (.inconclusive (.budgetSpent splits))
  /-- There should be a split, but there is none. -/
  | fullyRefined (hleft : ¬Budget.spent limit splits = true) (hnone : n.bestSplit = .error .noSplitCandidate) :
      Settled limit n splits .spurious (.inconclusive .fullyRefined)

theorem Settled.calls_eq {limit : Option Nat} {splits : Nat} {verdict : Verdict α} {outcome : RunOutcome α}
    (h : Settled limit n splits verdict outcome) : verdict.calls = outcome.calls := by
  cases h <;> rfl

/-- The answer of a run comes from the verification that it ends with. -/
def Concluded (solver : Solver σ α) (solveOptions : SolveOptions) (limit : Option Nat) (start : Network α)
    (outcome : RunOutcome α) (splits : Nat)
    (n' : Network α) : Prop :=
  ∃ n state q n₁ verdict, Underway start n ∧ abstractQuery n = .ok q n₁ ∧
    Verified solver solveOptions state n₁ q verdict n' ∧
    Settled limit n' splits verdict outcome

/-- The counts of a run that has got from `n` with `before` splits to an outcome: a split leaves one arnode more and comes
after two solver calls, and `calls` are those of the last verification. -/
structure Tallied (n : Network α) (before : Nat) (calls splits : Nat) (n' : Network α) : Prop where
  arnodes : splits + n.abstraction.arnodes.size = before + n'.abstraction.arnodes.size
  calls : n'.solverCalls + 2 * before = n.solverCalls + 2 * splits + calls

/-- Splitting goes on as long as it has to: with one step more than there can be splits, a run never stops for want of
steps. -/
theorem refineUpTo_meets (htotal : solver.Total) (hbuild : build net property options = .ok start)
    (solveOptions : SolveOptions) (limit : Option Nat) {fuel : Nat} (splits : Nat) {s : Session σ α}
    (h : Underway start s.network)
    (hfuel : s.network.abstraction.nodes.size < s.network.abstraction.arnodes.size + fuel) :
    (refineUpTo solver solveOptions limit fuel splits).Meets s
      (fun result s' => Underway start s'.network ∧ Concluded solver solveOptions limit start result.1 result.2 s'.network ∧
        Tallied s.network splits result.1.calls result.2 s'.network) Step.Never := by
  induction fuel generalizing s splits with
  | zero =>
    have hle := (h.reaches.orderly hbuild).woven.grounded.size_le
    omega
  | succ fuel ih =>
    rw [refineUpTo, Step.meets_bind]
    refine (verify_meets htotal solveOptions (h.reaches.orderly hbuild) hbuild h.complete).ok_eq.mono ?_ fun _ _ hfail => hfail
    rintro verdict s₁ ⟨hverify, q, n, hquery, hverified⟩
    obtain ⟨h₁, hsize, hcalls⟩ := underway_of_verify h hbuild hverify hquery hverified
    have hsettled : ∀ {outcome}, Settled limit s₁.network splits verdict outcome →
        Underway start s₁.network ∧ Concluded solver solveOptions limit start outcome splits s₁.network ∧
          Tallied s.network splits outcome.calls splits s₁.network := by
      intro outcome hsettled
      refine ⟨h₁, ⟨_, _, q, n, _, h, hquery, hverified, hsettled⟩, by rw [hsize], ?_⟩
      rw [hcalls, hsettled.calls_eq]
      omega
    cases verdict with
    | unsat => exact hsettled .unsat
    | sat counterexample => exact hsettled (.sat counterexample)
    | spurious =>
      dsimp only
      rw [Step.meets_ite]
      refine ⟨fun hspent => hsettled (.budgetSpent hspent), fun hleft => ?_⟩
      rw [Step.meets_bind, Step.meets_get]
      rcases h₁.bestSplit_cases hbuild with ⟨c, parts, n₂, hbest, hsplit, h₂, hmore, hcalls₂⟩ | hbest
      · have hnodes := h.nodes_size_eq h₂
        rw [hbest]
        dsimp only
        rw [Step.meets_bind, Step.meets_discard, onNetwork, Step.meets_zoom, Step.Meets, hsplit]
        refine (ih (splits + 1) h₂ (by dsimp only; omega)).imp ?_
        rintro result s' ⟨h', hconcluded, htally⟩
        refine ⟨h', hconcluded, ?_, ?_⟩
        · have harnodes := htally.arnodes
          dsimp only at harnodes
          omega
        · have hcalls' := htally.calls
          simp only [Verdict.calls] at hcalls
          dsimp only at hcalls'
          omega
      · rw [hbest]
        exact hsettled (.fullyRefined hleft hbest)

/-- If the first verdict settles a run, it is the answer. -/
theorem runIn_of_first {completed : Network α} (hcomplete : Network.complete start = .ok () completed) (budget : Budget)
    {merges : Nat} (hcoarsen : coarsenIn order budget.merges completed = .ok merges n) {solveOptions : SolveOptions} {state : σ}
    {verdict : Verdict α} {s' : Session σ α} (hverify : verify solver solveOptions ⟨n, state⟩ = .ok verdict s')
    {outcome : RunOutcome α} (hsettled : Settled budget.splits s'.network 0 verdict outcome) :
    ∃ report s', runIn order solver solveOptions budget ⟨start, state⟩ = .ok report s' ∧ report.outcome = outcome ∧
      report.merges = merges ∧ report.refinements = 0 := by
  have hrefine : (refine solver solveOptions budget.splits).Meets ⟨n, state⟩ (fun result _ => result = (outcome, 0))
      Step.Never := by
    rw [refine, Step.meets_bind, Step.meets_get, refineUpTo, Step.meets_bind, Step.Meets, hverify]
    cases hsettled with
    | unsat => rfl
    | sat counterexample => rfl
    | budgetSpent hspent =>
      dsimp only
      rw [Step.meets_ite]
      exact ⟨fun _ => rfl, fun hnot => absurd hspent hnot⟩
    | fullyRefined hleft hnone =>
      dsimp only
      rw [Step.meets_ite]
      refine ⟨fun hspent => absurd hspent hleft, fun _ => ?_⟩
      rw [Step.meets_bind, Step.meets_get, hnone]
      rfl
  have hrun : (runIn order solver solveOptions budget).Meets ⟨start, state⟩ (fun report _ => report.outcome = outcome ∧
      report.merges = merges ∧ report.refinements = 0) Step.Never := by
    rw [runIn, Step.meets_bind, Step.meets_get, Step.meets_bind, onNetwork, Step.meets_zoom, Step.Meets, hcomplete]
    dsimp only
    rw [Step.meets_bind, onNetwork, Step.meets_zoom, Step.Meets, hcoarsen]
    dsimp only
    rw [Step.meets_bind]
    refine hrefine.imp ?_
    rintro _ s' rfl
    exact ⟨rfl, rfl, rfl⟩
  exact hrun.exists_ok

/-- A run that gives an answer has completed the abstraction. -/
theorem exists_complete_of_runIn {solveOptions : SolveOptions} {budget : Budget} {state : σ} {report : Report α}
    {s' : Session σ α} (hrun : runIn order solver solveOptions budget ⟨start, state⟩ = .ok report s') :
    ∃ completed, Network.complete start = .ok () completed := by
  have hmeets : (runIn order solver solveOptions budget).Meets ⟨start, state⟩
      (fun _ _ => ∃ completed, Network.complete start = .ok () completed) (fun _ _ => True) := by
    rw [runIn, Step.meets_bind, Step.meets_get, Step.meets_bind, onNetwork, Step.meets_zoom]
    refine (Step.meets_of_forall _ _ (fun _ _ => trivial) fun _ _ => trivial : Step.Meets Network.complete start
      (fun _ _ => True) (fun _ _ => True)).ok_eq.imp fun _ completed hcomplete => ?_
    exact Step.meets_of_forall _ _ (fun _ _ => ⟨completed, hcomplete.1⟩) fun _ _ => trivial
  exact hmeets.of_ok hrun

/-- With a solver that always answers, a run that can complete the abstraction gives an answer. -/
theorem runIn_meets (htotal : solver.Total) (hbuild : build net property options = .ok start) {completed : Network α}
    (hcomplete : Network.complete start = .ok () completed) (order : Network α → ArNodeId → EdgeSet.Listing α ArNodeId)
    (solveOptions : SolveOptions) (budget : Budget) (state : σ) :
    (runIn order solver solveOptions budget).Meets ⟨start, state⟩
      (fun report s' => Concluded solver solveOptions budget.splits start report.outcome report.refinements s'.network ∧
        report.Balanced completed.abstraction.arnodes.size) Step.Never := by
  have h := complete_underway hbuild hcomplete
  have hcalls : completed.solverCalls = start.solverCalls :=
    (keepsRest_complete (fun _ _ => rfl) (fun _ _ => rfl) start).of_ok hcomplete
  rw [runIn, Step.meets_bind, Step.meets_get, Step.meets_bind, onNetwork, Step.meets_zoom, Step.Meets, hcomplete]
  dsimp only
  rw [Step.meets_bind, onNetwork, Step.meets_zoom]
  refine (h.coarsenIn_meets hbuild order budget.merges).mono ?_ fun _ _ hfail => hfail
  rintro merges n ⟨h₁, hmerged, hcalls₁⟩
  rw [Step.meets_bind, refine, Step.meets_bind, Step.meets_get]
  refine (refineUpTo_meets htotal hbuild solveOptions budget.splits 0 h₁ (by dsimp only; omega)).imp ?_
  rintro ⟨outcome, refinements⟩ s' ⟨h₂, hconcluded, htally⟩
  have hpos := h₁.size_pos hbuild
  -- In the end there are no more arnodes than there were at first, one for each node.
  have hle := (h₂.reaches.orderly hbuild).woven.grounded.size_le
  rw [h.nodes_size_eq h₂, ← size_eq_of_complete hbuild hcomplete] at hle
  have harnodes := htally.arnodes
  have hsolved := htally.calls
  dsimp only at harnodes hsolved
  refine ⟨hconcluded, ?_, ?_, ?_⟩
  · change merges < _
    omega
  · change refinements ≤ merges
    omega
  · change s'.network.solverCalls - start.solverCalls = 2 * refinements + outcome.calls
    omega

end Session

end ReluAbstraction
