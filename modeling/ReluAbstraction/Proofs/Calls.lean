import ReluAbstraction.Network.Run
import ReluAbstraction.Proofs.Loading

/-!
# Sequences of calls

A network under verification is only changed by calls: the stages of the abstraction, merges and splits, and questions to
a solver. Calls may fail, and a failed call may have changed the network. `Reaches` follows calls with any outcome.
`ReachesInOrder` asks of each stage that it succeeds, or is turned down because it is not its turn.
-/

namespace ReluAbstraction.Network

variable {α : Type} [Scalar α]

/-- A call that may change a network. -/
inductive Call (α : Type) : Type 1 where
  /-- Preprocesses the next layer. -/
  | preprocess
  /-- Forward activates the next layer. -/
  | forward
  /-- Fully activates the next layer. -/
  | full
  /-- Takes the latest stage that can run one layer further. -/
  | advance
  /-- Completes the abstraction. -/
  | complete
  /-- Merges two arnodes of a layer. -/
  | merge (l : Nat) (first second : ArNodeId)
  /-- Splits an arnode of a layer. -/
  | split (l : Nat) (id : ArNodeId) (cells : List (List NodeId))
  /-- Brings the abstract query up to date. -/
  | abstractQuery
  /-- Verifies the property with a solver in a given state. -/
  | verify {σ : Type} (solver : Solver σ α) (options : SolveOptions) (state : σ)

namespace Call

/-- Whether the call is a stage of the abstraction. -/
def isStage : Call α → Bool
  | preprocess | forward | full | advance | complete => true
  | merge .. | split .. | abstractQuery | verify .. => false

/-- What the call does to the network. -/
def run : Call α → Step (Network α) Unit
  | preprocess => discard preprocessNext
  | forward => discard forwardNext
  | full => discard fullNext
  | advance => discard Network.advance
  | complete => Network.complete
  | merge l first second => discard (Network.merge l first second)
  | split l id cells => discard (Network.split l id cells)
  | abstractQuery => discard Network.abstractQuery
  | verify solver options state => fun n =>
    match Session.verify solver options ⟨n, state⟩ with
    | .ok _ s => .ok () s.network
    | .error e s => .error e s.network

/-- The network after the call, whether it succeeds or fails. -/
def after (c : Call α) (n : Network α) : Network α := (c.run.outcome n).2

/-- The call succeeds, or it is turned down because it is not its turn. -/
def InTurn (c : Call α) (n : Network α) : Prop :=
  match c.run n with
  | .ok _ _ => True
  | .error e _ => ∃ fault, e = .frontierViolation fault

/-- A specification holds of the network after a call. -/
theorem after_of_meets {c : Call α} {n : Network α} {P : Network α → Prop}
    (h : c.run.Meets n (fun _ n' => P n') (fun _ n' => P n')) : P (c.after n) := by
  unfold after Step.outcome
  unfold Step.Meets at h
  cases hrun : c.run n with
  | ok b n' =>
    rw [hrun] at h
    exact h
  | error e n' =>
    rw [hrun] at h
    exact h

theorem after_of_ok {c : Call α} {n n' : Network α} (h : c.run n = .ok () n') : c.after n = n' := by
  simp [after, Step.outcome, h]

theorem after_of_error {c : Call α} {n n' : Network α} {e : Error} (h : c.run n = .error e n') : c.after n = n' := by
  simp [after, Step.outcome, h]

/-- What verification does to a session it does to the network in it. -/
theorem meets_verify {σ : Type} {solver : Solver σ α} {options : SolveOptions} {state : σ} {n : Network α}
    {post : Network α → Prop} {fail : Error → Network α → Prop}
    (h : (Session.verify solver options).Meets ⟨n, state⟩ (fun _ s => post s.network) (fun e s => fail e s.network)) :
    (verify solver options state).run.Meets n (fun _ n' => post n') fail := by
  unfold Step.Meets at h ⊢
  simp only [run]
  cases hrun : Session.verify solver options ⟨n, state⟩ with
  | ok verdict s =>
    rw [hrun] at h
    exact h
  | error e s =>
    rw [hrun] at h
    exact h

end Call

section Runs

variable {σ : Type} {r : Network α → Network α → Prop} [Std.Refl r] [IsTrans (Network α) r]

omit [Scalar α] in
/-- Bounding an arnode of the first layer only sets bounds. -/
theorem within_boundInput (hbound : ∀ v bound, Step.Within r (setBound v bound)) (id : ArNodeId) :
    Step.Within r (boundInput id : Step (Network α) Unit) := by
  refine .bind (.read _) fun arnode => .bind (.read _) fun neuron => ?_
  cases neuron with
  | none => exact .pure _
  | some neuron =>
    refine .bind .get fun n => ?_
    cases n.inputs[neuron]? with
    | none => exact .throw _
    | some range => exact .bind (hbound _ _) fun _ => hbound _ _

omit [Scalar α] in
theorem within_boundOutput (hbound : ∀ v bound, Step.Within r (setBound v bound)) (id : ArNodeId) :
    Step.Within r (boundOutput id : Step (Network α) Unit) := by
  refine .bind (.read _) fun arnode => .bind .get fun n => .bind (.read _) fun neuron => ?_
  cases neuron with
  | none => exact .pure _
  | some neuron => exact .ite (hbound _ _) (.pure _)

omit [Scalar α] in
/-- After the nodes of a layer are classified, bounds are set and the frontier moves on. -/
theorem within_boundCreated (hbound : ∀ v bound, Step.Within r (setBound v bound))
    (hmove : ∀ next, Step.Within r (moveFrontier fun f => { f with preprocess := next })) (l : Nat)
    (created : List ArNodeId) : Step.Within r (do
      if l = 0 then created.forM boundInput
      else if l + 1 = (← get).abstraction.layers.length then created.forM boundOutput
      moveFrontier fun f => { f with preprocess := Frontier.before? l }
      return some l : Step (Network α) (Option Nat)) := by
  have hrest : Step.Within r (do
      moveFrontier fun f => { f with preprocess := Frontier.before? l }
      return some l : Step (Network α) (Option Nat)) := .bind (hmove _) fun _ => .pure _
  refine .ite ?_ (.bind .get fun _ => .ite ?_ hrest)
  · exact .bind (.forM created (within_boundInput hbound)) fun _ => hrest
  · exact .bind (.forM created (within_boundOutput hbound)) fun _ => hrest

/-- An advance does to a network what one of the stages does. -/
theorem within_advance (hpreprocess : Step.Within r (preprocessNext : Step (Network α) (Option Nat)))
    (hforward : Step.Within r (forwardNext : Step (Network α) (Option Nat)))
    (hfull : Step.Within r (fullNext : Step (Network α) (Option Nat))) :
    Step.Within r (advance : Step (Network α) Bool) := by
  refine .bind .get fun n => ?_
  refine .ite (.bind hfull.discard fun _ => .pure _) ?_
  refine .ite (.bind hforward.discard fun _ => .pure _) ?_
  refine .ite (.bind hpreprocess.discard fun _ => .pure _) ?_
  exact .ite (.bind (.throw _) fun _ => .pure _) (.pure _)

/-- Completing the abstraction does to a network what advances do. -/
theorem within_complete (hadvance : Step.Within r (advance : Step (Network α) Bool)) :
    Step.Within r (complete : Step (Network α) Unit) := by
  have hsteps : ∀ steps, Step.Within r (advanceUpTo steps : Step (Network α) Unit) := by
    intro steps
    induction steps with
    | zero => exact .pure _
    | succ steps ih => exact .bind hadvance fun more => .ite ih (.pure _)
  exact .bind .get fun _ => hsteps _

private instance : Std.Refl (fun s s' : Session σ α => r s.network s'.network) := ⟨fun s => refl_of r s.network⟩

private instance : IsTrans (Session σ α) (fun s s' => r s.network s'.network) := ⟨fun _ _ _ h h' => trans_of r h h'⟩

/-- Verification does to a network what giving the abstract query and counting calls do, whatever the solver answers. -/
theorem within_verify (hquery : Step.Within r (abstractQuery : Step (Network α) (Query α)))
    (hcount : ∀ event, Step.Within r (countCall event : Step (Network α) Unit)) (solver : Solver σ α)
    (options : SolveOptions) :
    Step.Within (fun s s' : Session σ α => r s.network s'.network) (Session.verify solver options) := by
  have hask : ∀ event q,
      Step.Within (fun s s' : Session σ α => r s.network s'.network) (Session.ask solver options event q) := by
    intro event q
    refine .bind ((hcount event).zoom fun _ _ h => h) fun _ s => ?_
    rw [Session.onSolver, Step.meets_zoom]
    exact Step.meets_of_forall _ _ (fun _ _ => refl_of r s.network) fun _ _ => refl_of r s.network
  unfold Session.verify
  refine .bind .get fun s => .ite (.throw _) ?_
  refine .bind (hquery.zoom fun _ _ h => h) fun q => .bind (hask _ q) fun abstracted => .ite (.pure _) ?_
  refine .bind (.read _) fun inputs => .bind .get fun s' => ?_
  exact .bind (hask _ _) fun replay => .ite (.pure _) (.pure _)

/-- Every call does to a network what its parts do, whether or not it succeeds. -/
theorem Call.within_run (hpreprocess : Step.Within r (preprocessNext : Step (Network α) (Option Nat)))
    (hforward : Step.Within r (forwardNext : Step (Network α) (Option Nat)))
    (hfull : Step.Within r (fullNext : Step (Network α) (Option Nat)))
    (hmerge : ∀ l first second, Step.Within r (Network.merge l first second : Step (Network α) ArNodeId))
    (hsplit : ∀ l id cells, Step.Within r (Network.split l id cells : Step (Network α) (List ArNodeId)))
    (hquery : Step.Within r (Network.abstractQuery : Step (Network α) (Query α)))
    (hcount : ∀ event, Step.Within r (countCall event : Step (Network α) Unit)) (c : Call α) : Step.Within r c.run := by
  have hadvance := within_advance hpreprocess hforward hfull
  cases c with
  | preprocess => exact hpreprocess.discard
  | forward => exact hforward.discard
  | full => exact hfull.discard
  | advance => exact hadvance.discard
  | complete => exact within_complete hadvance
  | merge l first second => exact (hmerge l first second).discard
  | split l id cells => exact (hsplit l id cells).discard
  | abstractQuery => exact hquery.discard
  | verify solver options state => exact fun n => meets_verify (within_verify hquery hcount solver options ⟨n, state⟩)

end Runs

/-- The networks that calls with any outcome lead to. -/
inductive Reaches (start : Network α) : Network α → Prop
  /-- No call. -/
  | refl : Reaches start start
  /-- One more call. -/
  | step {n : Network α} (h : Reaches start n) (c : Call α) : Reaches start (c.after n)

/-- The networks that calls with any outcome lead to, through networks in `P` only. -/
inductive ReachesWithin (P : Network α → Prop) (start : Network α) : Network α → Prop
  /-- No call. -/
  | refl (hstart : P start) : ReachesWithin P start start
  /-- One more call. -/
  | step {n : Network α} (h : ReachesWithin P start n) (c : Call α) (hc : P (c.after n)) : ReachesWithin P start (c.after n)

theorem ReachesWithin.holds {P : Network α → Prop} {start n : Network α} (h : ReachesWithin P start n) : P n := by
  cases h with
  | refl hstart => exact hstart
  | step _ _ hc => exact hc

/-- The networks that calls lead to when every stage succeeds or is turned down because it is not its turn. -/
inductive ReachesInOrder (start : Network α) : Network α → Prop
  /-- No call. -/
  | refl : ReachesInOrder start start
  /-- One more call. -/
  | step {n : Network α} (h : ReachesInOrder start n) (c : Call α) (hturn : c.isStage = true → c.InTurn n) :
      ReachesInOrder start (c.after n)

theorem ReachesInOrder.reaches {start n : Network α} (h : ReachesInOrder start n) : Reaches start n := by
  induction h with
  | refl => exact .refl
  | step _ c _ ih => exact ih.step c

theorem Reaches.within {P : Network α → Prop} {start n : Network α} (h : Reaches start n) (hP : ∀ n, P n) :
    ReachesWithin P start n := by
  induction h with
  | refl => exact .refl (hP _)
  | step _ c ih => exact ih.step c (hP _)

theorem ReachesInOrder.within {P : Network α → Prop} {start n : Network α} (h : ReachesInOrder start n) (hP : ∀ n, P n) :
    ReachesWithin P start n := by
  induction h with
  | refl => exact .refl (hP _)
  | step _ c _ ih => exact ih.step c (hP _)

/-- One more call that succeeds. -/
theorem ReachesInOrder.of_ok {start n n' : Network α} (h : ReachesInOrder start n) (c : Call α) (hrun : c.run n = .ok () n') :
    ReachesInOrder start n' :=
  Call.after_of_ok hrun ▸ h.step c fun _ => by simp [Call.InTurn, hrun]

/-- Completing the abstraction is one call. -/
theorem ReachesInOrder.of_complete {start n : Network α} (h : Network.complete start = .ok () n) :
    ReachesInOrder start n := ReachesInOrder.refl.of_ok .complete h

theorem ReachesInOrder.merge {start n n' : Network α} (h : ReachesInOrder start n) {l : Nat} {first second id : ArNodeId}
    (hmerge : Network.merge l first second n = .ok id n') : ReachesInOrder start n' :=
  h.of_ok (.merge l first second) (Step.discard_eq_ok hmerge)

theorem ReachesInOrder.split {start n n' : Network α} (h : ReachesInOrder start n) {l : Nat} {id : ArNodeId}
    {cells : List (List NodeId)} {parts : List ArNodeId} (hsplit : Network.split l id cells n = .ok parts n') :
    ReachesInOrder start n' := h.of_ok (.split l id cells) (Step.discard_eq_ok hsplit)

theorem ReachesInOrder.verify {start : Network α} {σ : Type} {solver : Solver σ α} {options : SolveOptions}
    {s s' : Session σ α} (h : ReachesInOrder start s.network) {verdict : Verdict α}
    (hverify : Session.verify solver options s = .ok verdict s') : ReachesInOrder start s'.network := by
  refine h.of_ok (.verify solver options s.solver) ?_
  change (match Session.verify solver options s with
    | .ok _ s => .ok () s.network
    | .error e s => .error e s.network : EStateM.Result Error (Network α) Unit) = _
  rw [hverify]

/-- A description that gives a network and a complete abstraction of it, with what can be decided of the two. -/
theorem exists_completed (net : Feedforward α) (property : Property α) (options : Options)
    {P : Network α → Network α → Prop} (h : ∃ start ∈ (build net property options).toOption,
      Network.complete.Meets start (fun _ n => P start n) Step.Never) :
    ∃ start n, build net property options = .ok start ∧ Network.complete start = .ok () n ∧ ReachesInOrder start n ∧
      P start n := by
  obtain ⟨start, hbuild, hmeets⟩ := exists_ok_of_toOption h
  obtain ⟨_, n, hcomplete, hP⟩ := hmeets.exists_ok
  exact ⟨start, n, hbuild, hcomplete, .of_complete hcomplete, hP⟩

/-- A description that gives a network whose abstraction cannot be completed, with what can be decided of where it stops. -/
theorem exists_stopped (net : Feedforward α) (property : Property α) (options : Options) {P : Network α → Prop}
    (h : ∃ start ∈ (build net property options).toOption,
      Network.complete.Meets start (fun _ _ => False) (fun _ n => P n)) :
    ∃ start n e, build net property options = .ok start ∧ Network.complete start = .error e n ∧
      Call.complete.after start = n ∧ P n := by
  obtain ⟨start, hbuild, hmeets⟩ := exists_ok_of_toOption h
  obtain ⟨e, n, hcomplete, hP⟩ := hmeets.exists_error
  exact ⟨start, n, e, hbuild, hcomplete, Call.after_of_error hcomplete, hP⟩

/-- What every call keeps holds of all networks reached. -/
theorem Reaches.invariant {start n : Network α} (h : Reaches start n) {I : Network α → Prop} (hstart : I start)
    (hstep : ∀ c : Call α, Step.Preserves I c.run) : I n := by
  induction h with
  | refl => exact hstart
  | @step n _ c ih => exact Call.after_of_meets ((hstep c n).mono (fun _ _ hs => hs ih) fun _ _ hs => hs ih)

end ReluAbstraction.Network
