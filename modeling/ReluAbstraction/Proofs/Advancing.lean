import ReluAbstraction.Proofs.Orderly

/-!
# Completing the frontier

Each advance moves one of the three stages on by a layer. So after as many advances as there are stages left to take, the
frontier is complete.
-/

namespace ReluAbstraction

/-- Number of layers that a stage has still to take. -/
def layersLeft : Option Nat → Nat
  | none => 0
  | some l => l + 1

/-- Number of stages that are still to be taken. -/
def Frontier.pending (f : Frontier) : Nat := layersLeft f.preprocess + layersLeft f.forward + layersLeft f.full

theorem layersLeft_some (l : Nat) : layersLeft (some l) = l + 1 := rfl

theorem layersLeft_before? (l : Nat) : layersLeft (Frontier.before? l) = l := by cases l <;> rfl

theorem layersLeft_interiorBefore? (l : Nat) : layersLeft (Frontier.interiorBefore? l) ≤ l := by
  unfold Frontier.interiorBefore?
  cases l with
  | zero => exact Nat.le_refl 0
  | succ l =>
    simp only [Frontier.before?, Option.filter]
    split
    · exact Nat.le_refl _
    · exact Nat.zero_le _

/-- No stage has more layers to take than there are. -/
theorem Frontier.Ordered.pending_le {f : Frontier} {depth : Nat} (h : f.Ordered depth) : f.pending ≤ 3 * depth := by
  have hle : ∀ {next : Option Nat}, (∀ {l}, next = some l → l < depth) → layersLeft next ≤ depth := by
    intro next hlt
    cases next with
    | none => exact Nat.zero_le _
    | some l => exact hlt rfl
  have hpre := hle h.preprocess_lt
  have hforward := hle h.forward_lt
  have hfull := hle h.full_lt
  unfold Frontier.pending
  omega

namespace Network

variable {α : Type} [Scalar α] {n : Network α} {l : Nat}

section Views

variable {ν : Type} {view : Network α → ν}

omit [Scalar α] in
/-- A step on the abstraction leaves alone what does not depend on it. -/
theorem keepsRest_onAbstraction {β : Type} (hview : ∀ n a, view { n with abstraction := a } = view n)
    (step : Step (Abstraction α) β) : Step.Keeps view (onAbstraction step) := by
  intro n
  rw [onAbstraction, Step.meets_zoom]
  exact Step.meets_of_forall _ _ (fun _ _ => hview _ _) fun _ _ => hview _ _

end Views

omit [Scalar α] in
private theorem frontier_onAbstraction (n : Network α) (a : Abstraction α) :
    Network.frontier { n with abstraction := a } = n.frontier := rfl

/-- Preprocessing moves its own stage on, once it has succeeded. -/
theorem preprocessNext_frontier (hl : n.frontier.preprocess = some l) :
    preprocessNext.Meets n (fun r n' => r = some l ∧ n'.frontier = { n.frontier with preprocess := Frontier.before? l })
      (fun _ n' => n'.frontier = n.frontier) := by
  unfold preprocessNext
  rw [Step.meets_bind, Step.meets_get, hl]
  dsimp only
  rw [Step.meets_bind]
  refine (keepsRest_onAbstraction frontier_onAbstraction _ n).mono (fun created n₁ h₁ => ?_) fun _ _ hsame => hsame
  have hbound : ∀ v bound, Step.Keeps Network.frontier (setBound v bound : Step (Network α) Unit) :=
    fun _ _ => keepsRest_onAbstraction frontier_onAbstraction _
  have hdone : ∀ {n₂ : Network α}, n₂.frontier = n₁.frontier →
      (do moveFrontier fun f => { f with preprocess := Frontier.before? l }
          return some l : Step (Network α) (Option Nat)).Meets n₂
        (fun r n' => r = some l ∧ n'.frontier = { n.frontier with preprocess := Frontier.before? l })
        (fun _ n' => n'.frontier = n.frontier) := by
    intro n₂ h₂
    have hframe : n₂.frontier = n.frontier := Eq.trans h₂ h₁
    refine ⟨rfl, ?_⟩
    change { n₂.frontier with preprocess := Frontier.before? l } = _
    rw [hframe]
  rw [Step.meets_ite]
  constructor
  · intro _
    rw [Step.meets_bind]
    exact (Step.Within.forM created (within_boundInput hbound) n₁).mono (fun _ _ h₂ => hdone h₂)
      fun _ _ h₂ => Eq.trans h₂ h₁
  · intro _
    rw [Step.meets_bind, Step.meets_get, Step.meets_ite]
    constructor
    · intro _
      rw [Step.meets_bind]
      exact (Step.Within.forM created (within_boundOutput hbound) n₁).mono (fun _ _ h₂ => hdone h₂)
        fun _ _ h₂ => Eq.trans h₂ h₁
    · exact fun _ => hdone rfl

/-- Forward activation moves its own stage on. -/
theorem forwardNext_frontier (hl : n.frontier.forward = some l) :
    forwardNext.Meets n (fun r n' => r = some l ∧ n'.frontier = { n.frontier with forward := Frontier.before? l })
      (fun _ _ => True) := by
  unfold forwardNext
  rw [Step.meets_bind, Step.meets_get]
  dsimp only
  rw [hl]
  dsimp only
  rw [Step.meets_ite]
  refine ⟨fun _ => trivial, fun _ => ?_⟩
  rw [Step.meets_bind]
  refine (keepsRest_onAbstraction frontier_onAbstraction _ n).mono (fun _ n₁ h₁ => ?_) fun _ _ _ => trivial
  have hframe : n₁.frontier = n.frontier := h₁
  refine ⟨rfl, ?_⟩
  change { n₁.frontier with forward := Frontier.before? l } = _
  rw [hframe]

omit [Scalar α] in
/-- Full activation moves its own stage on. -/
theorem fullNext_frontier (hl : n.frontier.full = some l) :
    fullNext.Meets n (fun r n' => r = some l ∧ n'.frontier = { n.frontier with full := Frontier.interiorBefore? l })
      (fun _ _ => True) := by
  unfold fullNext
  rw [Step.meets_bind, Step.meets_get]
  dsimp only
  rw [hl]
  dsimp only
  rw [Step.meets_ite]
  refine ⟨fun _ => trivial, fun _ => ?_⟩
  rw [Step.meets_bind, Step.meets_get, Step.meets_bind]
  refine (keepsRest_onAbstraction frontier_onAbstraction _ n).mono (fun _ n₁ h₁ => ?_) fun _ _ _ => trivial
  have hframe : n₁.frontier = n.frontier := h₁
  refine ⟨rfl, ?_⟩
  change { n₁.frontier with full := Frontier.interiorBefore? l } = _
  rw [hframe]

section Views

variable {ν : Type} {view : Network α → ν} (hview : ∀ n a, view { n with abstraction := a } = view n)

include hview

theorem keepsRest_preprocessNext
    (hmove : ∀ n next, view { n with frontier := { n.frontier with preprocess := next } } = view n) :
    Step.Keeps view (preprocessNext : Step (Network α) (Option Nat)) := by
  refine .bind .get fun n => ?_
  split
  · exact .pure _
  · next l _ =>
    exact .bind (keepsRest_onAbstraction hview _) fun created =>
      within_boundCreated (fun _ _ => keepsRest_onAbstraction hview _) (fun _ n => hmove n _) l created

theorem keepsRest_forwardNext
    (hmove : ∀ n next, view { n with frontier := { n.frontier with forward := next } } = view n) :
    Step.Keeps view (forwardNext : Step (Network α) (Option Nat)) := by
  refine .bind .get fun n => ?_
  dsimp only
  split
  · exact .pure _
  · next l _ =>
    refine .ite (.bind (.throw _) fun _ => ?_) ?_
    all_goals exact .bind (keepsRest_onAbstraction hview _) fun _ => .bind (fun n => hmove n _) fun _ => .pure _

omit [Scalar α] in
theorem keepsRest_fullNext
    (hmove : ∀ n next, view { n with frontier := { n.frontier with full := next } } = view n) :
    Step.Keeps view (fullNext : Step (Network α) (Option Nat)) := by
  refine .bind .get fun n => ?_
  dsimp only
  split
  · exact .pure _
  · next l _ =>
    refine .ite (.bind (.throw _) fun _ => ?_) ?_
    all_goals
      refine .bind .get fun n => .bind (keepsRest_onAbstraction hview _) fun _ => ?_
      exact .bind (fun n => hmove n _) fun _ => .pure _

/-- Completing the abstraction leaves all but the abstraction and the frontier alone. -/
theorem keepsRest_complete (hfrontier : ∀ n f, view { n with frontier := f } = view n) :
    Step.Keeps view (complete : Step (Network α) Unit) :=
  within_complete (within_advance (keepsRest_preprocessNext hview fun n _ => hfrontier n _)
    (keepsRest_forwardNext hview fun n _ => hfrontier n _) (keepsRest_fullNext hview fun n _ => hfrontier n _))

end Views

/-- Each advance takes a stage, until all are taken. -/
theorem advance_pending (n : Network α) : advance.Meets n (fun more n' =>
      if more then n'.frontier.pending < n.frontier.pending else n'.frontier.isComplete = true) (fun _ _ => True) := by
  unfold advance
  rw [Step.meets_bind, Step.meets_get, Step.meets_ite]
  constructor
  · intro hfull
    obtain ⟨l, hl, _⟩ := (Option.any_eq_true _ _).mp hfull
    rw [Step.meets_bind, Step.meets_discard]
    refine (fullNext_frontier hl).mono (fun _ n' h' => ?_) fun _ _ _ => trivial
    have hle := layersLeft_interiorBefore? l
    simp only [Step.meets_pure, if_true, h'.2, Frontier.pending, hl, layersLeft_some]
    omega
  · intro _
    rw [Step.meets_ite]
    constructor
    · intro hforward
      obtain ⟨l, hl, _⟩ := (Option.any_eq_true _ _).mp hforward
      rw [Step.meets_bind, Step.meets_discard]
      refine (forwardNext_frontier hl).mono (fun _ n' h' => ?_) fun _ _ _ => trivial
      simp only [Step.meets_pure, if_true, h'.2, Frontier.pending, hl, layersLeft_before?, layersLeft_some]
      omega
    · intro _
      rw [Step.meets_ite]
      constructor
      · intro hpre
        obtain ⟨l, hl⟩ := Option.isSome_iff_exists.mp hpre
        rw [Step.meets_bind, Step.meets_discard]
        refine (preprocessNext_frontier hl).mono (fun _ n' h' => ?_) fun _ _ _ => trivial
        simp only [Step.meets_pure, if_true, h'.2, Frontier.pending, hl, layersLeft_before?, layersLeft_some]
        omega
      · intro _
        rw [Step.meets_ite]
        exact ⟨fun _ => trivial, fun hcomplete => by simpa using hcomplete⟩

/-- With more steps than stages, the frontier gets complete. -/
theorem advanceUpTo_complete {steps : Nat} (hsteps : n.frontier.pending < steps) :
    (advanceUpTo steps).Meets n (fun _ n' => n'.frontier.isComplete = true) (fun _ _ => True) := by
  induction steps generalizing n with
  | zero => exact absurd hsteps (Nat.not_lt_zero _)
  | succ steps ih =>
    rw [advanceUpTo, Step.meets_bind]
    refine (advance_pending n).imp fun more n' hmore => ?_
    rw [Step.meets_ite]
    constructor
    · intro htrue
      rw [if_pos htrue] at hmore
      exact ih (by omega)
    · intro hfalse
      rwa [if_neg hfalse] at hmore

variable {net : Feedforward α} {property : Property α} {start : Network α}

/-- The abstraction can be completed, if there is room for it. -/
theorem Orderly.complete_meets (h : Orderly net property start n) :
    complete.Meets n (fun _ n' => n'.frontier.isComplete = true) (fun e _ => e.IsExhausted) := by
  rw [complete, Step.meets_bind, Step.meets_get]
  have hle := h.ordered.pending_le
  have hcomplete : (advanceUpTo (3 * n.abstraction.layers.length + 1)).Meets n
      (fun _ n' => n'.frontier.isComplete = true) (fun _ _ => True) := advanceUpTo_complete (by rw [h.length_eq]; omega)
  exact (hcomplete.and (staysOrderly_advanceUpTo _ n h)).mono (fun _ _ hboth => hboth.1) fun _ _ hboth => hboth.2

end Network

end ReluAbstraction
