import ReluAbstraction.Proofs.Capacity
import ReluAbstraction.Proofs.Outlines

/-!
# Stages in lockstep

The stages of the abstraction can be called in any order. A call that comes too early is turned down and changes nothing;
any other call takes one layer, or finds that its stage is through. At every point the frontier says how far each arnode is
built. Every order takes the same number of layers and ends with the same network.
-/

namespace ReluAbstraction

namespace Frontier

/-- How far the arnodes of layer `l` are built. -/
def stateOf (f : Frontier) (l : Nat) : ActivationState :=
  if f.isFullyActivated l then .fullyActivated
  else if f.isForwardActivated l then .forwardActivated
  else .notActivated

/-- Number of layers that the stages have still to take. The input layer is never fully activated. -/
def remaining (f : Frontier) : Nat := layersLeft f.preprocess + layersLeft f.forward + (layersLeft f.full - 1)

theorem layersLeft_interior (l : Nat) : layersLeft (interiorBefore? l) - 1 = l - 1 := by
  unfold interiorBefore?
  cases l with
  | zero => rfl
  | succ l => cases l <;> simp [before?, layersLeft, Option.filter]

theorem remaining_start {depth : Nat} (h : 1 ≤ depth) : (start depth).remaining = 3 * depth - 1 := by
  simp only [remaining, start, layersLeft_before?, layersLeft_interior]
  omega

theorem layersLeft_eq_zero {next : Option Nat} : layersLeft next = 0 ↔ next = none := by
  cases next <;> simp [layersLeft]

theorem isComplete_eq_true_iff {f : Frontier} :
    f.isComplete = true ↔ (f.preprocess = none ∧ f.forward = none) ∧ f.full = none := by
  simp only [isComplete, Bool.and_eq_true, Option.isNone_iff_eq_none]

theorem eq_of_isComplete {f f' : Frontier} (h : f.isComplete = true) (h' : f'.isComplete = true) : f = f' := by
  obtain ⟨⟨hpre, hforward⟩, hfull⟩ := isComplete_eq_true_iff.mp h
  obtain ⟨⟨hpre', hforward'⟩, hfull'⟩ := isComplete_eq_true_iff.mp h'
  cases f
  cases f'
  simp_all only

/-- The frontier is complete once no layer is left. -/
theorem Ordered.isComplete_iff {f : Frontier} {depth : Nat} (h : f.Ordered depth) :
    f.isComplete = true ↔ f.remaining = 0 := by
  -- A layer whose turn it is to be fully activated is not the input layer, so it counts.
  have hfull : layersLeft f.full - 1 = 0 ↔ f.full = none := by
    cases hl : f.full with
    | none => simp [layersLeft]
    | some l =>
      have hpos := h.full_pos hl
      simp only [layersLeft_some, reduceCtorEq, iff_false]
      omega
  simp only [isComplete_eq_true_iff, remaining, Nat.add_eq_zero_iff, layersLeft_eq_zero, hfull]

end Frontier

namespace Network

variable {α : Type} [Scalar α]

/-- A call that takes a stage one layer further. -/
inductive Stage where
  /-- Preprocesses the next layer. -/
  | preprocess
  /-- Forward activates the next layer. -/
  | forward
  /-- Fully activates the next layer. -/
  | full
  /-- Takes the latest stage that can run. -/
  | advance
deriving DecidableEq

/-- Makes the call. Gives whether a layer was taken. -/
def Stage.take : Stage → Step (Network α) Bool
  | preprocess => do return (← preprocessNext).isSome
  | forward => do return (← forwardNext).isSome
  | full => do return (← fullNext).isSome
  | advance => Network.advance

/-- The networks that calls of stages lead to, in any order, with the number of layers taken. Calls may be turned down
because it is not their turn. -/
inductive Interleaves (start : Network α) : Nat → Network α → Prop
  /-- No call. -/
  | start : Interleaves start 0 start
  /-- One more call, which takes a layer. -/
  | took {taken : Nat} {n n' : Network α} (h : Interleaves start taken n) (stage : Stage)
      (hrun : stage.take n = .ok true n') : Interleaves start (taken + 1) n'
  /-- One more call, whose stage is through. -/
  | idle {taken : Nat} {n n' : Network α} (h : Interleaves start taken n) (stage : Stage)
      (hrun : stage.take n = .ok false n') : Interleaves start taken n'
  /-- One more call, which is turned down. -/
  | refused {taken : Nat} {n n' : Network α} {fault : FrontierFault} (h : Interleaves start taken n) (stage : Stage)
      (hrun : stage.take n = .error (.frontierViolation fault) n') : Interleaves start taken n'

variable {net : Feedforward α} {property : Property α} {start n n' : Network α}

/-- A network in order, with room for what is to come, whose arnodes are all marked and whose outline is a matter of how
many layers are preprocessed. -/
structure Kept (net : Feedforward α) (property : Property α) (start n : Network α) : Prop where
  orderly : Orderly net property start n
  ample : n.abstraction.Ample (5 * net.shape.sum)
  marked : n.abstraction.Marked
  drawn : ∃ layers, Drawn start layers n ∧ layersLeft n.frontier.preprocess + layers = net.depth

/-- What came of a call: a layer less remains if it took one, and else nothing has changed. -/
def Moved (took : Bool) (n n' : Network α) : Prop :=
  if took then n'.frontier.remaining + 1 = n.frontier.remaining else n' = n

omit [Scalar α] in
theorem moved_true : Moved true n n' ↔ n'.frontier.remaining + 1 = n.frontier.remaining := Iff.rfl

omit [Scalar α] in
theorem moved_false : Moved false n n' ↔ n' = n := by simp [Moved]

theorem build_kept {options : Options} (hbuild : build net property options = .ok start)
    (hlimit : options.variableLimit = none) : Kept net property start start := by
  obtain ⟨_, _, _, a, _, hstart⟩ := build_eq_ok hbuild
  obtain ⟨_, hpart, _⟩ := build_represents hbuild
  have harnodes : start.abstraction.arnodes = Arena.empty := congrArg (fun p => p.2.1) hpart
  have hencoding : start.abstraction.encoding = .empty options.variableLimit := congrArg (fun p => p.2.2.1) hpart
  refine ⟨build_orderly hbuild, build_ample hbuild hlimit, fun x => ?_, 0, .start rfl, ?_⟩
  · simp [harnodes, hencoding, Graph.body?, Encoding.isStale, Encoding.empty, SortedMap.contains]
  · rw [hstart]
    exact layersLeft_before? net.depth

/-- Forward activation does to the abstraction what its stage does. -/
theorem forwardNext_meets_of {P : Abstraction α → Prop} {l : Nat} (hl : n.frontier.forward = some l)
    (h : (Abstraction.forwardActivateLayer l).Meets n.abstraction (fun _ a => P a) Step.Never) :
    forwardNext.Meets n (fun _ n' => P n'.abstraction) (fun _ _ => True) := by
  unfold forwardNext
  rw [Step.meets_bind, Step.meets_get]
  dsimp only
  rw [hl]
  dsimp only
  rw [Step.meets_ite]
  refine ⟨fun _ => trivial, fun _ => ?_⟩
  rw [Step.meets_bind, onAbstraction, Step.meets_zoom]
  exact h.mono (fun _ _ ha => ha) fun _ _ _ => trivial

omit [Scalar α] in
theorem fullNext_meets_of {P : Abstraction α → Prop} {l : Nat} (hl : n.frontier.full = some l)
    (h : n.frontier.canFullyActivate = true →
      (Abstraction.confirmLayer l n.checkActivation).Meets n.abstraction (fun _ a => P a) Step.Never) :
    fullNext.Meets n (fun _ n' => P n'.abstraction) (fun _ _ => True) := by
  unfold fullNext
  rw [Step.meets_bind, Step.meets_get]
  dsimp only
  rw [hl]
  dsimp only
  rw [Step.meets_ite]
  refine ⟨fun _ => trivial, fun hready => ?_⟩
  rw [Step.meets_bind, Step.meets_get, Step.meets_bind, onAbstraction, Step.meets_zoom]
  exact (h (by simpa using hready)).mono (fun _ _ ha => ha) fun _ _ _ => trivial

namespace Kept

theorem preprocessNext_meets (h : Kept net property start n) :
    preprocessNext.Meets n
      (fun r n' => Kept net property start n' ∧ r = n.frontier.preprocess ∧ Moved r.isSome n n')
      (fun e _ => e.IsExhausted ∧ Arena.span ≤ 5 * net.shape.sum) := by
  cases hl : n.frontier.preprocess with
  | none =>
    unfold preprocessNext
    rw [Step.meets_bind, Step.meets_get, hl]
    exact ⟨h, rfl, rfl⟩
  | some l =>
    have hclassify : (Abstraction.preprocess l).Meets n.abstraction (fun _ a => a.Marked)
        (Abstraction.Starved n.abstraction) := by
      refine (h.orderly.preprocess_meets hl).imp ?_
      rintro _ _ ⟨_, hc, _⟩
      exact hc.marked h.marked
    have hmarked := preprocessNext_meets_of (P := Abstraction.Marked) hl hclassify fun _ _ hm => hm
    have hroom := h.orderly.preprocessNext_ample h.ample
    refine (((h.orderly.preprocessNext_meets.and (preprocessNext_frontier hl)).and (hroom.and hmarked)).ok_eq).mono ?_ ?_
    · rintro _ n' ⟨hrun, ⟨horderly, rfl, hfrontier⟩, hample, hmarked⟩
      obtain ⟨layers, hdrawn, hleft⟩ := h.drawn
      rw [hl, layersLeft_some] at hleft
      refine ⟨⟨horderly, hample, hmarked, layers + 1, .next hdrawn hrun rfl, ?_⟩, rfl, ?_⟩
      · rw [hfrontier, layersLeft_before?]
        omega
      · rw [Option.isSome_some, moved_true, hfrontier]
        simp only [Frontier.remaining, hl, layersLeft_before?, layersLeft_some]
        omega
    · rintro e n' ⟨_, hroom, _⟩
      exact hroom

/-- Forward activation adds nothing to the outline, and marks arnodes only. -/
theorem forwardNext_meets (h : Kept net property start n) :
    forwardNext.Meets n (fun r n' => Kept net property start n' ∧ r = n.frontier.forward ∧ Moved r.isSome n n')
      (fun e n' => n.frontier.canForward = false ∧ n' = n ∧ ∃ fault, e = .frontierViolation fault) := by
  cases hl : n.frontier.forward with
  | none =>
    unfold forwardNext
    rw [Step.meets_bind, Step.meets_get]
    dsimp only
    rw [hl]
    exact ⟨h, rfl, rfl⟩
  | some l =>
    have hactivate : (Abstraction.forwardActivateLayer l).Meets n.abstraction
        (fun _ a => a.Ample (5 * net.shape.sum) ∧ a.Marked) Step.Never := by
      refine (h.orderly.forwardActivateLayer_meets hl).imp ?_
      rintro _ _ ⟨_, hp, _⟩
      exact ⟨h.ample.progress hp, hp.marked h.marked⟩
    have hfill := forwardNext_meets_of (P := fun a => a.Ample (5 * net.shape.sum) ∧ a.Marked) hl hactivate
    have houtline := keepsOutline_forwardNext n
    refine ((h.orderly.forwardNext_meets.and (forwardNext_frontier hl)).and (houtline.and hfill)).mono ?_ ?_
    · rintro _ n' ⟨⟨horderly, rfl, hfrontier⟩, hsame, hample, hmarked⟩
      obtain ⟨layers, hdrawn, hleft⟩ := h.drawn
      refine ⟨⟨horderly, hample, hmarked, layers, hdrawn.of_outline hsame, ?_⟩, rfl, ?_⟩
      · rw [hfrontier]
        exact hleft
      · rw [Option.isSome_some, moved_true, hfrontier]
        simp only [Frontier.remaining, hl, layersLeft_before?, layersLeft_some]
        omega
    · rintro e n' ⟨⟨hfail, _⟩, _⟩
      exact hfail

/-- Full activation adds nothing to the outline, and marks nothing. -/
theorem fullNext_meets (h : Kept net property start n) :
    fullNext.Meets n (fun r n' => Kept net property start n' ∧ r = n.frontier.full ∧ Moved r.isSome n n')
      (fun e n' => n.frontier.canFullyActivate = false ∧ n' = n ∧ ∃ fault, e = .frontierViolation fault) := by
  cases hl : n.frontier.full with
  | none =>
    unfold fullNext
    rw [Step.meets_bind, Step.meets_get]
    dsimp only
    rw [hl]
    exact ⟨h, rfl, rfl⟩
  | some l =>
    have hpos := h.orderly.ordered.full_pos hl
    have hfill := fullNext_meets_of (P := fun a => a.Ample (5 * net.shape.sum) ∧ a.Marked) hl fun hready => by
      have hbefore : n.frontier.isForwardActivated (l - 1) = true := by
        simpa [Frontier.canFullyActivate, hl, Nat.one_le_iff_ne_zero, Nat.ne_of_gt hpos] using hready
      refine (h.orderly.confirmLayer_meets hl hbefore n.checkActivation).imp ?_
      rintro _ _ ⟨_, hp, _⟩
      exact ⟨h.ample.progress hp, hp.marked h.marked⟩
    have houtline := keepsOutline_fullNext n
    refine ((h.orderly.fullNext_meets.and (fullNext_frontier hl)).and (houtline.and hfill)).mono ?_ ?_
    · rintro _ n' ⟨⟨horderly, rfl, hfrontier⟩, hsame, hample, hmarked⟩
      obtain ⟨layers, hdrawn, hleft⟩ := h.drawn
      refine ⟨⟨horderly, hample, hmarked, layers, hdrawn.of_outline hsame, ?_⟩, rfl, ?_⟩
      · rw [hfrontier]
        exact hleft
      · rw [Option.isSome_some, moved_true, hfrontier]
        simp only [Frontier.remaining, hl, Frontier.layersLeft_interior, layersLeft_some]
        omega
    · rintro e n' ⟨⟨hfail, _⟩, _⟩
      exact hfail

/-- An advance is never turned down. It takes a layer until the frontier is complete. -/
theorem advance_meets (h : Kept net property start n) :
    advance.Meets n (fun took n' => Kept net property start n' ∧ Moved took n n' ∧ took = !n.frontier.isComplete)
      (fun e _ => e.IsExhausted ∧ Arena.span ≤ 5 * net.shape.sum) := by
  -- A call that took a layer had one to take, so the frontier was not complete.
  have htook : ∀ {took n'}, Kept net property start n' → took = true → Moved took n n' →
      Kept net property start n' ∧ Moved true n n' ∧ true = !n.frontier.isComplete := by
    rintro _ n' hkept rfl hmoved
    refine ⟨hkept, hmoved, ?_⟩
    rw [moved_true] at hmoved
    have hiff := h.orderly.ordered.isComplete_iff
    cases hc : n.frontier.isComplete with
    | false => rfl
    | true =>
      have hzero := hiff.mp hc
      omega
  unfold advance
  rw [Step.meets_bind, Step.meets_get]
  dsimp only
  rw [Step.meets_ite, Step.meets_ite, Step.meets_ite, Step.meets_ite]
  refine ⟨fun hfull => ?_, fun hfull => ⟨fun hforward => ?_, fun hforward => ⟨fun hpre => ?_, fun hpre =>
    ⟨fun hstuck => ?_, fun hdone => ⟨h, rfl, ?_⟩⟩⟩⟩⟩
  · rw [Step.meets_bind, Step.meets_discard]
    obtain ⟨l, hl, _⟩ := (Option.any_eq_true _ _).mp hfull
    refine h.fullNext_meets.mono (fun r n' hpost => htook hpost.1 ?_ hpost.2.2)
      fun _ _ hfail => absurd hfull (by simp [hfail.1])
    rw [hpost.2.1, hl, Option.isSome_some]
  · rw [Step.meets_bind, Step.meets_discard]
    obtain ⟨l, hl, _⟩ := (Option.any_eq_true _ _).mp hforward
    refine h.forwardNext_meets.mono (fun r n' hpost => htook hpost.1 ?_ hpost.2.2)
      fun _ _ hfail => absurd hforward (by simp [hfail.1])
    rw [hpost.2.1, hl, Option.isSome_some]
  · rw [Step.meets_bind, Step.meets_discard]
    refine h.preprocessNext_meets.mono (fun r n' hpost => htook hpost.1 ?_ hpost.2.2) fun _ _ hfail => hfail
    rw [hpost.2.1, hpre]
  · have hcomplete := h.orderly.ordered.isComplete_of_stuck (by simpa using hfull) (by simpa using hforward)
      (by simpa using hpre)
    exact absurd hstuck (by simp [hcomplete])
  · simpa using hdone

/-- Whatever the call, it takes a layer, or changes nothing, or there are too few handles for the network. -/
theorem take_meets (h : Kept net property start n) (stage : Stage) :
    stage.take.Meets n (fun took n' => Kept net property start n' ∧ Moved took n n' ∧
        (stage = .advance → took = !n.frontier.isComplete))
      (fun e n' => stage ≠ .advance ∧ n' = n ∧ (∃ fault, e = .frontierViolation fault) ∨
        e.IsExhausted ∧ Arena.span ≤ 5 * net.shape.sum) := by
  cases stage with
  | preprocess =>
    rw [Stage.take, Step.meets_bind]
    exact h.preprocessNext_meets.mono (fun _ _ hpost => ⟨hpost.1, hpost.2.2, nofun⟩) fun _ _ hfail => .inr hfail
  | forward =>
    rw [Stage.take, Step.meets_bind]
    exact h.forwardNext_meets.mono (fun _ _ hpost => ⟨hpost.1, hpost.2.2, nofun⟩)
      fun _ _ hfail => .inl ⟨nofun, hfail.2⟩
  | full =>
    rw [Stage.take, Step.meets_bind]
    exact h.fullNext_meets.mono (fun _ _ hpost => ⟨hpost.1, hpost.2.2, nofun⟩)
      fun _ _ hfail => .inl ⟨nofun, hfail.2⟩
  | advance =>
    exact h.advance_meets.mono (fun _ _ hpost => ⟨hpost.1, hpost.2.1, fun _ => hpost.2.2⟩)
      fun _ _ hfail => .inr hfail

/-- The frontier says how far each arnode is built. -/
theorem state_eq (h : Kept net property start n) {x : ArNodeId} {b : Body (ArNodeData α)}
    (hb : n.abstraction.arnodes.body? x = some b) : b.data.state = n.frontier.stateOf b.location.layer := by
  have hfull := h.orderly.staged.full hb
  have hforward := h.orderly.staged.forward hb
  unfold Frontier.stateOf
  cases hs : b.data.state with
  | notActivated =>
    rw [hs] at hfull hforward
    rw [if_neg (fun hlayer => nomatch hfull.mpr hlayer), ← hforward]
    rfl
  | forwardActivated =>
    rw [hs] at hfull hforward
    rw [if_neg (fun hlayer => nomatch hfull.mpr hlayer), ← hforward]
    rfl
  | fullyActivated =>
    rw [hs] at hfull
    rw [if_pos (hfull.mp rfl)]

/-- Arnodes are in preprocessed layers only. -/
theorem isPreprocessed (h : Kept net property start n) {x : ArNodeId} {b : Body (ArNodeData α)}
    (hb : n.abstraction.arnodes.body? x = some b) : n.frontier.isPreprocessed b.location.layer = true := by
  have hg := h.orderly.woven.grounded
  obtain ⟨m, hm⟩ := List.exists_mem_of_ne_nil _ (hg.owned.ne_nil hb)
  obtain ⟨c, hc, hholder, hlayer, _⟩ := hg.owned.member hb m hm
  by_contra hnot
  rw [← hlayer, Bool.not_eq_true] at hnot
  rw [h.orderly.staged.holder?_eq_none hg hc hnot] at hholder
  cases hholder

/-- Once the frontier is complete, there is nothing left to differ in. -/
theorem eq_of_complete (h : Kept net property start n) (h' : Kept net property start n')
    (hc : n.frontier.isComplete = true) (hc' : n'.frontier.isComplete = true) : n = n' := by
  have hfrontier : n.frontier = n'.frontier := Frontier.eq_of_isComplete hc hc'
  obtain ⟨layers, hdrawn, hleft⟩ := h.drawn
  obtain ⟨layers', hdrawn', hleft'⟩ := h'.drawn
  have hlayers : layers = layers' := by
    rw [← hfrontier] at hleft'
    omega
  subst hlayers
  have houtline := hdrawn.outline_eq hdrawn'
  have habstraction : n.abstraction = n'.abstraction := by
    refine Abstraction.eq_of_outline (congrArg (fun n => n.abstraction) houtline) h.orderly.woven h'.orderly.woven h.marked
      h'.marked (fun hb => h.state_eq hb) fun hb => ?_
    rw [h'.state_eq hb, hfrontier]
  have hback := congrArg (fun m : Network α => { m with abstraction := n.abstraction, frontier := n.frontier }) houtline
  exact hback.trans (by rw [habstraction, hfrontier]; rfl)

end Kept

/-- The invariant holds along every interleaving, and each layer taken is one less that remains. -/
theorem Interleaves.kept {taken : Nat} (h : Interleaves start taken n) (hstart : Kept net property start start) :
    Kept net property start n ∧ n.frontier.remaining + taken = start.frontier.remaining := by
  induction h with
  | start => exact ⟨hstart, rfl⟩
  | took _ stage hrun ih =>
    obtain ⟨hkept, hleft⟩ := ih
    obtain ⟨hkept', hmoved, _⟩ := (hkept.take_meets stage).of_ok hrun
    rw [moved_true] at hmoved
    exact ⟨hkept', by omega⟩
  | idle _ stage hrun ih =>
    obtain ⟨_, hmoved, _⟩ := (ih.1.take_meets stage).of_ok hrun
    rw [moved_false] at hmoved
    exact hmoved ▸ ih
  | refused _ stage hrun ih =>
    obtain ⟨_, hsame, _⟩ | ⟨⟨_, hexhausted⟩, _⟩ := (ih.1.take_meets stage).of_error hrun
    · exact hsame ▸ ih
    · cases hexhausted

/-- With room for the network, advances take all layers that remain. -/
theorem Interleaves.exists_complete (hstart : Kept net property start start) (hroom : 5 * net.shape.sum < Arena.span)
    {taken left : Nat} (h : Interleaves start taken n) (hleft : n.frontier.remaining = left) :
    ∃ n', Interleaves start (taken + left) n' := by
  induction left generalizing taken n with
  | zero => exact ⟨n, h⟩
  | succ left ih =>
    have hkept := (h.kept hstart).1
    have hmeets : advance.Meets n _ Step.Never := hkept.advance_meets.mono (fun _ _ hpost => hpost)
      fun _ _ hfail => absurd hfail.2 (Nat.not_le.mpr hroom)
    obtain ⟨took, n', hrun, _, hmoved, htook⟩ := hmeets.exists_ok
    have hunfinished : n.frontier.isComplete = false := by
      rw [Bool.eq_false_iff, Ne, hkept.orderly.ordered.isComplete_iff]
      omega
    rw [hunfinished, Bool.not_false] at htook
    subst htook
    rw [moved_true] at hmoved
    obtain ⟨n'', hrest⟩ := ih (.took h .advance hrun) (by omega)
    exact ⟨n'', by rwa [Nat.add_right_comm] at hrest⟩

/-- What can be said of a network after calls of stages that took `taken` layers. -/
structure InLockstep (net : Feedforward α) (taken : Nat) (n : Network α) : Prop where
  /-- A call fails because it is not its turn, and changes nothing; this does not happen to an advance. Else the network has
  too many neurons for all nodes to have handles. -/
  fails : ∀ {stage : Stage} {e n'}, stage.take n = .error e n' →
    (stage ≠ .advance ∧ n' = n ∧ ∃ fault, e = .frontierViolation fault) ∨ (e.IsExhausted ∧ Arena.span ≤ 5 * net.shape.sum)
  /-- A call that takes no layer changes nothing. -/
  idle : ∀ {stage : Stage} {n'}, stage.take n = .ok false n' → n' = n
  /-- An advance takes a layer until the frontier is complete. -/
  advances : ∀ {took n'}, Stage.advance.take n = .ok took n' → took = !n.frontier.isComplete
  /-- The frontier says how far each arnode is built. -/
  state_eq : ∀ {x v}, n.abstraction.arnodes.get? x = some v → v.data.state = n.frontier.stateOf v.location.layer
  /-- Only preprocessed layers have arnodes. -/
  preprocessed : ∀ {x v}, n.abstraction.arnodes.get? x = some v → n.frontier.isPreprocessed v.location.layer = true
  /-- Every stage takes every layer once, except that the input layer is not fully activated. -/
  complete_iff : n.frontier.isComplete = true ↔ taken = 3 * net.depth - 1

theorem Kept.inLockstep (h : Kept net property start n) {taken : Nat}
    (hleft : n.frontier.remaining + taken = 3 * net.depth - 1) : InLockstep net taken n where
  fails := fun {stage} _ _ hrun => (h.take_meets stage).of_error hrun
  idle := fun {stage} _ hrun => by
    obtain ⟨_, hmoved, _⟩ := (h.take_meets stage).of_ok hrun
    rwa [moved_false] at hmoved
  advances := fun hrun => ((h.take_meets .advance).of_ok hrun).2.2 rfl
  state_eq := fun hv => h.state_eq (Graph.body?_of_get? hv)
  preprocessed := fun hv => h.isPreprocessed (Graph.body?_of_get? hv)
  complete_iff := by
    rw [h.orderly.ordered.isComplete_iff]
    omega

/-- Without a limit on variables, the stages can be called in any order: at every point the frontier says how far each layer
is built, and calls that come too early are turned down without a change. All orders that complete the frontier take
the same number of layers and end with the same network, and unless there are too many neurons some order does. -/
theorem stages_in_lockstep {options : Options} (hbuild : build net property options = .ok start)
    (hlimit : options.variableLimit = none) :
    (∀ {taken n}, Interleaves start taken n → InLockstep net taken n) ∧
    (∀ {taken taken' n n'}, Interleaves start taken n → Interleaves start taken' n' → n.frontier.isComplete = true →
      n'.frontier.isComplete = true → n = n') ∧
    (5 * net.shape.sum < Arena.span → ∃ n, Interleaves start (3 * net.depth - 1) n) := by
  have hkept := build_kept hbuild hlimit
  have hstart : start.frontier.remaining = 3 * net.depth - 1 := by
    obtain ⟨_, _, hdepth, _, _, hstart⟩ := build_eq_ok hbuild
    rw [hstart]
    exact Frontier.remaining_start (by omega)
  refine ⟨fun h => ?_, fun h h' hc hc' => (h.kept hkept).1.eq_of_complete (h'.kept hkept).1 hc hc', fun hroom => ?_⟩
  · obtain ⟨hkept', hleft⟩ := h.kept hkept
    exact hkept'.inLockstep (hleft.trans hstart)
  · obtain ⟨n, h⟩ := Interleaves.start.exists_complete hkept hroom hstart
    exact ⟨n, by rwa [Nat.zero_add] at h⟩

/-- The stages take eight layers of the forked network, and then there is one network only. -/
theorem stages_in_lockstep_fork : ∃ start n, build .fork ⟨.maximize, 0, 1⟩ .standard = .ok start ∧
    Options.standard.variableLimit = none ∧ Interleaves start 8 n ∧ InLockstep .fork 8 n ∧ n.frontier.isComplete = true ∧
    ∀ {taken n'}, Interleaves start taken n' → n'.frontier.isComplete = true → n = n' := by
  obtain ⟨start, hbuild, _⟩ := exists_ok_of_toOption (r := build .fork ⟨.maximize, 0, 1⟩ .standard) (P := fun _ => True)
    (by decide +kernel)
  obtain ⟨hpoint, hsame, hends⟩ := stages_in_lockstep hbuild rfl
  obtain ⟨n, hn⟩ := hends (by decide +kernel)
  have hcomplete := (hpoint hn).complete_iff.mpr rfl
  exact ⟨start, n, hbuild, rfl, hn, hpoint hn, hcomplete, fun h' hc' => hsame hn h' hcomplete hc'⟩

end Network

end ReluAbstraction
