import ReluAbstraction.Proofs.Answers

/-!
# Counterexamples are real

Verification takes the inputs of an abstract solution and tries them on the network as it stands. With an exact solver the
inputs lie in the declared ranges, since those bound the variables of the input layer through all merges and splits, and to
try them is to evaluate the network. So a counterexample reaches the region, and the inputs of a spurious solution do not.
Verification itself leaves the arnodes and the concrete query alone.
-/

namespace ReluAbstraction

section Skeleton

variable {α : Type}

/-- An arnode without its equation. -/
def ArNode.unbalanced (v : ArNode α) : ArNode α := { v with data := { v.data with equation := none } }

namespace Abstraction

/-- Layers, nodes and arnodes with all their edges, equations left out. -/
def skeleton (a : Abstraction α) :
    List Layer × Graph .node α (NodeData α) × Graph .arnode α (ArNodeData α) × Policy :=
  (a.layers, a.nodes, Arena.map ArNode.unbalanced a.arnodes, a.policy)

open Step

theorem keepsSkeleton_recode (f : Encoding α → Encoding α) : Keeps skeleton (recode f) := fun _ => rfl

/-- Another equation does not show in the skeleton. -/
theorem keepsSkeleton_balance (id : ArNodeId) (equation : Option (Equation α)) :
    Keeps skeleton (onArnodes (Graph.edit id fun v => .ok { v with data := { v.data with equation } })) := by
  intro a
  unfold onArnodes Graph.edit
  rw [meets_zoom, meets_update]
  cases hmodify : Arena.modify a.arnodes id fun v => .ok { v with data := { v.data with equation } } with
  | error e => rfl
  | ok g =>
    have hmap := Arena.map_of_modify (f := ArNode.unbalanced) (fun v v' h => by cases h; rfl) hmodify
    simp [Same, skeleton, hmap]

variable [Scalar α]

theorem keepsSkeleton_refresh (id : ArNodeId) : Keeps skeleton (refresh id : Step (Abstraction α) Unit) := by
  refine (Within.read _).bind fun arnode => (Within.read _).bind fun equation => ?_
  exact (keepsSkeleton_balance id equation).bind fun _ => keepsSkeleton_recode _

theorem keepsSkeleton_refreshEquations : Keeps skeleton (refreshEquations : Step (Abstraction α) Nat) := by
  have htake : Keeps skeleton (onEncoding Encoding.takeStale : Step (Abstraction α) (List ArNodeId)) := by
    intro a
    rw [onEncoding, meets_zoom]
    exact meets_of_forall _ _ (fun _ _ => rfl) fun _ _ => rfl
  refine htake.bind fun stale => Within.foldlM stale 0 fun rebuilt id => Within.get.bind fun a => ?_
  exact Within.ite ((keepsSkeleton_refresh id).bind fun _ => Within.pure _) (Within.pure _)

end Abstraction

/-- Verification leaves the skeleton and the concrete query alone, whatever the solver does. -/
theorem Network.keepsSkeleton_verify {σ : Type} [Scalar α] (solver : Solver σ α) (options : SolveOptions) :
    Step.Keeps (fun s : Session σ α => (s.network.abstraction.skeleton, s.network.concrete))
      (Session.verify solver options) := by
  have hrefresh : Step.Keeps (fun n : Network α => (n.abstraction.skeleton, n.concrete))
      (onAbstraction Abstraction.refreshEquations) :=
    Abstraction.keepsSkeleton_refreshEquations.zoom fun _ _ hs => by simpa [Step.Same] using hs
  exact within_verify (hrefresh.discard.bind fun _ _ => rfl) (fun _ _ => rfl) solver options

end Skeleton

namespace ConcreteEncoding

variable {net : Feedforward Rat} {property : Property Rat} {inputs : List Rat}

/-- A solution with the inputs fixed has the outputs of the network, and the property's output meets its bound. -/
theorem evaluate_of_pinned (hnet : net.Shaped) (hdepth : 2 ≤ net.depth)
    (houtput : property.output < net.width net.layers.length) (hlength : inputs.length = net.inputs.length)
    {values : Assignment Rat} (h : ((ofNetwork net property).pinned inputs).isSatisfiedBy values .exact = true) :
    net.evaluate inputs = .ok ((ofNetwork net property).outputs.map values.value) ∧
      ∃ y, ((ofNetwork net property).outputs.map values.value)[property.output]? = some y ∧ property.bound.Admits y := by
  obtain ⟨hvalues, hbound⟩ := (solvedBy_pinned_iff hdepth houtput hlength).mp (Query.isSatisfiedBy_exact_iff.mp h)
  have houtputs : (ofNetwork net property).outputs.map values.value =
      (List.range (net.width net.layers.length)).map (net.rawAt inputs net.layers.length) := by
    simp only [ofNetwork, List.map_map]
    refine List.map_congr_left fun j hj => ?_
    rw [Function.comp_apply, (hvalues net.layers.length (Nat.lt_succ_self _) j (List.mem_range.mp hj)).2,
      Feedforward.valueAt_eq, Feedforward.rectifyAt_of_not_hidden net.isHidden_last]
  rw [houtputs]
  exact ⟨Feedforward.evaluate_eq_ok hnet (Feedforward.layers_ne_nil hdepth) hlength, _,
    Feedforward.getElem?_outputs houtput, hbound⟩

end ConcreteEncoding

namespace Network

variable {net : Feedforward Rat} {property : Property Rat} {n : Network Rat} {q : Query Rat} {a : Abstraction Rat}

/-- The inputs of an abstract solution lie in their ranges. -/
theorem Posed.admits (h : Posed net property n q a) {values : Assignment Rat}
    (hvalues : q.isSatisfiedBy values .exact = true) {inputs : List Rat} (hlength : inputs.length = net.inputs.length)
    (hfeeds : a.Feeds values inputs) : net.Admits inputs := by
  obtain ⟨raw, fired, hsettles, hraw⟩ := h.settles hvalues
  have hfaithful := h.finished.represents.faithful
  refine List.forall₂_iff_get.mpr ⟨hlength.symm, fun i hi hi' => ?_⟩
  -- The arnode of the input has its node alone, so that its variable has the bounds of the input.
  obtain ⟨m, c, hc, hlayer, hindex⟩ := hfaithful.exists_node (l := 0) (Nat.succ_pos _) hi
  obtain ⟨x, hx⟩ := Option.isSome_iff_exists.mp (h.finished.held hc)
  obtain ⟨b, hb, hm, hcl, _⟩ := h.finished.grounded.owned.exists_of_holder? hx hc
  have hbl : b.location.layer = 0 := hcl.symm.trans hlayer
  obtain ⟨m', _, hmembers, _⟩ := h.finished.exists_alone hb (Feedforward.not_regroupable_of_boundary (.inl hbl))
  rw [hmembers, List.mem_singleton] at hm
  subst hm
  have hhead : b.data.members.head? = some m := by rw [hmembers, List.head?_cons]
  have horigin : c.origin = ⟨0, i⟩ := by
    have hlayer' : c.origin.layer = 0 := (hfaithful.origin_layer hc).trans hlayer
    rw [← hlayer', ← hindex]
  have hrange : net.inputs[i]? = some (net.inputs.get ⟨i, hi⟩) := List.getElem?_eq_getElem hi
  have hlow : net.Limits property c.origin (.lower (net.inputs.get ⟨i, hi⟩).low) := horigin ▸ .low hrange
  have hhigh : net.Limits property c.origin (.upper (net.inputs.get ⟨i, hi⟩).high) := horigin ▸ .high hrange
  have hvalue : inputs.get ⟨i, hi'⟩ = raw x := by
    have hfed := hfeeds hb hbl (by rw [hmembers]; exact List.mem_singleton_self m) hc
    rw [hindex, List.getElem?_eq_getElem hi', ← hraw hb] at hfed
    exact Option.some.inj hfed
  rw [hvalue]
  exact ⟨hsettles.bounds hb hhead hc hlow, hsettles.bounds hb hhead hc hhigh⟩

end Network

/-- What a verdict tells about the network, if it was found with a query of the abstraction and the values given for it. -/
def Verdict.Holds (net : Feedforward Rat) (property : Property Rat) (a : Abstraction Rat) (q : Query Rat)
    (values : Assignment Rat) : Verdict Rat → Prop
  | .unsat => ∀ values', q.isSatisfiedBy values' .exact = false
  | .spurious => q.isSatisfiedBy values .exact = true ∧
      ∃ inputs outputs y, a.Feeds values inputs ∧ net.evaluate inputs = .ok outputs ∧
        outputs[property.output]? = some y ∧ ¬property.bound.Admits y
  | .sat counterexample => q.isSatisfiedBy values .exact = true ∧ a.Feeds values counterexample.inputs ∧
      net.Admits counterexample.inputs ∧ net.evaluate counterexample.inputs = .ok counterexample.outputs ∧
      ∃ y, counterexample.outputs[property.output]? = some y ∧ property.bound.Admits y

namespace Session

open Network

variable {σ : Type} {net : Feedforward Rat} {property : Property Rat} {options : Options} {start n n₁ n' : Network Rat}
  {solver : Solver σ Rat} {solveOptions : SolveOptions} {state : σ} {q : Query Rat} {verdict : Verdict Rat}

/-- With an exact solver, a verdict on a complete abstraction holds of the network. -/
theorem Verified.holds (hverified : Verified solver solveOptions state n₁ q verdict n') (hexact : solver.Exact)
    (hvalid : net.validate = .ok ()) (hbuild : build net property options = .ok start)
    (hposed : Posed net property n q n₁.abstraction) (ho : Orderly net property start n₁) :
    ∃ o state₁, solver.solve q solveOptions state = .ok o state₁ ∧
      verdict.Holds net property n.abstraction q o.assignment := by
  have hnet := Feedforward.shaped_of_validate hvalid
  obtain ⟨hdepth, houtput, _⟩ := build_eq_ok hbuild
  have hlayers := Feedforward.layers_ne_nil hdepth
  cases hverified with
  | unsat hanswer hnone => exact ⟨_, _, hanswer, hexact.unsat hanswer hnone⟩
  | spurious hanswer hsome hinputs hreplay hnone =>
    obtain ⟨hlength, hfeeds⟩ := exists_feeds hbuild ho hinputs
    refine ⟨_, _, hanswer, hexact.sat hanswer hsome, _, _, _, hposed.recast.feeds_iff.mp hfeeds,
      Feedforward.evaluate_eq_ok hnet hlayers hlength, Feedforward.getElem?_outputs houtput, fun hbound => ?_⟩
    -- To reach the region with these inputs is to solve the replayed query.
    obtain ⟨values, hvalues⟩ := (ConcreteEncoding.exists_pinned_iff hnet hdepth houtput hlength).mpr
      ((Feedforward.attains_iff hnet hlayers houtput hlength).mpr hbound)
    rw [ho.concrete_eq] at hreplay
    rw [hexact.unsat hreplay hnone values] at hvalues
    cases hvalues
  | sat hanswer hsome hinputs hreplay hreached =>
    obtain ⟨hlength, hfeeds⟩ := exists_feeds hbuild ho hinputs
    have hvalues := hexact.sat hanswer hsome
    have hpinned := hexact.sat hreplay hreached
    rw [ho.concrete_eq] at hpinned
    rw [ho.concrete_eq]
    exact ⟨_, _, hanswer, hvalues, hposed.recast.feeds_iff.mp hfeeds, hposed.admits hvalues hlength hfeeds,
      ConcreteEncoding.evaluate_of_pinned hnet hdepth houtput hlength hpinned⟩

/-- A counterexample is real. Verification of a complete abstraction with an exact solver comes to a verdict, without a
change to the arnodes or to the concrete query. The inputs that it reports lie in their ranges, the outputs are those of
the network, and the property's output is in the region; the inputs of a spurious solution lead to an output outside it. -/
theorem verify_holds (hvalid : net.validate = .ok ()) (hbuild : build net property options = .ok start)
    (hreach : ReachesInOrder start n) (hcomplete : n.frontier.isComplete = true) (hexact : solver.Exact)
    (solveOptions : SolveOptions) (state : σ) :
    ∃ q n₁ o state₁ verdict s', abstractQuery n = .ok q n₁ ∧ solver.solve q solveOptions state = .ok o state₁ ∧
      verify solver solveOptions ⟨n, state⟩ = .ok verdict s' ∧ verdict.Holds net property n.abstraction q o.assignment ∧
      s'.network.abstraction.skeleton = n.abstraction.skeleton ∧ s'.network.concrete = n.concrete := by
  obtain ⟨verdict, s', hverify, q, n₁, hquery, hverified⟩ :=
    (verify_meets hexact.total solveOptions (s := ⟨n, state⟩) (hreach.orderly hbuild) hbuild hcomplete).exists_ok
  obtain ⟨hposed, ho, _⟩ := (hreach.abstractQuery_posed hbuild hcomplete).of_ok hquery
  obtain ⟨o, state₁, hanswer, hholds⟩ := hverified.holds hexact hvalid hbuild hposed ho
  have hkept := (keepsSkeleton_verify solver solveOptions ⟨n, state⟩).of_ok hverify
  exact ⟨q, n₁, o, state₁, verdict, s', hquery, hanswer, hverify, hholds, (Prod.ext_iff.mp hkept).1, (Prod.ext_iff.mp hkept).2⟩

/-- In the forked network, with the two hidden neurons merged, the solver that chooses solutions comes to a verdict that
holds. -/
theorem verify_holds_fork : Feedforward.fork.validate = .ok () ∧ Solver.oracle.Exact ∧
    ∃ start completed n, build .fork ⟨.maximize, 0, 1⟩ .standard = .ok start ∧
    Network.complete start = .ok () completed ∧ coarsen none completed = .ok 1 n ∧ n.frontier.isComplete = true ∧
    ∃ q n₁ o state₁ verdict s', abstractQuery n = .ok q n₁ ∧ Solver.oracle.solve q default () = .ok o state₁ ∧
      verify Solver.oracle default ⟨n, ()⟩ = .ok verdict s' ∧ verdict.Holds .fork ⟨.maximize, 0, 1⟩ n.abstraction q o.assignment ∧
      s'.network.abstraction.skeleton = n.abstraction.skeleton ∧ s'.network.concrete = n.concrete := by
  have hvalid : Feedforward.fork.validate = .ok () := by decide +kernel
  obtain ⟨start, completed, hbuild, hcomplete, _, hmeets⟩ := exists_completed .fork ⟨.maximize, 0, 1⟩ .standard
    (P := fun _ completed => (coarsen none).Meets completed (fun merges _ => merges = 1) Step.Never) (by decide +kernel)
  obtain ⟨_, n, hcoarsen, rfl⟩ := hmeets.exists_ok
  have h := (((complete_underway hbuild hcomplete).coarsenIn_meets hbuild _ none).of_ok hcoarsen).1
  exact ⟨hvalid, Solver.oracle_exact, start, completed, n, hbuild, hcomplete, hcoarsen, h.complete,
    verify_holds hvalid hbuild h.reaches h.complete Solver.oracle_exact default ()⟩

end Session

end ReluAbstraction
