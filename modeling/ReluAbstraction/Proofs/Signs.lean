import ReluAbstraction.Proofs.Answers

/-!
# Signs of biases

When arnodes are merged their biases are added up. The sum is on the side of each of the biases if all of them go to that
side of zero. Which side that is depends on how the neuron sways the outputs, and this can be read off the weights. With
biases of the right signs, a run that finds the region out of reach is right. Biases that are not negative are not enough.
-/

namespace ReluAbstraction

/-- A neuron can raise the outputs, or lower them, when its own value is raised: along one path of weights that are not
zero, every negative one turns the direction around. A neuron that nothing reads counts as raising them. -/
inductive Feedforward.Sways (net : Feedforward Rat) : Bool → Nat → Nat → Prop
  /-- Nothing reads the neuron. -/
  | idle {l j : Nat} (h : ∀ k < net.width (l + 1), net.weight (l + 1) k j = 0) : Sways net true l j
  /-- A neuron of the next layer reads it. -/
  | next {l j k : Nat} {up : Bool} (hweight : net.weight (l + 1) k j ≠ 0) (h : Sways net up (l + 1) k) :
      Sways net (decide (0 ≤ net.weight (l + 1) k j) == up) l j

/-- Between the boundary layers, the biases of neurons that go along with the goal are not negative, and those of neurons
that go against it are not positive. -/
def Feedforward.Signed (net : Feedforward Rat) (goal : Goal) : Prop :=
  ∀ ⦃l j up⦄, net.isHidden l = true → j < net.width l → net.Sways up l j →
    if up = decide (goal = .maximize) then 0 ≤ net.bias l j else net.bias l j ≤ 0

variable {net : Feedforward Rat} {up : Bool} {goal : Goal}

theorem Category.isIncreasing?_ofSigns (positive increasing : Bool) :
    (ofSigns positive increasing).isIncreasing? = some increasing := by
  cases positive <;> cases increasing <;> rfl

/-- The table of a node tells one way in which its neuron sways the outputs. -/
theorem Faithful.sways {info : NodeId → Option (NodeInfo Rat)} {edge : NodeId → NodeId → Option Rat}
    (h : Faithful net info edge) {x : NodeId} {b : NodeInfo Rat} (hx : info x = some b) (hone : 1 ≤ b.place.layer)
    (hup : b.place.category.isIncreasing? = some up) : net.Sways up b.place.layer b.origin.index := by
  -- The induction is on the number of layers that follow.
  induction hd : net.depth - b.place.layer generalizing x b up with
  | zero =>
    have hlt := h.layer_lt hx
    omega
  | succ d ih =>
    have hcemented : b.place.category ≠ .unprocessed := by
      intro hunprocessed
      rw [hunprocessed] at hup
      cases hup
    by_cases hedge : ∃ y w, edge x y = some w
    · obtain ⟨y, w, hedge⟩ := hedge
      obtain ⟨b', c, hb', hy, hnext⟩ := h.ends hedge
      obtain rfl : b = b' := Option.some.inj (hx.symm.trans hb')
      have hclass := h.classified hedge hx hy hcemented hone
      obtain ⟨up', hup', hcategory⟩ := Option.map_eq_some_iff.mp hclass
      have hsways := ih hy (by omega) hup' (by omega)
      have hweight := h.weight_eq hedge hx hy
      have hne := h.weight_ne hedge
      rw [hnext] at hsways hweight
      subst hweight
      rw [← hcategory, Category.isIncreasing?_ofSigns] at hup
      rw [← Option.some.inj hup]
      exact .next (beq_eq_false_iff_ne.mp hne) hsways
    · have hnone : ∀ y, edge x y = none := fun y => by
        cases hy : edge x y with
        | none => rfl
        | some w => exact absurd ⟨y, w, hy⟩ hedge
      obtain ⟨hraising, hzero⟩ := h.idle hx hcemented hone hnone
      rw [hraising] at hup
      cases hup
      exact .idle fun k hk => beq_iff_eq.mp (hzero hk)

/-- In the table of a node, weights are reduced to the side that its neuron sways the outputs to. -/
theorem Policy.incoming_of_isIncreasing? {c : Category} (h : c.isIncreasing? = some up) :
    (forGoal goal).incoming c = if up = decide (goal = .maximize) then .max else .min := by
  cases goal <;> cases c <;> cases h <;> rfl

/-- A sum of numbers that all go to one side of zero is on that side of each of them. -/
theorem Reduction.Bounds.sum_of_mem {r : Reduction} {xs : List Rat} (h : ∀ x ∈ xs, r.Bounds 0 x) {x : Rat} (hx : x ∈ xs) :
    r.Bounds x xs.sum := by
  have hsum : ∀ {ys : List Rat}, (∀ y ∈ ys, r.Bounds 0 y) → r.Bounds 0 ys.sum := by
    intro ys hys
    have hzeros : r.Bounds (ys.map fun _ => (0 : Rat)).sum (ys.map id).sum := .sum hys
    rwa [List.map_id, List.map_const', List.sum_replicate, smul_zero] at hzeros
  obtain ⟨before, after, rfl⟩ := List.append_of_mem hx
  have hbefore := hsum fun y hy => h y (List.mem_append_left _ hy)
  have hafter := hsum fun y hy => h y (List.mem_append_right _ (List.mem_cons_of_mem _ hy))
  have hadd := hbefore.add ((Reduction.Bounds.refl r x).add hafter)
  rwa [zero_add, add_zero, ← List.sum_cons, ← List.sum_append] at hadd

/-- Where biases are added up, biases of the right signs are on the right side. -/
theorem Abstraction.Finished.sided_of_signed {a : Abstraction Rat} (h : Finished net a)
    (hpolicy : a.policy = (Policy.forGoal goal).withBias .sum) (hsigned : net.Signed goal) : a.Sided net := by
  intro x b m hb hhidden hm
  have hbias : ∀ m ∈ b.data.members, (a.policy.incoming b.location.category).Bounds 0 (a.biasOf m) := by
    intro m hm
    obtain ⟨c, hc, _, hlayer, hcategory⟩ := h.grounded.owned.member hb m hm
    have hf := h.represents.faithful
    have hone : 1 ≤ c.place.layer := by
      rw [hlayer]
      cases hl : b.location.layer with
      | zero =>
        rw [hl] at hhidden
        cases hhidden
      | succ l => exact Nat.succ_pos l
    obtain ⟨up, hup⟩ : ∃ up, c.place.category.isIncreasing? = some up := by
      have hcemented := hcategory ▸ h.grounded.arnodes.cemented hb
      cases hplace : c.place.category <;> simp_all [Category.isIncreasing?]
    have hsign := hsigned (hlayer ▸ hhidden) (hf.index_lt hc) (hf.sways hc hone hup)
    rw [biasOf, hc, Option.map_some, Option.getD_some, hf.bias_eq hc, hpolicy, ← hcategory]
    change ((Policy.forGoal goal).incoming c.place.category).Bounds 0 _
    rw [Policy.incoming_of_isIncreasing? hup]
    split at hsign
    · next hside =>
      rw [if_pos hside]
      exact hsign
    · next hside =>
      rw [if_neg hside]
      exact hsign
  have hreduce := h.grounded.owned.bias_eq hb
  have hsum : a.policy.bias b.location.category = .sum := by rw [hpolicy]; rfl
  rw [hsum] at hreduce
  rw [Reduction.eq_of_reduce?_sum hreduce]
  refine .sum_of_mem (fun y hy => ?_) (List.mem_map_of_mem hm)
  obtain ⟨m', hm', rfl⟩ := List.mem_map.mp hy
  exact hbias m' hm'

/-- Two neurons of bias one that lower the output. Adding up their biases lowers it twice as much. -/
def Feedforward.drain : Feedforward Rat := ⟨[⟨0, 0⟩], [⟨[[1], [1]], [1, 1]⟩, ⟨[[-1, -1]], [0]⟩]⟩

/-- In the drained network raising a neuron lowers the output, so the biases have the signs for making it small. -/
theorem Feedforward.signed_drain : drain.Signed .minimize := by
  intro l j up hhidden hj hsways
  obtain rfl : l = 1 := by
    have hlt := of_decide_eq_true hhidden
    have hdepth : drain.depth = 3 := rfl
    omega
  have hneuron : ∀ j < 2, 0 ≤ drain.bias 1 j ∧ drain.weight 2 0 j = -1 := by decide +kernel
  obtain ⟨hbias, hread⟩ := hneuron j hj
  have hup : up = false := by
    cases hsways with
    | idle hzero =>
      have hnot := (hzero 0 Nat.zero_lt_one).symm.trans hread
      exact absurd hnot (by decide)
    | @next _ _ k _ hweight hnext =>
      cases k with
      | succ k => exact absurd rfl hweight
      | zero =>
        cases hnext with
        | idle => exact congrArg (fun w => decide (0 ≤ w) == true) hread
        | next hbeyond => exact absurd rfl hbeyond
  rw [hup]
  exact hbias

/-- The query of the drained network with its two neurons merged. -/
private def Query.isDrained (q : Query Rat) (bound : Bound Rat) : Bool :=
  decide (q.equations = [⟨[⟨-1, 0⟩, ⟨-2, 2⟩], 0⟩, ⟨[⟨-1, 1⟩, ⟨1, 5⟩], -2⟩] ∧ q.relus = [⟨1, 2⟩] ∧
    q.lower.get? 5 = some 0 ∧ q.upper.get? 5 = some 0) && match bound with
    | .lower x => decide (q.lower.get? 0 = some x)
    | .upper x => decide (q.upper.get? 0 = some x)

/-- Once its two neurons are merged, the output of the drained network is minus four. -/
private theorem Query.unsatisfiable_of_isDrained {q : Query Rat} {bound : Bound Rat} (h : q.isDrained bound = true)
    (hbound : ¬bound.Admits (-4)) (values : Assignment Rat) : q.isSatisfiedBy values .exact = false := by
  simp only [isDrained, Bool.and_eq_true, decide_eq_true_eq] at h
  obtain ⟨⟨hequations, hrelus, hlower, hupper⟩, houtput⟩ := h
  rw [← Bool.not_eq_true, Query.isSatisfiedBy_exact_iff]
  intro hsolved
  have hfirst := hsolved.equations _ (by rw [hequations]; exact List.mem_cons_self)
  have hsecond := hsolved.equations _ (by rw [hequations]; exact List.mem_cons_of_mem _ List.mem_cons_self)
  have hrelu := hsolved.relus _ (by rw [hrelus]; exact List.mem_cons_self)
  have hlow : (Bound.lower 0).Admits (values.value 5) := hsolved.bounds hlower
  have hhigh : (Bound.upper 0).Admits (values.value 5) := hsolved.bounds hupper
  have hinput : values.value 5 = 0 := le_antisymm hhigh hlow
  have hvalue : values.value 0 = -4 := by
    simp only [List.map_cons, List.map_nil, List.sum_cons, List.sum_nil] at hfirst hsecond
    have hmerged : values.value 1 = 2 := by linarith
    rw [hmerged, max_eq_left zero_le_two] at hrelu
    linarith
  refine hbound ?_
  rw [← hvalue]
  cases bound with
  | lower x =>
    have hget : q.lower.get? 0 = some x := of_decide_eq_true houtput
    exact hsolved.bounds hget
  | upper x =>
    have hget : q.upper.get? 0 = some x := of_decide_eq_true houtput
    exact hsolved.bounds hget

namespace Session

open Network

variable {σ : Type} {property : Property Rat} {options : Options} {start : Network Rat} {solver : Solver σ Rat}

/-- Where biases are added up, a run with an exact solver that finds the region out of reach is right, provided that the
biases between the boundary layers have the signs that the goal asks for. In which order edges are taken does not
matter. -/
theorem not_attains_of_run_unsat (hvalid : net.validate = .ok ()) (hsigned : net.Signed property.goal)
    (hpolicy : options.policy = none) (hsum : options.biasReduction = .sum)
    (hbuild : build net property options = .ok start) (hexact : solver.Exact) {solveOptions : SolveOptions} {budget : Budget}
    {order : Network Rat → ArNodeId → EdgeSet.Listing Rat ArNodeId} {state : σ} {report : Report Rat} {s' : Session σ Rat}
    (hrun : runIn order solver solveOptions budget ⟨start, state⟩ = .ok report s') (hunsat : report.outcome = .unsat)
    {inputs : List Rat} (hadmits : net.Admits inputs) : ¬net.Attains property inputs := by
  intro hattains
  obtain ⟨completed, hcomplete⟩ := exists_complete_of_runIn hrun
  obtain ⟨⟨n, _, q, n₁, verdict, h, hquery, hverified, hsettled⟩, _⟩ :=
    (runIn_meets hexact.total hbuild hcomplete order solveOptions budget state).of_ok hrun
  obtain ⟨hposed, ho, _⟩ := (h.reaches.abstractQuery_posed hbuild h.complete).of_ok hquery
  obtain ⟨hdepth, houtput, _⟩ := build_eq_ok hbuild
  have hgoal : n₁.abstraction.policy = (Policy.forGoal property.goal).withBias .sum := by
    rw [ho.policy_eq hbuild, Options.policyFor, hpolicy, hsum, Option.getD_none]
  obtain ⟨values, hvalues, _⟩ := hposed.exists_feeding (Feedforward.shaped_of_validate hvalid)
    (Feedforward.layers_ne_nil hdepth) houtput hgoal (hposed.finished.sided_of_signed hgoal hsigned) hadmits hattains
  rw [hunsat] at hsettled
  cases hsettled
  rw [hverified.unsatisfiable hexact values] at hvalues
  cases hvalues

/-- A run on the drained network goes by the output minus four. -/
private theorem run_unsat_of_merged (property : Property Rat)
    (hmem : property ∈ ([⟨.maximize, 0, -3⟩, ⟨.minimize, 0, -5⟩] : List (Property Rat)))
    (hbound : ¬property.bound.Admits (-4)) : ∃ start, build .drain property .standard = .ok start ∧
      ∀ {σ : Type} {solver : Solver σ Rat}, solver.Exact → ∀ state, ∃ report s',
        run solver default ⟨none, none⟩ ⟨start, state⟩ = .ok report s' ∧ report.outcome = .unsat := by
  have hruns : ∀ property ∈ ([⟨.maximize, 0, -3⟩, ⟨.minimize, 0, -5⟩] : List (Property Rat)),
      ∃ start ∈ (build .drain property .standard).toOption, Network.complete.Meets start (fun _ completed =>
        (coarsen none).Meets completed (fun _ n => abstractQuery.Meets n (fun q _ => q.isDrained property.bound = true)
          Step.Never) Step.Never) Step.Never := by decide +kernel
  obtain ⟨start, completed, hbuild, hcomplete, _, hmeets⟩ := exists_completed .drain property .standard (hruns property hmem)
  obtain ⟨_, n, hcoarsen, hquery⟩ := hmeets.exists_ok
  obtain ⟨q, n₁, hquery, hdrained⟩ := hquery.exists_ok
  exact ⟨start, hbuild, fun hexact state => run_of_unsatisfiable hexact hbuild hcomplete hcoarsen hquery
    (Query.unsatisfiable_of_isDrained hdrained hbound) default state⟩

/-- In the drained network the biases have the signs for making the output small, and a run finds that it does not get as
small as minus five. -/
theorem not_attains_of_run_unsat_drain : Feedforward.drain.validate = .ok () ∧ Feedforward.drain.Signed .minimize ∧
    Solver.oracle.Exact ∧ ∃ start report s', build .drain ⟨.minimize, 0, -5⟩ .standard = .ok start ∧
      run Solver.oracle default ⟨none, none⟩ ⟨start, ()⟩ = .ok report s' ∧ report.outcome = .unsat ∧
      Feedforward.drain.Admits [0] ∧ ¬Feedforward.drain.Attains ⟨.minimize, 0, -5⟩ [0] := by
  have hvalid : Feedforward.drain.validate = .ok () := by decide +kernel
  have hadmits : Feedforward.drain.Admits [0] := by simp [Feedforward.Admits, Feedforward.drain]
  obtain ⟨start, hbuild, hunsat⟩ := run_unsat_of_merged ⟨.minimize, 0, -5⟩ (by simp)
    (by norm_num [Property.bound, Bound.Admits])
  obtain ⟨report, s', hrun, houtcome⟩ := hunsat Solver.oracle_exact ()
  exact ⟨hvalid, Feedforward.signed_drain, Solver.oracle_exact, start, report, s', hbuild, hrun, houtcome, hadmits,
    not_attains_of_run_unsat hvalid Feedforward.signed_drain rfl rfl hbuild Solver.oracle_exact hrun houtcome hadmits⟩

/-- Biases that are not negative are not enough: the output of the drained network is minus two, but a run finds that it
cannot be as large as minus three. -/
theorem run_unsat_of_drain : Feedforward.drain.validate = .ok () ∧ (∀ l j, 0 ≤ Feedforward.drain.bias l j) ∧
    Feedforward.drain.Admits [0] ∧ Feedforward.drain.Attains ⟨.maximize, 0, -3⟩ [0] ∧ Solver.oracle.Exact ∧
    ∃ start, build .drain ⟨.maximize, 0, -3⟩ .standard = .ok start ∧
      ∀ (σ : Type) (solver : Solver σ Rat), solver.Exact → ∀ state, ∃ report s',
        run solver default ⟨none, none⟩ ⟨start, state⟩ = .ok report s' ∧ report.outcome = .unsat := by
  have hvalid : Feedforward.drain.validate = .ok () := by decide +kernel
  have hbias : ∀ l j, 0 ≤ Feedforward.drain.bias l j := by
    intro l j
    rcases l with _ | _ | _ | l <;> rcases j with _ | _ | j <;> simp [Feedforward.bias, Feedforward.drain]
  have hadmits : Feedforward.drain.Admits [0] := by simp [Feedforward.Admits, Feedforward.drain]
  have hattains : Feedforward.drain.Attains ⟨.maximize, 0, -3⟩ [0] := ⟨[-2], by decide +kernel, by decide +kernel⟩
  obtain ⟨start, hbuild, hunsat⟩ := run_unsat_of_merged ⟨.maximize, 0, -3⟩ (by simp)
    (by norm_num [Property.bound, Bound.Admits])
  exact ⟨hvalid, hbias, hadmits, hattains, Solver.oracle_exact, start, hbuild, fun σ solver hexact => hunsat hexact⟩

end Session

end ReluAbstraction
