import ReluAbstraction.Proofs.Evaluation

/-!
# Solutions of the concrete query

Every neuron has its own variables. Values of the variables satisfy the equations and ReLUs of the concrete query if and
only if they are a forward pass; with the inputs fixed, they are the forward pass on these inputs.
-/

namespace ReluAbstraction

namespace Feedforward

section Numbering

variable {α : Type} {net : Feedforward α} {l l' j j' : Nat}

/-- A layer has one or two variables for each neuron. -/
theorem var_cases (net : Feedforward α) (l : Nat) :
    net.isHidden l = false ∧ net.varsPerNeuron l = 1 ∧ (∀ j, net.postVar l j = net.preVar l j) ∨
      net.isHidden l = true ∧ net.varsPerNeuron l = 2 ∧ ∀ j, net.postVar l j = net.preVar l j + 1 := by
  cases h : net.isHidden l with
  | false => exact .inl ⟨rfl, by simp [varsPerNeuron, h], fun j => by simp [postVar, h]⟩
  | true => exact .inr ⟨rfl, by simp [varsPerNeuron, h], fun j => by simp [postVar, h]⟩

theorem isHidden_iff : net.isHidden l = true ↔ 1 ≤ l ∧ l + 1 < net.depth := decide_eq_true_iff

theorem lt_depth_of_isHidden (h : net.isHidden l = true) : l < net.depth := Nat.lt_of_succ_lt (isHidden_iff.mp h).2

theorem isHidden_zero (net : Feedforward α) : net.isHidden 0 = false := decide_eq_false (by omega)

theorem preVar_zero (net : Feedforward α) (i : Nat) : net.preVar 0 i = i := by
  simp [preVar, varsBefore, varsPerNeuron, isHidden_zero]

theorem postVar_zero (net : Feedforward α) (i : Nat) : net.postVar 0 i = i := by
  rw [postVar, isHidden_zero, if_neg Bool.false_ne_true, preVar_zero]

theorem postVar_of_hidden (h : net.isHidden l = true) : net.postVar l j = net.preVar l j + 1 := by
  rw [postVar, if_pos h]

theorem isHidden_last (net : Feedforward α) : net.isHidden net.layers.length = false :=
  decide_eq_false (by rw [depth]; omega)

theorem postVar_last (net : Feedforward α) (j : Nat) :
    net.postVar net.layers.length j = net.preVar net.layers.length j := by
  rw [postVar, isHidden_last, if_neg Bool.false_ne_true]

theorem varsBefore_mono (h : l ≤ l') : net.varsBefore l ≤ net.varsBefore l' := by
  induction h with
  | refl => exact Nat.le_refl _
  | step _ ih => exact ih.trans (Nat.le_add_right _ _)

/-- The variables of a neuron come after those of the layers before, and before those of the next layer. -/
theorem var_bounds (hj : j < net.width l) : net.varsBefore l ≤ net.preVar l j ∧ net.varsBefore l ≤ net.postVar l j ∧
    net.varsBefore (l + 1) > net.preVar l j ∧ net.varsBefore (l + 1) > net.postVar l j := by
  rcases net.var_cases l with ⟨_, hcount, hpost⟩ | ⟨_, hcount, hpost⟩
  · simp only [hpost, preVar, varsBefore, hcount]
    omega
  · simp only [hpost, preVar, varsBefore, hcount]
    omega

/-- The variables of the neurons are declared. -/
theorem var_lt (hl : l < net.depth) (hj : j < net.width l) :
    net.preVar l j < net.varsBefore net.depth ∧ net.postVar l j < net.varsBefore net.depth := by
  have hmono : net.varsBefore (l + 1) ≤ net.varsBefore net.depth := varsBefore_mono hl
  obtain ⟨_, _, hpre, hpost⟩ := var_bounds hj
  exact ⟨lt_of_lt_of_le hpre hmono, lt_of_lt_of_le hpost hmono⟩

/-- No two neurons share a variable. -/
theorem var_unique {v : Nat} (hj : j < net.width l) (hj' : j' < net.width l')
    (hv : v = net.preVar l j ∨ v = net.postVar l j) (hv' : v = net.preVar l' j' ∨ v = net.postVar l' j') :
    l = l' ∧ j = j' := by
  have hbounds := var_bounds hj
  have hbounds' := var_bounds hj'
  have hlayer : l = l' := by
    by_contra hne
    rcases Nat.lt_or_gt_of_ne hne with hlt | hlt
    · have hmono : net.varsBefore (l + 1) ≤ net.varsBefore l' := varsBefore_mono hlt
      omega
    · have hmono : net.varsBefore (l' + 1) ≤ net.varsBefore l := varsBefore_mono hlt
      omega
  subst hlayer
  refine ⟨rfl, ?_⟩
  simp only [preVar] at hv hv'
  rcases net.var_cases l with ⟨_, hcount, hpost⟩ | ⟨_, hcount, hpost⟩
  · simp only [hpost, preVar, hcount] at hv hv'
    omega
  · simp only [hpost, preVar, hcount] at hv hv'
    omega

/-- Every variable belongs to a neuron. -/
theorem exists_neuron_of_lt {v : Nat} (hv : v < net.varsBefore l) : ∃ l' < l, ∃ j < net.width l', v = net.preVar l' j ∨
    net.isHidden l' = true ∧ v = net.postVar l' j := by
  induction l with
  | zero => exact absurd hv (Nat.not_lt_zero v)
  | succ l ih =>
    rcases Nat.lt_or_ge v (net.varsBefore l) with hlt | hge
    · obtain ⟨l', hl', hneuron⟩ := ih hlt
      exact ⟨l', hl'.trans (Nat.lt_succ_self l), hneuron⟩
    · refine ⟨l, Nat.lt_succ_self l, ?_⟩
      rw [varsBefore] at hv
      rcases net.var_cases l with ⟨_, hcount, _⟩ | ⟨hhidden, hcount, hpost⟩
      · rw [hcount] at hv
        exact ⟨v - net.varsBefore l, by omega, .inl (by rw [preVar, hcount]; omega)⟩
      · rw [hcount] at hv
        refine ⟨(v - net.varsBefore l) / 2, by omega, ?_⟩
        rw [and_iff_right hhidden, hpost, preVar, hcount]
        omega

/-- Every neuron can be given its own two values, as long as they agree where it has one variable. -/
theorem exists_layout (net : Feedforward α) (raw fired : Nat → Nat → Rat)
    (hboundary : ∀ l j, net.isHidden l = false → raw l j = fired l j) :
    ∃ f : VarId → Rat, ∀ l j, j < net.width l → f (net.preVar l j) = raw l j ∧ f (net.postVar l j) = fired l j := by
  classical
  let f : VarId → Rat := fun v =>
    if h : ∃ p : Nat × Nat, p.2 < net.width p.1 ∧ net.preVar p.1 p.2 = v then raw h.choose.1 h.choose.2
    else if h : ∃ p : Nat × Nat, p.2 < net.width p.1 ∧ net.postVar p.1 p.2 = v then fired h.choose.1 h.choose.2 else 0
  have hpre : ∀ l j, j < net.width l → f (net.preVar l j) = raw l j := by
    intro l j hj
    have hex : ∃ p : Nat × Nat, p.2 < net.width p.1 ∧ net.preVar p.1 p.2 = net.preVar l j := ⟨(l, j), hj, rfl⟩
    obtain ⟨hlt, heq⟩ := hex.choose_spec
    obtain ⟨hl, hj⟩ := var_unique hlt hj (.inl rfl) (.inl heq)
    change dite _ _ _ = _
    rw [dif_pos hex, hl, hj]
  refine ⟨f, fun l j hj => ⟨hpre l j hj, ?_⟩⟩
  rcases net.var_cases l with ⟨hhidden, _, hpost⟩ | ⟨_, _, hpost⟩
  · rw [hpost, hpre l j hj, hboundary l j hhidden]
  · have hnot : ¬∃ p : Nat × Nat, p.2 < net.width p.1 ∧ net.preVar p.1 p.2 = net.postVar l j := by
      rintro ⟨p, hp, heq⟩
      obtain ⟨hl, hindex⟩ := var_unique hp hj (.inl rfl) (.inr heq)
      rw [hl, hindex, hpost] at heq
      exact Nat.succ_ne_self _ heq.symm
    have hex : ∃ p : Nat × Nat, p.2 < net.width p.1 ∧ net.postVar p.1 p.2 = net.postVar l j := ⟨(l, j), hj, rfl⟩
    obtain ⟨hlt, heq⟩ := hex.choose_spec
    obtain ⟨hl, hj⟩ := var_unique hlt hj (.inr rfl) (.inr heq)
    change dite _ _ _ = _
    rw [dif_neg hnot, dif_pos hex, hl, hj]

end Numbering

variable {net : Feedforward Rat} {property : Property Rat} {f : VarId → Rat} {q : Query Rat} {inputs : List Rat}

/-- The values of the variables are a forward pass. -/
structure Computes (net : Feedforward Rat) (f : VarId → Rat) : Prop where
  weighted : ∀ {l j}, l + 1 < net.depth → j < net.width (l + 1) →
    f (net.preVar (l + 1) j) = net.weighted (fun i => f (net.postVar l i)) (l + 1) j
  rectified : ∀ {l j}, l < net.depth → j < net.width l → f (net.postVar l j) = net.rectifyAt l (f (net.preVar l j))

/-- The sources of a neuron are in the layer before. -/
theorem exists_of_mem_sourceTerms {l j : Nat} {t : Addend Rat} (ht : t ∈ net.sourceTerms l j) :
    ∃ i < net.width (l - 1), t = ⟨net.weight l j i, net.postVar (l - 1) i⟩ := by
  obtain ⟨i, hi, hterm⟩ := List.mem_filterMap.mp ht
  dsimp only at hterm
  split at hterm
  · cases hterm
  · exact ⟨i, List.mem_range.mp hi, (Option.some.inj hterm).symm⟩

/-- Leaving out the weights that are zero does not change the sum. -/
theorem sum_sourceTerms (l j : Nat) : ((net.sourceTerms l j).map fun t => t.coefficient * f t.var).sum =
    ((List.range (net.width (l - 1))).map fun i => net.weight l j i * f (net.postVar (l - 1) i)).sum := by
  unfold sourceTerms
  induction List.range (net.width (l - 1)) with
  | nil => rfl
  | cons i rest ih =>
    rw [List.map_cons, List.sum_cons, ← ih]
    by_cases hzero : net.weight l j i = 0
    · rw [List.filterMap_cons_none (by simp [BEq.beq, hzero]), hzero, zero_mul, zero_add]
    · rw [List.filterMap_cons_some (b := ⟨net.weight l j i, net.postVar (l - 1) i⟩) (by simp [BEq.beq, hzero]),
        List.map_cons, List.sum_cons]

/-- The equation of a neuron says that it has its weighted sum. -/
theorem neuronEquation_iff (l j : Nat) :
    ((net.neuronEquation l j).addends.map fun t => t.coefficient * f t.var).sum = (net.neuronEquation l j).scalar ↔
      f (net.preVar l j) = net.weighted (fun i => f (net.postVar (l - 1) i)) l j := by
  simp only [neuronEquation, List.map_cons, List.sum_cons, sum_sourceTerms, Feedforward.weighted]
  constructor
  · intro h
    change -1 * f (net.preVar l j) + _ = -net.bias l j at h
    linarith
  · intro h
    change -1 * f (net.preVar l j) + _ = -net.bias l j
    linarith

/-- Every neuron after the inputs has an equation. -/
theorem mem_equations_query_iff {e : Equation Rat} : e ∈ net.query.equations ↔
    ∃ l j, 1 ≤ l ∧ l < net.depth ∧ j < net.width l ∧ e = net.neuronEquation l j := by
  change e ∈ (List.range' 1 net.layers.length).flatMap _ ↔ _
  simp only [List.mem_flatMap, List.mem_range'_1, List.mem_map, List.mem_range, depth]
  constructor
  · rintro ⟨l, ⟨hfirst, hlast⟩, j, hj, rfl⟩
    exact ⟨l, j, hfirst, by omega, hj, rfl⟩
  · rintro ⟨l, j, hfirst, hlast, hj, rfl⟩
    exact ⟨l, ⟨hfirst, by omega⟩, j, hj, rfl⟩

/-- Every hidden neuron has a ReLU. -/
theorem mem_relus_query_iff {r : Relu} : r ∈ net.query.relus ↔
    ∃ l j, net.isHidden l = true ∧ j < net.width l ∧ r = ⟨net.preVar l j, net.postVar l j⟩ := by
  change r ∈ (List.range' 1 (net.layers.length - 1)).flatMap _ ↔ _
  simp only [List.mem_flatMap, List.mem_range'_1, List.mem_map, List.mem_range, isHidden_iff, depth]
  constructor
  · rintro ⟨l, ⟨hfirst, hlast⟩, j, hj, rfl⟩
    exact ⟨l, j, ⟨hfirst, by omega⟩, hj, rfl⟩
  · rintro ⟨l, j, ⟨hfirst, hlast⟩, hj, rfl⟩
    exact ⟨l, ⟨hfirst, by omega⟩, j, hj, rfl⟩

/-- A query with the equations and ReLUs of a network is solved by the forward passes that meet its bounds. -/
theorem solvedBy_iff_computes (hequations : q.equations = net.query.equations) (hrelus : q.relus = net.query.relus) :
    q.SolvedBy f ↔ (∀ {v bound}, q.HasBound v bound → bound.Admits (f v)) ∧ net.Computes f := by
  constructor
  · intro h
    refine ⟨h.bounds, ⟨fun {l j} hl hj => ?_, fun {l j} hl hj => ?_⟩⟩
    · refine (neuronEquation_iff (l + 1) j).mp (h.equations _ ?_)
      rw [hequations]
      exact mem_equations_query_iff.mpr ⟨l + 1, j, Nat.succ_pos l, hl, hj, rfl⟩
    · rcases net.var_cases l with ⟨hhidden, _, hpost⟩ | ⟨hhidden, _, _⟩
      · rw [hpost, rectifyAt_of_not_hidden hhidden]
      · rw [rectifyAt_of_hidden hhidden]
        refine h.relus ⟨net.preVar l j, net.postVar l j⟩ ?_
        rw [hrelus]
        exact mem_relus_query_iff.mpr ⟨l, j, hhidden, hj, rfl⟩
  · rintro ⟨hbounds, hweighted, hrectified⟩
    refine ⟨hbounds, fun e he => ?_, fun r hr => ?_⟩
    · rw [hequations] at he
      obtain ⟨l, j, hfirst, hlast, hj, rfl⟩ := mem_equations_query_iff.mp he
      obtain ⟨l, rfl⟩ := Nat.exists_eq_succ_of_ne_zero (Nat.one_le_iff_ne_zero.mp hfirst)
      exact (neuronEquation_iff _ j).mpr (hweighted hlast hj)
    · rw [hrelus] at hr
      obtain ⟨l, j, hhidden, hj, rfl⟩ := mem_relus_query_iff.mp hr
      have hrelu := hrectified (l := l) (lt_depth_of_isHidden hhidden) hj
      rwa [rectifyAt_of_hidden hhidden] at hrelu

/-- Up to the layer where weighted sums and ReLUs stop to be followed, the variables have the values of the network. -/
theorem values_eq {bound : Nat} (hweighted : ∀ {l j}, l + 1 < bound → j < net.width (l + 1) →
      f (net.preVar (l + 1) j) = net.weighted (fun i => f (net.postVar l i)) (l + 1) j)
    (hrectified : ∀ {l j}, l < bound → j < net.width l → f (net.postVar l j) = net.rectifyAt l (f (net.preVar l j)))
    (hinputs : ∀ i < net.width 0, f (net.preVar 0 i) = net.rawAt inputs 0 i) {l : Nat} (hl : l < bound) :
    ∀ j < net.width l, f (net.preVar l j) = net.rawAt inputs l j ∧ f (net.postVar l j) = net.valueAt inputs l j := by
  have hpost : ∀ {l j}, l < bound → j < net.width l → f (net.preVar l j) = net.rawAt inputs l j →
      f (net.postVar l j) = net.valueAt inputs l j := by
    intro l j hl hj hpre
    rw [hrectified hl hj, hpre, valueAt_eq]
  induction l with
  | zero => exact fun j hj => ⟨hinputs j hj, hpost hl hj (hinputs j hj)⟩
  | succ l ih =>
    intro j hj
    have hbelow := ih (Nat.lt_of_succ_lt hl)
    have hpre : f (net.preVar (l + 1) j) = net.rawAt inputs (l + 1) j := by
      rw [hweighted hl hj, rawAt]
      exact weighted_congr fun i hi => (hbelow i hi).2
    exact ⟨hpre, hpost hl hj hpre⟩

/-- A forward pass has the values of the network on its inputs. -/
theorem Computes.eq (h : net.Computes f) (hinputs : ∀ i < net.width 0, f (net.preVar 0 i) = net.rawAt inputs 0 i) {l : Nat}
    (hl : l < net.depth) : ∀ j < net.width l, f (net.preVar l j) = net.rawAt inputs l j ∧
      f (net.postVar l j) = net.valueAt inputs l j := values_eq h.weighted h.rectified hinputs hl

/-- The values of the network on any inputs are a forward pass. -/
theorem computes_of_eq (hf : ∀ l < net.depth, ∀ j < net.width l, f (net.preVar l j) = net.rawAt inputs l j ∧
      f (net.postVar l j) = net.valueAt inputs l j) : net.Computes f := by
  refine ⟨fun {l j} hl hj => ?_, fun {l j} hl hj => ?_⟩
  · rw [(hf _ hl j hj).1, rawAt]
    exact weighted_congr fun i hi => ((hf l (Nat.lt_of_succ_lt hl) i hi).2).symm
  · rw [(hf l hl j hj).1, (hf l hl j hj).2, valueAt_eq]

/-- The bounds of the query of a network are the ranges of its inputs. -/
theorem hasBound_query_iff {v : VarId} {bound : Bound Rat} : net.query.HasBound v bound ↔
    ∃ range, net.inputs[v]? = some range ∧ (bound = .lower range.low ∨ bound = .upper range.high) := by
  have hkeys : ∀ g : InputRange Rat → Rat,
      ((net.inputs.zipIdx.map fun p => (net.preVar 0 p.2, g p.1)).map (·.1)).Nodup := by
    intro g
    rw [List.map_map]
    have hrange : net.inputs.zipIdx.map ((fun p : VarId × Rat => p.1) ∘ fun p => (net.preVar 0 p.2, g p.1)) =
        List.range net.inputs.length := by
      simp only [Function.comp_def, preVar_zero]
      rw [List.range_eq_range']
      exact List.zipIdx_map_snd 0 net.inputs
    rw [hrange]
    exact List.nodup_range
  have hget : ∀ (g : InputRange Rat → Rat) x,
      (SortedMap.ofList (net.inputs.zipIdx.map fun p => (net.preVar 0 p.2, g p.1)) : SortedMap VarId Rat).get? v = some x ↔
        ∃ range, net.inputs[v]? = some range ∧ x = g range := by
    intro g x
    rw [SortedMap.get?_ofList_iff (hkeys g), List.mem_map]
    constructor
    · rintro ⟨⟨range, i⟩, hmem, heq⟩
      obtain ⟨hi, hx⟩ := Prod.mk.inj heq
      rw [preVar_zero] at hi
      subst hi
      exact ⟨range, List.mem_zipIdx_iff_getElem?.mp hmem, hx.symm⟩
    · rintro ⟨range, hrange, rfl⟩
      exact ⟨(range, v), List.mem_zipIdx_iff_getElem?.mpr hrange, by rw [preVar_zero]⟩
  cases bound with
  | lower x =>
    refine (hget InputRange.low x).trans ?_
    simp
  | upper x =>
    refine (hget InputRange.high x).trans ?_
    simp

theorem lt_of_hasBound {v : VarId} {bound : Bound Rat} (h : net.query.HasBound v bound) : v < net.inputs.length := by
  obtain ⟨range, hrange, _⟩ := hasBound_query_iff.mp h
  exact (List.getElem?_eq_some_iff.mp hrange).1

/-- A query with the equations and ReLUs of a network mentions variables of neurons only, if its bounds do. -/
theorem declared_of_hasBound (hequations : q.equations = net.query.equations) (hrelus : q.relus = net.query.relus)
    (hbounds : ∀ {v bound}, q.HasBound v bound → v < net.varsBefore net.depth) {v : VarId} (hv : q.Mentions v) :
    v < net.varsBefore net.depth := by
  rcases hv with ⟨bound, hbound⟩ | ⟨e, he, t, ht, rfl⟩ | ⟨r, hr, hv⟩
  · exact hbounds hbound
  · rw [hequations] at he
    obtain ⟨l, j, _, hl, hj, rfl⟩ := mem_equations_query_iff.mp he
    rcases List.mem_cons.mp ht with rfl | ht
    · exact (var_lt hl hj).1
    · obtain ⟨i, hi, rfl⟩ := exists_of_mem_sourceTerms ht
      exact (var_lt (Nat.lt_of_le_of_lt (Nat.sub_le l 1) hl) hi).2
  · rw [hrelus] at hr
    obtain ⟨l, j, hhidden, hj, rfl⟩ := mem_relus_query_iff.mp hr
    have hboth := var_lt (lt_depth_of_isHidden hhidden) hj
    rcases hv with rfl | rfl
    · exact hboth.1
    · exact hboth.2

end Feedforward

namespace ConcreteEncoding

variable {net : Feedforward Rat} {property : Property Rat} {f : VarId → Rat} {q : Query Rat} {inputs : List Rat}

/-- Fixing variables one after another replaces their bounds and leaves the others alone. -/
theorem hasBound_pin_iff {pairs : List (VarId × Rat)} (hpairs : (pairs.map (·.1)).Nodup) {v : VarId} {bound : Bound Rat} :
    (pairs.foldl (fun q p => (q.setLower p.1 p.2).setUpper p.1 p.2) q).HasBound v bound ↔
      (∃ x, (v, x) ∈ pairs ∧ (bound = .lower x ∨ bound = .upper x)) ∨ v ∉ pairs.map (·.1) ∧ q.HasBound v bound := by
  induction pairs generalizing q with
  | nil => simp
  | cons p rest ih =>
    obtain ⟨w, x⟩ := p
    rw [List.map_cons, List.nodup_cons] at hpairs
    have hstep : ((q.setLower w x).setUpper w x).HasBound v bound ↔
        v = w ∧ (bound = .lower x ∨ bound = .upper x) ∨ v ≠ w ∧ q.HasBound v bound := by
      cases bound <;>
        simp only [Query.HasBound, Query.setLower, Query.setUpper, SortedMap.get?_insert] <;>
        by_cases hv : v = w <;> simp [hv, eq_comm]
    rw [List.foldl_cons, ih hpairs.2, hstep]
    simp only [List.mem_cons, Prod.mk.injEq, List.map_cons, not_or]
    constructor
    · rintro (⟨y, hy, hbound⟩ | ⟨hv, ⟨rfl, hbound⟩ | ⟨hne, hbound⟩⟩)
      · exact .inl ⟨y, .inr hy, hbound⟩
      · exact .inl ⟨x, .inl ⟨rfl, rfl⟩, hbound⟩
      · exact .inr ⟨⟨hne, hv⟩, hbound⟩
    · rintro (⟨y, ⟨rfl, rfl⟩ | hy, hbound⟩ | ⟨⟨hne, hv⟩, hbound⟩)
      · exact .inr ⟨hpairs.1, .inl ⟨rfl, hbound⟩⟩
      · exact .inl ⟨y, hy, hbound⟩
      · exact .inr ⟨hv, .inr ⟨hne, hbound⟩⟩

theorem equations_pin (pairs : List (VarId × Rat)) :
    (pairs.foldl (fun q p => (q.setLower p.1 p.2).setUpper p.1 p.2) q).equations = q.equations ∧
      (pairs.foldl (fun q p => (q.setLower p.1 p.2).setUpper p.1 p.2) q).relus = q.relus ∧
      (pairs.foldl (fun q p => (q.setLower p.1 p.2).setUpper p.1 p.2) q).varCount = q.varCount := by
  induction pairs generalizing q with
  | nil => exact ⟨rfl, rfl, rfl⟩
  | cons p rest ih => exact ih

theorem equations_ofNetwork (net : Feedforward Rat) (property : Property Rat) (inputs : List Rat) :
    ((ofNetwork net property).pinned inputs).equations = net.query.equations ∧
      ((ofNetwork net property).pinned inputs).relus = net.query.relus ∧
      ((ofNetwork net property).pinned inputs).varCount = net.query.varCount := by
  obtain ⟨hequations, hrelus, hcount⟩ := equations_pin (q := (ofNetwork net property).query)
    ((ofNetwork net property).inputs.zip inputs)
  obtain ⟨hsameRelus, hsame⟩ :=
    net.query.relus_setBound (net.postVar net.layers.length property.output) property.bound
  refine ⟨hequations.trans hsame, hrelus.trans hsameRelus, hcount.trans ?_⟩
  unfold ofNetwork Query.setBound
  cases property.bound <;> rfl

theorem inputs_ofNetwork (net : Feedforward Rat) (property : Property Rat) :
    (ofNetwork net property).inputs = List.range net.inputs.length := by
  change (List.range (net.width 0)).map (net.postVar 0) = _
  rw [List.map_congr_left fun i _ => net.postVar_zero i]
  exact List.map_id _

/-- The variables of the last layer come after all inputs. -/
theorem length_inputs_le_postVar (hdepth : 2 ≤ net.depth) {j : Nat} (hj : j < net.width net.layers.length) :
    net.inputs.length ≤ net.postVar net.layers.length j := by
  have hone : 1 ≤ net.layers.length := by
    rw [Feedforward.depth] at hdepth
    omega
  have hfirst : net.varsBefore 1 = net.inputs.length := by
    simp [Feedforward.varsBefore, Feedforward.varsPerNeuron, Feedforward.isHidden_zero, Feedforward.width]
  rw [← hfirst]
  exact (Feedforward.varsBefore_mono hone).trans (Feedforward.var_bounds hj).2.1

/-- The bounds are those of the inputs and that of the property's output. -/
theorem hasBound_ofNetwork_iff (hdepth : 2 ≤ net.depth) (houtput : property.output < net.width net.layers.length)
    {v : VarId} {bound : Bound Rat} : (ofNetwork net property).query.HasBound v bound ↔
      net.query.HasBound v bound ∨ v = net.postVar net.layers.length property.output ∧ bound = property.bound := by
  constructor
  · intro hbound
    exact (Query.hasBound_of_setBound hbound).symm
  · rintro (hbound | ⟨rfl, rfl⟩)
    · refine hbound.setBound _ fun heq => absurd heq ?_
      exact ne_of_lt (lt_of_lt_of_le (Feedforward.lt_of_hasBound hbound) (length_inputs_le_postVar hdepth houtput))
    · exact Query.hasBound_setBound_self _ _ _

/-- With the inputs fixed, the bounds are theirs and that of the property's output. -/
theorem hasBound_pinned_iff (hdepth : 2 ≤ net.depth) (houtput : property.output < net.width net.layers.length)
    (hlength : inputs.length = net.inputs.length) {v : VarId} {bound : Bound Rat} :
    ((ofNetwork net property).pinned inputs).HasBound v bound ↔
      (∃ x, inputs[v]? = some x ∧ (bound = .lower x ∨ bound = .upper x)) ∨
        v = net.postVar net.layers.length property.output ∧ bound = property.bound := by
  have hkeys : (((ofNetwork net property).inputs.zip inputs).map (·.1)) = List.range net.inputs.length := by
    rw [inputs_ofNetwork]
    exact List.map_fst_zip (by simp [hlength])
  have hmem : ∀ {v : VarId} {x}, (v, x) ∈ (ofNetwork net property).inputs.zip inputs ↔ inputs[v]? = some x := by
    intro v x
    rw [inputs_ofNetwork, List.mem_iff_getElem?]
    constructor
    · rintro ⟨i, hi⟩
      obtain ⟨hv, hx⟩ := List.getElem?_zip_eq_some.mp hi
      obtain ⟨_, rfl⟩ := List.getElem?_eq_some_iff.mp hv
      rw [List.getElem_range]
      exact hx
    · intro hx
      have hlt : v < net.inputs.length := hlength ▸ (List.getElem?_eq_some_iff.mp hx).1
      exact ⟨v, List.getElem?_zip_eq_some.mpr ⟨List.getElem?_range hlt, hx⟩⟩
  have hnodup : (((ofNetwork net property).inputs.zip inputs).map (·.1)).Nodup := by
    rw [hkeys]
    exact List.nodup_range
  refine (hasBound_pin_iff hnodup).trans (or_congr (exists_congr fun x => and_congr_left fun _ => hmem) ?_)
  rw [hkeys, List.mem_range, not_lt, hasBound_ofNetwork_iff hdepth houtput]
  constructor
  · rintro ⟨hv, hinput | hproperty⟩
    · exact absurd (Feedforward.lt_of_hasBound hinput) (not_lt.mpr hv)
    · exact hproperty
  · rintro ⟨rfl, rfl⟩
    exact ⟨length_inputs_le_postVar hdepth houtput, .inr ⟨rfl, rfl⟩⟩

/-- With the inputs fixed, the variables have the values of the network, and the property's output meets its bound. -/
theorem solvedBy_pinned_iff (hdepth : 2 ≤ net.depth) (houtput : property.output < net.width net.layers.length)
    (hlength : inputs.length = net.inputs.length) : ((ofNetwork net property).pinned inputs).SolvedBy f ↔
      (∀ l < net.depth, ∀ j < net.width l, f (net.preVar l j) = net.rawAt inputs l j ∧
        f (net.postVar l j) = net.valueAt inputs l j) ∧
      property.bound.Admits (net.rawAt inputs net.layers.length property.output) := by
  obtain ⟨hequations, hrelus, _⟩ := equations_ofNetwork net property inputs
  have hlast : net.layers.length < net.depth := Nat.lt_succ_self _
  have hvalue : net.valueAt inputs net.layers.length property.output = net.rawAt inputs net.layers.length property.output := by
    rw [Feedforward.valueAt_eq, Feedforward.rectifyAt_of_not_hidden net.isHidden_last]
  rw [Feedforward.solvedBy_iff_computes hequations hrelus]
  constructor
  · rintro ⟨hbounds, hcomputes⟩
    have hinputs : ∀ i < net.width 0, f (net.preVar 0 i) = net.rawAt inputs 0 i := by
      intro i hi
      have hlt : i < inputs.length := hlength ▸ hi
      have hget : inputs[i]? = some inputs[i] := List.getElem?_eq_getElem hlt
      have hlow := hbounds ((hasBound_pinned_iff hdepth houtput hlength).mpr (.inl ⟨_, hget, .inl rfl⟩))
      have hhigh := hbounds ((hasBound_pinned_iff hdepth houtput hlength).mpr (.inl ⟨_, hget, .inr rfl⟩))
      rw [net.preVar_zero, Feedforward.rawAt, hget, Option.getD_some]
      exact le_antisymm hhigh hlow
    have hall : ∀ l < net.depth, ∀ j < net.width l, f (net.preVar l j) = net.rawAt inputs l j ∧
        f (net.postVar l j) = net.valueAt inputs l j := fun l hl => hcomputes.eq hinputs hl
    refine ⟨hall, ?_⟩
    have hadmits := hbounds ((hasBound_pinned_iff hdepth houtput hlength).mpr (.inr ⟨rfl, rfl⟩))
    rwa [(hall _ hlast _ houtput).2, hvalue] at hadmits
  · rintro ⟨hall, hadmits⟩
    refine ⟨fun {v bound} hbound => ?_, Feedforward.computes_of_eq hall⟩
    rcases (hasBound_pinned_iff hdepth houtput hlength).mp hbound with ⟨x, hx, hside⟩ | ⟨rfl, rfl⟩
    · have hlt : v < net.width 0 := by
        have hv := (List.getElem?_eq_some_iff.mp hx).1
        rw [hlength] at hv
        exact hv
      have hfixed := (hall 0 (by omega) v hlt).1
      rw [net.preVar_zero, Feedforward.rawAt, hx, Option.getD_some] at hfixed
      rw [hfixed]
      rcases hside with rfl | rfl
      · exact le_refl x
      · exact le_refl x
    · rw [(hall _ hlast _ houtput).2, hvalue]
      exact hadmits

/-- The query declares the variables that it mentions. -/
theorem declared_pinned (hdepth : 2 ≤ net.depth) (houtput : property.output < net.width net.layers.length)
    (hlength : inputs.length = net.inputs.length) {v : VarId} (hv : ((ofNetwork net property).pinned inputs).Mentions v) :
    v < ((ofNetwork net property).pinned inputs).varCount := by
  obtain ⟨hequations, hrelus, hcount⟩ := equations_ofNetwork net property inputs
  rw [hcount]
  refine Feedforward.declared_of_hasBound hequations hrelus (fun {v bound} hbound => ?_) hv
  rcases (hasBound_pinned_iff hdepth houtput hlength).mp hbound with ⟨x, hx, _⟩ | ⟨rfl, _⟩
  · have hlt := (List.getElem?_eq_some_iff.mp hx).1
    rw [hlength] at hlt
    have hinput := (Feedforward.var_lt (l := 0) (by omega) hlt).1
    rwa [net.preVar_zero] at hinput
  · exact (Feedforward.var_lt (Nat.lt_succ_self _) houtput).2

/-- With the inputs fixed, the query has a solution if and only if they reach the region. -/
theorem exists_pinned_iff (hnet : net.Shaped) (hdepth : 2 ≤ net.depth)
    (houtput : property.output < net.width net.layers.length) (hlength : inputs.length = net.inputs.length) :
    (∃ values, ((ofNetwork net property).pinned inputs).isSatisfiedBy values .exact = true) ↔ net.Attains property inputs := by
  rw [Feedforward.attains_iff hnet (Feedforward.layers_ne_nil hdepth) houtput hlength]
  constructor
  · rintro ⟨values, hvalues⟩
    exact ((solvedBy_pinned_iff hdepth houtput hlength).mp (Query.isSatisfiedBy_exact_iff.mp hvalues)).2
  · intro hadmits
    obtain ⟨f, hf⟩ := net.exists_layout (net.rawAt inputs) (net.valueAt inputs) fun l j hhidden => by
      rw [Feedforward.valueAt_eq, Feedforward.rectifyAt_of_not_hidden hhidden]
    have hsolved := (solvedBy_pinned_iff hdepth houtput hlength).mpr ⟨fun l _ => hf l, hadmits⟩
    obtain ⟨values, hvalues, _⟩ := hsolved.exists_assignment fun v hv => declared_pinned hdepth houtput hlength hv
    exact ⟨values, hvalues⟩

end ConcreteEncoding

end ReluAbstraction
