import ReluAbstraction.Proofs.ConcreteQuery
import ReluAbstraction.Proofs.NeuronSplitting

/-!
# The concrete query is the forward pass

The solutions of the concrete query are the forward passes on admissible inputs that reach the region. Without the bound of
the property, admissible inputs have exactly one solution over the declared variables. Each of these is an input, or has one
equation or one ReLU that gives its value from earlier variables.
-/

namespace ReluAbstraction

namespace Feedforward

variable {net : Feedforward Rat} {f : VarId → Rat} {inputs : List Rat}

/-- The hidden neurons have their weighted sums before their ReLUs, and the rectified sums after them. -/
def Fires (net : Feedforward Rat) (f : VarId → Rat) : Prop :=
  ∀ l j, net.isHidden l = true → j < net.width l →
    f (net.preVar l j) = net.weighted (fun i => f (net.postVar (l - 1) i)) l j ∧
    f (net.postVar l j) = max (f (net.preVar l j)) 0

theorem Computes.fires (h : net.Computes f) : net.Fires f := by
  intro l j hhidden hj
  obtain ⟨hfirst, hlast⟩ := isHidden_iff.mp hhidden
  obtain ⟨l, rfl⟩ := Nat.exists_eq_succ_of_ne_zero (Nat.one_le_iff_ne_zero.mp hfirst)
  refine ⟨h.weighted (Nat.lt_of_succ_lt hlast) hj, ?_⟩
  rw [h.rectified (Nat.lt_of_succ_lt hlast) hj, rectifyAt_of_hidden hhidden]

/-- Values of the hidden neurons and of the outputs make a forward pass. -/
theorem computes_iff (hnet : net.Shaped) (hdepth : 2 ≤ net.depth)
    (hinputs : ∀ i < net.width 0, f (net.preVar 0 i) = net.rawAt inputs 0 i) (hlength : inputs.length = net.inputs.length) :
    net.Computes f ↔ net.Fires f ∧ net.evaluate inputs =
      .ok ((List.range (net.width net.layers.length)).map fun j => f (net.postVar net.layers.length j)) := by
  rw [evaluate_eq_ok hnet (layers_ne_nil hdepth) hlength, Except.ok.injEq, List.map_inj_left]
  constructor
  · intro h
    refine ⟨h.fires, fun j hj => ?_⟩
    rw [net.postVar_last, (h.eq hinputs (Nat.lt_succ_self _) j (List.mem_range.mp hj)).1]
  · rintro ⟨hfires, houtputs⟩
    -- The hidden layers follow the network up to the outputs, which are given.
    have hbelow : ∀ l < net.layers.length, ∀ j < net.width l,
        f (net.preVar l j) = net.rawAt inputs l j ∧ f (net.postVar l j) = net.valueAt inputs l j := by
      intro l hl
      refine values_eq (fun {l j} hl hj => ?_) (fun {l j} hl hj => ?_) hinputs hl
      · exact (hfires (l + 1) j (isHidden_iff.mpr ⟨by omega, by rw [depth]; omega⟩) hj).1
      · rcases net.var_cases l with ⟨hhidden, _, hpost⟩ | ⟨hhidden, _, _⟩
        · rw [hpost, rectifyAt_of_not_hidden hhidden]
        · rw [rectifyAt_of_hidden hhidden, (hfires l j hhidden hj).2]
    have hall : ∀ l < net.depth, ∀ j < net.width l,
        f (net.preVar l j) = net.rawAt inputs l j ∧ f (net.postVar l j) = net.valueAt inputs l j := by
      intro l hl j hj
      rcases Nat.lt_or_ge l net.layers.length with hlt | hge
      · exact hbelow l hlt j hj
      · obtain rfl : l = net.layers.length := by
          rw [depth] at hl
          omega
        have hlast := (houtputs j (List.mem_range.mpr hj)).symm
        rw [valueAt_eq, rectifyAt_of_not_hidden net.isHidden_last, ← net.postVar_last]
        exact ⟨hlast, hlast⟩
    exact computes_of_eq hall

/-- Forward passes on the same inputs agree on all variables. -/
theorem Computes.ext {g : VarId → Rat} (h : net.Computes f) (h' : net.Computes g)
    (hinputs : ∀ i < net.width 0, f (net.preVar 0 i) = g (net.preVar 0 i)) {v : VarId} (hv : v < net.varsBefore net.depth) :
    f v = g v := by
  let inputs := (List.range (net.width 0)).map fun i => g (net.preVar 0 i)
  have hraw : ∀ i < net.width 0, net.rawAt inputs 0 i = g (net.preVar 0 i) := by
    intro i hi
    rw [rawAt, List.getElem?_map, List.getElem?_range hi, Option.map_some, Option.getD_some]
  obtain ⟨l, hl, j, hj, hside⟩ := exists_neuron_of_lt hv
  obtain ⟨hpre, hpost⟩ := h.eq (fun i hi => (hinputs i hi).trans (hraw i hi).symm) hl j hj
  obtain ⟨hpre', hpost'⟩ := h'.eq (fun i hi => (hraw i hi).symm) hl j hj
  rcases hside with rfl | ⟨_, rfl⟩
  · rw [hpre, hpre']
  · rw [hpost, hpost']

/-- Inputs lie in their ranges if they meet the bounds of the input variables. -/
theorem admits_iff_bounds : net.Admits ((List.range net.inputs.length).map f) ↔
    ∀ {v bound}, net.query.HasBound v bound → bound.Admits (f v) := by
  unfold Admits
  rw [List.forall₂_iff_get]
  constructor
  · rintro ⟨_, h⟩ v bound hbound
    obtain ⟨range, hv, hside⟩ := hasBound_query_iff.mp hbound
    obtain ⟨hlt, rfl⟩ := List.getElem?_eq_some_iff.mp hv
    have hrange : net.inputs[v].low ≤ f v ∧ f v ≤ net.inputs[v].high := by simpa using h v hlt (by simpa using hlt)
    rcases hside with rfl | rfl
    · exact hrange.1
    · exact hrange.2
  · intro h
    refine ⟨by simp, fun i hi hi' => ?_⟩
    have hlow := h (hasBound_query_iff.mpr ⟨_, List.getElem?_eq_getElem hi, .inl rfl⟩)
    have hhigh := h (hasBound_query_iff.mpr ⟨_, List.getElem?_eq_getElem hi, .inr rfl⟩)
    rw [List.get_eq_getElem, List.get_eq_getElem, List.getElem_map, List.getElem_range]
    exact ⟨hlow, hhigh⟩

end Feedforward

namespace ConcreteEncoding

variable {net : Feedforward Rat} {property : Property Rat} {f : VarId → Rat} {inputs : List Rat}

/-- The values at the input variables are the inputs of the network. -/
theorem rawAt_inputs {i : Nat} (hi : i < net.width 0) :
    net.rawAt ((ofNetwork net property).inputs.map f) 0 i = f (net.preVar 0 i) := by
  have hlt : i < net.inputs.length := hi
  rw [inputs_ofNetwork, net.preVar_zero, Feedforward.rawAt, List.getElem?_map, List.getElem?_range hlt]
  rfl

theorem outputs_map (f : VarId → Rat) : (ofNetwork net property).outputs.map f =
    (List.range (net.width net.layers.length)).map fun j => f (net.postVar net.layers.length j) := by
  simp only [ofNetwork, List.map_map]
  rfl

theorem getElem?_outputs (houtput : property.output < net.width net.layers.length) :
    (ofNetwork net property).outputs[property.output]? = some (net.postVar net.layers.length property.output) := by
  simp only [ofNetwork, List.getElem?_map, List.getElem?_range houtput, Option.map_some]

section Solutions

theorem relus_query (net : Feedforward Rat) (property : Property Rat) :
    (ofNetwork net property).query.equations = net.query.equations ∧
      (ofNetwork net property).query.relus = net.query.relus ∧
      (ofNetwork net property).query.varCount = net.varsBefore net.depth := by
  obtain ⟨hrelus, hequations⟩ :=
    net.query.relus_setBound (net.postVar net.layers.length property.output) property.bound
  refine ⟨hequations, hrelus, ?_⟩
  unfold ofNetwork Query.setBound
  cases property.bound <;> rfl

/-- The region is reached if the value of the property's output meets its bound. -/
theorem isReachedBy_iff (houtput : property.output < net.width net.layers.length) :
    property.isReachedBy ((ofNetwork net property).outputs.map f) .exact = true ↔
      property.bound.Admits (f (net.postVar net.layers.length property.output)) := by
  rw [Property.isReachedBy_exact_iff, List.getElem?_map, getElem?_outputs houtput]
  simp

/-- All bounds are met if the inputs are admissible and the region is reached. -/
theorem bounds_iff (hdepth : 2 ≤ net.depth) (houtput : property.output < net.width net.layers.length) :
    (∀ {v bound}, (ofNetwork net property).query.HasBound v bound → bound.Admits (f v)) ↔
      net.Admits ((ofNetwork net property).inputs.map f) ∧
        property.isReachedBy ((ofNetwork net property).outputs.map f) .exact = true := by
  rw [inputs_ofNetwork, Feedforward.admits_iff_bounds, isReachedBy_iff houtput]
  simp only [hasBound_ofNetwork_iff hdepth houtput]
  constructor
  · exact fun h => ⟨fun hinput => h (.inl hinput), h (.inr ⟨rfl, rfl⟩)⟩
  · rintro ⟨hinputs, hproperty⟩ v bound (hinput | ⟨rfl, rfl⟩)
    · exact hinputs hinput
    · exact hproperty

/-- Without the property's bound only the inputs have bounds. -/
theorem bounds_removeBounds_iff (hdepth : 2 ≤ net.depth) (houtput : property.output < net.width net.layers.length) :
    (∀ {v bound}, ((ofNetwork net property).query.removeBounds (net.postVar net.layers.length property.output)).HasBound v
      bound → bound.Admits (f v)) ↔ net.Admits ((ofNetwork net property).inputs.map f) := by
  rw [inputs_ofNetwork, Feedforward.admits_iff_bounds]
  simp only [Query.hasBound_removeBounds, hasBound_ofNetwork_iff hdepth houtput]
  constructor
  · intro h v bound hinput
    have hlt := lt_of_lt_of_le (Feedforward.lt_of_hasBound hinput) (length_inputs_le_postVar hdepth houtput)
    exact h ⟨ne_of_lt hlt, .inl hinput⟩
  · rintro h v bound ⟨hne, hinput | ⟨rfl, _⟩⟩
    · exact h hinput
    · exact absurd rfl hne

/-- The solutions of the concrete query. -/
theorem isSatisfiedBy_iff (hnet : net.Shaped) (hdepth : 2 ≤ net.depth)
    (houtput : property.output < net.width net.layers.length) (a : Assignment Rat) :
    (ofNetwork net property).query.isSatisfiedBy a .exact = true ↔
      net.Admits ((ofNetwork net property).inputs.map a.value) ∧ net.Fires a.value ∧
      net.evaluate ((ofNetwork net property).inputs.map a.value) = .ok ((ofNetwork net property).outputs.map a.value) ∧
      property.isReachedBy ((ofNetwork net property).outputs.map a.value) .exact = true := by
  obtain ⟨hequations, hrelus, _⟩ := relus_query net property
  have hlength : ((ofNetwork net property).inputs.map a.value).length = net.inputs.length := by
    rw [List.length_map, inputs_ofNetwork, List.length_range]
  rw [Query.isSatisfiedBy_exact_iff, Feedforward.solvedBy_iff_computes hequations hrelus, bounds_iff hdepth houtput,
    Feedforward.computes_iff hnet hdepth (fun i hi => (rawAt_inputs hi).symm) hlength, outputs_map]
  tauto

/-- The variables with bounds are declared. -/
theorem lt_of_hasBound (hdepth : 2 ≤ net.depth) (houtput : property.output < net.width net.layers.length) {v : VarId}
    {bound : Bound Rat} (h : (ofNetwork net property).query.HasBound v bound) : v < net.varsBefore net.depth := by
  rcases (hasBound_ofNetwork_iff hdepth houtput).mp h with hinput | ⟨rfl, _⟩
  · have hlt := (Feedforward.var_lt (l := 0) (by omega) (Feedforward.lt_of_hasBound hinput)).1
    rwa [net.preVar_zero] at hlt
  · exact (Feedforward.var_lt (Nat.lt_succ_self _) houtput).2

/-- The query without the bound of the property. -/
def unconstrained (net : Feedforward Rat) (property : Property Rat) : Query Rat :=
  (ofNetwork net property).query.removeBounds (net.postVar net.layers.length property.output)

/-- Without the property's bound, the solutions are the forward passes on admissible inputs. -/
theorem solvedBy_unconstrained_iff (hdepth : 2 ≤ net.depth) (houtput : property.output < net.width net.layers.length) :
    (unconstrained net property).SolvedBy f ↔
      net.Admits ((ofNetwork net property).inputs.map f) ∧ net.Computes f := by
  obtain ⟨hequations, hrelus, _⟩ := relus_query net property
  have hsame : (unconstrained net property).equations = net.query.equations := hequations
  have hsame' : (unconstrained net property).relus = net.query.relus := hrelus
  rw [Feedforward.solvedBy_iff_computes hsame hsame']
  exact and_congr_left' (bounds_removeBounds_iff hdepth houtput)

theorem declared_unconstrained (hdepth : 2 ≤ net.depth) (houtput : property.output < net.width net.layers.length)
    {v : VarId} (hv : (unconstrained net property).Mentions v) : v < net.varsBefore net.depth := by
  obtain ⟨hequations, hrelus, _⟩ := relus_query net property
  refine Feedforward.declared_of_hasBound (q := unconstrained net property) hequations hrelus (fun hbound => ?_) hv
  exact lt_of_hasBound hdepth houtput (Query.hasBound_removeBounds.mp hbound).2

/-- Values at the input variables, if they are those of the network on some inputs. -/
theorem map_inputs_eq (hlength : inputs.length = net.inputs.length)
    (hf : ∀ i < net.width 0, f (net.preVar 0 i) = net.rawAt inputs 0 i) :
    (ofNetwork net property).inputs.map f = inputs := by
  rw [inputs_ofNetwork]
  refine List.ext_getElem (by simp [hlength]) fun i hi hi' => ?_
  have hlt : i < net.inputs.length := hlength ▸ hi'
  have hvalue := hf i hlt
  rw [net.preVar_zero, Feedforward.rawAt, List.getElem?_eq_getElem hi', Option.getD_some] at hvalue
  rw [List.getElem_map, List.getElem_range, hvalue]

/-- Admissible inputs have one solution, if the property's bound is left out. -/
theorem existsUnique_isSatisfiedBy (hdepth : 2 ≤ net.depth) (houtput : property.output < net.width net.layers.length)
    (hadmits : net.Admits inputs) : ∃! a : Assignment Rat, a.keys = List.range (net.varsBefore net.depth) ∧
      (ofNetwork net property).inputs.map a.value = inputs ∧
      (unconstrained net property).isSatisfiedBy a .exact = true := by
  have hlength : inputs.length = net.inputs.length := (List.Forall₂.length_eq hadmits).symm
  obtain ⟨f, hf⟩ := net.exists_layout (net.rawAt inputs) (net.valueAt inputs) fun l j hhidden => by
    rw [Feedforward.valueAt_eq, Feedforward.rectifyAt_of_not_hidden hhidden]
  have hcomputes : net.Computes f := Feedforward.computes_of_eq fun l _ => hf l
  have hinputs : (ofNetwork net property).inputs.map f = inputs := map_inputs_eq hlength fun i hi => (hf 0 i hi).1
  have hsolved : (unconstrained net property).SolvedBy f :=
    (solvedBy_unconstrained_iff hdepth houtput).mpr ⟨by rwa [hinputs], hcomputes⟩
  let table := Assignment.tabulate (net.varsBefore net.depth) f
  have htable : ∀ v < net.varsBefore net.depth, table.value v = f v := fun v hv => Assignment.value_tabulate hv
  refine ⟨table, ⟨Assignment.keys_tabulate _ f, map_inputs_eq hlength fun i hi => ?_, ?_⟩, ?_⟩
  · rw [htable _ (Feedforward.var_lt (by omega) hi).1]
    exact (hf 0 i hi).1
  · exact Query.isSatisfiedBy_exact_iff.mpr
      (hsolved.congr fun v hv => htable v (declared_unconstrained hdepth houtput hv))
  · rintro a ⟨hkeys, hsame, ha⟩
    obtain ⟨_, hpass⟩ := (solvedBy_unconstrained_iff hdepth houtput).mp (Query.isSatisfiedBy_exact_iff.mp ha)
    refine Assignment.eq_of_value_eq (hkeys.trans (Assignment.keys_tabulate _ f).symm) fun v hv => ?_
    have hlt : v < net.varsBefore net.depth := List.mem_range.mp (hkeys ▸ hv)
    rw [htable v hlt]
    refine hpass.ext hcomputes (fun i hi => ?_) hlt
    rw [(hf 0 i hi).1, ← hsame, rawAt_inputs hi]

end Solutions

section Definitions

/-- The variables that the equations start with, one for each neuron after the inputs. -/
theorem headVars_query (net : Feedforward Rat) : net.query.equations.filterMap Equation.headVar? =
    (List.range' 1 net.layers.length).flatMap fun l => (List.range (net.width l)).map (net.preVar l) := by
  simp only [Feedforward.query, List.filterMap_flatMap, List.filterMap_map]
  refine List.flatMap_congr fun l _ => ?_
  exact congrFun List.filterMap_eq_map _

theorem outputs_relus_query (net : Feedforward Rat) : net.query.relus.map Relu.output =
    (List.range' 1 (net.layers.length - 1)).flatMap fun l => (List.range (net.width l)).map (net.postVar l) := by
  simp only [Feedforward.query, List.map_flatMap, List.map_map]
  rfl

/-- No variable is listed twice when each neuron of some layers is listed by one of its variables. -/
theorem nodup_vars {g : Nat → Nat → VarId} (hg : ∀ l j, g l j = net.preVar l j ∨ g l j = net.postVar l j)
    {layers : List Nat} (hlayers : layers.Nodup) :
    (layers.flatMap fun l => (List.range (net.width l)).map (g l)).Nodup := by
  refine List.nodup_flatMap.mpr ⟨fun l _ => ?_, hlayers.imp fun {l l'} hne => ?_⟩
  · refine List.Nodup.map_on (fun j hj j' hj' heq => ?_) List.nodup_range
    exact (Feedforward.var_unique (List.mem_range.mp hj) (List.mem_range.mp hj') (hg l j) (heq ▸ hg l j')).2
  · intro v hv hv'
    obtain ⟨j, hj, rfl⟩ := List.mem_map.mp hv
    obtain ⟨j', hj', heq⟩ := List.mem_map.mp hv'
    exact hne (Feedforward.var_unique (List.mem_range.mp hj) (List.mem_range.mp hj') (hg l j) (heq ▸ hg l' j')).1

theorem mem_headVars_iff {v : VarId} : v ∈ net.query.equations.filterMap Equation.headVar? ↔
    ∃ l j, 1 ≤ l ∧ l < net.depth ∧ j < net.width l ∧ v = net.preVar l j := by
  rw [List.mem_filterMap]
  constructor
  · rintro ⟨e, he, hv⟩
    obtain ⟨l, j, hfirst, hlast, hj, rfl⟩ := Feedforward.mem_equations_query_iff.mp he
    exact ⟨l, j, hfirst, hlast, hj, (Option.some.inj hv).symm⟩
  · rintro ⟨l, j, hfirst, hlast, hj, rfl⟩
    exact ⟨_, Feedforward.mem_equations_query_iff.mpr ⟨l, j, hfirst, hlast, hj, rfl⟩, rfl⟩

theorem mem_outputs_relus_iff {v : VarId} : v ∈ net.query.relus.map Relu.output ↔
    ∃ l j, net.isHidden l = true ∧ j < net.width l ∧ v = net.postVar l j := by
  rw [List.mem_map]
  constructor
  · rintro ⟨r, hr, rfl⟩
    obtain ⟨l, j, hhidden, hj, rfl⟩ := Feedforward.mem_relus_query_iff.mp hr
    exact ⟨l, j, hhidden, hj, rfl⟩
  · rintro ⟨l, j, hhidden, hj, rfl⟩
    exact ⟨_, Feedforward.mem_relus_query_iff.mpr ⟨l, j, hhidden, hj, rfl⟩, rfl⟩

/-- Every declared variable is an input, starts one equation, or comes out of one ReLU, and only one of these. -/
theorem perm_definitions (net : Feedforward Rat) : (List.range net.inputs.length ++
    net.query.equations.filterMap Equation.headVar? ++ net.query.relus.map Relu.output).Perm
      (List.range (net.varsBefore net.depth)) := by
  have hheads : (net.query.equations.filterMap Equation.headVar?).Nodup := by
    rw [headVars_query]
    exact nodup_vars (fun _ _ => .inl rfl) List.nodup_range'
  have hrelus : (net.query.relus.map Relu.output).Nodup := by
    rw [outputs_relus_query]
    exact nodup_vars (fun _ _ => .inr rfl) List.nodup_range'
  have hnodup : (List.range net.inputs.length ++ net.query.equations.filterMap Equation.headVar? ++
      net.query.relus.map Relu.output).Nodup := by
    refine List.nodup_append'.mpr ⟨List.nodup_append'.mpr ⟨List.nodup_range, hheads, ?_⟩, hrelus, ?_⟩
    · intro v hv hhead
      obtain ⟨l, j, hfirst, _, hj, heq⟩ := mem_headVars_iff.mp hhead
      have hlayer := (Feedforward.var_unique (List.mem_range.mp hv) hj (.inl (net.preVar_zero v).symm) (.inl heq)).1
      omega
    · intro v hv hrelu
      obtain ⟨l, j, hl, hj, heq⟩ := mem_outputs_relus_iff.mp hrelu
      have hfirst := (Feedforward.isHidden_iff.mp hl).1
      rcases List.mem_append.mp hv with hv | hhead
      · have hlayer := (Feedforward.var_unique (List.mem_range.mp hv) hj (.inl (net.preVar_zero v).symm) (.inr heq)).1
        omega
      · -- The two variables of a hidden neuron differ.
        obtain ⟨l', j', _, _, hj', heq'⟩ := mem_headVars_iff.mp hhead
        obtain ⟨rfl, rfl⟩ := Feedforward.var_unique hj hj' (.inr heq) (.inl heq')
        rw [heq', Feedforward.postVar_of_hidden hl] at heq
        exact Nat.succ_ne_self _ heq.symm
  refine (List.perm_ext_iff_of_nodup hnodup List.nodup_range).mpr fun v => ?_
  rw [List.mem_append, List.mem_append, mem_headVars_iff, mem_outputs_relus_iff, List.mem_range, List.mem_range]
  constructor
  · rintro ((hv | ⟨l, j, _, hl, hj, rfl⟩) | ⟨l, j, hl, hj, rfl⟩)
    · have hlt := (Feedforward.var_lt (l := 0) (Nat.succ_pos _) hv).1
      rwa [net.preVar_zero] at hlt
    · exact (Feedforward.var_lt hl hj).1
    · exact (Feedforward.var_lt (Feedforward.lt_depth_of_isHidden hl) hj).2
  · intro hv
    obtain ⟨l, hl, j, hj, rfl | ⟨hhidden, rfl⟩⟩ := Feedforward.exists_neuron_of_lt hv
    · rcases Nat.eq_zero_or_pos l with rfl | hpos
      · rw [net.preVar_zero]
        exact .inl (.inl hj)
      · exact .inl (.inr ⟨l, j, hpos, hl, hj, rfl⟩)
    · exact .inr ⟨l, j, hhidden, hj, rfl⟩

/-- An equation gives its first variable from earlier ones. -/
theorem addends_neuronEquation {l j : Nat} (hl : 1 ≤ l) (hj : j < net.width l) :
    ∃ v terms, (net.neuronEquation l j).addends = ⟨-1, v⟩ :: terms ∧ ∀ t ∈ terms, t.var < v := by
  refine ⟨net.preVar l j, net.sourceTerms l j, rfl, fun t ht => ?_⟩
  obtain ⟨i, hi, rfl⟩ := Feedforward.exists_of_mem_sourceTerms ht
  have hsource := (Feedforward.var_bounds hi).2.2.2
  rw [Nat.sub_add_cancel hl] at hsource
  exact lt_of_lt_of_le hsource (Feedforward.var_bounds hj).1

end Definitions

/-- The query of a network under a property is its forward pass. -/
structure EncodesForwardPass (net : Feedforward Rat) (property : Property Rat) (c : ConcreteEncoding Rat) : Prop where
  /-- An assignment satisfies the query if its inputs lie in the declared ranges, the hidden neurons have their weighted sums
  and what the ReLUs make of them, the outputs are those of the network, and the property's output reaches the region; and
  only then. -/
  satisfied_iff : ∀ a : Assignment Rat, c.query.isSatisfiedBy a .exact = true ↔
    net.Admits (c.inputs.map a.value) ∧
    (∀ l j, net.isHidden l = true → j < net.width l →
      a.value (net.preVar l j) = net.weighted (fun i => a.value (net.postVar (l - 1) i)) l j ∧
      a.value (net.postVar l j) = max (a.value (net.preVar l j)) 0) ∧
    net.evaluate (c.inputs.map a.value) = .ok (c.outputs.map a.value) ∧
    property.isReachedBy (c.outputs.map a.value) .exact = true
  /-- Inputs in the declared ranges have exactly one assignment of the declared variables that satisfies all of the query but
  possibly the property's bound. -/
  unique : ∃ v, c.outputs[property.output]? = some v ∧ ∀ inputs, net.Admits inputs → ∃! a : Assignment Rat,
    a.keys = List.range c.query.varCount ∧ c.inputs.map a.value = inputs ∧
    (c.query.removeBounds v).isSatisfiedBy a .exact = true
  /-- The network evaluates to what weights, biases and widths give, neuron by neuron. -/
  evaluate_eq : ∀ inputs : List Rat, inputs.length = net.inputs.length → net.evaluate inputs =
    .ok ((List.range (net.width net.layers.length)).map (net.rawAt inputs net.layers.length))
  /-- All variables in use are declared. -/
  declared : ∀ v, c.query.Mentions v → v < c.query.varCount
  /-- Every declared variable is defined once: as an input, by an equation or by a ReLU. -/
  defined : (c.inputs ++ c.query.equations.filterMap Equation.headVar? ++ c.query.relus.map Relu.output).Perm
    (List.range c.query.varCount)
  /-- Equations and ReLUs define variables by earlier ones. -/
  earlier : (∀ e ∈ c.query.equations, ∃ v terms, e.addends = ⟨-1, v⟩ :: terms ∧ ∀ t ∈ terms, t.var < v) ∧
    ∀ r ∈ c.query.relus, r.input < r.output

/-- The concrete query of a valid network under a property of one of its outputs is the forward pass: its solutions are the
passes on admissible inputs that reach the region, each admissible input has exactly one pass, and every variable is defined
once. -/
theorem encodesForwardPass_ofNetwork (hvalid : net.validate = .ok ())
    (houtput : property.output < net.width net.layers.length) :
    EncodesForwardPass net property (ofNetwork net property) := by
  have hnet := Feedforward.shaped_of_validate hvalid
  have hdepth := Feedforward.two_le_depth_of_validate hvalid
  obtain ⟨hequations, hrelus, hcount⟩ := relus_query net property
  refine ⟨isSatisfiedBy_iff hnet hdepth houtput, ⟨_, getElem?_outputs houtput, fun inputs hadmits => ?_⟩,
    fun inputs hlength => Feedforward.evaluate_eq_ok hnet (Feedforward.layers_ne_nil hdepth) hlength, fun v hv => ?_, ?_, ?_⟩
  · rw [hcount]
    exact existsUnique_isSatisfiedBy hdepth houtput hadmits
  · rw [hcount]
    exact Feedforward.declared_of_hasBound hequations hrelus (lt_of_hasBound hdepth houtput) hv
  · rw [hequations, hrelus, hcount, inputs_ofNetwork]
    exact perm_definitions net
  · rw [hequations, hrelus]
    refine ⟨fun e he => ?_, fun r hr => ?_⟩
    · obtain ⟨l, j, hfirst, _, hj, rfl⟩ := Feedforward.mem_equations_query_iff.mp he
      exact addends_neuronEquation hfirst hj
    · obtain ⟨l, j, hhidden, _, rfl⟩ := Feedforward.mem_relus_query_iff.mp hr
      rw [Feedforward.postVar_of_hidden hhidden]
      exact Nat.lt_succ_self _

/-- The forked network is valid, and its query under a property of its first output is its forward pass. -/
theorem encodesForwardPass_fork : Feedforward.fork.validate = .ok () ∧
    EncodesForwardPass .fork ⟨.maximize, 0, 1⟩ (ofNetwork .fork ⟨.maximize, 0, 1⟩) := by
  have hvalid : Feedforward.fork.validate = .ok () := by decide +kernel
  exact ⟨hvalid, encodesForwardPass_ofNetwork hvalid (by decide)⟩

end ConcreteEncoding

end ReluAbstraction
