import Mathlib.Tactic
import ReluAbstraction.ConcreteEncoding
import ReluAbstraction.Proofs.ExactArithmetic

/-!
# Values of neurons

The forward pass computes whole layers. Here each neuron has its value, given by the values of the layer before; in a
network whose layers fit together, the outputs of the forward pass are the values of the last layer.
-/

namespace ReluAbstraction

/-- A layer that passes the check has a bias for each neuron and rows of the given width. -/
theorem DenseLayer.check_ok {α : Type} {layer : DenseLayer α} {index width : Nat} (h : layer.check index width = .ok ()) :
    layer.biases.length = layer.weights.length ∧ ∀ row ∈ layer.weights, row.length = width := by
  unfold DenseLayer.check at h
  dsimp only at h
  by_cases hempty : layer.weights.isEmpty = true
  · rw [if_pos hempty] at h
    cases h
  · rw [if_neg hempty] at h
    by_cases hbiases : layer.biases.length ≠ layer.weights.length
    · rw [if_pos hbiases] at h
      cases h
    · rw [if_neg hbiases] at h
      refine ⟨not_not.mp hbiases, fun row hrow => ?_⟩
      cases hfind : layer.weights.findIdx? fun row => row.length ≠ width with
      | some neuron =>
        rw [hfind] at h
        cases h
      | none => simpa using List.findIdx?_eq_none_iff.mp hfind row hrow

namespace Feedforward

/-- The layers fit together. -/
structure Shaped {α : Type} (net : Feedforward α) : Prop where
  biases : ∀ {l : Nat} {layer : DenseLayer α}, net.layers[l]? = some layer → layer.biases.length = layer.weights.length
  rows : ∀ {l : Nat} {layer : DenseLayer α}, net.layers[l]? = some layer → ∀ row ∈ layer.weights, row.length = net.width l

theorem width_succ {α : Type} {net : Feedforward α} {l : Nat} {layer : DenseLayer α} (h : net.layers[l]? = some layer) :
    net.width (l + 1) = layer.weights.length := by simp [width, h]

theorem layers_ne_nil {α : Type} {net : Feedforward α} (h : 2 ≤ net.depth) : net.layers ≠ [] := by
  intro hnil
  simp [depth, hnil] at h

section Validation

variable {α : Type}

/-- Layers that pass the check read as many values as the layer before has neurons. -/
theorem checkLayers_ok {layers : List (DenseLayer α)} {index width : Nat} (h : checkLayers index width layers = .ok ()) :
    ∀ {l : Nat} {layer : DenseLayer α}, layers[l]? = some layer → layer.biases.length = layer.weights.length ∧
      ∀ row ∈ layer.weights, row.length = match l with
        | 0 => width
        | l + 1 => match layers[l]? with
          | some layer => layer.weights.length
          | none => 0 := by
  induction layers generalizing index width with
  | nil => simp
  | cons first rest ih =>
    rw [checkLayers] at h
    cases hfirst : first.check index width with
    | error e =>
      rw [hfirst] at h
      cases h
    | ok _ =>
      rw [hfirst] at h
      intro l layer hl
      cases l with
      | zero =>
        cases hl
        exact DenseLayer.check_ok hfirst
      | succ l =>
        obtain ⟨hbiases, hrows⟩ := ih h hl
        refine ⟨hbiases, fun row hrow => (hrows row hrow).trans ?_⟩
        cases l <;> rfl

/-- A valid network has a layer after its inputs, and its layers fit together. -/
theorem validate_ok [Scalar α] {net : Feedforward α} (h : net.validate = .ok ()) :
    net.layers ≠ [] ∧ checkLayers 1 net.inputs.length net.layers = .ok () := by
  unfold validate at h
  dsimp only at h
  by_cases hinputs : net.inputs.isEmpty = true
  · rw [if_pos hinputs] at h
    cases h
  · rw [if_neg hinputs] at h
    by_cases hempty : net.layers.isEmpty = true
    · rw [if_pos hempty] at h
      cases h
    · rw [if_neg hempty] at h
      refine ⟨fun hnil => hempty (List.isEmpty_iff.mpr hnil), ?_⟩
      split at h
      · cases h
      · exact h

theorem shaped_of_validate [Scalar α] {net : Feedforward α} (h : net.validate = .ok ()) : net.Shaped := by
  obtain ⟨_, hlayers⟩ := validate_ok h
  refine ⟨fun hl => (checkLayers_ok hlayers hl).1, fun {l layer} hl row hrow => ?_⟩
  rw [(checkLayers_ok hlayers hl).2 row hrow]
  cases l <;> rfl

theorem two_le_depth_of_validate [Scalar α] {net : Feedforward α} (h : net.validate = .ok ()) : 2 ≤ net.depth :=
  Nat.succ_le_succ (List.length_pos_of_ne_nil (validate_ok h).1)

end Validation

variable (net : Feedforward Rat) (inputs : List Rat)

/-- A neuron's value after its ReLU, if it has one. -/
def rectifyAt (l : Nat) (x : Rat) : Rat := if net.isHidden l then max x 0 else x

/-- Weighted sum of a neuron over given values of the layer before. -/
def weighted (before : Nat → Rat) (l neuron : Nat) : Rat :=
  ((List.range (net.width (l - 1))).map fun i => net.weight l neuron i * before i).sum + net.bias l neuron

theorem weighted_congr {net : Feedforward Rat} {before before' : Nat → Rat} {l neuron : Nat}
    (h : ∀ i < net.width (l - 1), before i = before' i) : net.weighted before l neuron = net.weighted before' l neuron := by
  unfold weighted
  congr 2
  refine List.map_congr_left fun i hi => ?_
  rw [h i (List.mem_range.mp hi)]

/-- Values that the next layer reads, layer by layer. -/
def valueAt : Nat → Nat → Rat
  | 0, i => inputs[i]?.getD 0
  | l + 1, neuron => net.rectifyAt (l + 1) (net.weighted (valueAt l) (l + 1) neuron)

/-- Values before the ReLUs. -/
def rawAt : Nat → Nat → Rat
  | 0, i => inputs[i]?.getD 0
  | l + 1, neuron => net.weighted (net.valueAt inputs l) (l + 1) neuron

theorem valueAt_eq (l neuron : Nat) : net.valueAt inputs l neuron = net.rectifyAt l (net.rawAt inputs l neuron) := by
  cases l with
  | zero => rfl
  | succ l => rfl

variable {net inputs}

theorem rectifyAt_of_hidden {l : Nat} (h : net.isHidden l = true) (x : Rat) : net.rectifyAt l x = max x 0 := if_pos h

theorem rectifyAt_of_not_hidden {l : Nat} (h : net.isHidden l = false) (x : Rat) : net.rectifyAt l x = x :=
  if_neg (by simp [h])

/-- One dense layer on the values of the layer before. -/
theorem affine_eq (hnet : net.Shaped) {l : Nat} {layer : DenseLayer Rat} (hlayer : net.layers[l]? = some layer)
    (before : Nat → Rat) : layer.affine ((List.range (net.width l)).map before) =
      (List.range (net.width (l + 1))).map (net.weighted before (l + 1)) := by
  have hbiases := hnet.biases hlayer
  rw [width_succ hlayer]
  refine List.ext_getElem (by simp [DenseLayer.affine, hbiases]) fun j hj hj' => ?_
  have hrow : j < layer.weights.length := by simpa using hj'
  have hbias : j < layer.biases.length := hbiases ▸ hrow
  have hlength : layer.weights[j].length = net.width l := hnet.rows hlayer _ (List.getElem_mem hrow)
  simp only [DenseLayer.affine, List.getElem_zipWith, List.getElem_map, List.getElem_range, weighted, Nat.add_sub_cancel]
  have hdot : Scalar.dot layer.weights[j] ((List.range (net.width l)).map before) =
      ((List.range (net.width l)).map fun i => net.weight (l + 1) j i * before i).sum := by
    rw [Scalar.dot_exact]
    refine congrArg List.sum (List.ext_getElem (by simp [hlength]) fun i hi hi' => ?_)
    have hi : i < layer.weights[j].length := by rw [hlength]; simpa using hi'
    simp [weight, hlayer, hrow, hi]
  have hbias_eq : layer.biases[j] = net.bias (l + 1) j := by simp [bias, hlayer, hbias]
  rw [hdot, hbias_eq]

/-- From the values of a layer on, the forward pass gives the values of the last layer. -/
theorem forward_eq (hnet : net.Shaped) {rest : List (DenseLayer Rat)} {l : Nat} (hrest : net.layers.drop l = rest)
    (hne : rest ≠ []) : forward rest ((List.range (net.width l)).map (net.valueAt inputs l)) =
      (List.range (net.width net.layers.length)).map (net.rawAt inputs net.layers.length) := by
  induction rest generalizing l with
  | nil => exact absurd rfl hne
  | cons layer rest ih =>
    have hlayer : net.layers[l]? = some layer := by
      rw [← List.head?_drop, hrest, List.head?_cons]
    have hnext : net.layers.drop (l + 1) = rest := by
      rw [← List.tail_drop, hrest, List.tail_cons]
    have haffine := affine_eq hnet hlayer (net.valueAt inputs l)
    have hlength : net.layers.length = l + 1 + rest.length := by
      have hdrop := congrArg List.length hrest
      have hlt := (List.getElem?_eq_some_iff.mp hlayer).1
      simp only [List.length_drop, List.length_cons] at hdrop
      omega
    cases rest with
    | nil =>
      rw [forward, haffine, hlength]
      rfl
    | cons next rest =>
      have hhidden : net.isHidden (l + 1) = true := by
        simp only [List.length_cons] at hlength
        refine decide_eq_true ⟨by omega, ?_⟩
        rw [depth, hlength]
        omega
      rw [forward, haffine, List.map_map, ← ih hnext (by simp)]
      refine congrArg (forward _) (List.map_congr_left fun j _ => ?_)
      rw [Function.comp_apply, Scalar.rectify_exact, ← rectifyAt_of_hidden hhidden]
      rfl

/-- The outputs of a network are the values of its last layer. -/
theorem evaluate_eq_ok (hnet : net.Shaped) (hlayers : net.layers ≠ []) (hlength : inputs.length = net.inputs.length) :
    net.evaluate inputs = .ok ((List.range (net.width net.layers.length)).map (net.rawAt inputs net.layers.length)) := by
  have hstart : inputs = (List.range (net.width 0)).map (net.valueAt inputs 0) := by
    refine List.ext_getElem (by simp [width, hlength]) fun i hi hi' => ?_
    simp [valueAt, hi]
  rw [evaluate, if_pos hlength, ← forward_eq hnet List.drop_zero hlayers, ← hstart]

theorem getElem?_outputs {j : Nat} (hj : j < net.width net.layers.length) :
    ((List.range (net.width net.layers.length)).map (net.rawAt inputs net.layers.length))[j]? =
      some (net.rawAt inputs net.layers.length j) := by
  rw [List.getElem?_map, List.getElem?_range hj, Option.map_some]

/-- The inputs lie in the declared ranges. -/
def Admits (net : Feedforward Rat) (inputs : List Rat) : Prop :=
  List.Forall₂ (fun range x => range.low ≤ x ∧ x ≤ range.high) net.inputs inputs

/-- On the inputs, the network's output lies in the region of the property. -/
def Attains (net : Feedforward Rat) (property : Property Rat) (inputs : List Rat) : Prop :=
  ∃ outputs, net.evaluate inputs = .ok outputs ∧ property.isReachedBy outputs .exact = true

/-- The region is reached if the value of the property's output meets its bound. -/
theorem attains_iff (hnet : net.Shaped) (hlayers : net.layers ≠ []) {property : Property Rat}
    (houtput : property.output < net.width net.layers.length) (hlength : inputs.length = net.inputs.length) :
    net.Attains property inputs ↔ property.bound.Admits (net.rawAt inputs net.layers.length property.output) := by
  have hrun := evaluate_eq_ok hnet hlayers hlength
  constructor
  · rintro ⟨outputs, hok, hreached⟩
    obtain rfl := Except.ok.inj (hrun.symm.trans hok)
    obtain ⟨y, hy, hadmits⟩ := Property.isReachedBy_exact_iff.mp hreached
    rw [getElem?_outputs houtput] at hy
    cases hy
    exact hadmits
  · intro hadmits
    exact ⟨_, hrun, Property.isReachedBy_exact_iff.mpr ⟨_, getElem?_outputs houtput, hadmits⟩⟩

end Feedforward

end ReluAbstraction
