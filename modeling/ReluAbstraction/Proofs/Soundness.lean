import ReluAbstraction.Proofs.Exactness

/-!
# Soundness of abstractions

Whatever was merged and split, an arnode of a complete abstraction stays on the side of its nodes that its category asks
for: the larger one if its incoming weights are reduced to the largest, the smaller one if they are reduced to the smallest.
So inputs that reach the region of the property can be continued to a solution of the abstract query, provided that the
biases of the arnodes are on the same side.
-/

namespace ReluAbstraction

namespace Reduction

/-- The second number is on the side of the first one that the reduction goes to. -/
def Bounds : Reduction → Rat → Rat → Prop
  | .max, x, y => x ≤ y
  | .min, x, y => y ≤ x
  | .sum, _, _ => True

instance (r : Reduction) (x y : Rat) : Decidable (r.Bounds x y) :=
  match r with
  | .max => inferInstanceAs (Decidable (x ≤ y))
  | .min => inferInstanceAs (Decidable (y ≤ x))
  | .sum => inferInstanceAs (Decidable True)

/-- The reduction that goes to the other side. -/
def opposite : Reduction → Reduction
  | .max => .min
  | .min => .max
  | .sum => .sum

variable {r : Reduction} {x y x' y' : Rat}

theorem Bounds.refl (r : Reduction) (x : Rat) : r.Bounds x x := by
  cases r
  · exact le_refl x
  · exact le_refl x
  · trivial

theorem Bounds.add (h : r.Bounds x y) (h' : r.Bounds x' y') : r.Bounds (x + x') (y + y') := by
  cases r
  · exact add_le_add h h'
  · exact add_le_add h h'
  · trivial

/-- Sums whose terms are on the side are on the side. -/
theorem Bounds.sum {ι : Type} {xs : List ι} {f g : ι → Rat} (h : ∀ i ∈ xs, r.Bounds (f i) (g i)) :
    r.Bounds (xs.map f).sum (xs.map g).sum := by
  induction xs with
  | nil => exact .refl r _
  | cons i xs ih =>
    rw [List.map_cons, List.map_cons, List.sum_cons, List.sum_cons]
    exact (h i (by simp)).add (ih fun j hj => h j (by simp [hj]))

theorem Bounds.rectify (h : r.Bounds x y) : r.Bounds (Max.max x 0) (Max.max y 0) := by
  cases r
  · exact max_le_max_right 0 h
  · exact max_le_max_right 0 h
  · trivial

/-- A product is on the side if its factors are, where a negative weight turns the side of the value around. -/
theorem Bounds.mul {w v w' v' : Rat} (hw : r.Bounds w w') (hv' : 0 ≤ v') (hpos : 0 < w → r.Bounds v v')
    (hneg : w < 0 → r.opposite.Bounds v v') : r.Bounds (w * v) (w' * v') := by
  cases r with
  | max =>
    have hvalue : w * v ≤ w * v' := by
      rcases lt_trichotomy w 0 with hw | rfl | hw
      · exact mul_le_mul_of_nonpos_left (hneg hw) hw.le
      · simp
      · exact mul_le_mul_of_nonneg_left (hpos hw) hw.le
    exact hvalue.trans (mul_le_mul_of_nonneg_right hw hv')
  | min =>
    have hvalue : w * v' ≤ w * v := by
      rcases lt_trichotomy w 0 with hw | rfl | hw
      · exact mul_le_mul_of_nonpos_left (hneg hw) hw.le
      · simp
      · exact mul_le_mul_of_nonneg_left (hpos hw) hw.le
    exact le_trans (mul_le_mul_of_nonneg_right hw hv') hvalue
  | sum => trivial

/-- A reduced number is on the side of all numbers. -/
theorem bounds_of_reduce? {xs : List Rat} (h : r.reduce? xs = some y) : ∀ x ∈ xs, r.Bounds x y := by
  cases r with
  | max => exact le_of_reduce?_max h
  | min => exact le_of_reduce?_min h
  | sum => exact fun _ _ => trivial

theorem reduce?_zeros {xs : List Rat} (hxs : ∀ x ∈ xs, x = 0) (h : r.reduce? xs = some y) : y = 0 := by
  cases xs with
  | nil => cases h
  | cons first rest =>
    have hfold : rest.foldl r.combine first = 0 := by
      rw [hxs first (by simp)]
      have hrest : ∀ x ∈ rest, x = 0 := fun x hx => hxs x (by simp [hx])
      clear h hxs
      induction rest with
      | nil => rfl
      | cons next rest ih =>
        have hzero : r.combine (0 : Rat) 0 = 0 := by
          cases r
          · rfl
          · rfl
          · exact zero_add 0
        rw [List.foldl_cons, hrest next (by simp), hzero]
        exact ih fun x hx => hrest x (by simp [hx])
    rw [← hfold]
    exact (Option.some.inj h).symm

end Reduction

namespace Policy

variable {c c' : Category} {w : Rat}

/-- Along a positive weight the side stays the same, along a negative one it turns around. -/
theorem incoming_of_classify? (goal : Goal) (h : Category.classify? w c = some c') :
    (0 < w → (forGoal goal).incoming c' = (forGoal goal).incoming c) ∧
      (w < 0 → (forGoal goal).incoming c' = ((forGoal goal).incoming c).opposite) := by
  have hsign : ∀ {positive : Bool},
      (c.isIncreasing?.map fun increasing => Category.ofSigns positive (positive == increasing)) = some c' →
      (positive = true → (forGoal goal).incoming c' = (forGoal goal).incoming c) ∧
      (positive = false → (forGoal goal).incoming c' = ((forGoal goal).incoming c).opposite) := by
    intro positive hc
    cases positive <;> cases c <;> cases hc <;> cases goal <;> decide
  obtain ⟨hpos, hneg⟩ := hsign h
  exact ⟨fun hw => hpos (decide_eq_true hw.le), fun hw => hneg (decide_eq_false (not_le.mpr hw))⟩

/-- At the output, the side of the abstraction is the one that the property looks at. -/
theorem admits_of_bounds {property : Property Rat} {x y : Rat}
    (h : ((forGoal property.goal).incoming .posInc).Bounds x y) (hx : property.bound.Admits x) :
    property.bound.Admits y := by
  unfold Property.bound at hx ⊢
  cases hgoal : property.goal with
  | maximize =>
    rw [hgoal] at h hx
    exact le_trans (show property.threshold ≤ x from hx) h
  | minimize =>
    rw [hgoal] at h hx
    exact le_trans h (show x ≤ property.threshold from hx)

/-- Where outgoing weights are summed, the fold is a sum of reduced weights over the sources. -/
theorem exists_of_fold {p : Policy} {edge : NodeId → NodeId → Option Rat} {source target : Category}
    {sources targets : List NodeId} (hsum : p.outgoing source = .sum) (htargets : targets ≠ [])
    (h : p.fold edge source target sources targets = some w) :
    ∃ reduced : NodeId → Rat, w = (sources.map reduced).sum ∧
      ∀ m, (p.incoming target).reduce? (targets.map fun t => (edge m t).getD 0) = some (reduced m) := by
  have hreduced : ∀ m, ∃ y, (p.incoming target).reduce? (targets.map fun t => (edge m t).getD 0) = some y := by
    intro m
    rw [← Option.ne_none_iff_exists', ne_eq, Reduction.reduce?_eq_none_iff, List.map_eq_nil_iff]
    exact htargets
  choose reduced hreduced using hreduced
  refine ⟨reduced, ?_, hreduced⟩
  rw [fold, hsum] at h
  rw [Reduction.eq_of_reduce?_sum h]
  simp only [hreduced, List.filterMap_eq_map']

end Policy

namespace Abstraction

variable {net : Feedforward Rat} {property : Property Rat} {a : Abstraction Rat} {inputs : List Rat}

/-- Between the boundary layers, the biases of the arnodes are on the side of the biases of their nodes. -/
def Sided (net : Feedforward Rat) (a : Abstraction Rat) : Prop :=
  ∀ ⦃x b m⦄, a.arnodes.body? x = some b → net.isHidden b.location.layer = true → m ∈ b.data.members →
    (a.policy.incoming b.location.category).Bounds (a.biasOf m) b.data.bias

theorem Recast.sided_iff {a' : Abstraction Rat} (h : Recast a a') (hpolicy : a'.policy = a.policy) :
    a'.Sided net ↔ a.Sided net := by
  have hbias := biasOf_of_nodePart h.nodePart_eq
  constructor
  · intro hsided x b m hb hhidden hm
    obtain ⟨b', hb', hlocation, hmembers, _, hsame⟩ := h.symm_body? hb
    have hside := hsided hb' (hlocation ▸ hhidden) (hmembers ▸ hm)
    rwa [hpolicy, hlocation, hbias, hsame] at hside
  · intro hsided x b' m hb' hhidden hm
    obtain ⟨b, hb, hlocation, hmembers, _, hsame⟩ := h.exists_body? hb'
    have hside := hsided hb (hlocation ▸ hhidden) (hmembers ▸ hm)
    rwa [← hpolicy, hlocation, ← hbias, hsame] at hside

/-- Looking through all arnodes tells whether their biases are on the side of those of their nodes. -/
theorem sided_of_all (h : (a.arnodes.toList.all fun v => v.2.data.members.all fun m =>
      decide ((a.policy.incoming v.2.location.category).Bounds (a.biasOf m) v.2.data.bias)) = true) : a.Sided net := by
  intro x b m hb _ hm
  obtain ⟨v, hv, rfl⟩ := Graph.body?_eq_some_iff.mp hb
  have hall := List.all_eq_true.mp h (x, v) (Arena.mem_toList_iff.mpr hv)
  exact of_decide_eq_true (List.all_eq_true.mp hall m hm)

/-- Values of the arnodes after their ReLUs, layer by layer. -/
def passAt (net : Feedforward Rat) (a : Abstraction Rat) (inputs : List Rat) : Nat → ArNodeId → Rat
  | 0, x => net.valueAt inputs 0 (a.originOf x).index
  | l + 1, x => net.rectifyAt (l + 1) (a.inflow (passAt net a inputs l) x)

/-- Values of the arnodes before their ReLUs. -/
def sumAt (net : Feedforward Rat) (a : Abstraction Rat) (inputs : List Rat) : Nat → ArNodeId → Rat
  | 0, x => net.rawAt inputs 0 (a.originOf x).index
  | l + 1, x => a.inflow (passAt net a inputs l) x

theorem passAt_eq (l : Nat) (x : ArNodeId) : passAt net a inputs l x = net.rectifyAt l (sumAt net a inputs l x) := by
  cases l with
  | zero => rfl
  | succ l => rfl

namespace Finished

variable (h : Finished net a)

include h

/-- In the boundary layers an arnode has one node. -/
theorem exists_alone {x : ArNodeId} {b : Body (ArNodeData Rat)} (hb : a.arnodes.body? x = some b)
    (hl : ¬net.Regroupable b.location.layer) : ∃ m c, b.data.members = [m] ∧ a.info? m = some c ∧
      c.place.layer = b.location.layer ∧ c.place.category = b.location.category ∧ a.originOf x = c.origin := by
  obtain ⟨m, hm⟩ := List.length_eq_one_iff.mp ((h.alone hb).resolve_right hl)
  obtain ⟨c, hc, _, hlayer, hcategory⟩ := h.grounded.owned.member hb m (by simp [hm])
  exact ⟨m, c, hm, hc, hlayer, hcategory, originOf_of_head? hb (by simp [hm]) hc⟩

/-- Biases of zero are on any side. -/
theorem sided_of_zero (hzero : ∀ l, net.isHidden l = true → ∀ j < net.width l, net.bias l j = 0) : a.Sided net := by
  intro x b m hb hhidden hm
  have hbias : ∀ m ∈ b.data.members, a.biasOf m = 0 := by
    intro m hm
    obtain ⟨c, hc, _, hlayer, _⟩ := h.grounded.owned.member hb m hm
    have hf := h.represents.faithful
    rw [biasOf, hc, Option.map_some, Option.getD_some, hf.bias_eq hc, hlayer]
    exact hzero _ hhidden _ (hlayer ▸ hf.index_lt hc)
  have hall := Reduction.reduce?_zeros (fun x hx => ?_) (h.grounded.owned.bias_eq hb)
  · rw [hbias m hm, hall]
    exact .refl _ 0
  · obtain ⟨m, hm, rfl⟩ := List.mem_map.mp hx
    exact hbias m hm

/-- What a source of an arnode hands on is on the side of what its nodes hand on. -/
theorem source_bounds {r : Reduction} (hsum : ∀ c, a.policy.outgoing c = .sum) {s y : ArNodeId} {bs b : Body (ArNodeData Rat)}
    {t : NodeId} {W f : Rat} {v : NodeId → Rat} (hbs : a.arnodes.body? s = some bs) (hb : a.arnodes.body? y = some b)
    (ht : t ∈ b.data.members) (hr : a.policy.incoming b.location.category = r) (hW : a.arnodes.edge? s y = some W)
    (hstep : ∀ m ∈ bs.data.members, ∀ M, r.reduce? (b.data.members.map fun t => (a.nodes.edge? m t).getD 0) = some M →
      r.Bounds ((a.nodes.edge? m t).getD 0 * v m) (M * f)) :
    r.Bounds (bs.data.members.map fun m => (a.nodes.edge? m t).getD 0 * v m).sum (W * f) := by
  rw [h.edge?_eq, folded?_of_body? hbs hb] at hW
  split at hW
  · obtain ⟨reduced, rfl, hreduced⟩ := Policy.exists_of_fold (hsum _) (List.ne_nil_of_mem ht) hW
    rw [← List.sum_map_mul_right]
    refine .sum fun m hm => hstep m hm (reduced m) ?_
    rw [← hr]
    exact hreduced m
  · cases hW

/-- The values of a layer of arnodes are on the side of the values of their nodes. -/
def Beyond (net : Feedforward Rat) (a : Abstraction Rat) (inputs : List Rat) (l : Nat) : Prop :=
  ∀ {x b m}, a.arnodes.body? x = some b → b.location.layer = l → m ∈ b.data.members →
    (a.policy.incoming b.location.category).Bounds (net.valueAt inputs l (a.neuronOf m)) (passAt net a inputs l x)

/-- An arnode of the input layer has the value of its neuron. -/
theorem passAt_zero {x : ArNodeId} {b : Body (ArNodeData Rat)} {m : NodeId} (hb : a.arnodes.body? x = some b)
    (hl : b.location.layer = 0) (hm : m ∈ b.data.members) :
    passAt net a inputs 0 x = net.valueAt inputs 0 (a.neuronOf m) := by
  obtain ⟨m', c, hm', hc, _, _, horigin⟩ := h.exists_alone hb (Feedforward.not_regroupable_of_boundary (.inl hl))
  rw [hm', List.mem_singleton] at hm
  rw [passAt, horigin, hm, neuronOf_of_info? hc]

theorem beyond_zero : Beyond net a inputs 0 := by
  intro x b m hb hl hm
  rw [h.passAt_zero hb hl hm]
  exact .refl _ _

section Step

variable {goal : Goal} {bias : Reduction} (hpolicy : a.policy = (Policy.forGoal goal).withBias bias)
  (hinputs : net.floor = 1 → ∀ i, 0 ≤ net.valueAt inputs 0 i)

include hpolicy hinputs

/-- One weight into a node, times what its source hands on. -/
theorem term_bounds {l : Nat} (ih : Beyond net a inputs l) {s y : ArNodeId} {bs b : Body (ArNodeData Rat)} {m t : NodeId}
    (hbs : a.arnodes.body? s = some bs) (hb : a.arnodes.body? y = some b) (hsl : bs.location.layer = l)
    (hl : b.location.layer = l + 1) (hm : m ∈ bs.data.members) (ht : t ∈ b.data.members) {M : Rat}
    (hM : (a.policy.incoming b.location.category).reduce? (b.data.members.map fun t => (a.nodes.edge? m t).getD 0) = some M) :
    (a.policy.incoming b.location.category).Bounds ((a.nodes.edge? m t).getD 0 * net.valueAt inputs l (a.neuronOf m))
      (M * passAt net a inputs l s) := by
  have hg := h.grounded
  have hf := h.represents.faithful
  obtain ⟨c, hc, _, hclayer, hccategory⟩ := hg.owned.member hb t ht
  obtain ⟨d, hd, _, hdlayer, hdcategory⟩ := hg.owned.member hbs m hm
  have hlast : l + 1 < net.depth := by
    rw [← hl, ← hclayer]
    exact hf.layer_lt hc
  by_cases hsigned : l = 0 ∧ net.floor ≠ 1
  · -- With signed inputs the arnodes of the first layer have one node each, so nothing was reduced.
    obtain ⟨rfl, hfloor⟩ := hsigned
    have hfixed : ¬net.Regroupable b.location.layer := by
      rintro ⟨hle, _⟩
      have hpos := net.floor_pos
      omega
    obtain ⟨t', _, ht', _⟩ := h.exists_alone hb hfixed
    rw [ht', List.mem_singleton] at ht
    rw [ht', List.map_singleton, Reduction.reduce?_singleton, ← ht, Option.some.injEq] at hM
    rw [← hM, h.passAt_zero hbs hsl hm]
    exact .refl _ _
  · have hnonneg : 0 ≤ passAt net a inputs l s := by
      cases l with
      | zero =>
        rw [h.passAt_zero hbs hsl hm]
        exact hinputs (not_not.mp fun hne => hsigned ⟨rfl, hne⟩) _
      | succ l =>
        have hhidden : net.isHidden (l + 1) = true := decide_eq_true ⟨by omega, hlast⟩
        rw [passAt_eq, Feedforward.rectifyAt_of_hidden hhidden]
        exact le_max_right _ _
    have hweight := Reduction.bounds_of_reduce? hM _ (List.mem_map_of_mem ht)
    rcases Nat.eq_zero_or_pos l with rfl | hpos
    · -- Inputs have their values, which are on either side.
      rw [h.passAt_zero hbs hsl hm] at hnonneg ⊢
      exact hweight.mul hnonneg (fun _ => .refl _ _) fun _ => .refl _ _
    · have hside := ih hbs hsl hm
      have hincoming : a.policy.incoming = (Policy.forGoal goal).incoming := by rw [hpolicy]; rfl
      have hturn : (0 < (a.nodes.edge? m t).getD 0 →
            a.policy.incoming bs.location.category = a.policy.incoming b.location.category) ∧
          ((a.nodes.edge? m t).getD 0 < 0 →
            a.policy.incoming bs.location.category = (a.policy.incoming b.location.category).opposite) := by
        cases hedge : a.nodes.edge? m t with
        | none => exact ⟨fun hw => absurd hw (lt_irrefl _), fun hw => absurd hw (lt_irrefl _)⟩
        | some w =>
          have hcemented : d.place.category ≠ .unprocessed := hdcategory ▸ hg.arnodes.cemented hbs
          have hclassify := hf.classified hedge hd hc hcemented (by omega)
          rw [hccategory, hdcategory] at hclassify
          rw [hincoming]
          exact Policy.incoming_of_classify? goal hclassify
      exact hweight.mul hnonneg (fun hw => hturn.1 hw ▸ hside) fun hw => hturn.2 hw ▸ hside

variable (hsided : a.Sided net)

include hsided

/-- From values on the right side, an arnode computes a value on the right side. -/
theorem inflow_bounds {l : Nat} (ih : Beyond net a inputs l) {y : ArNodeId} {b : Body (ArNodeData Rat)} {t : NodeId}
    {c : NodeInfo Rat} (hb : a.arnodes.body? y = some b) (hl : b.location.layer = l + 1) (ht : t ∈ b.data.members)
    (hc : a.info? t = some c) : (a.policy.incoming b.location.category).Bounds (net.rawAt inputs (l + 1) c.origin.index)
      (a.inflow (passAt net a inputs l) y) := by
  obtain ⟨hlayer, _⟩ := h.grounded.owned.place_of_mem hb ht hc
  have hnode : a.biasOf t = net.bias (l + 1) c.origin.index := by
    rw [biasOf, hc, Option.map_some, Option.getD_some, h.represents.faithful.bias_eq hc, hlayer, hl]
  have hbias : a.biasAt y = b.data.bias := by simp [biasAt, hb]
  rw [h.rawAt_eq hb ht hc hl, inflow]
  refine .add (.sum fun s hs => ?_) ?_
  · obtain ⟨w, hw⟩ := h.grounded.arnodes.mem_sourcesOf_iff.mp hs
    obtain ⟨bs, b', hbs, hb', hnext⟩ := h.grounded.arnodes.live_of_edge hw
    obtain rfl : b = b' := Option.some.inj (hb.symm.trans hb')
    have hsl : bs.location.layer = l := Nat.succ_injective (hnext.symm.trans hl)
    rw [membersOf_of_body? hbs, hw, Option.getD_some]
    refine h.source_bounds (fun _ => by rw [hpolicy]; rfl) hbs hb ht rfl hw fun m hm M hM => ?_
    exact h.term_bounds hpolicy hinputs ih hbs hb hsl hl hm ht hM
  · rw [← hnode, hbias]
    cases hhidden : net.isHidden b.location.layer with
    | true => exact hsided hb hhidden ht
    | false =>
      -- The arnode of an output has one node and its bias.
      have hfixed : ¬net.Regroupable b.location.layer := by
        rintro ⟨hfloor, hlast⟩
        have hpos := net.floor_pos
        have hnot : net.isHidden b.location.layer = true := decide_eq_true ⟨by omega, hlast⟩
        rw [hhidden] at hnot
        cases hnot
      obtain ⟨t', _, ht', _⟩ := h.exists_alone hb hfixed
      rw [ht', List.mem_singleton] at ht
      have hsame := h.grounded.owned.bias_eq hb
      rw [ht', List.map_singleton, Reduction.reduce?_singleton, Option.some.injEq] at hsame
      rw [ht, hsame]
      exact .refl _ _

/-- In every layer the values of the arnodes are on the side of the values of their nodes. -/
theorem beyond (l : Nat) : Beyond net a inputs l := by
  induction l with
  | zero => exact h.beyond_zero
  | succ l ih =>
    intro x b m hb hl hm
    obtain ⟨c, hc, _⟩ := h.grounded.owned.member hb m hm
    have hraw := h.inflow_bounds hpolicy hinputs hsided ih hb hl hm hc
    rw [neuronOf_of_info? hc, Feedforward.valueAt_eq, passAt_eq, sumAt]
    unfold Feedforward.rectifyAt
    split
    · exact hraw.rectify
    · exact hraw

/-- If all neurons meet their bounds, the values of the arnodes are admitted by the query. -/
theorem settles_pass (hgoal : goal = property.goal) (hbounds : net.WithinLimits property inputs) :
    a.Settles net property (fun x => sumAt net a inputs (a.originOf x).layer x)
      (fun x => passAt net a inputs (a.originOf x).layer x) := by
  have haligned : a.Aligned := fun _ _ hx => h.represents.faithful.origin_layer hx
  have hlayer : ∀ {x b}, a.arnodes.body? x = some b → (a.originOf x).layer = b.location.layer :=
    fun hb => originOf_layer h.grounded haligned hb
  refine ⟨fun {x b} hb hne => ?_, fun {x b} hb => ?_, fun {x b m c bound} hb hm hc hlimits => ?_⟩
  · obtain ⟨s, hs⟩ := List.exists_mem_of_ne_nil _ hne
    obtain ⟨w, hw⟩ := h.grounded.arnodes.mem_sourcesOf_iff.mp hs
    obtain ⟨bs, b', hbs, hb', hnext⟩ := h.grounded.arnodes.live_of_edge hw
    obtain rfl : b = b' := Option.some.inj (hb.symm.trans hb')
    rw [hlayer hb, hnext, sumAt]
    refine inflow_congr h.grounded fun {s w} hw => ?_
    obtain ⟨bs', b', hbs', hb', hnext'⟩ := h.grounded.arnodes.live_of_edge hw
    obtain rfl : b = b' := Option.some.inj (hb.symm.trans hb')
    rw [hlayer hbs', Nat.succ_injective (hnext'.symm.trans hnext)]
  · rw [hlayer hb, passAt_eq]
  · have horigin := originOf_of_head? hb hm hc
    have hmember : m ∈ b.data.members := List.mem_of_mem_head? (by rw [hm]; rfl)
    have hclayer : c.origin.layer = b.location.layer := by rw [← horigin, hlayer hb]
    have hadmits := hbounds hlimits
    rw [hclayer] at hadmits
    rw [hlayer hb]
    cases hl : b.location.layer with
    | zero =>
      rw [hl] at hadmits
      rw [sumAt, horigin]
      exact hadmits
    | succ l =>
      -- The arnode stands for the output of the property, and raising it raises the output.
      obtain ⟨hr, rfl⟩ := hlimits.eq_output (by omega)
      have hlast : c.place.layer + 1 = net.depth := by
        rw [← haligned hc, hr]
        exact Nat.sub_add_cancel (Nat.succ_pos _)
      obtain ⟨_, hcategory⟩ := h.grounded.owned.place_of_mem hb hmember hc
      have hside := h.inflow_bounds hpolicy hinputs hsided (h.beyond hpolicy hinputs hsided l) hb hl hmember hc
      rw [← hcategory, h.raising hc hlast, hpolicy, hgoal] at hside
      rw [hl] at hadmits
      exact Policy.admits_of_bounds hside hadmits

end Step

end Finished

end Abstraction

/-- Admissible inputs are not negative, if no range goes below zero. -/
theorem Feedforward.valueAt_zero_nonneg {net : Feedforward Rat} {inputs : List Rat} (h : net.Admits inputs)
    (hfloor : net.floor = 1) (i : Nat) : 0 ≤ net.valueAt inputs 0 i := by
  have hranges : ∀ range ∈ net.inputs, 0 ≤ range.low := by
    intro range hrange
    by_contra hneg
    have hsigned : (net.inputs.any fun range => range.low < 0) = true :=
      List.any_eq_true.mpr ⟨range, hrange, decide_eq_true (not_le.mp hneg)⟩
    rw [floor, if_pos hsigned] at hfloor
    cases hfloor
  rw [valueAt]
  cases hi : inputs[i]? with
  | none => exact le_refl 0
  | some x =>
    obtain ⟨hlt, rfl⟩ := List.getElem?_eq_some_iff.mp hi
    have hlt' : i < net.inputs.length := h.length_eq ▸ hlt
    have hlow := ((List.forall₂_iff_get.mp h).2 i hlt' hlt).1
    exact (hranges _ (List.getElem_mem hlt')).trans hlow

namespace Network

variable {net : Feedforward Rat} {property : Property Rat} {options : Options} {start n : Network Rat}

/-- Inputs that reach the region can be continued to a solution of the query. -/
theorem Posed.exists_feeding {q : Query Rat} {a : Abstraction Rat} (h : Posed net property n q a) (hnet : net.Shaped)
    (hlayers : net.layers ≠ []) (houtput : property.output < net.width net.layers.length) {bias : Reduction}
    (hpolicy : a.policy = (Policy.forGoal property.goal).withBias bias) (hsided : a.Sided net) {inputs : List Rat}
    (hadmits : net.Admits inputs) (hattains : net.Attains property inputs) :
    ∃ values, q.isSatisfiedBy values .exact = true ∧ a.Feeds values inputs := by
  have hlength : inputs.length = net.inputs.length := hadmits.length_eq.symm
  have hf := h.finished.represents.faithful
  have haligned : a.Aligned := fun _ _ hx => hf.origin_layer hx
  have hbounds := (Feedforward.admits_and_attains_iff hnet hlayers houtput hlength).mp ⟨hadmits, hattains⟩
  obtain ⟨values, hvalues, hvalue⟩ := h.exists_solution (h.finished.settles_pass hpolicy
    (Feedforward.valueAt_zero_nonneg hadmits) hsided rfl hbounds)
  refine ⟨values, hvalues, ?_⟩
  intro x b m c hb hl hm hc
  obtain ⟨hlayer, _⟩ := h.finished.grounded.owned.place_of_mem hb hm hc
  have hlt : c.origin.index < inputs.length := by
    rw [hlength]
    have hindex := hf.index_lt hc
    rw [hlayer, hl] at hindex
    exact hindex
  have hpass : Abstraction.sumAt net a inputs 0 x = net.valueAt inputs 0 (a.neuronOf m) :=
    h.finished.passAt_zero hb hl hm
  rw [hvalue hb, Abstraction.originOf_layer h.finished.grounded haligned hb, hl, hpass, Abstraction.neuronOf_of_info? hc,
    Feedforward.valueAt, List.getElem?_eq_getElem hlt, Option.getD_some]

/-- The abstract query of a complete abstraction is sound, whatever was merged and split: if the biases of the arnodes
between the boundary layers are on the side of the biases of their nodes, then all admissible inputs that reach the region
can be continued to a solution that gives them to the input layer. So if the query has no solution, no admissible inputs
reach the region. Biases of zero are on the side of each other, however they are reduced. -/
theorem abstractQuery_sound (hvalid : net.validate = .ok ()) (hoptions : options.policy = none)
    (hbuild : build net property options = .ok start) (hreach : ReachesInOrder start n)
    (hcomplete : n.frontier.isComplete = true) :
    ∃ q n', abstractQuery n = .ok q n' ∧
      (n.abstraction.Sided net → (∀ inputs, net.Admits inputs → net.Attains property inputs →
          ∃ values, q.isSatisfiedBy values .exact = true ∧ n.abstraction.Feeds values inputs) ∧
        ((∀ values, q.isSatisfiedBy values .exact = false) → ∀ inputs, net.Admits inputs → ¬net.Attains property inputs)) ∧
      ((∀ l, net.isHidden l = true → ∀ j < net.width l, net.bias l j = 0) → n.abstraction.Sided net) := by
  obtain ⟨q, n', hok, hposed, horderly', _⟩ := (hreach.abstractQuery_posed hbuild hcomplete).exists_ok
  obtain ⟨hdepth, houtput, _⟩ := build_eq_ok hbuild
  have hpolicy' := horderly'.policy_eq hbuild
  have hsame : n'.abstraction.policy = n.abstraction.policy := by rw [hpolicy', (hreach.orderly hbuild).policy_eq hbuild]
  have hgoal : n'.abstraction.policy = (Policy.forGoal property.goal).withBias options.biasReduction := by
    rw [hpolicy', Options.policyFor, hoptions, Option.getD_none]
  have hsides : n'.abstraction.Sided net ↔ n.abstraction.Sided net := hposed.recast.sided_iff hsame
  refine ⟨q, n', hok, fun hsided => ?_, fun hzero => hsides.mp (hposed.finished.sided_of_zero hzero)⟩
  have hsound : ∀ inputs, net.Admits inputs → net.Attains property inputs →
      ∃ values, q.isSatisfiedBy values .exact = true ∧ n.abstraction.Feeds values inputs := by
    intro inputs hadmits hattains
    simp only [← hposed.recast.feeds_iff]
    exact hposed.exists_feeding (Feedforward.shaped_of_validate hvalid) (Feedforward.layers_ne_nil hdepth) houtput hgoal
      (hsides.mpr hsided) hadmits hattains
  refine ⟨hsound, fun hunsat inputs hadmits hattains => ?_⟩
  obtain ⟨values, hvalues, _⟩ := hsound inputs hadmits hattains
  rw [hunsat values] at hvalues
  cases hvalues

/-- In the forked network with two arnodes merged, the biases are on the right side, and the inputs one and one can be
continued to a solution. -/
theorem abstractQuery_sound_fork : ∃ start n, build .fork ⟨.maximize, 0, 1⟩ .standard = .ok start ∧
    ReachesInOrder start n ∧ n.frontier.isComplete = true ∧ ¬n.abstraction.Single ∧
    ∃ q n' values, abstractQuery n = .ok q n' ∧ q.isSatisfiedBy values .exact = true ∧ n.abstraction.Feeds values [1, 1] := by
  have hadmits : Feedforward.fork.Admits [1, 1] := by simp [Feedforward.Admits, Feedforward.fork]
  have hattains : Feedforward.fork.Attains ⟨.maximize, 0, 1⟩ [1, 1] := ⟨[4, 4], by decide +kernel, by decide +kernel⟩
  obtain ⟨start, n₀, hbuild, _, hreach₀, hmeets⟩ := exists_completed .fork ⟨.maximize, 0, 1⟩ .standard
    (P := fun _ n₀ => (merge 1 ⟨2, 0⟩ ⟨4, 0⟩).Meets n₀ (fun id n => n.frontier.isComplete = true ∧
      (∃ v ∈ n.abstraction.arnodes.get? id, v.data.members.length = 2) ∧
      (n.abstraction.arnodes.toList.all fun v => v.2.data.members.all fun m =>
        decide ((n.abstraction.policy.incoming v.2.location.category).Bounds (n.abstraction.biasOf m) v.2.data.bias)) = true)
      Step.Never) (by decide +kernel)
  obtain ⟨id, n, hmerge, hfinished, ⟨v, hv, hlength⟩, hall⟩ := hmeets.exists_ok
  have hreach := hreach₀.merge hmerge
  have hnot : ¬n.abstraction.Single := by
    intro hsingle
    have hone := hsingle (Graph.body?_of_get? hv)
    rw [Vertex.body_data, hlength] at hone
    cases hone
  obtain ⟨q, n', hok, hsound, _⟩ := abstractQuery_sound (by decide +kernel) rfl hbuild hreach hfinished
  obtain ⟨values, hvalues, hfeeds⟩ := (hsound (Abstraction.sided_of_all hall)).1 [1, 1] hadmits hattains
  exact ⟨start, n, hbuild, hreach, hfinished, hnot, q, n', values, hok, hvalues, hfeeds⟩

end Network

end ReluAbstraction
