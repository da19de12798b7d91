import Mathlib.Tactic
import ReluAbstraction.Proofs.Tableaux

/-!
# Answers of the simplex

Along a run of the simplex the rows keep their solutions, the values solve the rows, and the variables that are not basic
stay within their bounds. So a run that ends without a violated bound has found a point. Where a basic variable cannot be
repaired, its row shows that no point lies within the bounds: every other variable of the row already stands where it
brings the basic one as near to its bound as it can get.
-/

namespace ReluAbstraction

/-- The number lies between the bounds, or misses them by at most `slack`. -/
def Between (slack : Rat) (lower upper : Option Rat) (x : Rat) : Prop :=
  (∀ l ∈ lower, l - slack ≤ x) ∧ ∀ u ∈ upper, x ≤ u + slack

/-- Value of the expression of a constraint. -/
def LinearRow.value {n : Nat} (r : LinearRow Rat n) (x : Fin n → Rat) : Rat :=
  (r.coefficients.map fun term => term.2 * x term.1).sum

/-- The point keeps all bounds and limits of the program, or misses them by at most `slack`. -/
structure LinearProgram.MetBy {n : Nat} (p : LinearProgram Rat n) (slack : Rat) (x : Fin n → Rat) : Prop where
  bounds : ∀ i, Between slack (p.lower.get i) (p.upper.get i) (x i)
  rows : ∀ r ∈ p.rows, Between slack r.lower r.upper (r.value x)

namespace Tableau

variable {n m : Nat} {t t₀ t' : Tableau Rat n m} {tolerance : Tolerance Rat} {row : Fin m} {entering j : Fin n}
  {target : Rat} {below : Bool}

/-- Variable `j` may have the value `x`. -/
def Admits (t : Tableau Rat n m) (slack : Rat) (j : Fin n) (x : Rat) : Prop :=
  Between slack (t.lower.get j) (t.upper.get j) x

section Choices

/-- The way a variable has to go that lies below its lower bound, or else above its upper bound. -/
def heading (below : Bool) : Rat := if below then 1 else -1

theorem heading_true : heading true = 1 := rfl

theorem heading_false : heading false = -1 := rfl

/-- A variable keeps its bounds, or lies below the lower one, or else above the upper one. -/
theorem violation?_cases (t : Tableau Rat n m) (tolerance : Tolerance Rat) (j : Fin n) :
    (t.violation? tolerance j = none ∧ t.Admits tolerance.bound j (t.values.get j)) ∨
      (∃ l, t.violation? tolerance j = some (l, true) ∧ t.lower.get j = some l ∧
        t.values.get j < l - tolerance.bound) ∨
      ∃ u, t.violation? tolerance j = some (u, false) ∧ t.upper.get j = some u ∧
        u + tolerance.bound < t.values.get j := by
  by_cases hbelow : ∃ l, t.lower.get j = some l ∧ t.values.get j < l - tolerance.bound
  · obtain ⟨l, hl, hlt⟩ := hbelow
    exact .inr (.inl ⟨l, by simp only [violation?, hl, if_pos hlt], hl, hlt⟩)
  · have hlower : ∀ l, t.lower.get j = some l → ¬t.values.get j < l - tolerance.bound :=
      fun l hl hlt => hbelow ⟨l, hl, hlt⟩
    have hadmits : ∀ l ∈ t.lower.get j, l - tolerance.bound ≤ t.values.get j := fun l hl => not_lt.mp (hlower l hl)
    by_cases habove : ∃ u, t.upper.get j = some u ∧ u + tolerance.bound < t.values.get j
    · obtain ⟨u, hu, hlt⟩ := habove
      refine .inr (.inr ⟨u, ?_, hu, hlt⟩)
      cases hl : t.lower.get j with
      | none => simp only [violation?, hl, hu, if_pos hlt]
      | some l => simp only [violation?, hl, hu, if_neg (hlower l hl), if_pos hlt]
    · have hupper : ∀ u, t.upper.get j = some u → ¬u + tolerance.bound < t.values.get j :=
        fun u hu hlt => habove ⟨u, hu, hlt⟩
      refine .inl ⟨?_, hadmits, fun u hu => not_lt.mp (hupper u hu)⟩
      cases hl : t.lower.get j with
      | none =>
        cases hu : t.upper.get j with
        | none => simp only [violation?, hl, hu]
        | some u => simp only [violation?, hl, hu, if_neg (hupper u hu)]
      | some l =>
        cases hu : t.upper.get j with
        | none => simp only [violation?, hl, hu, if_neg (hlower l hl)]
        | some u => simp only [violation?, hl, hu, if_neg (hlower l hl), if_neg (hupper u hu)]

theorem violation?_eq_none_iff :
    t.violation? tolerance j = none ↔ t.Admits tolerance.bound j (t.values.get j) := by
  rcases t.violation?_cases tolerance j with ⟨hnone, hadmits⟩ | ⟨l, hsome, hl, hlt⟩ | ⟨u, hsome, hu, hlt⟩
  · exact iff_of_true hnone hadmits
  · exact iff_of_false (by simp [hsome]) fun hadmits => absurd hlt (not_lt.mpr (hadmits.1 l hl))
  · exact iff_of_false (by simp [hsome]) fun hadmits => absurd hlt (not_lt.mpr (hadmits.2 u hu))

/-- A violated variable is on the wrong side of its target, by more than the tolerance. -/
theorem lt_of_violation? (h : t.violation? tolerance j = some (target, below)) :
    tolerance.bound < heading below * (target - t.values.get j) := by
  rcases t.violation?_cases tolerance j with ⟨hnone, _⟩ | ⟨l, hsome, _, hlt⟩ | ⟨u, hsome, _, hlt⟩
  · rw [hnone] at h
    cases h
  · rw [hsome] at h
    cases h
    rw [heading_true]
    linarith
  · rw [hsome] at h
    cases h
    rw [heading_false]
    linarith

/-- Every admissible value is on the other side of the target. -/
theorem nonneg_of_violation? (h : t.violation? tolerance j = some (target, below)) {x : Rat} (hx : t.Admits 0 j x) :
    0 ≤ heading below * (x - target) := by
  rcases t.violation?_cases tolerance j with ⟨hnone, _⟩ | ⟨l, hsome, hl, _⟩ | ⟨u, hsome, hu, _⟩
  · rw [hnone] at h
    cases h
  · rw [hsome] at h
    cases h
    have hle := hx.1 target hl
    rw [heading_true]
    linarith
  · rw [hsome] at h
    cases h
    have hle := hx.2 target hu
    rw [heading_false]
    linarith

/-- The target is one of the two bounds of the variable. -/
theorem bound_of_violation? (h : t.violation? tolerance j = some (target, below)) :
    (below = true ∧ t.lower.get j = some target) ∨ (below = false ∧ t.upper.get j = some target) := by
  rcases t.violation?_cases tolerance j with ⟨hnone, _⟩ | ⟨l, hsome, hl, _⟩ | ⟨u, hsome, hu, _⟩
  · rw [hnone] at h
    cases h
  · rw [hsome] at h
    cases h
    exact .inl ⟨rfl, hl⟩
  · rw [hsome] at h
    cases h
    exact .inr ⟨rfl, hu⟩

/-- Among the rows `seen`, `best` is the one whose basic variable violates a bound and has the smallest index, if there is
any. -/
structure FirstViolated (t : Tableau Rat n m) (tolerance : Tolerance Rat) (seen : List (Fin m))
    (best : Option (Fin m × Rat × Bool)) : Prop where
  of_none : best = none → ∀ i ∈ seen, t.violation? tolerance (t.basic.get i) = none
  of_some : ∀ {row target below}, best = some (row, target, below) →
    t.violation? tolerance (t.basic.get row) = some (target, below) ∧
      ∀ i ∈ seen, t.violation? tolerance (t.basic.get i) ≠ none → t.basic.get row ≤ t.basic.get i

namespace FirstViolated

variable {seen : List (Fin m)} {best : Option (Fin m × Rat × Bool)} {row next : Fin m}

/-- A row that violates nothing is passed over. -/
theorem skip (h : t.FirstViolated tolerance seen best) (hnext : t.violation? tolerance (t.basic.get next) = none) :
    t.FirstViolated tolerance (seen ++ [next]) best where
  of_none hbest := List.forall_mem_append.mpr ⟨h.of_none hbest, List.forall_mem_singleton.mpr hnext⟩
  of_some hbest := by
    obtain ⟨hrow, hleast⟩ := h.of_some hbest
    exact ⟨hrow, List.forall_mem_append.mpr ⟨hleast, List.forall_mem_singleton.mpr fun hne => absurd hnext hne⟩⟩

/-- A row whose variable comes before those found so far takes their place. -/
theorem take (hnext : t.violation? tolerance (t.basic.get next) = some (target, below))
    (hleast : ∀ i ∈ seen, t.violation? tolerance (t.basic.get i) ≠ none → t.basic.get next ≤ t.basic.get i) :
    t.FirstViolated tolerance (seen ++ [next]) (some (next, target, below)) where
  of_none hbest := by cases hbest
  of_some hbest := by
    cases hbest
    exact ⟨hnext, List.forall_mem_append.mpr ⟨hleast, List.forall_mem_singleton.mpr fun _ => le_rfl⟩⟩

/-- A row whose variable comes later does not. -/
theorem keep (h : t.FirstViolated tolerance seen (some (row, target, below))) (hle : t.basic.get row ≤ t.basic.get next) :
    t.FirstViolated tolerance (seen ++ [next]) (some (row, target, below)) where
  of_none hbest := by cases hbest
  of_some hbest := by
    obtain ⟨hrow, hleast⟩ := h.of_some hbest
    cases hbest
    exact ⟨hrow, List.forall_mem_append.mpr ⟨hleast, List.forall_mem_singleton.mpr fun _ => hle⟩⟩

end FirstViolated

/-- No basic variable violates a bound, or the one of smallest index is found. -/
theorem firstViolated_violatedBasic? (t : Tableau Rat n m) (tolerance : Tolerance Rat) :
    t.FirstViolated tolerance (List.finRange m) (t.violatedBasic? tolerance) := by
  unfold violatedBasic?
  generalize List.finRange m = rows
  induction rows using List.reverseRecOn with
  | nil => exact ⟨fun _ i hi => absurd hi List.not_mem_nil, fun h => by cases h⟩
  | append_singleton seen next ih =>
    rw [List.foldl_append, List.foldl_cons, List.foldl_nil]
    revert ih
    generalize seen.foldl _ none = best
    intro ih
    cases hnext : t.violation? tolerance (t.basic.get next) with
    | none => exact ih.skip hnext
    | some found =>
      obtain ⟨target, below⟩ := found
      cases best with
      | none => exact .take hnext fun i hi hne => absurd (ih.of_none rfl i hi) hne
      | some other =>
        obtain ⟨row, rest⟩ := other
        dsimp only
        split
        · next hlt => exact .take hnext fun i hi hne => hlt.le.trans ((ih.of_some rfl).2 i hi hne)
        · next hle => exact ih.keep (not_lt.mp hle)

theorem canRise_iff : t.canRise tolerance j = true ↔ ∀ u ∈ t.upper.get j, t.values.get j < u - tolerance.bound := by
  unfold canRise
  cases t.upper.get j with
  | none => exact iff_of_true rfl fun u hu => by cases hu
  | some u =>
    rw [decide_eq_true_iff]
    exact ⟨fun h u' hu' => Option.some.inj hu' ▸ h, fun h => h u rfl⟩

theorem canFall_iff : t.canFall tolerance j = true ↔ ∀ l ∈ t.lower.get j, l + tolerance.bound < t.values.get j := by
  unfold canFall
  cases t.lower.get j with
  | none => exact iff_of_true rfl fun l hl => by cases hl
  | some l =>
    rw [decide_eq_true_iff]
    exact ⟨fun h l' hl' => Option.some.inj hl' ▸ h, fun h => h l rfl⟩

/-- A variable that is not basic can repair another one if it has room on the side to which it has to go. -/
theorem eligible_iff (hpivot : tolerance.pivot = 0) : t.eligible tolerance row below j = true ↔ ¬t.IsBasic j ∧
    ((0 < heading below * t.coefficient row j ∧ t.canRise tolerance j = true) ∨
      (heading below * t.coefficient row j < 0 ∧ t.canFall tolerance j = true)) := by
  have hzero : Scalar.magnitude ((t.rows.get row).get j) ≤ tolerance.pivot ↔ t.coefficient row j = 0 := by
    rw [Scalar.magnitude_exact, hpivot]
    exact abs_nonpos_iff
  unfold eligible
  by_cases hbasic : t.IsBasic j
  · rw [if_pos (.inr (contains_basic_iff.mpr hbasic))]
    simp [hbasic]
  · have hnot : ¬t.basic.contains j = true := fun h => hbasic (contains_basic_iff.mp h)
    by_cases ha : t.coefficient row j = 0
    · rw [if_pos (.inl (hzero.mpr ha)), ha, mul_zero]
      simp
    · rw [if_neg (not_or.mpr ⟨fun h => ha (hzero.mp h), hnot⟩)]
      cases below with
      | true =>
        rw [heading_true, one_mul, if_pos rfl]
        simp only [Bool.or_eq_true, Bool.and_eq_true, decide_eq_true_eq, hbasic, not_false_eq_true, true_and]
        rfl
      | false =>
        rw [heading_false, if_neg Bool.false_ne_true, neg_one_mul, neg_pos, neg_lt_zero]
        simp only [Bool.or_eq_true, Bool.and_eq_true, decide_eq_true_eq, hbasic, not_false_eq_true, true_and]
        rw [or_comm]
        rfl

/-- The choice is the eligible variable of smallest index. -/
theorem of_entering? (h : t.entering? tolerance row below = some entering) :
    t.eligible tolerance row below entering = true ∧ ∀ j < entering, t.eligible tolerance row below j = false := by
  obtain ⟨heligible, i, hi, heq, hbefore⟩ := List.find?_eq_some_iff_getElem.mp h
  refine ⟨heligible, fun j hj => ?_⟩
  rw [List.getElem_finRange] at heq
  have hlt : j.val < i := by
    rw [← heq] at hj
    exact hj
  simpa using hbefore j.val hlt

theorem not_eligible_of_entering? (h : t.entering? tolerance row below = none) (j : Fin n) :
    t.eligible tolerance row below j = false := by
  simpa using List.find?_eq_none.mp h j (List.mem_finRange j)

/-- A variable that is not eligible stands, among all its admissible values, where it helps most. -/
theorem nonpos_of_not_eligible (hpivot : tolerance.pivot = 0) (hbound : tolerance.bound = 0) (hj : ¬t.IsBasic j)
    (hnot : t.eligible tolerance row below j = false) {x : Rat} (hx : t.Admits 0 j x) :
    heading below * t.coefficient row j * (x - t.values.get j) ≤ 0 := by
  have hstuck : ¬((0 < heading below * t.coefficient row j ∧ t.canRise tolerance j = true) ∨
      (heading below * t.coefficient row j < 0 ∧ t.canFall tolerance j = true)) := by
    intro h
    rw [(eligible_iff hpivot).mpr ⟨hj, h⟩] at hnot
    cases hnot
  rw [not_or, not_and, not_and, canRise_iff, canFall_iff, hbound] at hstuck
  push Not at hstuck
  rcases lt_trichotomy (heading below * t.coefficient row j) 0 with hneg | hzero | hpos
  · obtain ⟨l, hl, hle⟩ := hstuck.2 hneg
    have hxl := hx.1 l hl
    exact mul_nonpos_of_nonpos_of_nonneg hneg.le (by linarith)
  · rw [hzero, zero_mul]
  · obtain ⟨u, hu, hle⟩ := hstuck.1 hpos
    have hxu := hx.2 u hu
    exact mul_nonpos_of_nonneg_of_nonpos hpos.le (by linarith)

end Choices

section Runs

/-- The exchange made in `t`: the violated basic variable of smallest index leaves, the eligible variable of smallest index
enters. -/
structure Exchange (tolerance : Tolerance Rat) (t t' : Tableau Rat n m) (row : Fin m) (entering : Fin n) (target : Rat)
    (below : Bool) : Prop where
  violated : t.violation? tolerance (t.basic.get row) = some (target, below)
  first : ∀ i, t.violation? tolerance (t.basic.get i) ≠ none → t.basic.get row ≤ t.basic.get i
  eligible : t.eligible tolerance row below entering = true
  least : ∀ j < entering, t.eligible tolerance row below j = false
  result : t' = t.pivot tolerance row entering target

/-- What one step comes to, and why. -/
theorem step_cases (t : Tableau Rat n m) (tolerance : Tolerance Rat) :
    (t.step tolerance = .feasible ∧ ∀ i, t.violation? tolerance (t.basic.get i) = none) ∨
      (t.step tolerance = .infeasible ∧ ∃ row target below,
        t.violation? tolerance (t.basic.get row) = some (target, below) ∧
        ∀ j, t.eligible tolerance row below j = false) ∨
      ∃ t' row entering target below, t.step tolerance = .pivoted t' ∧ Exchange tolerance t t' row entering target below := by
  have hviolation := t.firstViolated_violatedBasic? tolerance
  unfold step
  cases hviolated : t.violatedBasic? tolerance with
  | none => exact .inl ⟨rfl, fun i => hviolation.of_none hviolated i (List.mem_finRange i)⟩
  | some found =>
    obtain ⟨row, target, below⟩ := found
    obtain ⟨hrow, hfirst⟩ := hviolation.of_some hviolated
    dsimp only
    cases hentering : t.entering? tolerance row below with
    | none => exact .inr (.inl ⟨rfl, row, target, below, hrow, not_eligible_of_entering? hentering⟩)
    | some entering =>
      obtain ⟨heligible, hleast⟩ := of_entering? hentering
      exact .inr (.inr ⟨_, row, entering, target, below, rfl, hrow, fun i => hfirst i (List.mem_finRange i), heligible,
        hleast, rfl⟩)

/-- One exchange leads from a tableau to the next. -/
def Pivots (tolerance : Tolerance Rat) (t t' : Tableau Rat n m) : Prop := t.step tolerance = .pivoted t'

theorem Pivots.exchange (h : Pivots tolerance t t') :
    ∃ row entering target below, Exchange tolerance t t' row entering target below := by
  rcases t.step_cases tolerance with ⟨hstep, _⟩ | ⟨hstep, _⟩ | ⟨t'', row, entering, target, below, hstep, hexchange⟩
  · cases h.symm.trans hstep
  · cases h.symm.trans hstep
  · cases h.symm.trans hstep
    exact ⟨row, entering, target, below, hexchange⟩

theorem Exchange.not_isBasic (h : Exchange tolerance t t' row entering target below) (hpivot : tolerance.pivot = 0) :
    ¬t.IsBasic entering := ((eligible_iff hpivot).mp h.eligible).1

theorem Exchange.coefficient_ne (h : Exchange tolerance t t' row entering target below) (hpivot : tolerance.pivot = 0) :
    t.coefficient row entering ≠ 0 := by
  intro hzero
  have hroom := ((eligible_iff hpivot).mp h.eligible).2
  simp [hzero] at hroom

/-- A run that gives an answer ends in a tableau without violated variables, or in one with a variable that cannot be
repaired. -/
theorem exists_of_run {limit : Nat} {answer : Option (Tableau Rat n m)} (h : run tolerance limit t = some answer) :
    ∃ t', Relation.ReflTransGen (Pivots tolerance) t t' ∧
      ((answer = some t' ∧ t'.step tolerance = .feasible) ∨ (answer = none ∧ t'.step tolerance = .infeasible)) := by
  induction limit generalizing t with
  | zero => cases h
  | succ limit ih =>
    rw [run] at h
    cases hstep : t.step tolerance with
    | feasible =>
      rw [hstep] at h
      exact ⟨t, .refl, .inl ⟨(Option.some.inj h).symm, hstep⟩⟩
    | infeasible =>
      rw [hstep] at h
      exact ⟨t, .refl, .inr ⟨(Option.some.inj h).symm, hstep⟩⟩
    | pivoted next =>
      rw [hstep] at h
      obtain ⟨t', hreach, hend⟩ := ih h
      exact ⟨t', .head hstep hreach, hend⟩

/-- Every variable has room between its bounds. -/
def Roomy (t : Tableau Rat n m) (slack : Rat) : Prop :=
  ∀ j, ∀ l ∈ t.lower.get j, ∀ u ∈ t.upper.get j, l ≤ u + slack

theorem roomy_of_not_crossed (h : t.crossed tolerance = false) : t.Roomy tolerance.bound := by
  intro j l hl u hu
  have hj := List.any_eq_false.mp h j (List.mem_finRange j)
  simp only [Option.mem_def.mp hl, Option.mem_def.mp hu, decide_eq_true_eq] at hj
  exact not_lt.mp hj

theorem exists_of_crossed (h : t.crossed tolerance = true) :
    ∃ j l u, t.lower.get j = some l ∧ t.upper.get j = some u ∧ u + tolerance.bound < l := by
  obtain ⟨j, _, hj⟩ := List.any_eq_true.mp h
  cases hl : t.lower.get j with
  | none =>
    rw [hl] at hj
    cases hj
  | some l =>
    cases hu : t.upper.get j with
    | none =>
      rw [hl, hu] at hj
      cases hj
    | some u =>
      rw [hl, hu] at hj
      exact ⟨j, l, u, hl, hu, of_decide_eq_true hj⟩

/-- A variable may stand at a bound that it has violated. -/
theorem Roomy.admits_target (h : t.Roomy tolerance.bound) (hbound : 0 ≤ tolerance.bound)
    (hviolated : t.violation? tolerance j = some (target, below)) : t.Admits tolerance.bound j target := by
  rcases bound_of_violation? hviolated with ⟨_, hl⟩ | ⟨_, hu⟩
  · refine ⟨fun l hl' => ?_, h j target hl⟩
    rw [hl] at hl'
    cases hl'
    linarith
  · refine ⟨fun l hl => ?_, fun u hu' => ?_⟩
    · have hle := h j l hl target hu
      linarith
    · rw [hu] at hu'
      cases hu'
      linarith

/-- What holds of `t` along a run from `t₀`: the bounds and the solutions of the rows are those of `t₀`, and the variables
that are not basic keep their bounds. -/
structure Descends (slack : Rat) (t₀ t : Tableau Rat n m) : Prop where
  sound : t.Sound
  lower_eq : t.lower = t₀.lower
  upper_eq : t.upper = t₀.upper
  solvedBy_iff : ∀ x, t.SolvedBy x ↔ t₀.SolvedBy x
  within : ∀ {j}, ¬t.IsBasic j → t.Admits slack j (t.values.get j)

theorem Descends.admits_iff {slack slack' x : Rat} (h : Descends slack t₀ t) : t.Admits slack' j x ↔ t₀.Admits slack' j x := by
  rw [Admits, Admits, h.lower_eq, h.upper_eq]

/-- An exchange keeps what holds along a run. -/
theorem Descends.exchange (h : Descends tolerance.bound t₀ t) (hpivot : tolerance.pivot = 0) (hbound : 0 ≤ tolerance.bound)
    (hroomy : t₀.Roomy tolerance.bound) (hexchange : Exchange tolerance t t' row entering target below) :
    Descends tolerance.bound t₀ t' := by
  have he := hexchange.not_isBasic hpivot
  have ha := hexchange.coefficient_ne hpivot
  have hroomy' : t.Roomy tolerance.bound := by rwa [Roomy, h.lower_eq, h.upper_eq]
  obtain rfl := hexchange.result
  refine ⟨h.sound.pivot hpivot he ha, h.lower_eq, h.upper_eq, fun x => ?_, fun {j} hj => ?_⟩
  · rw [h.sound.solvedBy_pivot_iff hpivot he ha, h.solvedBy_iff]
  · rw [isBasic_pivot_iff h.sound.injective, not_or, not_and_not_right] at hj
    by_cases hbasic : t.IsBasic j
    · rw [hj.2 hbasic, values_pivot_leaving]
      exact hroomy'.admits_target hbound hexchange.violated
    · rw [h.sound.values_pivot_of_not_basic hbasic, if_neg hj.1, add_zero]
      exact h.within hbasic

/-- Exchanges keep what holds along a run. -/
theorem Descends.run (h : Descends tolerance.bound t₀ t) (hpivot : tolerance.pivot = 0) (hbound : 0 ≤ tolerance.bound)
    (hroomy : t₀.Roomy tolerance.bound) (hreach : Relation.ReflTransGen (Pivots tolerance) t t') :
    Descends tolerance.bound t₀ t' := by
  induction hreach with
  | refl => exact h
  | tail _ hstep ih =>
    obtain ⟨row, entering, target, below, hexchange⟩ := hstep.exchange
    exact ih.exchange hpivot hbound hroomy hexchange

/-- Where no variable is violated, the values keep all bounds. -/
theorem Descends.admits_of_feasible (h : Descends tolerance.bound t₀ t) (hstep : t.step tolerance = .feasible) (j : Fin n) :
    t₀.Admits tolerance.bound j (t.values.get j) := by
  rw [← h.admits_iff]
  rcases t.step_cases tolerance with ⟨_, hkept⟩ | ⟨hother, _⟩ | ⟨_, _, _, _, _, hother, _⟩
  · by_cases hj : t.IsBasic j
    · obtain ⟨i, rfl⟩ := hj
      exact violation?_eq_none_iff.mp (hkept i)
    · exact h.within hj
  · cases hstep.symm.trans hother
  · cases hstep.symm.trans hother

/-- Where a variable cannot be repaired, no solution of the rows keeps all bounds: in the row of the variable, every other
one already stands where it helps most. -/
theorem Descends.not_admits_of_infeasible (h : Descends tolerance.bound t₀ t) (hpivot : tolerance.pivot = 0)
    (hbound : tolerance.bound = 0) (hstep : t.step tolerance = .infeasible) {x : Fin n → Rat} (hx : t₀.SolvedBy x) :
    ¬∀ j, t₀.Admits 0 j (x j) := by
  intro hadmits
  rcases t.step_cases tolerance with ⟨hother, _⟩ | ⟨_, row, target, below, hviolated, hstuck⟩ | ⟨_, _, _, _, _, hother, _⟩
  · cases hstep.symm.trans hother
  · have hsum : heading below * (x (t.basic.get row) - t.values.get (t.basic.get row)) =
        ∑ j, heading below * t.coefficient row j * (x j - t.values.get j) := by
      rw [(h.solvedBy_iff x).mpr hx row, h.sound.solved row, ← Finset.sum_sub_distrib, Finset.mul_sum]
      exact Finset.sum_congr rfl fun j _ => by ring
    have hle : ∑ j, heading below * t.coefficient row j * (x j - t.values.get j) ≤ 0 := by
      refine Finset.sum_nonpos fun j _ => ?_
      by_cases hj : t.IsBasic j
      · obtain ⟨k, rfl⟩ := hj
        rw [h.sound.cleared row k, mul_zero, zero_mul]
      · exact nonpos_of_not_eligible hpivot hbound hj (hstuck j) (h.admits_iff.mpr (hadmits j))
    have hfar := lt_of_violation? hviolated
    have hnear := nonneg_of_violation? hviolated (h.admits_iff.mpr (hadmits _))
    rw [hbound] at hfar
    linarith
  · cases hstep.symm.trans hother

end Runs

section Start

/-- The number nearest to zero within bounds that leave room. -/
theorem between_start {slack : Rat} (hslack : 0 ≤ slack) {lower upper : Option Rat}
    (hroom : ∀ l ∈ lower, ∀ u ∈ upper, l ≤ u + slack) : Between slack lower upper (start lower upper) := by
  cases lower with
  | none =>
    cases upper with
    | none => exact ⟨fun l hl => (by cases hl), fun u hu => (by cases hu)⟩
    | some u =>
      have hstart : start none (some u) = min 0 u := Scalar.smaller_exact 0 u
      refine ⟨fun l hl => (by cases hl), fun u' hu => ?_⟩
      cases hu
      rw [hstart]
      linarith [min_le_right 0 u]
  | some l =>
    have hraised : Scalar.larger 0 l = max 0 l := Scalar.larger_exact 0 l
    cases upper with
    | none =>
      have hstart : start (some l) none = max 0 l := hraised
      refine ⟨fun l' hl => ?_, fun u hu => (by cases hu)⟩
      cases hl
      rw [hstart]
      linarith [le_max_right 0 l]
    | some u =>
      have hstart : start (some l) (some u) = min (max 0 l) u := by
        rw [← hraised]
        exact Scalar.smaller_exact _ u
      rw [hstart]
      refine ⟨fun l' hl => ?_, fun u' hu => ?_⟩
      · cases hl
        have hle := hroom l rfl u rfl
        exact le_min (by linarith [le_max_right 0 l]) (by linarith)
      · cases hu
        linarith [min_le_right (max 0 l) u]

theorem dense_append {columns slack : Nat} (terms : List (Fin columns × Rat)) (term : Fin columns × Rat) :
    dense columns slack (terms ++ [term]) = assign (dense columns slack terms) (term.1.castAdd slack)
      ((dense columns slack terms).get (term.1.castAdd slack) + term.2) := by
  rw [dense, List.foldl_append]
  rfl

theorem dense_natAdd {columns slack : Nat} (terms : List (Fin columns × Rat)) (k : Fin slack) :
    (dense columns slack terms).get (k.natAdd columns) = 0 := by
  induction terms using List.reverseRecOn with
  | nil => exact Vector.getElem_replicate _
  | append_singleton terms term ih =>
    have hne : k.natAdd columns ≠ term.1.castAdd slack := by
      intro heq
      have hval := congrArg Fin.val heq
      simp only [Fin.val_natAdd, Fin.val_castAdd] at hval
      omega
    rw [dense_append, get_assign, if_neg hne, ih]

/-- The terms of one variable add up. -/
theorem sum_dense {columns slack : Nat} (terms : List (Fin columns × Rat)) (x : Fin (columns + slack) → Rat) :
    ∑ j, (dense columns slack terms).get j * x j = (terms.map fun term => term.2 * x (term.1.castAdd slack)).sum := by
  induction terms using List.reverseRecOn with
  | nil =>
    refine Finset.sum_eq_zero fun j _ => ?_
    rw [show (dense columns slack ([] : List (Fin columns × Rat))).get j = 0 from Vector.getElem_replicate _, zero_mul]
  | append_singleton terms term ih =>
    have hterm : ∀ j, (dense columns slack (terms ++ [term])).get j * x j = (dense columns slack terms).get j * x j +
        if j = term.1.castAdd slack then term.2 * x j else 0 := by
      intro j
      rw [dense_append, get_assign]
      split
      · next heq =>
        rw [heq]
        exact add_mul _ _ _
      · rw [add_zero]
    rw [Finset.sum_congr rfl fun j _ => hterm j, Finset.sum_add_distrib, ih, Finset.sum_ite_eq' Finset.univ,
      if_pos (Finset.mem_univ _), List.map_append, List.sum_append, List.map_singleton, List.sum_singleton]

variable {p : LinearProgram Rat n}

theorem lower_castAdd (i : Fin n) : (ofProgram p).lower.get (i.castAdd p.rows.length) = p.lower.get i := by
  rw [get_eq_getElem, ofProgram, Vector.getElem_append, dif_pos (Fin.castAdd_lt p.rows.length i)]
  rfl

theorem lower_natAdd (i : Fin p.rows.length) : (ofProgram p).lower.get (i.natAdd n) = (p.rows.get i).lower := by
  rw [get_eq_getElem, ofProgram, Vector.getElem_append, dif_neg (by simp)]
  simp

theorem upper_castAdd (i : Fin n) : (ofProgram p).upper.get (i.castAdd p.rows.length) = p.upper.get i := by
  rw [get_eq_getElem, ofProgram, Vector.getElem_append, dif_pos (Fin.castAdd_lt p.rows.length i)]
  rfl

theorem upper_natAdd (i : Fin p.rows.length) : (ofProgram p).upper.get (i.natAdd n) = (p.rows.get i).upper := by
  rw [get_eq_getElem, ofProgram, Vector.getElem_append, dif_neg (by simp)]
  simp

theorem basic_ofProgram (i : Fin p.rows.length) : (ofProgram p).basic.get i = i.natAdd n := get_ofFn ..

theorem coefficient_ofProgram (i : Fin p.rows.length) (j : Fin (n + p.rows.length)) :
    (ofProgram p).coefficient i j = (dense n p.rows.length (p.rows.get i).coefficients).get j := by
  rw [coefficient, ofProgram, get_ofFn]

theorem isBasic_ofProgram_natAdd (i : Fin p.rows.length) : (ofProgram p).IsBasic (i.natAdd n) := ⟨i, basic_ofProgram i⟩

theorem not_isBasic_ofProgram_castAdd (i : Fin n) : ¬(ofProgram p).IsBasic (i.castAdd p.rows.length) := by
  rintro ⟨k, hk⟩
  rw [basic_ofProgram] at hk
  have hval := congrArg Fin.val hk
  simp only [Fin.val_natAdd, Fin.val_castAdd] at hval
  omega

/-- The rows say that each slack variable is the value of its constraint. -/
theorem solvedBy_ofProgram_iff {x : Fin (n + p.rows.length) → Rat} : (ofProgram p).SolvedBy x ↔
    ∀ i, x (i.natAdd n) = (p.rows.get i).value fun j => x (j.castAdd p.rows.length) := by
  refine forall_congr' fun i => ?_
  rw [basic_ofProgram, Finset.sum_congr rfl fun j _ => congrArg (· * x j) (coefficient_ofProgram i j), sum_dense]
  rfl

theorem injective_basic_ofProgram : Function.Injective (ofProgram p).basic.get := by
  intro i k hik
  rw [basic_ofProgram, basic_ofProgram] at hik
  exact Fin.natAdd_injective p.rows.length n hik

/-- The slack variables take the values of their constraints, the others start as near to zero as they can. -/
theorem values_ofProgram (p : LinearProgram Rat n) :
    (∀ i : Fin n, (ofProgram p).values.get (i.castAdd p.rows.length) = start (p.lower.get i) (p.upper.get i)) ∧
      (ofProgram p).SolvedBy (ofProgram p).values.get := by
  let initial := Vector.zipWith start (ofProgram p).lower (ofProgram p).upper
  obtain ⟨hother, hself⟩ := get_foldl_assign (injective_basic_ofProgram (p := p))
    (fun i values => rowValue ((ofProgram p).rows.get i) values) (List.nodup_finRange p.rows.length) initial
  have hvalues : ∀ i : Fin n, (ofProgram p).values.get (i.castAdd p.rows.length) = initial.get (i.castAdd p.rows.length) :=
    fun i => hother _ fun k _ heq => not_isBasic_ofProgram_castAdd i ⟨k, heq⟩
  refine ⟨fun i => ?_, fun i => ?_⟩
  · rw [hvalues, get_zipWith, lower_castAdd, upper_castAdd]
  · obtain ⟨w, hw, heq⟩ := hself i (List.mem_finRange i)
    refine Eq.trans heq ?_
    rw [rowValue_exact]
    -- A slack variable does not occur in the rows, and the others are not assigned.
    refine Finset.sum_congr rfl fun j _ => ?_
    cases j using Fin.addCases with
    | left j =>
      rw [hvalues, hw _ fun k _ _ heq => not_isBasic_ofProgram_castAdd j ⟨k, heq⟩]
      rfl
    | right k =>
      have hzero : (ofProgram p).coefficient i (k.natAdd n) = 0 := by rw [coefficient_ofProgram, dense_natAdd]
      rw [show ((ofProgram p).rows.get i).get (k.natAdd n) = 0 from hzero, hzero, zero_mul, zero_mul]

theorem sound_ofProgram (p : LinearProgram Rat n) : (ofProgram p).Sound := by
  refine ⟨injective_basic_ofProgram, fun i k => ?_, (values_ofProgram p).2⟩
  rw [basic_ofProgram, coefficient_ofProgram, dense_natAdd]

/-- A run begins with what holds along it. -/
theorem descends_ofProgram {slack : Rat} (hslack : 0 ≤ slack) (hroomy : (ofProgram p).Roomy slack) :
    Descends slack (ofProgram p) (ofProgram p) := by
  refine ⟨sound_ofProgram p, rfl, rfl, fun _ => .rfl, fun {j} hj => ?_⟩
  cases j using Fin.addCases with
  | left i =>
    rw [(values_ofProgram p).1, ← lower_castAdd, ← upper_castAdd]
    exact between_start hslack (hroomy _)
  | right k => exact absurd (isBasic_ofProgram_natAdd k) hj

/-- The program speaks about the variables that are not slack, the tableau about all. -/
theorem metBy_iff {slack : Rat} {x : Fin (n + p.rows.length) → Rat} (hx : (ofProgram p).SolvedBy x) :
    p.MetBy slack (fun i => x (i.castAdd p.rows.length)) ↔ ∀ j, (ofProgram p).Admits slack j (x j) := by
  rw [solvedBy_ofProgram_iff] at hx
  have hrow : ∀ i : Fin p.rows.length, (ofProgram p).Admits slack (i.natAdd n) (x (i.natAdd n)) ↔
      Between slack (p.rows.get i).lower (p.rows.get i).upper
        ((p.rows.get i).value fun j => x (j.castAdd p.rows.length)) := by
    intro i
    rw [Admits, lower_natAdd, upper_natAdd, hx i]
  have hbound : ∀ i : Fin n, (ofProgram p).Admits slack (i.castAdd p.rows.length) (x (i.castAdd p.rows.length)) ↔
      Between slack (p.lower.get i) (p.upper.get i) (x (i.castAdd p.rows.length)) := by
    intro i
    rw [Admits, lower_castAdd, upper_castAdd]
  constructor
  · intro h j
    cases j using Fin.addCases with
    | left i => exact (hbound i).mpr (h.bounds i)
    | right i => exact (hrow i).mpr (h.rows _ (List.get_mem p.rows i))
  · intro h
    refine ⟨fun i => (hbound i).mp (h _), fun r hr => ?_⟩
    obtain ⟨i, rfl⟩ := List.get_of_mem hr
    exact (hrow i).mp (h _)

/-- A point of the program solves the rows together with the values of the constraints. -/
theorem exists_solvedBy (p : LinearProgram Rat n) (x : Fin n → Rat) : ∃ y : Fin (n + p.rows.length) → Rat,
    (ofProgram p).SolvedBy y ∧ (fun i => y (i.castAdd p.rows.length)) = x := by
  let y : Fin (n + p.rows.length) → Rat := Fin.addCases x fun i => (p.rows.get i).value x
  have hleft : (fun i => y (i.castAdd p.rows.length)) = x := funext fun i => Fin.addCases_left i
  refine ⟨y, solvedBy_ofProgram_iff.mpr fun i => ?_, hleft⟩
  rw [hleft]
  exact Fin.addCases_right i

end Start

end Tableau

namespace LinearProgram

variable {n : Nat} {p : LinearProgram Rat n} {tolerance : Tolerance Rat} {limit : Nat}

open Tableau

/-- The answer of a tableau in which a run ends: the values it stands at, or none if a variable cannot be repaired. -/
def AnsweredBy (p : LinearProgram Rat n) (tolerance : Tolerance Rat) (t : Tableau Rat (n + p.rows.length) p.rows.length)
    (answer : Option (Vector Rat n)) : Prop :=
  (t.step tolerance = .feasible ∧ answer = some (Vector.ofFn fun i => t.values.get (i.castAdd p.rows.length))) ∨
    (t.step tolerance = .infeasible ∧ answer = none)

/-- How an answer comes about: bounds that cross, or the tableau in which a run ends. -/
theorem solveWithin_cases {answer : Option (Vector Rat n)} (h : p.solveWithin tolerance limit = .ok answer) :
    ((ofProgram p).crossed tolerance = true ∧ answer = none) ∨
      ((ofProgram p).crossed tolerance = false ∧ ∃ t, Relation.ReflTransGen (Pivots tolerance) (ofProgram p) t ∧
        p.AnsweredBy tolerance t answer) := by
  unfold solveWithin at h
  dsimp only at h
  split at h
  · next hcrossed => exact .inl ⟨hcrossed, (Except.ok.inj h).symm⟩
  · next hcrossed =>
    refine .inr ⟨Bool.eq_false_iff.mpr hcrossed, ?_⟩
    cases hrun : run tolerance limit (ofProgram p) with
    | none =>
      rw [hrun] at h
      cases h
    | some final =>
      obtain ⟨t, hreach, ⟨rfl, hstep⟩ | ⟨rfl, hstep⟩⟩ := exists_of_run hrun
      · rw [hrun] at h
        exact ⟨t, hreach, .inl ⟨hstep, (Except.ok.inj h).symm⟩⟩
      · rw [hrun] at h
        exact ⟨t, hreach, .inr ⟨hstep, (Except.ok.inj h).symm⟩⟩

/-- A point that is found keeps the bounds and limits. -/
theorem metBy_of_solveWithin (hpivot : tolerance.pivot = 0) (hbound : 0 ≤ tolerance.bound) {x : Vector Rat n}
    (h : p.solveWithin tolerance limit = .ok (some x)) : p.MetBy tolerance.bound x.get := by
  rcases solveWithin_cases h with ⟨_, hnone⟩ | ⟨hcrossed, t, hreach, ⟨hstep, hsome⟩ | ⟨_, hnone⟩⟩
  · cases hnone
  · have hroomy := roomy_of_not_crossed hcrossed
    have hdescends := (descends_ofProgram hbound hroomy).run hpivot hbound hroomy hreach
    have hsolved := (hdescends.solvedBy_iff _).mp hdescends.sound.solved
    have hmet := (metBy_iff hsolved).mpr (hdescends.admits_of_feasible hstep)
    obtain rfl := Option.some.inj hsome
    have hget : (Vector.ofFn fun i : Fin n => t.values.get (i.castAdd p.rows.length)).get =
        fun i => t.values.get (i.castAdd p.rows.length) := funext fun i => get_ofFn _ i
    rwa [hget]
  · cases hnone

/-- Without tolerance, a program with a point is not given up. -/
theorem not_metBy_of_solveWithin (hpivot : tolerance.pivot = 0) (hbound : tolerance.bound = 0)
    (h : p.solveWithin tolerance limit = .ok none) (x : Fin n → Rat) : ¬p.MetBy 0 x := by
  obtain ⟨y, hsolved, rfl⟩ := exists_solvedBy p x
  rw [metBy_iff hsolved]
  rcases solveWithin_cases h with ⟨hcrossed, _⟩ | ⟨hcrossed, t, hreach, ⟨_, hsome⟩ | ⟨hstep, _⟩⟩
  · obtain ⟨j, l, u, hl, hu, hlt⟩ := exists_of_crossed hcrossed
    intro hadmits
    have hle := (hadmits j).1 l hl
    have hge := (hadmits j).2 u hu
    linarith
  · cases hsome
  · have hroomy := roomy_of_not_crossed hcrossed
    have hdescends := (descends_ofProgram hbound.ge hroomy).run hpivot hbound.ge hroomy hreach
    exact hdescends.not_admits_of_infeasible hpivot hbound hstep hsolved

/-- A point that is found misses no bound and no limit by more than the tolerance. Without tolerance, a program has no point
if none is found. -/
theorem solve_correct (hpivot : tolerance.pivot = 0) (hbound : 0 ≤ tolerance.bound) (p : LinearProgram Rat n) :
    (∀ x, p.solve tolerance = .ok (some x) → p.MetBy tolerance.bound x.get) ∧
      (tolerance.bound = 0 → p.solve tolerance = .ok none → ∀ x, ¬p.MetBy 0 x) :=
  ⟨fun _ hsome => metBy_of_solveWithin hpivot hbound hsome,
    fun hzero hnone => not_metBy_of_solveWithin hpivot hzero hnone⟩

/-- The part of the strip `3 ≤ 2 x + y ≤ 4` with `0 ≤ x ≤ right` and `0 ≤ y ≤ 1`. -/
def strip (right : Rat) : LinearProgram Rat 2 :=
  ⟨#v[some 0, some 0], #v[some right, some 1], [⟨[(0, 1), (1, 1), (0, 1)], some 3, some 4⟩]⟩

theorem solve_correct_strip : (∃ x, (strip 2).solve .exact = .ok (some x) ∧ (strip 2).MetBy 0 x.get) ∧
    (strip (1 / 2)).solve .exact = .ok none ∧ ∀ x, ¬(strip (1 / 2)).MetBy 0 x := by
  have hsome : (strip 2).solve .exact = .ok (some #v[3 / 2, 0]) := by decide +kernel
  have hnone : (strip (1 / 2)).solve .exact = .ok none := by decide +kernel
  exact ⟨⟨_, hsome, (solve_correct rfl le_rfl _).1 _ hsome⟩, hnone, (solve_correct rfl le_rfl _).2 rfl hnone⟩

end LinearProgram

end ReluAbstraction
