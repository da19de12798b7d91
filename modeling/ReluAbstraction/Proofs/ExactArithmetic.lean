import Mathlib.Tactic
import ReluAbstraction.Scalar.Exact
import ReluAbstraction.Proofs.Constraints

/-!
# Exact arithmetic

Over the rationals the operations of the engine are the usual ones. A query is then satisfied without tolerance if and only
if its bounds, equations and ReLUs hold as they stand.
-/

namespace ReluAbstraction

namespace Scalar

theorem sum_exact (xs : List Rat) : sum xs = xs.sum := by
  unfold sum
  rw [List.sum_eq_foldl]

theorem dot_exact (xs ys : List Rat) : dot xs ys = (List.zipWith (· * ·) xs ys).sum := sum_exact _

theorem larger_exact (x y : Rat) : larger x y = max x y := by
  have hself : (x == x) = true := decide_eq_true rfl
  unfold larger
  rw [hself, if_pos rfl]
  by_cases hlt : x < y
  · exact (if_pos hlt).trans (max_eq_right hlt.le).symm
  · exact (if_neg hlt).trans (max_eq_left (not_lt.mp hlt)).symm

theorem smaller_exact (x y : Rat) : smaller x y = min x y := by
  have hself : (x == x) = true := decide_eq_true rfl
  unfold smaller
  rw [hself, if_pos rfl]
  by_cases hlt : y < x
  · exact (if_pos hlt).trans (min_eq_right hlt.le).symm
  · exact (if_neg hlt).trans (min_eq_left (not_lt.mp hlt)).symm

theorem rectify_exact (x : Rat) : rectify x = max x 0 := larger_exact x 0

theorem magnitude_exact (x : Rat) : magnitude x = |x| := by
  unfold magnitude
  by_cases hlt : x < 0
  · exact (if_pos hlt).trans (abs_of_neg hlt).symm
  · exact (if_neg hlt).trans (abs_of_nonneg (not_lt.mp hlt)).symm

end Scalar

namespace Reduction

theorem reduce?_singleton {α : Type} [Scalar α] (r : Reduction) (x : α) : r.reduce? [x] = some x := rfl

/-- Folding by an operation that moves both arguments one way gives a number on that side of all. -/
theorem rel_of_reduce? {r : Reduction} (side : Rat → Rat → Prop) [Std.Refl side] [IsTrans Rat side]
    (hstep : ∀ x y, side x (r.combine x y) ∧ side y (r.combine x y)) {xs : List Rat} {y : Rat}
    (h : r.reduce? xs = some y) : ∀ x ∈ xs, side x y := by
  have hfold : ∀ (rest : List Rat) (start : Rat), side start (rest.foldl r.combine start) ∧
      ∀ x ∈ rest, side x (rest.foldl r.combine start) := by
    intro rest
    induction rest with
    | nil => exact fun start => ⟨refl_of side start, by simp⟩
    | cons next rest ih =>
      intro start
      obtain ⟨hstart, hrest⟩ := ih (r.combine start next)
      rw [List.foldl_cons]
      refine ⟨trans_of side (hstep start next).1 hstart, fun x hx => ?_⟩
      rcases List.mem_cons.mp hx with rfl | hx
      · exact trans_of side (hstep start x).2 hstart
      · exact hrest x hx
  cases xs with
  | nil => cases h
  | cons first rest =>
    obtain rfl := Option.some.inj h
    intro x hx
    rcases List.mem_cons.mp hx with rfl | hx
    · exact (hfold rest x).1
    · exact (hfold rest first).2 x hx

/-- The largest of some numbers is at least each of them. -/
theorem le_of_reduce?_max {xs : List Rat} {y : Rat} (h : Reduction.max.reduce? xs = some y) : ∀ x ∈ xs, x ≤ y := by
  refine rel_of_reduce? (· ≤ ·) (fun x y => ?_) h
  rw [show Reduction.max.combine x y = Max.max x y from Scalar.larger_exact x y]
  exact ⟨le_max_left x y, le_max_right x y⟩

/-- The smallest of some numbers is at most each of them. -/
theorem le_of_reduce?_min {xs : List Rat} {y : Rat} (h : Reduction.min.reduce? xs = some y) : ∀ x ∈ xs, y ≤ x := by
  refine rel_of_reduce? (· ≥ ·) (fun x y => ?_) h
  rw [show Reduction.min.combine x y = Min.min x y from Scalar.smaller_exact x y]
  exact ⟨min_le_left x y, min_le_right x y⟩

/-- The sum of some numbers. -/
theorem eq_of_reduce?_sum {xs : List Rat} {y : Rat} (h : Reduction.sum.reduce? xs = some y) : y = xs.sum := by
  cases xs with
  | nil => cases h
  | cons first rest =>
    have hsum := Scalar.sum_exact (first :: rest)
    rw [Scalar.sum, List.foldl_cons, show (0 : Rat) + first = first from zero_add first] at hsum
    exact (Option.some.inj h).symm.trans hsum

end Reduction

/-- No tolerance. -/
def Tolerance.exact : Tolerance Rat := ⟨0, 0, 0, 0⟩

/-- The value meets the bound. -/
def Bound.Admits : Bound Rat → Rat → Prop
  | .lower l, x => l ≤ x
  | .upper u, x => x ≤ u

/-- The region of a property is where its bound holds. -/
theorem Property.isReachedBy_exact_iff {p : Property Rat} {outputs : List Rat} :
    p.isReachedBy outputs .exact = true ↔ ∃ y, outputs[p.output]? = some y ∧ p.bound.Admits y := by
  unfold isReachedBy bound
  cases outputs[p.output]? with
  | none => simp
  | some y =>
    cases p.goal with
    | maximize =>
      have hzero : p.threshold - Tolerance.exact.feasibility = p.threshold := sub_zero p.threshold
      simp only [decide_eq_true_eq, Option.some.injEq, exists_eq_left', Bound.Admits]
      rw [hzero]
    | minimize =>
      have hzero : p.threshold + Tolerance.exact.feasibility = p.threshold := add_zero p.threshold
      simp only [decide_eq_true_eq, Option.some.injEq, exists_eq_left', Bound.Admits]
      rw [hzero]

namespace Assignment

variable {count v : Nat} {f : VarId → Rat}

/-- The assignment of given values to the variables below `count`. -/
def tabulate (count : Nat) (f : VarId → Rat) : Assignment Rat where
  toList := (List.range count).map fun v => (v, f v)
  sorted := List.pairwise_map.mpr (List.pairwise_lt_range.imp fun h => Nat.compare_eq_lt.mpr h)

@[simp] theorem keys_tabulate (count : Nat) (f : VarId → Rat) : (tabulate count f).keys = List.range count := by
  rw [SortedMap.keys, tabulate, List.map_map]
  exact List.map_id _

theorem value_tabulate (hv : v < count) : (tabulate count f).value v = f v := by
  have hget : (tabulate count f).get? v = some (f v) :=
    SortedMap.mem_toList_iff.mp (List.mem_map.mpr ⟨v, List.mem_range.mpr hv, rfl⟩)
  rw [value, hget, Option.getD_some]

/-- Assignments of the same variables are equal if their values are. -/
theorem eq_of_value_eq {a b : Assignment Rat} (hkeys : a.keys = b.keys) (hvalue : ∀ v ∈ a.keys, a.value v = b.value v) :
    a = b := by
  refine SortedMap.ext_get? fun v => ?_
  by_cases hv : v ∈ a.keys
  · obtain ⟨x, hx⟩ := Option.isSome_iff_exists.mp (SortedMap.mem_keys_iff.mp hv)
    obtain ⟨y, hy⟩ := Option.isSome_iff_exists.mp (SortedMap.mem_keys_iff.mp (hkeys ▸ hv))
    have hsame := hvalue v hv
    rw [value, value, hx, hy] at hsame
    rw [hx, hy]
    exact congrArg some hsame
  · have hnone : ∀ {m : Assignment Rat}, v ∉ m.keys → m.get? v = none := fun hnot => by
      rwa [SortedMap.mem_keys_iff, Bool.not_eq_true, Option.isSome_eq_false_iff, Option.isNone_iff_eq_none] at hnot
    rw [hnone hv, hnone (hkeys ▸ hv)]

end Assignment

namespace Query

variable {q : Query Rat}

/-- The values solve the query as it stands. -/
structure SolvedBy (q : Query Rat) (f : VarId → Rat) : Prop where
  bounds : ∀ {v bound}, q.HasBound v bound → bound.Admits (f v)
  equations : ∀ e ∈ q.equations, (e.addends.map fun t => t.coefficient * f t.var).sum = e.scalar
  relus : ∀ r ∈ q.relus, f r.output = max (f r.input) 0

/-- Without tolerance, a query is satisfied by the values that solve it. -/
theorem isSatisfiedBy_exact_iff {values : Assignment Rat} :
    q.isSatisfiedBy values .exact = true ↔ q.SolvedBy values.value := by
  have hzero : ∀ x y : Rat, Scalar.magnitude (x - y) ≤ Tolerance.exact.feasibility ↔ x = y := by
    intro x y
    rw [Scalar.magnitude_exact]
    exact abs_nonpos_iff.trans sub_eq_zero
  have hlow : ∀ x y : Rat, x - Tolerance.exact.feasibility ≤ y ↔ x ≤ y := fun x y => by
    rw [show x - Tolerance.exact.feasibility = x from sub_zero x]
  have hhigh : ∀ x y : Rat, x ≤ y + Tolerance.exact.feasibility ↔ x ≤ y := fun x y => by
    rw [show y + Tolerance.exact.feasibility = y from add_zero y]
  have hequation : ∀ e : Equation Rat, e.evaluate values = (e.addends.map fun t => t.coefficient * values.value t.var).sum :=
    fun e => Scalar.sum_exact _
  unfold isSatisfiedBy
  simp only [Bool.and_eq_true, List.all_eq_true, decide_eq_true_eq, hzero, hlow, hhigh, hequation, Scalar.rectify_exact]
  constructor
  · rintro ⟨⟨⟨hlower, hupper⟩, hequations⟩, hrelus⟩
    refine ⟨fun {v bound} hbound => ?_, hequations, hrelus⟩
    cases bound with
    | lower l => exact hlower (v, l) (SortedMap.mem_toList_iff.mpr hbound)
    | upper u => exact hupper (v, u) (SortedMap.mem_toList_iff.mpr hbound)
  · intro h
    refine ⟨⟨⟨?_, ?_⟩, h.equations⟩, h.relus⟩
    · rintro ⟨v, l⟩ hmem
      have hbound : q.HasBound v (.lower l) := SortedMap.mem_toList_iff.mp hmem
      exact h.bounds hbound
    · rintro ⟨v, u⟩ hmem
      have hbound : q.HasBound v (.upper u) := SortedMap.mem_toList_iff.mp hmem
      exact h.bounds hbound

/-- Only the values of variables that the query mentions matter. -/
theorem SolvedBy.congr {f g : VarId → Rat} (h : q.SolvedBy f) (hfg : ∀ v, q.Mentions v → g v = f v) : q.SolvedBy g := by
  refine ⟨fun {v bound} hbound => ?_, fun e he => ?_, fun r hr => ?_⟩
  · rw [hfg v (.inl ⟨bound, hbound⟩)]
    exact h.bounds hbound
  · rw [← h.equations e he]
    refine congrArg List.sum (List.map_congr_left fun t ht => ?_)
    rw [hfg t.var (.inr (.inl ⟨e, he, t, ht, rfl⟩))]
  · rw [hfg r.output (.inr (.inr ⟨r, hr, .inr rfl⟩)), hfg r.input (.inr (.inr ⟨r, hr, .inl rfl⟩))]
    exact h.relus r hr

/-- Values that solve a query are the values of an assignment, if the query declares the variables that it mentions. -/
theorem SolvedBy.exists_assignment {f : VarId → Rat} (h : q.SolvedBy f) (hdeclared : ∀ v, q.Mentions v → v < q.varCount) :
    ∃ values : Assignment Rat, q.isSatisfiedBy values .exact = true ∧ ∀ v < q.varCount, values.value v = f v := by
  have hvalues : ∀ v < q.varCount, (Assignment.tabulate q.varCount f).value v = f v := fun v hv => Assignment.value_tabulate hv
  exact ⟨_, isSatisfiedBy_exact_iff.mpr (h.congr fun v hv => hvalues v (hdeclared v hv)), hvalues⟩

end Query

end ReluAbstraction
