import Mathlib.Tactic
import ReluAbstraction.Solver.CaseSplit
import ReluAbstraction.Proofs.Cycling

/-!
# Solving by case splits decides a query

The linear program of a partial choice of phases has every solution of the query that agrees with the choice, so a branch
without a point holds no solution. A solution agrees with one of the two phases of each ReLU, so a split loses none. Each
level of the search decides one more ReLU, which bounds the number of search nodes.
-/

namespace ReluAbstraction

section Programs

variable {n : Nat} {p : LinearProgram Rat n} {x : Fin n → Rat}

theorem between_zero_iff {lower upper : Option Rat} {y : Rat} :
    Between 0 lower upper y ↔ (∀ l ∈ lower, l ≤ y) ∧ ∀ u ∈ upper, y ≤ u := by
  simp only [Between, sub_zero, add_zero]

namespace LinearProgram

theorem raiseBound_none (a : Rat) : raiseBound none a = some a := by simp [raiseBound, Scalar.isNaN]

theorem lowerBound_none (a : Rat) : lowerBound none a = some a := by simp [lowerBound, Scalar.isNaN]

theorem forall_mem_raiseBound {bound : Option Rat} {a y : Rat} :
    (∀ l ∈ raiseBound bound a, l ≤ y) ↔ (∀ l ∈ bound, l ≤ y) ∧ a ≤ y := by
  cases bound with
  | none => simp [raiseBound_none]
  | some l => simp [raiseBound, Scalar.larger_exact]

theorem forall_mem_lowerBound {bound : Option Rat} {a y : Rat} :
    (∀ u ∈ lowerBound bound a, y ≤ u) ↔ (∀ u ∈ bound, y ≤ u) ∧ y ≤ a := by
  cases bound with
  | none => simp [lowerBound_none]
  | some u => simp [lowerBound, Scalar.smaller_exact]

/-- A program that asks for more at one variable only. -/
theorem metBy_iff_of_bounds {p' : LinearProgram Rat n} (i : Fin n) {Q : Prop} (hrows : p'.rows = p.rows)
    (hbound : ∀ k, Between 0 (p'.lower.get k) (p'.upper.get k) (x k) ↔
      Between 0 (p.lower.get k) (p.upper.get k) (x k) ∧ (k = i → Q)) : p'.MetBy 0 x ↔ p.MetBy 0 x ∧ Q := by
  constructor
  · rintro ⟨hbounds, hmet⟩
    exact ⟨⟨fun k => ((hbound k).mp (hbounds k)).1, hrows ▸ hmet⟩, ((hbound i).mp (hbounds i)).2 rfl⟩
  · rintro ⟨h, hQ⟩
    exact ⟨fun k => (hbound k).mpr ⟨h.bounds k, fun _ => hQ⟩, hrows ▸ h.rows⟩

theorem metBy_tightenLower_iff {i : Fin n} {a : Rat} : (p.tightenLower i a).MetBy 0 x ↔ p.MetBy 0 x ∧ a ≤ x i := by
  refine metBy_iff_of_bounds i rfl fun k => ?_
  rw [between_zero_iff, between_zero_iff, tightenLower, get_assign]
  by_cases hk : k = i
  · subst hk
    rw [if_pos rfl, forall_mem_raiseBound]
    tauto
  · simp [hk]

theorem metBy_tightenUpper_iff {i : Fin n} {a : Rat} : (p.tightenUpper i a).MetBy 0 x ↔ p.MetBy 0 x ∧ x i ≤ a := by
  refine metBy_iff_of_bounds i rfl fun k => ?_
  rw [between_zero_iff, between_zero_iff, tightenUpper, get_assign]
  by_cases hk : k = i
  · subst hk
    rw [if_pos rfl, forall_mem_lowerBound]
    tauto
  · simp [hk]

theorem metBy_addRow_iff {coefficients : List (Fin n × Rat)} {lower upper : Option Rat} :
    (p.addRow coefficients lower upper).MetBy 0 x ↔
      p.MetBy 0 x ∧ Between 0 lower upper ((⟨coefficients, lower, upper⟩ : LinearRow Rat n).value x) := by
  constructor
  · intro h
    exact ⟨⟨h.bounds, fun r hr => h.rows r (List.mem_append_left _ hr)⟩,
      h.rows _ (List.mem_append_right _ (List.mem_singleton_self _))⟩
  · rintro ⟨h, hrow⟩
    refine ⟨h.bounds, fun r hr => ?_⟩
    rcases List.mem_append.mp hr with hr | hr
    · exact h.rows r hr
    · rw [List.mem_singleton.mp hr]
      exact hrow

end LinearProgram

end Programs

namespace ReluColumns

variable {n : Nat} {r : ReluColumns n} {x : Fin n → Rat}

/-- The values are those of the ReLU. -/
def HoldsAt (r : ReluColumns n) (x : Fin n → Rat) : Prop := x r.output = max (x r.input) 0

/-- The values agree with a phase of the ReLU, or with what is asked of an undecided one. -/
def Fits (r : ReluColumns n) (x : Fin n → Rat) : Option Phase → Prop
  | some .active => 0 ≤ x r.input ∧ x r.output = x r.input
  | some .inactive => x r.input ≤ 0 ∧ x r.output = 0
  | none => 0 ≤ x r.output ∧ x r.input ≤ x r.output

theorem HoldsAt.fits_none (h : r.HoldsAt x) : r.Fits x none := by
  rw [Fits, h]
  exact ⟨le_max_right _ _, le_max_left _ _⟩

/-- A ReLU is in one of its phases. -/
theorem HoldsAt.fits_some (h : r.HoldsAt x) : r.Fits x (some .active) ∨ r.Fits x (some .inactive) := by
  rw [Fits, Fits, h]
  rcases le_total 0 (x r.input) with hle | hle
  · exact .inl ⟨hle, max_eq_left hle⟩
  · exact .inr ⟨hle, max_eq_right hle⟩

theorem holdsAt_of_fits {phase : Phase} (h : r.Fits x (some phase)) : r.HoldsAt x := by
  cases phase with
  | active =>
    rw [HoldsAt, h.2, max_eq_left h.1]
  | inactive =>
    rw [HoldsAt, h.2, max_eq_right h.1]

end ReluColumns

namespace CaseSplit

variable {n : Nat} {p base : LinearProgram Rat n} {relus : List (ReluColumns n)} {phases : List (Option Phase)}
  {x : Fin n → Rat} {tolerance : Tolerance Rat}

section Branches

/-- A restricted program asks the ReLU to agree with its phase. -/
theorem metBy_restrict_iff {r : ReluColumns n} {phase : Option Phase} :
    (restrict p r phase).MetBy 0 x ↔ p.MetBy 0 x ∧ r.Fits x phase := by
  have hvalue : ∀ lower upper, (⟨[(r.output, 1), (r.input, -1)], lower, upper⟩ : LinearRow Rat n).value x =
      x r.output - x r.input := by
    intro lower upper
    simp only [LinearRow.value, List.map_cons, List.map_nil, List.sum_cons, List.sum_nil]
    ring
  cases phase with
  | none =>
    have hrow : Between 0 (some 0) none (x r.output - x r.input) ↔ x r.input ≤ x r.output := by simp [between_zero_iff]
    rw [restrict, LinearProgram.metBy_addRow_iff, LinearProgram.metBy_tightenLower_iff, hvalue, and_assoc]
    exact and_congr_right' (and_congr_right' hrow)
  | some phase =>
    cases phase with
    | active =>
      have hrow : Between 0 (some 0) (some 0) (x r.output - x r.input) ↔ x r.output = x r.input := by
        rw [between_zero_iff]
        simp only [Option.mem_def, Option.some.injEq, forall_eq', sub_nonneg, sub_nonpos]
        exact ⟨fun h => le_antisymm h.2 h.1, fun h => ⟨h.ge, h.le⟩⟩
      rw [restrict, LinearProgram.metBy_addRow_iff, LinearProgram.metBy_tightenLower_iff, hvalue, and_assoc]
      exact and_congr_right' (and_congr_right' hrow)
    | inactive =>
      rw [restrict, LinearProgram.metBy_tightenUpper_iff, LinearProgram.metBy_tightenLower_iff,
        LinearProgram.metBy_tightenUpper_iff, and_assoc, and_assoc]
      exact and_congr_right' (and_congr_right' (and_comm.trans le_antisymm_iff.symm))

/-- Every ReLU agrees with its phase. -/
def Agrees (relus : List (ReluColumns n)) (phases : List (Option Phase)) (x : Fin n → Rat) : Prop :=
  ∀ (k : Nat) (r : ReluColumns n) (phase : Option Phase), relus[k]? = some r → phases[k]? = some phase → r.Fits x phase

/-- The program of a choice of phases asks all ReLUs to agree with it. -/
theorem metBy_withPhases_iff : (withPhases base relus phases).MetBy 0 x ↔ base.MetBy 0 x ∧ Agrees relus phases x := by
  have hfold : ∀ (pairs : List (ReluColumns n × Option Phase)) (p : LinearProgram Rat n),
      (pairs.foldl (fun p pair => restrict p pair.1 pair.2) p).MetBy 0 x ↔ p.MetBy 0 x ∧ ∀ pair ∈ pairs, pair.1.Fits x pair.2 := by
    intro pairs
    induction pairs with
    | nil => simp
    | cons pair rest ih =>
      intro p
      rw [List.foldl_cons, ih, metBy_restrict_iff, and_assoc, List.forall_mem_cons]
  refine (hfold _ _).trans (and_congr_right' ⟨fun h k r phase hr hphase => ?_, fun h pair hpair => ?_⟩)
  · exact h (r, phase) (List.mem_iff_getElem?.mpr ⟨k, List.getElem?_zip_eq_some.mpr ⟨hr, hphase⟩⟩)
  · obtain ⟨k, hk⟩ := List.mem_iff_getElem?.mp hpair
    obtain ⟨hr, hphase⟩ := List.getElem?_zip_eq_some.mp hk
    exact h k pair.1 pair.2 hr hphase

/-- A solution goes with one of the two phases of a ReLU. -/
theorem Agrees.split (h : Agrees relus phases x) {i : Nat} {r : ReluColumns n} (hr : relus[i]? = some r) (hholds : r.HoldsAt x) :
    Agrees relus (phases.set i (some .active)) x ∨ Agrees relus (phases.set i (some .inactive)) x := by
  have hset : ∀ phase, r.Fits x (some phase) → Agrees relus (phases.set i (some phase)) x := by
    intro phase hfits k r' phase' hr' hphase'
    rw [List.getElem?_set] at hphase'
    split at hphase'
    · next heq =>
      subst heq
      rw [hr] at hr'
      cases hr'
      split at hphase'
      · cases hphase'
        exact hfits
      · cases hphase'
    · exact h k r' phase' hr' hphase'
  exact hholds.fits_some.imp (hset _) (hset _)

/-- The point meets the ReLU or misses it by little. -/
def Near (tolerance : Tolerance Rat) (x : Fin n → Rat) (r : ReluColumns n) : Prop :=
  |x r.output - max (x r.input) 0| ≤ tolerance.relu

theorem holds_iff {point : Vector Rat n} {r : ReluColumns n} :
    holds tolerance point r = true ↔ Near tolerance point.get r := by
  rw [holds, decide_eq_true_iff, Scalar.magnitude_exact, Scalar.rectify_exact]
  rfl

/-- Where no undecided ReLU is missed, none is. -/
theorem near_of_violated?_eq_none (hrelu : 0 ≤ tolerance.relu) (hlength : phases.length = relus.length) {point : Vector Rat n}
    (hagrees : Agrees relus phases point.get) (h : violated? tolerance relus phases point = none) :
    ∀ r ∈ relus, Near tolerance point.get r := by
  intro r hr
  obtain ⟨k, hk⟩ := List.mem_iff_getElem?.mp hr
  have hlt : k < phases.length := hlength ▸ (List.getElem?_eq_some_iff.mp hk).1
  obtain ⟨phase, hphase⟩ : ∃ phase, phases[k]? = some phase := ⟨_, List.getElem?_eq_getElem hlt⟩
  cases phase with
  | some phase =>
    have hholds := ReluColumns.holdsAt_of_fits (hagrees k r (some phase) hk hphase)
    rw [Near, hholds, sub_self, abs_zero]
    exact hrelu
  | none =>
    have hmem : (r, none) ∈ relus.zip phases := List.mem_iff_getElem?.mpr ⟨k, List.getElem?_zip_eq_some.mpr ⟨hk, hphase⟩⟩
    have hfound := List.findIdx?_eq_none_iff.mp h _ hmem
    rw [← holds_iff]
    simpa using hfound

/-- A missed ReLU is undecided. -/
theorem of_violated? {point : Vector Rat n} {i : Nat} (h : violated? tolerance relus phases point = some i) :
    ∃ r, relus[i]? = some r ∧ phases[i]? = some none := by
  obtain ⟨hi, hmissed, _⟩ := List.findIdx?_eq_some_iff_getElem.mp h
  obtain ⟨hr, hphase⟩ := List.getElem?_zip_eq_some.mp (List.getElem?_eq_getElem hi)
  rw [Bool.and_eq_true, Option.isNone_iff_eq_none] at hmissed
  exact ⟨_, hr, hphase.trans (congrArg some hmissed.1)⟩

end Branches

section Search

/-- The check decides linear programs: it gives a point, or none if there is no point. -/
def Decides (feasible : Feasibility Rat n) : Prop :=
  ∀ p, (∃ point, feasible p = .ok (some point) ∧ p.MetBy 0 point.get) ∨ feasible p = .ok none ∧ ∀ x, ¬p.MetBy 0 x

/-- What a search below a choice of phases comes to. -/
structure Searched (tolerance : Tolerance Rat) (base : LinearProgram Rat n) (relus : List (ReluColumns n))
    (phases : List (Option Phase)) (before : Tally) (found : Option (Vector Rat n)) (after : Tally) : Prop where
  explored_lt : after.explored < before.explored + 2 ^ (phases.count none + 1)
  sound : ∀ point ∈ found, base.MetBy 0 point.get ∧ ∀ r ∈ relus, Near tolerance point.get r
  complete : found = none → ∀ x, base.MetBy 0 x → (∀ r ∈ relus, r.HoldsAt x) → ¬Agrees relus phases x

variable {feasible : Feasibility Rat n} {levels : Nat} {tally : Tally} {point : Vector Rat n}

theorem explore_of_none (h : feasible (withPhases base relus phases) = .ok none) :
    explore tolerance feasible base relus (levels + 1) phases tally =
      .ok (none, ⟨tally.explored + 1, tally.pruned + 1⟩) := by
  rw [explore, h]
  rfl

theorem explore_of_some (h : feasible (withPhases base relus phases) = .ok (some point))
    (hnone : violated? tolerance relus phases point = none) :
    explore tolerance feasible base relus (levels + 1) phases tally =
      .ok (some point, ⟨tally.explored + 1, tally.pruned⟩) := by
  rw [explore, h]
  simp only [hnone, bind, Except.bind]
  rfl

/-- A missed ReLU is tried in its active phase, and in the other one if that finds nothing. -/
theorem explore_of_violated (h : feasible (withPhases base relus phases) = .ok (some point)) {i : Nat}
    (hmissed : violated? tolerance relus phases point = some i) {found : Option (Vector Rat n)} {between : Tally}
    (hfirst : explore tolerance feasible base relus levels (phases.set i (some .active)) ⟨tally.explored + 1, tally.pruned⟩ =
      .ok (found, between)) : explore tolerance feasible base relus (levels + 1) phases tally =
      if found.isSome then .ok (found, between)
      else explore tolerance feasible base relus levels (phases.set i (some .inactive)) between := by
  rw [explore, h]
  simp only [hmissed, hfirst, bind, Except.bind]
  rfl

/-- Deciding a ReLU leaves one less undecided. -/
theorem count_set {i : Nat} (h : phases[i]? = some none) (phase : Phase) :
    (phases.set i (some phase)).count none + 1 = phases.count none := by
  obtain ⟨hi, hnone⟩ := List.getElem?_eq_some_iff.mp h
  have hpos : 0 < phases.count none := List.count_pos_iff.mpr (hnone ▸ List.getElem_mem hi)
  rw [List.count_set hi, hnone]
  simp
  omega

/-- Each level decides a ReLU, so levels beyond the undecided ones make no difference. -/
theorem explore_eq_of_lt {levels' : Nat} (hlevels : phases.count none < levels) (hlevels' : phases.count none < levels') :
    explore tolerance feasible base relus levels phases tally = explore tolerance feasible base relus levels' phases tally := by
  induction levels generalizing levels' phases tally with
  | zero => exact absurd hlevels (Nat.not_lt_zero _)
  | succ levels ih =>
    obtain ⟨levels', rfl⟩ := Nat.exists_eq_add_one_of_ne_zero (Nat.ne_zero_of_lt hlevels')
    have hbranch : ∀ {point i}, violated? tolerance relus phases point = some i → ∀ phase tally,
        explore tolerance feasible base relus levels (phases.set i (some phase)) tally =
          explore tolerance feasible base relus levels' (phases.set i (some phase)) tally := by
      intro point i hmissed phase tally
      obtain ⟨_, _, hphase⟩ := of_violated? hmissed
      have hcount := count_set hphase phase
      exact ih (by omega) (by omega)
    rw [explore, explore]
    cases feasible (withPhases base relus phases) with
    | error e => rfl
    | ok found =>
      cases found with
      | none => rfl
      | some point =>
        cases hmissed : violated? tolerance relus phases point with
        | none => simp only [bind, Except.bind, hmissed]
        | some i => simp only [bind, Except.bind, hmissed, hbranch hmissed]

section Split

variable {i : Nat} {r : ReluColumns n} {found : Option (Vector Rat n)} {between after : Tally}

/-- A point found in the active phase ends the search. -/
theorem Searched.of_active (hphase : phases[i]? = some none)
    (h : Searched tolerance base relus (phases.set i (some .active)) ⟨tally.explored + 1, tally.pruned⟩ (some point) between) :
    Searched tolerance base relus phases tally (some point) between := by
  refine ⟨?_, h.sound, fun hnone => by cases hnone⟩
  have hlt := h.explored_lt
  have hpos := Nat.one_le_two_pow (n := phases.count none)
  rw [count_set hphase] at hlt
  rw [Nat.pow_succ]
  dsimp only at hlt
  omega

/-- If the active phase holds no solution, the inactive one decides. -/
theorem Searched.of_inactive (hr : relus[i]? = some r) (hphase : phases[i]? = some none)
    (hactive : Searched tolerance base relus (phases.set i (some .active)) ⟨tally.explored + 1, tally.pruned⟩ none between)
    (h : Searched tolerance base relus (phases.set i (some .inactive)) between found after) :
    Searched tolerance base relus phases tally found after := by
  refine ⟨?_, h.sound, fun hnone x hbase hholds hagrees => ?_⟩
  · have hlt := hactive.explored_lt
    have hlt' := h.explored_lt
    rw [count_set hphase] at hlt hlt'
    rw [Nat.pow_succ]
    dsimp only at hlt
    omega
  · rcases hagrees.split hr (hholds r (List.mem_of_getElem? hr)) with hagrees | hagrees
    · exact hactive.complete rfl x hbase hholds hagrees
    · exact h.complete hnone x hbase hholds hagrees

end Split

/-- A search with enough levels for all undecided ReLUs is sound and complete. -/
theorem searched_explore (hfeasible : Decides feasible) (hrelu : 0 ≤ tolerance.relu) (base : LinearProgram Rat n)
    (tally : Tally) (hlength : phases.length = relus.length) (hlevels : phases.count none < levels) : ∃ found tally',
      explore tolerance feasible base relus levels phases tally = .ok (found, tally') ∧
      Searched tolerance base relus phases tally found tally' := by
  induction levels generalizing phases tally with
  | zero => exact absurd hlevels (Nat.not_lt_zero _)
  | succ levels ih =>
    rcases hfeasible (withPhases base relus phases) with ⟨point, hsome, hmet⟩ | ⟨hnone, hempty⟩
    · obtain ⟨hbase, hagrees⟩ := metBy_withPhases_iff.mp hmet
      cases hviolated : violated? tolerance relus phases point with
      | none =>
        refine ⟨_, _, explore_of_some hsome hviolated, ?_, ?_, fun hnone => by cases hnone⟩
        · have hpos : 1 < 2 ^ (phases.count none + 1) := Nat.one_lt_two_pow (Nat.succ_ne_zero _)
          dsimp only
          omega
        · rintro point' hpoint
          cases hpoint
          exact ⟨hbase, near_of_violated?_eq_none hrelu hlength hagrees hviolated⟩
      | some i =>
        obtain ⟨r, hr, hphase⟩ := of_violated? hviolated
        have hbranch : ∀ phase tally, ∃ found tally',
            explore tolerance feasible base relus levels (phases.set i (some phase)) tally = .ok (found, tally') ∧
            Searched tolerance base relus (phases.set i (some phase)) tally found tally' := by
          intro phase tally
          have hcount := count_set hphase phase
          exact ih tally (by rw [List.length_set, hlength]) (by omega)
        obtain ⟨found, between, hfirst, hactive⟩ := hbranch .active ⟨tally.explored + 1, tally.pruned⟩
        rw [explore_of_violated hsome hviolated hfirst]
        cases found with
        | some point => exact ⟨_, _, rfl, hactive.of_active hphase⟩
        | none =>
          obtain ⟨found, after, hsecond, hinactive⟩ := hbranch .inactive between
          exact ⟨found, after, hsecond, hactive.of_inactive hr hphase hinactive⟩
    · refine ⟨_, _, explore_of_none hnone, ?_, fun _ h => (by cases h), fun _ x hbase _ hagrees => ?_⟩
      · have hpos : 1 < 2 ^ (phases.count none + 1) := Nat.one_lt_two_pow (Nat.succ_ne_zero _)
        dsimp only
        omega
      · exact hempty x (metBy_withPhases_iff.mpr ⟨hbase, hagrees⟩)

end Search

section Queries

variable {q : Query Rat}

theorem column_of_lt {v : VarId} (h : v < n) : column n v = .ok ⟨v, h⟩ := dif_pos h

/-- The terms of an equation between declared variables. -/
theorem exists_terms {addends : List (Addend Rat)} (h : ∀ t ∈ addends, t.var < n) :
    ∃ terms, (addends.mapM fun t => do return (← column n t.var, t.coefficient) : Except Error _) = .ok terms ∧
      ∀ f : VarId → Rat, (terms.map fun term => term.2 * f term.1).sum = (addends.map fun t => t.coefficient * f t.var).sum := by
  induction addends with
  | nil => exact ⟨[], rfl, fun _ => rfl⟩
  | cons t rest ih =>
    obtain ⟨terms, hterms, hsum⟩ := ih fun t ht => h t (List.mem_cons_of_mem _ ht)
    refine ⟨(⟨t.var, h t List.mem_cons_self⟩, t.coefficient) :: terms, ?_, fun f => ?_⟩
    · rw [List.mapM_cons, hterms, column_of_lt (h t List.mem_cons_self)]
      rfl
    · rw [List.map_cons, List.map_cons, List.sum_cons, List.sum_cons, hsum]

/-- The constraint of an equation between declared variables. -/
theorem exists_row {e : Equation Rat} (h : ∀ t ∈ e.addends, t.var < n) : ∃ r : LinearRow Rat n, (do
      let terms ← e.addends.mapM fun t => do
        return (← column n t.var, t.coefficient)
      return ⟨terms, some e.scalar, some e.scalar⟩ : Except Error _) = .ok r ∧ ∀ f : VarId → Rat,
        Between 0 r.lower r.upper (r.value fun i => f i) ↔
          (e.addends.map fun t => t.coefficient * f t.var).sum = e.scalar := by
  obtain ⟨terms, hterms, hsum⟩ := exists_terms h
  refine ⟨⟨terms, some e.scalar, some e.scalar⟩, by rw [hterms]; rfl, fun f => ?_⟩
  rw [between_zero_iff, LinearRow.value, hsum]
  simp only [Option.mem_def, Option.some.injEq, forall_eq']
  exact ⟨fun h => le_antisymm h.2 h.1, fun h => ⟨h.ge, h.le⟩⟩

/-- The linear part of a query asks for its bounds and equations. -/
theorem exists_linearPart (hdeclared : ∀ v, q.Mentions v → v < q.varCount) :
    ∃ base, linearPart q = .ok base ∧ ∀ f : VarId → Rat, base.MetBy 0 (fun i => f i) ↔
      (∀ v bound, q.HasBound v bound → bound.Admits (f v)) ∧
      ∀ e ∈ q.equations, (e.addends.map fun t => t.coefficient * f t.var).sum = e.scalar := by
  obtain ⟨rows, hrows, hleft, hright⟩ := exists_mapM_ok fun e he =>
    exists_row fun t ht => hdeclared t.var (.inr (.inl ⟨e, he, t, ht, rfl⟩))
  refine ⟨⟨Vector.ofFn fun i => (q.lower.get? i).bind (LinearProgram.raiseBound none),
    Vector.ofFn fun i => (q.upper.get? i).bind (LinearProgram.lowerBound none), rows⟩, ?_, fun f => ?_⟩
  · rw [linearPart, hrows]
    rfl
  · have hlower : ∀ i : Fin q.varCount, (Vector.ofFn fun i : Fin q.varCount =>
        (q.lower.get? i).bind (LinearProgram.raiseBound none)).get i = q.lower.get? i := by
      intro i
      rw [get_ofFn, funext LinearProgram.raiseBound_none, Option.bind_fun_some]
    have hupper : ∀ i : Fin q.varCount, (Vector.ofFn fun i : Fin q.varCount =>
        (q.upper.get? i).bind (LinearProgram.lowerBound none)).get i = q.upper.get? i := by
      intro i
      rw [get_ofFn, funext LinearProgram.lowerBound_none, Option.bind_fun_some]
    constructor
    · rintro ⟨hbounds, hmet⟩
      refine ⟨fun v bound hbound => ?_, fun e he => ?_⟩
      · have hv := hbounds ⟨v, hdeclared v (.inl ⟨bound, hbound⟩)⟩
        rw [between_zero_iff, hlower, hupper] at hv
        cases bound with
        | lower l => exact hv.1 l hbound
        | upper u => exact hv.2 u hbound
      · obtain ⟨r, hr, hiff⟩ := hleft e he
        exact (hiff f).mp (hmet r hr)
    · rintro ⟨hbounds, hequations⟩
      refine ⟨fun i => ?_, fun r hr => ?_⟩
      · rw [between_zero_iff, hlower, hupper]
        exact ⟨fun l hl => hbounds i (.lower l) hl, fun u hu => hbounds i (.upper u) hu⟩
      · obtain ⟨e, he, hiff⟩ := hright r hr
        exact (hiff f).mpr (hequations e he)

/-- The ReLUs of a query, over its declared variables. -/
theorem exists_reluPart (hdeclared : ∀ v, q.Mentions v → v < q.varCount) :
    ∃ relus, reluPart q = .ok relus ∧ relus.length = q.relus.length ∧
      ∀ Q : VarId → VarId → Prop, (∀ c ∈ relus, Q c.input c.output) ↔ ∀ r ∈ q.relus, Q r.input r.output := by
  have hrelu : ∀ r ∈ q.relus, ∃ c : ReluColumns q.varCount, (do
      return ⟨← column q.varCount r.input, ← column q.varCount r.output⟩ : Except Error _) = .ok c ∧
        c.input.val = r.input ∧ c.output.val = r.output := by
    intro r hr
    have hinput := hdeclared r.input (.inr (.inr ⟨r, hr, .inl rfl⟩))
    have houtput := hdeclared r.output (.inr (.inr ⟨r, hr, .inr rfl⟩))
    exact ⟨⟨⟨r.input, hinput⟩, ⟨r.output, houtput⟩⟩, by rw [column_of_lt hinput, column_of_lt houtput]; rfl, rfl, rfl⟩
  obtain ⟨relus, hrelus, hleft, hright⟩ := exists_mapM_ok hrelu
  refine ⟨relus, hrelus, (mapM_eq_ok_iff.mp hrelus).length_eq.symm, fun Q => ⟨fun h r hr => ?_, fun h c hc => ?_⟩⟩
  · obtain ⟨c, hc, hinput, houtput⟩ := hleft r hr
    rw [← hinput, ← houtput]
    exact h c hc
  · obtain ⟨r, hr, hinput, houtput⟩ := hright c hc
    rw [hinput, houtput]
    exact h r hr

theorem get?_assignmentOf (point : Vector Rat n) (v : VarId) :
    (assignmentOf point).get? v = if h : v < n then some (point.get ⟨v, h⟩) else none := by
  have hkeys : (((List.finRange n).map fun i => (i.val, point.get i)).map Prod.fst).Nodup := by
    rw [List.map_map]
    exact (List.nodup_finRange n).map Fin.val_injective
  ext x
  rw [assignmentOf, SortedMap.get?_ofList_iff hkeys, List.mem_map]
  constructor
  · rintro ⟨i, _, heq⟩
    cases heq
    rw [dif_pos i.isLt]
  · intro h
    split at h
    · next hv => exact ⟨⟨v, hv⟩, List.mem_finRange _, by rw [Option.some.inj h]⟩
    · cases h

theorem value_assignmentOf (point : Vector Rat n) (i : Fin n) : (assignmentOf point).value i = point.get i := by
  rw [Assignment.value, get?_assignmentOf, dif_pos i.isLt]
  rfl

end Queries

end CaseSplit

namespace Query

/-- The values meet the bounds and equations of the query, and its ReLUs or almost so. -/
structure MetBy (q : Query Rat) (slack : Rat) (f : VarId → Rat) : Prop where
  bounds : ∀ v bound, q.HasBound v bound → bound.Admits (f v)
  equations : ∀ e ∈ q.equations, (e.addends.map fun t => t.coefficient * f t.var).sum = e.scalar
  relus : ∀ r ∈ q.relus, |f r.output - max (f r.input) 0| ≤ slack

/-- Values that almost meet a query satisfy it within a tolerance. -/
theorem MetBy.isSatisfiedBy {q : Query Rat} {slack : Rat} {values : Assignment Rat} (h : q.MetBy slack values.value)
    {tolerance : Tolerance Rat} (hslack : slack ≤ tolerance.feasibility) (hfeasibility : 0 ≤ tolerance.feasibility) :
    q.isSatisfiedBy values tolerance = true := by
  have hequation : ∀ e : Equation Rat, e.evaluate values = (e.addends.map fun t => t.coefficient * values.value t.var).sum :=
    fun e => Scalar.sum_exact _
  unfold Query.isSatisfiedBy
  simp only [Bool.and_eq_true, List.all_eq_true, decide_eq_true_eq, hequation, Scalar.rectify_exact, Scalar.magnitude_exact]
  refine ⟨⟨⟨?_, ?_⟩, fun e he => ?_⟩, fun r hr => ?_⟩
  · rintro ⟨v, l⟩ hmem
    have hle : l ≤ values.value v := h.bounds v (.lower l) (SortedMap.mem_toList_iff.mp hmem)
    exact (sub_le_self l hfeasibility).trans hle
  · rintro ⟨v, u⟩ hmem
    have hle : values.value v ≤ u := h.bounds v (.upper u) (SortedMap.mem_toList_iff.mp hmem)
    exact hle.trans (le_add_of_nonneg_right hfeasibility)
  · rw [h.equations e he]
    refine le_of_eq_of_le ?_ hfeasibility
    exact abs_eq_zero.mpr (sub_self _)
  · exact (h.relus r hr).trans hslack

end Query

namespace CaseSplit

variable {q : Query Rat} {tolerance : Tolerance Rat} {feasible : (n : Nat) → Feasibility Rat n}

/-- The answer reports what the search has found. -/
theorem exists_answer_of_explore {base : LinearProgram Rat q.varCount} {relus : List (ReluColumns q.varCount)}
    {found : Option (Vector Rat q.varCount)} {tally : Tally} (hbase : linearPart q = .ok base)
    (hrelus : reluPart q = .ok relus) (hexplore : explore tolerance (feasible q.varCount) base relus (relus.length + 1)
      (relus.map fun _ => none) ⟨0, 0⟩ = .ok (found, tally)) :
    ∃ outcome, answer tolerance feasible q none = .ok outcome ∧ outcome.stats.explored = tally.explored ∧
      outcome.assignment = found.elim .empty assignmentOf := by
  rw [answer, hbase]
  simp only [bind, Except.bind, hrelus, hexplore, reduceCtorEq, if_false]
  cases found with
  | none => exact ⟨_, rfl, rfl, rfl⟩
  | some point => exact ⟨_, rfl, rfl, rfl⟩

/-- The search decides a query over declared variables. -/
theorem exists_answer (hfeasible : ∀ n, Decides (feasible n)) (hrelu : 0 ≤ tolerance.relu) (hvars : 0 < q.varCount)
    (hdeclared : ∀ v, q.Mentions v → v < q.varCount) : ∃ outcome, answer tolerance feasible q none = .ok outcome ∧
      outcome.stats.explored < 2 ^ (q.relus.length + 1) ∧ ((∃ f, q.SolvedBy f) → outcome.isSat = true) ∧
      (outcome.isSat = true → (∀ v, (outcome.assignment.get? v).isSome = true ↔ v < q.varCount) ∧
        q.MetBy tolerance.relu outcome.assignment.value) := by
  obtain ⟨base, hbase, hmet⟩ := exists_linearPart hdeclared
  obtain ⟨relus, hrelus, hlength, hall⟩ := exists_reluPart hdeclared
  have hsame : (relus.map fun _ => (none : Option Phase)).length = relus.length := List.length_map _
  have hcount : (relus.map fun _ => (none : Option Phase)).count none = q.relus.length := by simp [← hlength]
  obtain ⟨found, tally, hexplore, hsearched⟩ := searched_explore (hfeasible q.varCount) hrelu base ⟨0, 0⟩ hsame
    (by rw [hcount, ← hlength]; exact Nat.lt_succ_self _)
  obtain ⟨outcome, hanswer, hexplored, hassignment⟩ := exists_answer_of_explore hbase hrelus hexplore
  refine ⟨outcome, hanswer, ?_, ?_, ?_⟩
  · have hlt := hsearched.explored_lt
    rwa [hcount, Nat.zero_add, ← hexplored] at hlt
  · rintro ⟨f, hf⟩
    cases found with
    | none =>
      -- Before any decision, a solution of the query agrees with the choice of phases.
      have hbounds := (hmet f).mpr ⟨fun v bound hbound => hf.bounds hbound, hf.equations⟩
      have hholds : ∀ c ∈ relus, c.HoldsAt fun i => f i := (hall fun i o => f o = max (f i) 0).mpr hf.relus
      refine absurd (fun k r phase hr hphase => ?_) (hsearched.complete rfl _ hbounds hholds)
      obtain ⟨_, _, rfl⟩ := List.mem_map.mp (List.mem_of_getElem? hphase)
      exact (hholds r (List.mem_of_getElem? hr)).fits_none
    | some point =>
      rw [SolveOutcome.isSat, hassignment, Bool.not_eq_true', ← Bool.not_eq_true, SortedMap.isEmpty_iff]
      intro hempty
      have hzero := hempty 0
      rw [Option.elim_some, get?_assignmentOf, dif_pos hvars] at hzero
      cases hzero
  · intro hsat
    cases found with
    | none =>
      rw [SolveOutcome.isSat, hassignment] at hsat
      cases hsat
    | some point =>
      have hvalues : (fun i : Fin q.varCount => outcome.assignment.value i) = point.get := by
        funext i
        rw [hassignment]
        exact value_assignmentOf point i
      obtain ⟨hpoint, hnear⟩ := hsearched.sound point rfl
      rw [← hvalues] at hpoint hnear
      obtain ⟨hbounds, hequations⟩ := (hmet _).mp hpoint
      refine ⟨fun v => ?_, hbounds, hequations,
        (hall fun i o => |outcome.assignment.value o - max (outcome.assignment.value i) 0| ≤ tolerance.relu).mp hnear⟩
      rw [hassignment, Option.elim_some, get?_assignmentOf]
      split
      · next hv => simp [hv]
      · next hv => simp [hv]

/-- The simplex with as many exchanges as it needs decides linear programs. -/
theorem decides_solveWithin (n : Nat) :
    Decides fun p : LinearProgram Rat n => p.solveWithin .exact (4 ^ (n + p.rows.length)) := by
  intro p
  obtain ⟨answer, hanswer⟩ := @LinearProgram.exists_solveWithin n .exact rfl rfl p
  have hsolve := hanswer _ le_rfl
  cases answer with
  | none => exact .inr ⟨hsolve, LinearProgram.not_metBy_of_solveWithin rfl rfl hsolve⟩
  | some point => exact .inl ⟨point, hsolve, LinearProgram.metBy_of_solveWithin rfl le_rfl hsolve⟩

end CaseSplit

namespace Solver

variable {feasible : (n : Nat) → CaseSplit.Feasibility Rat n}

/-- Case splits decide every query over declared variables, with an exact check of the linear programs: a query with a
solution gets values, and all values given are a solution up to the tolerance at its ReLUs. No search is cut off: with any
number of levels above that of the undecided ReLUs it finds the same and visits the same search nodes. -/
theorem caseSplitWith_decides (hfeasible : ∀ n, CaseSplit.Decides (feasible n)) {q : Query Rat} (hvars : 0 < q.varCount)
    (hdeclared : ∀ v, q.Mentions v → v < q.varCount) (state : CaseSplit.State) :
    (∃ outcome state', (caseSplitWith .standard feasible).solve q ⟨none, none⟩ state = .ok outcome state' ∧
      outcome.stats.explored ≤ 2 ^ (q.relus.length + 1) - 1 ∧ ((∃ f, q.SolvedBy f) → outcome.isSat = true) ∧
      (outcome.isSat = true → (∀ v, (outcome.assignment.get? v).isSome = true ↔ v < q.varCount) ∧
        q.MetBy Tolerance.standard.relu outcome.assignment.value ∧ q.isSatisfiedBy outcome.assignment = true)) ∧
    ∀ base relus phases tally levels, phases.count none < levels →
      CaseSplit.explore .standard (feasible q.varCount) base relus levels phases tally =
        CaseSplit.explore .standard (feasible q.varCount) base relus (phases.count none + 1) phases tally := by
  have hrelu : (0 : Rat) ≤ Tolerance.standard.relu := by decide +kernel
  have hslack : (Tolerance.standard.relu : Rat) ≤ Tolerance.standard.feasibility := by decide +kernel
  obtain ⟨outcome, hanswer, hexplored, hcomplete, hsound⟩ := CaseSplit.exists_answer hfeasible hrelu hvars hdeclared
  refine ⟨⟨outcome, { state with last := some outcome.stats }, ?_, Nat.le_sub_one_of_lt hexplored, hcomplete,
    fun hsat => ?_⟩, fun _ _ _ _ _ hlevels => CaseSplit.explore_eq_of_lt hlevels (Nat.lt_succ_self _)⟩
  · change (do
      let outcome ← Step.ofExcept (CaseSplit.answer .standard feasible q none)
      modify ({ · with last := some outcome.stats })
      return outcome : Step CaseSplit.State (SolveOutcome Rat)) state = _
    rw [hanswer]
    rfl
  · obtain ⟨hassigned, hmet⟩ := hsound hsat
    exact ⟨hassigned, hmet, hmet.isSatisfiedBy hslack (hrelu.trans hslack)⟩

/-- A ReLU with input between -1 and 1 whose output has to reach 1/2. -/
def hinge : Query Rat :=
  { varCount := 2, lower := .ofList [(0, -1), (1, 1 / 2)], upper := .ofList [(0, 1)], equations := [], relus := [⟨0, 1⟩] }

theorem caseSplitWith_decides_hinge : ∃ outcome state',
    (caseSplitWith .standard fun n p => p.solveWithin .exact (4 ^ (n + p.rows.length))).solve hinge ⟨none, none⟩
      ⟨none, .empty⟩ = .ok outcome state' ∧ outcome.stats.explored ≤ 3 ∧ outcome.isSat = true ∧
      hinge.isSatisfiedBy outcome.assignment = true := by
  have hlower : ∀ v l, hinge.lower.get? v = some l ↔ v = 0 ∧ l = -1 ∨ v = 1 ∧ l = 1 / 2 := by
    intro v l
    rw [hinge, SortedMap.get?_ofList_iff (by decide)]
    simp
  have hupper : ∀ v u, hinge.upper.get? v = some u ↔ v = 0 ∧ u = 1 := by
    intro v u
    rw [hinge, SortedMap.get?_ofList_iff (by decide)]
    simp
  have hdeclared : ∀ v, hinge.Mentions v → v < hinge.varCount := by
    rintro v (⟨bound, hbound⟩ | ⟨e, he, _⟩ | ⟨r, hr, hv⟩)
    · cases bound with
      | lower l => rcases (hlower v l).mp hbound with ⟨rfl, _⟩ | ⟨rfl, _⟩ <;> decide
      | upper u => obtain ⟨rfl, _⟩ := (hupper v u).mp hbound; decide
    · cases he
    · obtain rfl := List.mem_singleton.mp hr
      rcases hv with rfl | rfl <;> decide
  have hsolved : hinge.SolvedBy fun _ => 1 := by
    refine ⟨fun {v bound} hbound => ?_, fun e he => (by cases he), fun r _ => by norm_num⟩
    cases bound with
    | lower l => rcases (hlower v l).mp hbound with ⟨_, rfl⟩ | ⟨_, rfl⟩ <;> norm_num [Bound.Admits]
    | upper u => obtain ⟨_, rfl⟩ := (hupper v u).mp hbound; exact le_rfl
  obtain ⟨⟨outcome, state', hsolve, hexplored, hcomplete, hsound⟩, _⟩ :=
    caseSplitWith_decides CaseSplit.decides_solveWithin (by decide) hdeclared ⟨none, .empty⟩
  have hsat := hcomplete ⟨_, hsolved⟩
  exact ⟨outcome, state', hsolve, hexplored, hsat, (hsound hsat).2.2⟩

end Solver

end ReluAbstraction
