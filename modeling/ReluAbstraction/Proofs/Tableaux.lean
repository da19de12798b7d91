import Mathlib.Tactic
import ReluAbstraction.Simplex.Tableau
import ReluAbstraction.Proofs.ExactArithmetic

/-!
# Tableaux

A tableau stands for a system of linear equations: each basic variable equals the expression in its row. An exchange
rewrites the rows and moves the current values. Over the rationals the system keeps its solutions, and the values go on
solving it.
-/

namespace ReluAbstraction

section Vectors

variable {β : Type} {n m : Nat}

theorem get_eq_getElem (v : Vector β n) (i : Fin n) : v.get i = v[i.val] := rfl

theorem get_ofFn (f : Fin n → β) (i : Fin n) : (Vector.ofFn f).get i = f i := Vector.getElem_ofFn i.isLt

theorem get_map {γ : Type} (f : β → γ) (v : Vector β n) (i : Fin n) : (v.map f).get i = f (v.get i) :=
  Vector.getElem_map f i.isLt

theorem get_zipWith {γ δ : Type} (f : β → γ → δ) (v : Vector β n) (w : Vector γ n) (i : Fin n) :
    (Vector.zipWith f v w).get i = f (v.get i) (w.get i) := Vector.getElem_zipWith i.isLt

theorem get_assign (v : Vector β n) (i j : Fin n) (x : β) : (assign v i x).get j = if j = i then x else v.get j := by
  simp only [assign, get_eq_getElem, Vector.getElem_set, Fin.ext_iff, eq_comm]

/-- Entries that are assigned one after another. Each is computed from a vector in which only other assigned entries have
changed. -/
theorem get_foldl_assign {place : Fin m → Fin n} (hplace : Function.Injective place) (f : Fin m → Vector β n → β)
    {is : List (Fin m)} (hnodup : is.Nodup) (v : Vector β n) :
    (∀ j, (∀ k ∈ is, place k ≠ j) → (is.foldl (fun w i => assign w (place i) (f i w)) v).get j = v.get j) ∧
      ∀ i ∈ is, ∃ w, (∀ j, (∀ k ∈ is, k ≠ i → place k ≠ j) → w.get j = v.get j) ∧
        (is.foldl (fun w i => assign w (place i) (f i w)) v).get (place i) = f i w := by
  induction is generalizing v with
  | nil => simp
  | cons first rest ih =>
    obtain ⟨hfirst, hrest⟩ := List.nodup_cons.mp hnodup
    obtain ⟨hother, hself⟩ := ih hrest (assign v (place first) (f first v))
    rw [List.foldl_cons]
    constructor
    · intro j hj
      rw [hother j fun k hk => hj k (List.mem_cons_of_mem _ hk), get_assign,
        if_neg (hj first List.mem_cons_self).symm]
    · intro i hi
      rcases List.mem_cons.mp hi with rfl | hi
      · refine ⟨v, fun _ _ => rfl, ?_⟩
        have hkept : ∀ k ∈ rest, place k ≠ place i := by
          intro k hk heq
          rw [hplace heq] at hk
          exact hfirst hk
        rw [hother _ hkept, get_assign, if_pos rfl]
      · obtain ⟨w, hw, heq⟩ := hself i hi
        refine ⟨w, fun j hj => ?_, heq⟩
        have hne : first ≠ i := fun heq => hfirst (heq ▸ hi)
        rw [hw j fun k hk => hj k (List.mem_cons_of_mem _ hk), get_assign, if_neg (hj first List.mem_cons_self hne).symm]

end Vectors

namespace Tableau

variable {n m : Nat}

theorem rowValue_exact (row values : Vector Rat n) : rowValue row values = ∑ j, row.get j * values.get j := by
  have hlist : List.zipWith (· * ·) row.toList values.toList = List.ofFn fun j => row.get j * values.get j := by
    rw [← Vector.toList_zipWith, ← Vector.toList_ofFn]
    congr 1
    ext j hj
    simp [get_eq_getElem]
  rw [rowValue, Scalar.dot_exact, hlist, List.sum_ofFn]

/-- Coefficient of variable `j` in row `i`. -/
def coefficient (t : Tableau Rat n m) (i : Fin m) (j : Fin n) : Rat := (t.rows.get i).get j

/-- Variable `j` is basic. -/
def IsBasic (t : Tableau Rat n m) (j : Fin n) : Prop := ∃ i, t.basic.get i = j

/-- The values solve the equations of the rows. -/
def SolvedBy (t : Tableau Rat n m) (x : Fin n → Rat) : Prop := ∀ i, x (t.basic.get i) = ∑ j, t.coefficient i j * x j

/-- The rows write distinct variables over variables that are not basic, and the current values solve them. -/
structure Sound (t : Tableau Rat n m) : Prop where
  injective : Function.Injective t.basic.get
  cleared : ∀ i k, t.coefficient i (t.basic.get k) = 0
  solved : t.SolvedBy t.values.get

theorem contains_basic_iff {t : Tableau Rat n m} {j : Fin n} : t.basic.contains j = true ↔ t.IsBasic j := by
  rw [Vector.contains_iff_mem, Vector.mem_iff_getElem]
  exact ⟨fun ⟨i, hi, heq⟩ => ⟨⟨i, hi⟩, heq⟩, fun ⟨i, heq⟩ => ⟨i, i.isLt, heq⟩⟩

variable {t : Tableau Rat n m} {tolerance : Tolerance Rat} {row : Fin m} {entering : Fin n} {target : Rat}

section Rows

theorem coefficient_pivot_self (j : Fin n) : (t.pivot tolerance row entering target).coefficient row j =
    if j = t.basic.get row then 1 / t.coefficient row entering
    else if j = entering then 0 else -t.coefficient row j / t.coefficient row entering := by
  rw [coefficient, pivot, get_ofFn, if_pos rfl, pivotRow, get_assign, get_assign, get_map]
  rfl

/-- A row without the entering variable and with that variable's own row in its place. -/
theorem coefficient_pivot_of_ne (hpivot : tolerance.pivot = 0) {i : Fin m} (hi : i ≠ row) (j : Fin n) :
    (t.pivot tolerance row entering target).coefficient i j = (if j = entering then 0 else t.coefficient i j) +
      t.coefficient i entering * (t.pivot tolerance row entering target).coefficient row j := by
  have hsolved : (t.pivot tolerance row entering target).coefficient row j = (t.pivotRow row entering).get j := by
    rw [coefficient, pivot, get_ofFn, if_pos rfl]
  rw [hsolved, coefficient, pivot, get_ofFn, if_neg hi, substitute]
  by_cases hzero : Scalar.magnitude ((t.rows.get i).get entering) ≤ tolerance.pivot
  · have hc : t.coefficient i entering = 0 := by
      rw [Scalar.magnitude_exact, hpivot] at hzero
      exact abs_nonpos_iff.mp hzero
    rw [if_pos hzero, get_assign, hc, zero_mul, add_zero]
    rfl
  · rw [if_neg hzero, get_zipWith, get_assign]
    rfl

/-- The new row holds of values to the extent that the old one does. -/
theorem sum_pivot_self (hleaving : t.basic.get row ≠ entering) (hcleared : t.coefficient row (t.basic.get row) = 0)
    (ha : t.coefficient row entering ≠ 0) (x : Fin n → Rat) :
    ∑ j, (t.pivot tolerance row entering target).coefficient row j * x j =
      (x (t.basic.get row) - ∑ j, t.coefficient row j * x j) / t.coefficient row entering + x entering := by
  have hterm : ∀ j, (t.pivot tolerance row entering target).coefficient row j * x j =
      (if j = t.basic.get row then x j else 0) / t.coefficient row entering -
        t.coefficient row j * x j / t.coefficient row entering + if j = entering then x j else 0 := by
    intro j
    rw [coefficient_pivot_self]
    by_cases hl : j = t.basic.get row
    · subst hl
      rw [if_pos rfl, if_pos rfl, if_neg hleaving, hcleared]
      ring
    · by_cases he : j = entering
      · subst he
        rw [if_neg hl, if_pos rfl, if_neg hl, if_pos rfl]
        field_simp
        ring
      · rw [if_neg hl, if_neg he, if_neg hl, if_neg he]
        ring
  rw [Finset.sum_congr rfl fun j _ => hterm j, Finset.sum_add_distrib, Finset.sum_sub_distrib, ← Finset.sum_div,
    ← Finset.sum_div, Finset.sum_ite_eq' Finset.univ, Finset.sum_ite_eq' Finset.univ, if_pos (Finset.mem_univ _),
    if_pos (Finset.mem_univ _), sub_div]

/-- In any other row the entering variable is replaced by the expression of its own row. -/
theorem sum_pivot_of_ne (hpivot : tolerance.pivot = 0) {i : Fin m} (hi : i ≠ row) (x : Fin n → Rat) :
    ∑ j, (t.pivot tolerance row entering target).coefficient i j * x j = ∑ j, t.coefficient i j * x j +
      t.coefficient i entering * (∑ j, (t.pivot tolerance row entering target).coefficient row j * x j - x entering) := by
  have hterm : ∀ j, (t.pivot tolerance row entering target).coefficient i j * x j =
      t.coefficient i j * x j - (if j = entering then t.coefficient i j * x j else 0) +
        t.coefficient i entering * ((t.pivot tolerance row entering target).coefficient row j * x j) := by
    intro j
    rw [coefficient_pivot_of_ne hpivot hi]
    split
    · ring
    · ring
  rw [Finset.sum_congr rfl fun j _ => hterm j, Finset.sum_add_distrib, Finset.sum_sub_distrib, ← Finset.mul_sum,
    Finset.sum_ite_eq' Finset.univ, if_pos (Finset.mem_univ _)]
  ring

theorem basic_pivot (i : Fin m) :
    (t.pivot tolerance row entering target).basic.get i = if i = row then entering else t.basic.get i := get_assign ..

/-- After an exchange the entering variable is basic in place of the leaving one. -/
theorem isBasic_pivot_iff (hinjective : Function.Injective t.basic.get) {j : Fin n} :
    (t.pivot tolerance row entering target).IsBasic j ↔ j = entering ∨ t.IsBasic j ∧ j ≠ t.basic.get row := by
  constructor
  · rintro ⟨i, hi⟩
    rw [basic_pivot] at hi
    split at hi
    · exact .inl hi.symm
    · next hne =>
      subst hi
      exact .inr ⟨⟨i, rfl⟩, fun heq => hne (hinjective heq)⟩
  · rintro (rfl | ⟨⟨i, rfl⟩, hne⟩)
    · exact ⟨row, by rw [basic_pivot, if_pos rfl]⟩
    · have hi : i ≠ row := fun heq => hne (heq ▸ rfl)
      exact ⟨i, by rw [basic_pivot, if_neg hi]⟩

/-- An exchange keeps the solutions of the rows. -/
theorem Sound.solvedBy_pivot_iff (h : t.Sound) (hpivot : tolerance.pivot = 0) (he : ¬t.IsBasic entering)
    (ha : t.coefficient row entering ≠ 0) (x : Fin n → Rat) :
    (t.pivot tolerance row entering target).SolvedBy x ↔ t.SolvedBy x := by
  have hleaving : t.basic.get row ≠ entering := fun heq => he ⟨row, heq⟩
  have hrow : x entering = ∑ j, (t.pivot tolerance row entering target).coefficient row j * x j ↔
      x (t.basic.get row) = ∑ j, t.coefficient row j * x j := by
    rw [sum_pivot_self hleaving (h.cleared row row) ha, eq_comm, add_eq_right, div_eq_zero_iff, or_iff_left ha, sub_eq_zero]
  -- Once the equation of the exchanged row holds, the others do not change.
  have hother : x entering = ∑ j, (t.pivot tolerance row entering target).coefficient row j * x j → ∀ i ≠ row,
      ∑ j, (t.pivot tolerance row entering target).coefficient i j * x j = ∑ j, t.coefficient i j * x j := by
    intro heq i hi
    rw [sum_pivot_of_ne hpivot hi, ← heq, sub_self, mul_zero, add_zero]
  constructor
  · intro hx
    have hx' := hx row
    rw [basic_pivot, if_pos rfl] at hx'
    intro i
    by_cases hi : i = row
    · subst hi
      exact hrow.mp hx'
    · have hxi := hx i
      rwa [basic_pivot, if_neg hi, hother hx' i hi] at hxi
  · intro hx
    have hx' := hrow.mpr (hx row)
    intro i
    rw [basic_pivot]
    by_cases hi : i = row
    · subst hi
      rwa [if_pos rfl]
    · rw [if_neg hi, hother hx' i hi]
      exact hx i

end Rows

section Values

/-- How far the entering variable moves. -/
def stride (t : Tableau Rat n m) (row : Fin m) (entering : Fin n) (target : Rat) : Rat :=
  (target - t.values.get (t.basic.get row)) / t.coefficient row entering

theorem values_pivot_leaving : (t.pivot tolerance row entering target).values.get (t.basic.get row) = target := by
  rw [pivot, shift, get_assign, if_pos rfl]

theorem Sound.values_pivot_basic (h : t.Sound) (he : ¬t.IsBasic entering) (ha : t.coefficient row entering ≠ 0)
    (i : Fin m) : (t.pivot tolerance row entering target).values.get (t.basic.get i) =
      t.values.get (t.basic.get i) + t.coefficient i entering * t.stride row entering target := by
  by_cases hi : i = row
  · subst hi
    rw [values_pivot_leaving, stride]
    field_simp
    ring
  · obtain ⟨_, hself⟩ := get_foldl_assign h.injective
      (fun i values => values.get (t.basic.get i) + t.coefficient i entering * t.stride row entering target)
      (List.nodup_finRange m) (assign t.values entering (t.values.get entering + t.stride row entering target))
    obtain ⟨w, hw, heq⟩ := hself i (List.mem_finRange i)
    have hne : t.basic.get i ≠ entering := fun heq => he ⟨i, heq⟩
    rw [hw _ fun k _ hk heq => hk (h.injective heq), get_assign, if_neg hne] at heq
    rw [pivot, shift, get_assign, if_neg fun heq => hi (h.injective heq)]
    exact heq

theorem Sound.values_pivot_of_not_basic (h : t.Sound) {j : Fin n} (hj : ¬t.IsBasic j) :
    (t.pivot tolerance row entering target).values.get j =
      t.values.get j + if j = entering then t.stride row entering target else 0 := by
  have hother := (get_foldl_assign h.injective
    (fun i values => values.get (t.basic.get i) + t.coefficient i entering * t.stride row entering target)
    (List.nodup_finRange m) (assign t.values entering (t.values.get entering + t.stride row entering target))).1 j
    fun k _ heq => hj ⟨k, heq⟩
  rw [get_assign] at hother
  rw [pivot, shift, get_assign, if_neg fun heq => hj ⟨row, heq.symm⟩]
  refine Eq.trans hother ?_
  split
  · next heq => rw [heq]
  · rw [add_zero]

/-- The new values solve the rows. -/
theorem Sound.solvedBy_values_pivot (h : t.Sound) (he : ¬t.IsBasic entering) (ha : t.coefficient row entering ≠ 0) :
    t.SolvedBy (t.pivot tolerance row entering target).values.get := by
  intro i
  have hterm : ∀ j, t.coefficient i j * (t.pivot tolerance row entering target).values.get j =
      t.coefficient i j * t.values.get j +
        if j = entering then t.coefficient i j * t.stride row entering target else 0 := by
    intro j
    by_cases hj : t.IsBasic j
    · obtain ⟨k, rfl⟩ := hj
      rw [h.cleared i k, zero_mul, zero_mul, if_neg fun heq => he ⟨k, heq⟩, add_zero]
    · rw [h.values_pivot_of_not_basic hj]
      split
      · ring
      · ring
  rw [h.values_pivot_basic he ha, h.solved i, Finset.sum_congr rfl fun j _ => hterm j, Finset.sum_add_distrib,
    Finset.sum_ite_eq' Finset.univ, if_pos (Finset.mem_univ _)]

end Values

/-- An exchange keeps a tableau sound. -/
theorem Sound.pivot (h : t.Sound) (hpivot : tolerance.pivot = 0) (he : ¬t.IsBasic entering)
    (ha : t.coefficient row entering ≠ 0) : (t.pivot tolerance row entering target).Sound := by
  have hleaving : t.basic.get row ≠ entering := fun heq => he ⟨row, heq⟩
  -- The columns of the basic variables vanish in the exchanged row, hence in the others.
  have hself : ∀ k, (t.pivot tolerance row entering target).coefficient row
      ((t.pivot tolerance row entering target).basic.get k) = 0 := by
    intro k
    rw [coefficient_pivot_self, basic_pivot]
    by_cases hk : k = row
    · rw [if_pos hk, if_neg hleaving.symm, if_pos rfl]
    · rw [if_neg hk, if_neg fun heq => hk (h.injective heq), if_neg fun heq => he ⟨k, heq⟩, h.cleared row k, neg_zero,
        zero_div]
  refine ⟨fun i k heq => ?_, fun i k => ?_, (h.solvedBy_pivot_iff hpivot he ha _).mpr (h.solvedBy_values_pivot he ha)⟩
  · rw [basic_pivot, basic_pivot] at heq
    split at heq
    · next hi =>
      split at heq
      · next hk => rw [hi, hk]
      · exact absurd ⟨k, heq.symm⟩ he
    · split at heq
      · exact absurd ⟨i, heq⟩ he
      · exact h.injective heq
  · by_cases hi : i = row
    · rw [hi]
      exact hself k
    · rw [coefficient_pivot_of_ne hpivot hi, hself k, mul_zero, add_zero, basic_pivot]
      by_cases hk : k = row
      · rw [if_pos hk, if_pos rfl]
      · rw [if_neg hk, if_neg fun heq => he ⟨k, heq⟩, h.cleared i k]

end Tableau

end ReluAbstraction
