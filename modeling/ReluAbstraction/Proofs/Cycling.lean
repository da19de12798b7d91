import Mathlib.Tactic
import ReluAbstraction.Proofs.Simplex

/-!
# Termination of the simplex

An exchange takes the violated variable of smallest index and the eligible variable of smallest index. Because of this a
run never comes back to the same basic variables with all others at the same values. Suppose that it did, and let `r` be
the largest variable exchanged in between. When `r` leaves, all smaller variables are within their bounds. When `r` enters,
no smaller variable is eligible, and the larger ones stand where they always stood. So the values with which `r` leaves
would put the variable for which `r` enters even further out of its bounds, although that variable is smaller than `r`.

A variable that is not basic stands where it started or at one of its bounds, so there are finitely many ways to stand, and
every run ends.
-/

namespace ReluAbstraction

namespace Tableau

variable {n m : Nat} {t t₀ t' : Tableau Rat n m} {tolerance : Tolerance Rat} {row : Fin m} {entering j : Fin n}
  {target : Rat} {below : Bool} {ts : Nat → Tableau Rat n m} {length : Nat}

section Standing

/-- Where the variables stand that are not basic. -/
def standing (t : Tableau Rat n m) (j : Fin n) : Option Rat := if t.basic.contains j then none else some (t.values.get j)

theorem standing_of_isBasic (hj : t.IsBasic j) : t.standing j = none := if_pos (contains_basic_iff.mpr hj)

theorem standing_of_not_isBasic (hj : ¬t.IsBasic j) : t.standing j = some (t.values.get j) :=
  if_neg fun h => hj (contains_basic_iff.mp h)

theorem isBasic_iff_standing : t.IsBasic j ↔ t.standing j = none := by
  refine ⟨standing_of_isBasic, fun hnone => ?_⟩
  by_contra hj
  rw [standing_of_not_isBasic hj] at hnone
  cases hnone

/-- The places where a variable can stand in a run from `t₀`. -/
def places (t₀ : Tableau Rat n m) (j : Fin n) : Finset (Option Rat) :=
  {none, some (t₀.values.get j), t₀.lower.get j, t₀.upper.get j}

theorem standing_mem_places (t₀ : Tableau Rat n m) (j : Fin n) : t₀.standing j ∈ t₀.places j := by
  by_cases hj : t₀.IsBasic j
  · simp [standing_of_isBasic hj, places]
  · simp [standing_of_not_isBasic hj, places]

theorem Exchange.isBasic_iff (h : Exchange tolerance t t' row entering target below) (hsound : t.Sound) :
    t'.IsBasic j ↔ j = entering ∨ t.IsBasic j ∧ j ≠ t.basic.get row := by
  obtain rfl := h.result
  exact isBasic_pivot_iff hsound.injective

theorem Exchange.values_leaving (h : Exchange tolerance t t' row entering target below) :
    t'.values.get (t.basic.get row) = target := by
  obtain rfl := h.result
  exact values_pivot_leaving

/-- A variable stays where it is while it is not basic. -/
theorem Exchange.values_of_not_isBasic (h : Exchange tolerance t t' row entering target below) (hsound : t.Sound)
    (hj : ¬t.IsBasic j) (hj' : ¬t'.IsBasic j) : t'.values.get j = t.values.get j := by
  have hne : j ≠ entering := fun heq => hj' ((h.isBasic_iff hsound).mpr (.inl heq))
  obtain rfl := h.result
  rw [hsound.values_pivot_of_not_basic hj, if_neg hne, add_zero]

/-- The variable that is no longer basic is the leaving one. -/
theorem Exchange.eq_leaving (h : Exchange tolerance t t' row entering target below) (hsound : t.Sound) (hj : t.IsBasic j)
    (hj' : ¬t'.IsBasic j) : j = t.basic.get row := by
  by_contra hne
  exact hj' ((h.isBasic_iff hsound).mpr (.inr ⟨hj, hne⟩))

/-- The variable that becomes basic is the entering one. -/
theorem Exchange.eq_entering (h : Exchange tolerance t t' row entering target below) (hsound : t.Sound) (hj : ¬t.IsBasic j)
    (hj' : t'.IsBasic j) : j = entering :=
  ((h.isBasic_iff hsound).mp hj').resolve_right fun hbasic => hj hbasic.1

/-- An exchange leaves each variable at its places. -/
theorem Exchange.standing_mem_places (h : Exchange tolerance t t' row entering target below)
    (hdescends : Descends tolerance.bound t₀ t) (hplaces : ∀ j, t.standing j ∈ t₀.places j) (j : Fin n) :
    t'.standing j ∈ t₀.places j := by
  by_cases hj' : t'.IsBasic j
  · simp [standing_of_isBasic hj', places]
  · by_cases hj : t.IsBasic j
    · rw [standing_of_not_isBasic hj', h.eq_leaving hdescends.sound hj hj', h.values_leaving]
      rcases bound_of_violation? h.violated with ⟨_, hl⟩ | ⟨_, hu⟩
      · rw [hdescends.lower_eq] at hl
        simp [places, hl]
      · rw [hdescends.upper_eq] at hu
        simp [places, hu]
    · have hstays := h.values_of_not_isBasic hdescends.sound hj hj'
      rw [standing_of_not_isBasic hj', hstays, ← standing_of_not_isBasic hj]
      exact hplaces j

end Standing

section Cycles

/-- All variables below the leaving one are within their bounds. -/
theorem Exchange.admits_of_lt (h : Exchange tolerance t t' row entering target below)
    (hdescends : Descends tolerance.bound t₀ t) (hj : j < t.basic.get row) : t₀.Admits tolerance.bound j (t.values.get j) := by
  rw [← hdescends.admits_iff]
  by_cases hbasic : t.IsBasic j
  · obtain ⟨i, rfl⟩ := hbasic
    rw [← violation?_eq_none_iff]
    by_contra hviolated
    exact absurd (h.first i hviolated) (not_le.mpr hj)
  · exact hdescends.within hbasic

/-- A variable that left for a bound and later enters from there moves away from where it was when it left. -/
theorem Exchange.neg_of_returns {u u' : Tableau Rat n m} {row' : Fin m} {entering' : Fin n} {target' : Rat} {below' : Bool}
    (hleaves : Exchange tolerance t t' row entering target below) (henters : Exchange tolerance u u' row' entering' target' below')
    (hpivot : tolerance.pivot = 0) (hbound : tolerance.bound = 0) (ht : Descends tolerance.bound t₀ t)
    (hu : Descends tolerance.bound t₀ u) (hsame : t.basic.get row = entering') (hreturns : u.values.get entering' = target) :
    heading below' * u.coefficient row' entering' * (t.values.get entering' - u.values.get entering') < 0 := by
  have hfar := lt_of_violation? hleaves.violated
  obtain ⟨_, ⟨hpos, hrise⟩ | ⟨hneg, hfall⟩⟩ := (eligible_iff hpivot).mp henters.eligible
  · rw [canRise_iff, hu.upper_eq, ← ht.upper_eq, hreturns, hbound] at hrise
    rcases bound_of_violation? hleaves.violated with ⟨rfl, _⟩ | ⟨rfl, hupper⟩
    · rw [heading_true, hbound, hsame] at hfar
      exact mul_neg_of_pos_of_neg hpos (by linarith)
    · rw [hsame] at hupper
      have hlt := hrise target hupper
      linarith
  · rw [canFall_iff, hu.lower_eq, ← ht.lower_eq, hreturns, hbound] at hfall
    rcases bound_of_violation? hleaves.violated with ⟨rfl, hlower⟩ | ⟨rfl, _⟩
    · rw [hsame] at hlower
      have hlt := hfall target hlower
      linarith
    · rw [heading_false, hbound, hsame] at hfar
      exact mul_neg_of_neg_of_pos hneg (by linarith)

/-- A variable does not leave in `t` and enter from the same place in `u`, in favour of a smaller one, if the larger variables
stand alike. -/
theorem Exchange.not_returns {u u' : Tableau Rat n m} {row' : Fin m} {entering' : Fin n} {target' : Rat} {below' : Bool}
    (hleaves : Exchange tolerance t t' row entering target below) (henters : Exchange tolerance u u' row' entering' target' below')
    (hpivot : tolerance.pivot = 0) (hbound : tolerance.bound = 0) (ht : Descends tolerance.bound t₀ t)
    (hu : Descends tolerance.bound t₀ u) (hsame : t.basic.get row = entering') (hreturns : u.values.get entering' = target)
    (hsmaller : u.basic.get row' < entering')
    (hlarger : ∀ j > entering', ¬u.IsBasic j → t.values.get j = u.values.get j) : False := by
  have hsolved : u.SolvedBy t.values.get := (hu.solvedBy_iff _).mpr ((ht.solvedBy_iff _).mp ht.sound.solved)
  have hsum : heading below' * (t.values.get (u.basic.get row') - u.values.get (u.basic.get row')) =
      ∑ j, heading below' * u.coefficient row' j * (t.values.get j - u.values.get j) := by
    rw [hsolved row', hu.sound.solved row', ← Finset.sum_sub_distrib, Finset.mul_sum]
    exact Finset.sum_congr rfl fun j _ => by ring
  have hadmits : ∀ j < entering', u.Admits 0 j (t.values.get j) := by
    intro j hj
    rw [← hbound, hu.admits_iff]
    exact hleaves.admits_of_lt ht (hsame ▸ hj)
  have hentering := hleaves.neg_of_returns henters hpivot hbound ht hu hsame hreturns
  -- In the row of the variable that is repaired in `u`, no variable brings it closer, and the entering one takes it away.
  have hlt : ∑ j, heading below' * u.coefficient row' j * (t.values.get j - u.values.get j) < 0 := by
    refine Finset.sum_neg' (fun j _ => ?_) ⟨entering', Finset.mem_univ _, hentering⟩
    by_cases hj : u.IsBasic j
    · obtain ⟨k, rfl⟩ := hj
      rw [hu.sound.cleared row' k, mul_zero, zero_mul]
    · rcases lt_trichotomy j entering' with hlt | rfl | hgt
      · exact nonpos_of_not_eligible hpivot hbound hj (henters.least j hlt) (hadmits j hlt)
      · exact hentering.le
      · rw [hlarger j hgt hj, sub_self, mul_zero]
  have hfar := lt_of_violation? henters.violated
  have hnear := nonneg_of_violation? henters.violated (hadmits _ hsmaller)
  rw [hbound] at hfar
  linarith

/-- The tableaux of a run, one exchange after another. -/
def Trace (tolerance : Tolerance Rat) (ts : Nat → Tableau Rat n m) (length : Nat) : Prop :=
  ∀ k < length, Pivots tolerance (ts k) (ts (k + 1))

theorem Trace.reaches (h : Trace tolerance ts length) {k : Nat} (hk : k ≤ length) :
    Relation.ReflTransGen (Pivots tolerance) (ts 0) (ts k) := by
  induction k with
  | zero => exact .refl
  | succ k ih => exact (ih (Nat.le_of_succ_le hk)).tail (h k hk)

/-- One exchange before a run. -/
theorem Trace.cons (h : Trace tolerance ts length) {t : Tableau Rat n m} (hfirst : Pivots tolerance t (ts 0)) :
    Trace tolerance (fun k => k.casesOn t ts) (length + 1) := by
  intro k hk
  cases k with
  | zero => exact hfirst
  | succ k => exact h k (Nat.lt_of_succ_lt_succ hk)

theorem exists_trace {t t' : Tableau Rat n m} (h : Relation.ReflTransGen (Pivots tolerance) t t') :
    ∃ ts length, ts 0 = t ∧ Trace tolerance ts length ∧ ts length = t' := by
  induction h using Relation.ReflTransGen.head_induction_on with
  | refl => exact ⟨fun _ => t', 0, rfl, fun _ hk => absurd hk (Nat.not_lt_zero _), rfl⟩
  | head hfirst _ ih =>
    obtain ⟨ts, length, rfl, htrace, hlast⟩ := ih
    exact ⟨_, length + 1, rfl, htrace.cons hfirst, hlast⟩

/-- A variable stays where it is for as long as it is not basic. -/
theorem Trace.values_eq (h : Trace tolerance ts length) (hsound : ∀ k ≤ length, (ts k).Sound) {i k : Nat} (hik : i ≤ k)
    (hk : k ≤ length) (hout : ∀ l, i ≤ l → l ≤ k → ¬(ts l).IsBasic j) : (ts k).values.get j = (ts i).values.get j := by
  induction k, hik using Nat.le_induction with
  | base => rfl
  | succ k hik ih =>
    obtain ⟨row, entering, target, below, hexchange⟩ := (h k hk).exchange
    rw [hexchange.values_of_not_isBasic (hsound k (by omega)) (hout k hik (by omega)) (hout _ (by omega) le_rfl)]
    exact ih (by omega) fun l hil hlk => hout l hil (by omega)

theorem exists_last {P : Nat → Prop} {a b : Nat} (hab : a ≤ b) (ha : P a) (hb : ¬P b) :
    ∃ i, a ≤ i ∧ i < b ∧ P i ∧ ∀ x, i < x → x ≤ b → ¬P x := by
  classical
  have hspec := Nat.findGreatest_spec hab ha
  have hlt : Nat.findGreatest P b < b := (Nat.findGreatest_le b).lt_of_ne fun heq => hb (heq ▸ hspec)
  exact ⟨_, Nat.le_findGreatest hab ha, hlt, hspec, fun x hx hxb => Nat.findGreatest_is_greatest hx hxb⟩

theorem exists_first {P : Nat → Prop} {a b : Nat} (hab : a ≤ b) (ha : ¬P a) (hb : P b) :
    ∃ l, a ≤ l ∧ l < b ∧ P (l + 1) ∧ ∀ x, a ≤ x → x ≤ l → ¬P x := by
  classical
  have hex : ∃ y, P (a + y) := ⟨b - a, by rwa [Nat.add_sub_cancel' hab]⟩
  have hpos : Nat.find hex ≠ 0 := fun hzero => ha (by simpa [hzero] using Nat.find_spec hex)
  obtain ⟨l, hl⟩ := Nat.exists_eq_add_one_of_ne_zero hpos
  have hle : Nat.find hex ≤ b - a := Nat.find_min' hex (by rwa [Nat.add_sub_cancel' hab])
  refine ⟨a + l, by omega, by omega, ?_, fun x hax hxl hx => ?_⟩
  · rw [Nat.add_assoc, ← hl]
    exact Nat.find_spec hex
  · exact Nat.find_min hex (m := x - a) (by omega) (by rwa [Nat.add_sub_cancel' hax])

/-- What changes along the way and is alike at the beginning and at the end ceases to be true once and becomes true once. In
between it is not true, or else it is not true before it first becomes so and after it last ceases to be. -/
theorem exists_ceases_becomes {P : Nat → Prop} {length k : Nat} (hk : k < length) (hchanges : ¬(P k ↔ P (k + 1)))
    (hends : P 0 ↔ P length) : ∃ i < length, ∃ l < length, P i ∧ ¬P (i + 1) ∧ ¬P l ∧ P (l + 1) ∧
      ((i < l ∧ ∀ x, i < x → x ≤ l → ¬P x) ∨ ((∀ x ≤ l, ¬P x) ∧ ∀ x, i < x → x ≤ length → ¬P x)) := by
  have hboth : (∃ z ≤ length, P z) ∧ ∃ z ≤ length, ¬P z := by
    by_cases hPk : P k
    · exact ⟨⟨k, hk.le, hPk⟩, k + 1, hk, fun hnext => hchanges (iff_of_true hPk hnext)⟩
    · refine ⟨⟨k + 1, hk, ?_⟩, k, hk.le, hPk⟩
      by_contra hnext
      exact hchanges (iff_of_false hPk hnext)
  obtain ⟨⟨y, hy, hPy⟩, z, hz, hPz⟩ := hboth
  by_cases hstart : P 0
  · obtain ⟨i, _, hiz, hPi, hafter⟩ := exists_last (Nat.zero_le z) hstart hPz
    have hnext : ¬P (i + 1) := hafter _ (Nat.lt_succ_self i) hiz
    obtain ⟨l, hil, hl, hPl, hbefore⟩ := exists_first (hiz.trans_le hz) hnext (hends.mp hstart)
    exact ⟨i, hiz.trans_le hz, l, hl, hPi, hnext, hbefore l hil le_rfl, hPl, .inl ⟨hil, hbefore⟩⟩
  · obtain ⟨l, _, hl, hPl, hbefore⟩ := exists_first (Nat.zero_le y) hstart hPy
    obtain ⟨i, _, hi, hPi, hafter⟩ := exists_last hy hPy fun hend => hstart (hends.mpr hend)
    exact ⟨i, hi, l, by omega, hPi, hafter _ (by omega) hi, hbefore l (Nat.zero_le l) le_rfl, hPl,
      .inr ⟨fun x hx => hbefore x (Nat.zero_le x) hx, hafter⟩⟩

/-- Variable `j` is exchanged in step `k`. -/
def Changes (ts : Nat → Tableau Rat n m) (k : Nat) (j : Fin n) : Prop := ¬((ts k).IsBasic j ↔ (ts (k + 1)).IsBasic j)

/-- Of the variables that are exchanged on the way, one is the largest. -/
theorem Trace.exists_largest (h : Trace tolerance ts length) (hpivot : tolerance.pivot = 0) (hsound : (ts 0).Sound)
    (hlength : 0 < length) :
    ∃ r, (∃ k < length, Changes ts k r) ∧ ∀ j, (∃ k < length, Changes ts k j) → j ≤ r := by
  obtain ⟨row, entering, target, below, hexchange⟩ := (h 0 hlength).exchange
  have henters : (ts 1).IsBasic entering := (hexchange.isBasic_iff hsound).mpr (.inl rfl)
  have hchanges : Changes ts 0 entering := fun hiff => hexchange.not_isBasic hpivot (hiff.mpr henters)
  exact Set.exists_max_image {j | ∃ k < length, Changes ts k j} id (Set.toFinite _) ⟨entering, 0, hlength, hchanges⟩

theorem isBasic_iff_of_not_changes (hnever : ∀ k < length, ¬Changes ts k j) {k : Nat} (hk : k ≤ length) :
    (ts k).IsBasic j ↔ (ts 0).IsBasic j := by
  induction k with
  | zero => exact .rfl
  | succ k ih => exact (not_not.mp (hnever k hk)).symm.trans (ih (Nat.le_of_succ_le hk))

/-- A variable that is never exchanged and not basic stands in one place. -/
theorem Trace.values_of_not_changes (h : Trace tolerance ts length) (hsound : ∀ k ≤ length, (ts k).Sound)
    (hnever : ∀ k < length, ¬Changes ts k j) {i l : Nat} (hi : i ≤ length) (hl : l ≤ length) (hj : ¬(ts l).IsBasic j) :
    (ts i).values.get j = (ts l).values.get j := by
  have hstart : ¬(ts 0).IsBasic j := (isBasic_iff_of_not_changes hnever hl).not.mp hj
  have hout : ∀ k ≤ length, ¬(ts k).IsBasic j := fun k hk => (isBasic_iff_of_not_changes hnever hk).not.mpr hstart
  rw [h.values_eq hsound (Nat.zero_le i) hi fun x _ hx => hout x (by omega),
    h.values_eq hsound (Nat.zero_le l) hl fun x _ hx => hout x (by omega)]

/-- In a run that ends where it began, a variable that is not basic from one step to another stands at the second where it
stood at the first, also if the run ends and begins anew in between. -/
theorem Trace.values_of_returns (h : Trace tolerance ts length) (hsound : ∀ k ≤ length, (ts k).Sound)
    (hends : (ts 0).standing = (ts length).standing) {i l : Nat} (hi : i < length) (hl : l < length)
    (hout : (i < l ∧ ∀ x, i < x → x ≤ l → ¬(ts x).IsBasic j) ∨
      ((∀ x ≤ l, ¬(ts x).IsBasic j) ∧ ∀ x, i < x → x ≤ length → ¬(ts x).IsBasic j)) :
    (ts l).values.get j = (ts (i + 1)).values.get j := by
  rcases hout with ⟨hil, hbetween⟩ | ⟨hbefore, hafter⟩
  · exact h.values_eq hsound hil hl.le hbetween
  · have hstand : (ts 0).values.get j = (ts length).values.get j := by
      have hsame := congrFun hends j
      rw [standing_of_not_isBasic (hbefore 0 (Nat.zero_le l)), standing_of_not_isBasic (hafter length hi le_rfl)] at hsame
      exact Option.some.inj hsame
    rw [h.values_eq hsound (Nat.zero_le l) hl.le fun x _ hx => hbefore x hx, hstand, h.values_eq hsound hi le_rfl hafter]

/-- A run does not come back to where it stood. -/
theorem Trace.standing_ne (h : Trace tolerance ts length) (hpivot : tolerance.pivot = 0) (hbound : tolerance.bound = 0)
    (hdescends : ∀ k ≤ length, Descends tolerance.bound t₀ (ts k)) (hlength : 0 < length) :
    (ts 0).standing ≠ (ts length).standing := by
  intro hends
  have hsound : ∀ k ≤ length, (ts k).Sound := fun k hk => (hdescends k hk).sound
  obtain ⟨r, ⟨k, hk, hchanges⟩, hlargest⟩ := h.exists_largest hpivot (hsound 0 (Nat.zero_le _)) hlength
  have hstatus : (ts 0).IsBasic r ↔ (ts length).IsBasic r := by rw [isBasic_iff_standing, isBasic_iff_standing, hends]
  -- The largest variable leaves in step `i` and enters in step `l`, and is not basic from the one to the other.
  obtain ⟨i, hi, l, hl, hin, hout, hout', hin', hbetween⟩ :=
    exists_ceases_becomes (P := fun k => (ts k).IsBasic r) hk hchanges hstatus
  obtain ⟨row, entering, target, below, hleaves⟩ := (h i hi).exchange
  obtain ⟨row', entering', target', below', henters⟩ := (h l hl).exchange
  have hleaving : r = (ts i).basic.get row := hleaves.eq_leaving (hsound i hi.le) hin hout
  obtain rfl : r = entering' := henters.eq_entering (hsound l hl.le) hout' hin'
  have hreturns : (ts l).values.get r = target := by
    rw [h.values_of_returns hsound hends hi hl hbetween, hleaving]
    exact hleaves.values_leaving
  have hsmaller : (ts l).basic.get row' < r := by
    have hchanges : Changes ts l ((ts l).basic.get row') := by
      intro hiff
      rcases (henters.isBasic_iff (hsound l hl.le)).mp (hiff.mp ⟨row', rfl⟩) with heq | ⟨_, hne⟩
      · exact hout' ⟨row', heq⟩
      · exact hne rfl
    exact (hlargest _ ⟨l, hl, hchanges⟩).lt_of_ne fun heq => hout' ⟨row', heq⟩
  have hlarger : ∀ j > r, ¬(ts l).IsBasic j → (ts i).values.get j = (ts l).values.get j := by
    intro j hj hbasic
    refine h.values_of_not_changes hsound (fun k hk hchanges => ?_) hi.le hl.le hbasic
    exact absurd (hlargest j ⟨k, hk, hchanges⟩) (not_le.mpr hj)
  exact hleaves.not_returns henters hpivot hbound (hdescends i hi.le) (hdescends l hl.le) hleaving.symm hreturns hsmaller
    hlarger

end Cycles

section Ends

variable {limit : Nat} {answer : Option (Tableau Rat n m)}

/-- A run gives an answer, or it makes as many exchanges as it may. -/
theorem run_or_trace (tolerance : Tolerance Rat) (limit : Nat) (t : Tableau Rat n m) :
    (∃ answer, run tolerance limit t = some answer) ∨ ∃ ts, ts 0 = t ∧ Trace tolerance ts limit := by
  induction limit generalizing t with
  | zero => exact .inr ⟨fun _ => t, rfl, fun k hk => absurd hk (Nat.not_lt_zero k)⟩
  | succ limit ih =>
    rw [run]
    cases hstep : t.step tolerance with
    | feasible => exact .inl ⟨_, rfl⟩
    | infeasible => exact .inl ⟨_, rfl⟩
    | pivoted next =>
      refine (ih next).imp id ?_
      rintro ⟨ts, rfl, htrace⟩
      exact ⟨_, rfl, htrace.cons hstep⟩

/-- More exchanges do not change an answer. -/
theorem run_mono (h : run tolerance limit t = some answer) {limit' : Nat} (hle : limit ≤ limit') :
    run tolerance limit' t = some answer := by
  induction limit generalizing t limit' with
  | zero => cases h
  | succ limit ih =>
    obtain ⟨limit', rfl⟩ := Nat.exists_eq_add_of_le' (Nat.zero_lt_of_lt hle)
    rw [run] at h ⊢
    cases hstep : t.step tolerance with
    | feasible => rwa [hstep] at h
    | infeasible => rwa [hstep] at h
    | pivoted next =>
      rw [hstep] at h
      exact ih h (by omega)

theorem Trace.standing_mem_places (h : Trace tolerance ts length)
    (hdescends : ∀ k ≤ length, Descends tolerance.bound (ts 0) (ts k)) {k : Nat} (hk : k ≤ length) :
    (ts k).standing ∈ Fintype.piFinset (ts 0).places := by
  rw [Fintype.mem_piFinset]
  induction k with
  | zero => exact Tableau.standing_mem_places (ts 0)
  | succ k ih =>
    obtain ⟨row, entering, target, below, hexchange⟩ := (h k hk).exchange
    exact hexchange.standing_mem_places (hdescends k (by omega)) (ih (by omega))

/-- The variables have at most four places each. -/
theorem card_places_le (t₀ : Tableau Rat n m) : (Fintype.piFinset t₀.places).card ≤ 4 ^ n := by
  rw [Fintype.card_piFinset]
  calc ∏ j, (t₀.places j).card ≤ ∏ _j : Fin n, 4 := Finset.prod_le_prod' fun j _ => Finset.card_le_four
    _ = 4 ^ n := by rw [Finset.prod_const, Finset.card_univ, Fintype.card_fin]

variable {p : LinearProgram Rat n} {us : Nat → Tableau Rat (n + p.rows.length) p.rows.length}

theorem Trace.descends_ofProgram (h : Trace tolerance us length) (hstart : us 0 = ofProgram p) (hpivot : tolerance.pivot = 0)
    (hbound : tolerance.bound = 0) (hcrossed : (ofProgram p).crossed tolerance = false) {k : Nat} (hk : k ≤ length) :
    Descends tolerance.bound (ofProgram p) (us k) := by
  have hroomy := roomy_of_not_crossed hcrossed
  have hreach := h.reaches hk
  rw [hstart] at hreach
  exact (Tableau.descends_ofProgram hbound.ge hroomy).run hpivot hbound.ge hroomy hreach

/-- A run never stands twice alike. -/
theorem Trace.standing_ne_of_lt (h : Trace tolerance us length) (hstart : us 0 = ofProgram p) (hpivot : tolerance.pivot = 0)
    (hbound : tolerance.bound = 0) (hcrossed : (ofProgram p).crossed tolerance = false) {i k : Nat} (hik : i < k)
    (hk : k ≤ length) : (us i).standing ≠ (us k).standing := by
  obtain ⟨d, rfl⟩ := Nat.exists_eq_add_of_le hik.le
  have hpart : Trace tolerance (fun k => us (i + k)) d := fun k hk => h (i + k) (by omega)
  exact hpart.standing_ne hpivot hbound
    (fun k hk => h.descends_ofProgram hstart hpivot hbound hcrossed (by omega)) (by omega)

/-- A run gives an answer before it has stood at all places. -/
theorem exists_run (hpivot : tolerance.pivot = 0) (hbound : tolerance.bound = 0)
    (hcrossed : (ofProgram p).crossed tolerance = false) :
    ∃ answer, run tolerance (4 ^ (n + p.rows.length)) (ofProgram p) = some answer := by
  refine (run_or_trace tolerance _ (ofProgram p)).resolve_right ?_
  rintro ⟨us, hstart, htrace⟩
  have hplaces : ∀ k ∈ Finset.range (4 ^ (n + p.rows.length) + 1),
      (us k).standing ∈ Fintype.piFinset (ofProgram p).places := by
    intro k hk
    rw [← hstart]
    refine htrace.standing_mem_places (fun k hk => ?_) (Nat.lt_succ_iff.mp (Finset.mem_range.mp hk))
    rw [hstart]
    exact htrace.descends_ofProgram hstart hpivot hbound hcrossed hk
  have hcard : (Fintype.piFinset (ofProgram p).places).card < (Finset.range (4 ^ (n + p.rows.length) + 1)).card := by
    rw [Finset.card_range]
    exact Nat.lt_succ_of_le (card_places_le _)
  obtain ⟨i, hi, k, hk, hne, heq⟩ := Finset.exists_ne_map_eq_of_card_lt_of_maps_to hcard hplaces
  rw [Finset.mem_range, Nat.lt_succ_iff] at hi hk
  rcases lt_or_gt_of_ne hne with hlt | hgt
  · exact htrace.standing_ne_of_lt hstart hpivot hbound hcrossed hlt hk heq
  · exact htrace.standing_ne_of_lt hstart hpivot hbound hcrossed hgt hi heq.symm

end Ends

end Tableau

namespace LinearProgram

variable {n : Nat} {tolerance : Tolerance Rat}

open Tableau

/-- With enough exchanges there is an answer. -/
theorem exists_solveWithin (hpivot : tolerance.pivot = 0) (hbound : tolerance.bound = 0) (p : LinearProgram Rat n) :
    ∃ answer, ∀ limit ≥ 4 ^ (n + p.rows.length), p.solveWithin tolerance limit = .ok answer := by
  unfold solveWithin
  dsimp only
  cases hcrossed : (ofProgram p).crossed tolerance with
  | true => exact ⟨none, fun _ _ => rfl⟩
  | false =>
    obtain ⟨final, hrun⟩ := exists_run hpivot hbound hcrossed
    cases final with
    | none => exact ⟨none, fun limit hlimit => by rw [run_mono hrun hlimit]; rfl⟩
    | some t => exact ⟨some _, fun limit hlimit => by rw [run_mono hrun hlimit]; rfl⟩

/-- The exchanges come to an end, and no two tableaux on the way agree in their basic variables and in the values of all
others. Unless bounds cross, the answer is that of the tableau in which they end. -/
theorem pivoting_ends (hpivot : tolerance.pivot = 0) (hbound : tolerance.bound = 0) (p : LinearProgram Rat n) :
    (∃ answer, (∀ limit ≥ 4 ^ (n + p.rows.length), p.solveWithin tolerance limit = .ok answer) ∧
      ((ofProgram p).crossed tolerance = true → answer = none) ∧
      ((ofProgram p).crossed tolerance = false → ∃ ts length, ts 0 = ofProgram p ∧ Trace tolerance ts length ∧
        p.AnsweredBy tolerance (ts length) answer)) ∧
      ((ofProgram p).crossed tolerance = false → ∀ ts length, ts 0 = ofProgram p → Trace tolerance ts length →
        ∀ i k, i < k → k ≤ length → (ts i).standing ≠ (ts k).standing) := by
  obtain ⟨answer, hanswer⟩ := exists_solveWithin hpivot hbound p
  refine ⟨⟨answer, hanswer, ?_⟩, fun hcrossed _ _ hstart htrace _ _ hik hk =>
    htrace.standing_ne_of_lt hstart hpivot hbound hcrossed hik hk⟩
  rcases solveWithin_cases (hanswer _ le_rfl) with ⟨hcrossed, hnone⟩ | ⟨hcrossed, t, hreach, hend⟩
  · exact ⟨fun _ => hnone, fun hnot => by cases hcrossed.symm.trans hnot⟩
  · obtain ⟨ts, length, hstart, htrace, rfl⟩ := exists_trace hreach
    exact ⟨fun hcross => (by cases hcrossed.symm.trans hcross), fun _ => ⟨ts, length, hstart, htrace, hend⟩⟩

/-- The region `2 ≤ x + y` and `x - y ≤ 1` with `0 ≤ x` and `0 ≤ y`. -/
def wedge : LinearProgram Rat 2 :=
  ⟨.replicate 2 (some 0), .replicate 2 none,
    [⟨(List.finRange 2).zip [1, 1], some 2, none⟩, ⟨(List.finRange 2).zip [1, -1], none, some 1⟩]⟩

theorem pivoting_ends_wedge : (∃ answer, (∀ limit ≥ 4 ^ 4, wedge.solveWithin .exact limit = .ok answer) ∧
      ∃ ts length, ts 0 = ofProgram wedge ∧ Trace .exact ts length ∧ wedge.AnsweredBy .exact (ts length) answer) ∧
    ∃ ts, ts 0 = ofProgram wedge ∧ Trace .exact ts 2 ∧ (ts 0).standing ≠ (ts 2).standing := by
  obtain ⟨⟨answer, hanswer, _, hend⟩, hdiffer⟩ := @pivoting_ends 2 .exact rfl rfl wedge
  have hrun : run .exact 2 (ofProgram wedge) = none := by decide +kernel
  have hcrossed : (ofProgram wedge).crossed .exact = false := by decide +kernel
  obtain ⟨ts, hstart, htrace⟩ : ∃ ts, ts 0 = ofProgram wedge ∧ Trace .exact ts 2 := by
    refine (run_or_trace .exact 2 (ofProgram wedge)).resolve_left ?_
    rintro ⟨answer, hanswer⟩
    cases hrun.symm.trans hanswer
  exact ⟨⟨answer, hanswer, hend hcrossed⟩, ts, hstart, htrace, hdiffer hcrossed ts 2 hstart htrace 0 2 (by decide) le_rfl⟩

end LinearProgram

end ReluAbstraction
