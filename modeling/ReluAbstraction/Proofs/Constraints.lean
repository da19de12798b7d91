import ReluAbstraction.Property
import ReluAbstraction.Proofs.Variables

/-!
# The constraints of a query as a collection

Constraints are removed by value, and the last one takes the freed place. Up to order this drops one entry. A list that has
one entry for each of some arnodes keeps to that as arnodes come and go, provided that a value finds the entry of its own
arnode.
-/

namespace ReluAbstraction

section Lists

variable {ι β : Type} {f : ι → Option β} {xs : List β}

/-- Up to order, removing by value drops the first match. -/
theorem perm_swapRemove? (p : β → Bool) (xs : List β) : ((swapRemove? p xs).getD xs).Perm (xs.eraseP p) := by
  induction xs with
  | nil => exact .refl _
  | cons x rest ih =>
    unfold swapRemove?
    by_cases hx : p x = true
    · rw [if_pos hx, List.eraseP_cons_of_pos hx]
      rcases List.eq_nil_or_concat rest with rfl | ⟨front, last, rfl⟩
      · exact .refl _
      · simpa using (List.perm_append_singleton last front).symm
    · rw [if_neg hx, List.eraseP_cons_of_neg hx]
      cases hrest : swapRemove? p rest with
      | none =>
        rw [hrest] at ih
        exact ih.cons x
      | some ys =>
        rw [hrest] at ih
        exact ih.cons x

/-- The list has one entry for each `x` with a value, namely this value. -/
def Enumerates (f : ι → Option β) (xs : List β) : Prop :=
  ∃ ids : List ι, ids.Nodup ∧ (∀ x, x ∈ ids ↔ (f x).isSome) ∧ xs.Perm (ids.filterMap f)

theorem enumerates_nil (h : ∀ x, f x = none) : Enumerates f [] := ⟨[], .nil, by simp [h], .refl _⟩

namespace Enumerates

theorem congr {f' : ι → Option β} (h : Enumerates f xs) (hf : ∀ x, f' x = f x) : Enumerates f' xs := by
  obtain rfl : f' = f := funext hf
  exact h

theorem perm {ys : List β} (h : Enumerates f xs) (hperm : ys.Perm xs) : Enumerates f ys := by
  obtain ⟨ids, hnodup, hids, hxs⟩ := h
  exact ⟨ids, hnodup, hids, hperm.trans hxs⟩

theorem mem_iff (h : Enumerates f xs) {y : β} : y ∈ xs ↔ ∃ x, f x = some y := by
  obtain ⟨ids, _, hids, hxs⟩ := h
  rw [hxs.mem_iff, List.mem_filterMap]
  constructor
  · rintro ⟨x, _, hx⟩
    exact ⟨x, hx⟩
  · rintro ⟨x, hx⟩
    exact ⟨x, (hids x).mpr (by simp [hx]), hx⟩

/-- The entries in their order, each with the one that it belongs to. -/
theorem exists_forall₂ (h : Enumerates f xs) :
    ∃ ids : List ι, ids.Nodup ∧ (∀ x, x ∈ ids ↔ (f x).isSome) ∧ List.Forall₂ (fun x y => f x = some y) ids xs := by
  obtain ⟨ids, hnodup, hids, hxs⟩ := h
  have hpairs : List.Forall₂ (fun y x => f x = some y) (ids.filterMap f) ids := by
    have hsome : ∀ x ∈ ids, (f x).isSome := fun x hx => (hids x).mp hx
    clear hids hxs hnodup
    induction ids with
    | nil => exact .nil
    | cons x rest ih =>
      obtain ⟨y, hy⟩ := Option.isSome_iff_exists.mp (hsome x (by simp))
      rw [List.filterMap_cons_some hy]
      exact .cons hy (ih fun z hz => hsome z (by simp [hz]))
  obtain ⟨ids', hforall, hperm⟩ := List.perm_comp_forall₂ hxs hpairs
  exact ⟨ids', hperm.symm.nodup hnodup, fun x => by rw [hperm.mem_iff, hids], hforall.flip⟩

variable [DecidableEq ι]

/-- One more entry. -/
theorem insert {x : ι} (h : Enumerates f xs) (hx : f x = none) (y : β) :
    Enumerates (fun z => if z = x then some y else f z) (xs ++ [y]) := by
  obtain ⟨ids, hnodup, hids, hxs⟩ := h
  have hnew : x ∉ ids := by simp [hids, hx]
  refine ⟨ids ++ [x], ?_, fun z => ?_, ?_⟩
  · rw [List.nodup_append]
    refine ⟨hnodup, List.nodup_singleton x, fun z hz w hw => ?_⟩
    rw [List.mem_singleton.mp hw]
    rintro rfl
    exact hnew hz
  · by_cases hz : z = x
    · simp [hz]
    · simp [hz, hids]
  · have hold : ids.filterMap (fun z => if z = x then some y else f z) = ids.filterMap f := by
      refine List.filterMap_congr fun z hz => ?_
      rw [if_neg]
      rintro rfl
      exact hnew hz
    rw [List.filterMap_append, hold]
    simpa using hxs.append_right [y]

/-- One entry less, if the value finds no other entry. -/
theorem erase {x : ι} {y : β} (h : Enumerates f xs) (hx : f x = some y) {p : β → Bool}
    (hp : ∀ z ∈ xs, p z = true ↔ z = y) : Enumerates (fun z => if z = x then none else f z) (xs.eraseP p) := by
  classical
  obtain ⟨ids, hnodup, hids, hxs⟩ := h
  have hmem : x ∈ ids := by simp [hids, hx]
  have hrest : ((ids.erase x).filterMap fun z => if z = x then none else f z) = (ids.erase x).filterMap f := by
    refine List.filterMap_congr fun z hz => ?_
    rw [if_neg (hnodup.mem_erase_iff.mp hz).1]
  have hvalues : xs.Perm (y :: (ids.erase x).filterMap f) := by
    have hperm := hxs.trans ((List.perm_cons_erase hmem).filterMap f)
    rwa [List.filterMap_cons_some hx] at hperm
  have herase : xs.eraseP p = xs.erase y := by
    rw [List.erase_eq_eraseP]
    clear hxs hvalues
    induction xs with
    | nil => rfl
    | cons z rest ih =>
      have hz : p z = (y == z) := by
        rw [Bool.eq_iff_iff, hp z (by simp), beq_iff_eq, eq_comm]
      rw [List.eraseP_cons, List.eraseP_cons, hz, ih fun w hw => hp w (by simp [hw])]
  refine ⟨ids.erase x, hnodup.erase x, fun z => ?_, ?_⟩
  · rw [hnodup.mem_erase_iff]
    by_cases hz : z = x
    · simp [hz]
    · simp [hz, hids]
  · rw [herase, hrest]
    simpa using hvalues.erase y

end Enumerates

end Lists

variable {α : Type}

namespace Query

/-- A variable has the given bound. -/
def HasBound (q : Query α) (v : VarId) : Bound α → Prop
  | .lower x => q.lower.get? v = some x
  | .upper x => q.upper.get? v = some x

/-- The variable occurs in a bound, an equation or a ReLU. -/
def Mentions (q : Query α) (v : VarId) : Prop :=
  (∃ bound, q.HasBound v bound) ∨ (∃ e ∈ q.equations, ∃ t ∈ e.addends, t.var = v) ∨ ∃ r ∈ q.relus, v = r.input ∨ v = r.output

/-- A bound that is there after one was set is this one or was there before. -/
theorem hasBound_of_setBound {q : Query α} {v w : VarId} {bound bound' : Bound α}
    (h : (q.setBound v bound).HasBound w bound') : w = v ∧ bound' = bound ∨ q.HasBound w bound' := by
  cases bound <;> cases bound'
  case lower.lower x y =>
    simp only [setBound, setLower, HasBound, SortedMap.get?_insert] at h
    split at h
    · next hw => exact .inl ⟨hw, by rw [Option.some.inj h]⟩
    · exact .inr h
  case upper.upper x y =>
    simp only [setBound, setUpper, HasBound, SortedMap.get?_insert] at h
    split at h
    · next hw => exact .inl ⟨hw, by rw [Option.some.inj h]⟩
    · exact .inr h
  all_goals exact .inr h

theorem hasBound_setBound_self (q : Query α) (v : VarId) (bound : Bound α) : (q.setBound v bound).HasBound v bound := by
  cases bound <;> simp [setBound, setLower, setUpper, HasBound, SortedMap.get?_insert]

/-- The bounds are on the same side of a variable, at different values. -/
def Clash : Bound α → Bound α → Prop
  | .lower x, .lower y => x ≠ y
  | .upper x, .upper y => x ≠ y
  | _, _ => False

/-- A bound stays unless another is set on the same side of the variable. -/
theorem HasBound.setBound {q : Query α} {w : VarId} {bound' : Bound α} (h : q.HasBound w bound') {v : VarId}
    (bound : Bound α) (hclash : w = v → ¬Clash bound' bound) : (q.setBound v bound).HasBound w bound' := by
  cases bound <;> cases bound'
  case lower.lower x y =>
    simp only [Query.setBound, setLower, HasBound, SortedMap.get?_insert]
    split
    · next hw => rw [not_not.mp (hclash hw)]
    · exact h
  case upper.upper x y =>
    simp only [Query.setBound, setUpper, HasBound, SortedMap.get?_insert]
    split
    · next hw => rw [not_not.mp (hclash hw)]
    · exact h
  all_goals exact h

theorem hasBound_removeBounds {q : Query α} {v w : VarId} {bound : Bound α} :
    (q.removeBounds v).HasBound w bound ↔ w ≠ v ∧ q.HasBound w bound := by
  cases bound <;> simp only [removeBounds, HasBound, SortedMap.get?_erase] <;> split <;> simp_all

theorem relus_setBound (q : Query α) (v : VarId) (bound : Bound α) :
    (q.setBound v bound).relus = q.relus ∧ (q.setBound v bound).equations = q.equations := by cases bound <;> exact ⟨rfl, rfl⟩

/-- Only the ReLUs change when one is removed. -/
theorem removeRelu_eq (q : Query α) (r : Relu) :
    q.removeRelu r = { q with relus := (swapRemove? (· = r) q.relus).getD q.relus } := by
  unfold removeRelu removeRelu?
  cases swapRemove? (· = r) q.relus <;> rfl

/-- Only the equations change when one is removed. -/
theorem removeEquation_eq [BEq α] (q : Query α) (e : Equation α) :
    q.removeEquation e = { q with equations := (swapRemove? (· == e) q.equations).getD q.equations } := by
  unfold removeEquation removeEquation?
  cases swapRemove? (· == e) q.equations <;> rfl

end Query

namespace Equation

variable [BEq α]

/-- The variable of the first term. -/
def headVar? (e : Equation α) : Option VarId := e.addends.head?.map Addend.var

/-- Equations that compare equal start with the same variable. -/
theorem headVar?_of_beq {e e' : Equation α} (h : (e == e') = true) : e.headVar? = e'.headVar? := by
  obtain ⟨addends, scalar⟩ := e
  obtain ⟨addends', scalar'⟩ := e'
  have haddends : (addends == addends') = true := (Bool.and_eq_true_iff.mp h).1
  cases addends with
  | nil =>
    cases addends' with
    | nil => rfl
    | cons => cases haddends
  | cons t rest =>
    cases addends' with
    | nil => cases haddends
    | cons t' rest' =>
      rw [List.cons_beq_cons, Bool.and_eq_true_iff] at haddends
      have hvar : (t.var == t'.var) = true := (Bool.and_eq_true_iff.mp haddends.1).2
      simp [headVar?, beq_iff_eq.mp hvar]

/-- An equation compares equal to itself if its numbers do. -/
theorem beq_self {e : Equation α} (haddends : ∀ t ∈ e.addends, (t.coefficient == t.coefficient) = true)
    (hscalar : (e.scalar == e.scalar) = true) : (e == e) = true := by
  obtain ⟨addends, scalar⟩ := e
  refine Bool.and_eq_true_iff.mpr ⟨?_, hscalar⟩
  clear hscalar
  induction addends with
  | nil => rfl
  | cons t rest ih =>
    rw [List.cons_beq_cons, Bool.and_eq_true_iff]
    refine ⟨Bool.and_eq_true_iff.mpr ⟨haddends t (by simp), ?_⟩, ih fun t' ht' => haddends t' (by simp [ht'])⟩
    exact beq_self_eq_true t.var

end Equation

namespace Encoding

variable [BEq α] {e : Encoding α}

theorem equations_releaseVars (e : Encoding α) (vars : VarPair) (equation : Option (Equation α)) :
    (e.releaseVars vars equation).query.equations = (e.dropEquation equation).query.equations := by
  unfold releaseVars
  dsimp only
  split
  · rfl
  · simp only [giveBack, removeBounds, Query.removeBounds, Query.removeRelu_eq]

theorem relus_releaseVars (e : Encoding α) (vars : VarPair) (equation : Option (Equation α)) :
    (e.releaseVars vars equation).query.relus = if vars.isBoundary then e.query.relus
      else (e.query.removeRelu ⟨vars.incoming, vars.outgoing⟩).relus := by
  have hdrop : (e.dropEquation equation).query.relus = e.query.relus := by
    cases equation with
    | none => rfl
    | some equation => simp only [dropEquation, Query.removeEquation_eq]
  unfold releaseVars
  dsimp only
  split
  · exact hdrop
  · simp only [giveBack, removeBounds, Query.removeBounds, Query.removeRelu_eq, hdrop]

/-- Variables that are given back lose their bounds. -/
theorem hasBound_releaseVars_iff {vars : VarPair} {equation : Option (Equation α)} {v : VarId} {bound : Bound α} :
    (e.releaseVars vars equation).query.HasBound v bound ↔ ¬vars.Uses v ∧ e.query.HasBound v bound := by
  have hdrop : (e.dropEquation equation).query.HasBound v bound ↔ e.query.HasBound v bound := by
    cases equation with
    | none => rfl
    | some equation => cases bound <;> simp only [dropEquation, Query.removeEquation_eq, Query.HasBound]
  unfold releaseVars
  dsimp only
  split
  · next hboundary =>
    have hvars : vars.outgoing = vars.incoming := (beq_iff_eq.mp hboundary).symm
    refine Query.hasBound_removeBounds.trans (and_congr ?_ hdrop)
    simp [VarPair.Uses, hvars]
  · have hrelu : ((e.dropEquation equation).query.removeRelu ⟨vars.incoming, vars.outgoing⟩).HasBound v bound ↔
        e.query.HasBound v bound := by
      refine Iff.trans ?_ hdrop
      cases bound <;> simp only [Query.removeRelu_eq, Query.HasBound]
    refine Query.hasBound_removeBounds.trans ((and_congr_right fun _ =>
      Query.hasBound_removeBounds.trans (and_congr_right fun _ => hrelu)).trans ?_)
    rw [← and_assoc]
    refine and_congr_left fun _ => ?_
    rw [VarPair.Uses, not_or]

omit [BEq α] in
/-- Borrowing variables leaves the bounds alone. -/
theorem Borrowed.hasBound_iff {e' : Encoding α} {boundary : Bool} {vars : VarPair} (h : Borrowed e e' boundary vars)
    {v : VarId} {bound : Bound α} : e'.query.HasBound v bound ↔ e.query.HasBound v bound := by
  rw [h.query_eq]
  split
  · rfl
  · cases bound <;> rfl

omit [BEq α] in
theorem Borrowed.equations_eq {e' : Encoding α} {boundary : Bool} {vars : VarPair} (h : Borrowed e e' boundary vars) :
    e'.query.equations = e.query.equations := by
  rw [h.query_eq]
  split <;> rfl

theorem stale_releaseVars (e : Encoding α) (vars : VarPair) (equation : Option (Equation α)) :
    (e.releaseVars vars equation).stale = e.stale := by
  unfold releaseVars
  dsimp only
  split <;> exact (pool_dropEquation e equation).2

theorem relus_replaceEquation (e : Encoding α) (old new : Option (Equation α)) :
    (e.replaceEquation old new).query.relus = e.query.relus := by
  cases old <;> cases new <;> simp only [replaceEquation, dropEquation, Query.removeEquation_eq, Query.addEquation]

theorem hasBound_replaceEquation {old new : Option (Equation α)} {v : VarId} {bound : Bound α} :
    (e.replaceEquation old new).query.HasBound v bound ↔ e.query.HasBound v bound := by
  cases bound <;> cases old <;> cases new <;>
    simp only [replaceEquation, dropEquation, Query.removeEquation_eq, Query.addEquation, Query.HasBound]

end Encoding

end ReluAbstraction
