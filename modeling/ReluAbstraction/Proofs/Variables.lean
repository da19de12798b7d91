import ReluAbstraction.Encoding
import ReluAbstraction.Proofs.IdPool
import ReluAbstraction.Proofs.SortedMap
import ReluAbstraction.Proofs.Steps

/-!
# Variables and marks of the abstract query

An arnode borrows one variable or two from the pool of the abstract query, and returns them when it is destroyed. Borrowing
fails only when the pool has too few left. The number of free variables tells beforehand whether it will. Marks say whose
equation may be out of date; they touch nothing else.
-/

namespace ReluAbstraction

variable {α : Type}

/-- The pair consists of the variable, or has it as one of two. -/
def VarPair.Uses (p : VarPair) (v : VarId) : Prop := v = p.incoming ∨ v = p.outgoing

/-- Number of variables that an arnode borrows. -/
def varsNeeded (boundary : Bool) : Nat := if boundary then 1 else 2

theorem varsNeeded_le (boundary : Bool) : varsNeeded boundary ≤ 2 := by cases boundary <;> decide

namespace Encoding

/-- What borrowing the variables of an arnode does to the encoding. -/
structure Borrowed (e e' : Encoding α) (boundary : Bool) (vars : VarPair) : Prop where
  pool : e'.pool.WellFormed
  isBoundary_eq : vars.isBoundary = boundary
  free : ∀ {v}, vars.Uses v → e.pool.isFree v = true
  isFree_iff : ∀ v, e'.pool.isFree v = true ↔ e.pool.isFree v = true ∧ ¬vars.Uses v
  available_eq : e'.pool.available + varsNeeded boundary = e.pool.available
  limit_eq : e'.pool.limit = e.pool.limit
  covers : ∀ {v}, vars.Uses v ∨ e.pool.Covers v → e'.pool.Covers v
  query_eq : e'.query = if boundary then e.query else e.query.addRelu ⟨vars.incoming, vars.outgoing⟩
  stale_eq : e'.stale = e.stale

/-- Nothing has changed, except that larger variables may have been in use for a while. -/
structure Lapsed (e e' : Encoding α) : Prop where
  pool_eq : ∃ maxUsed, e'.pool = { e.pool with maxUsed }
  covers : ∀ {v}, e.pool.Covers v → e'.pool.Covers v
  query_eq : e'.query = e.query
  stale_eq : e'.stale = e.stale

theorem lapsed_self (e : Encoding α) : Lapsed e e := ⟨⟨e.pool.maxUsed, rfl⟩, fun h => h, rfl, rfl⟩

private theorem takeVar_meets {e : Encoding α} (h : e.pool.WellFormed) :
    takeVar.Meets e (fun v e' => e'.pool.WellFormed ∧ e.pool.isFree v = true ∧
        (∀ x, e'.pool.isFree x = true ↔ e.pool.isFree x = true ∧ x ≠ v) ∧
        e'.pool.available + 1 = e.pool.available ∧ e.pool.allocate = .ok (v, e'.pool) ∧ e'.query = e.query ∧
        e'.stale = e.stale)
      (fun error e' => error = e.pool.exhausted ∧ e.pool.available = 0 ∧ e' = e) := by
  unfold takeVar
  rw [Step.meets_bind, Step.meets_read]
  cases halloc : e.pool.allocate with
  | error error =>
    obtain ⟨herror, hnone⟩ := IdPool.allocate_error halloc
    exact ⟨herror, hnone, rfl⟩
  | ok r =>
    obtain ⟨v, pool⟩ := r
    obtain ⟨hpool, hfree, hiff, havailable⟩ := IdPool.allocate_spec h halloc
    exact ⟨hpool, hfree, hiff, havailable, rfl, rfl, rfl⟩

theorem borrowVars_meets {e : Encoding α} (h : e.pool.WellFormed) (boundary : Bool) :
    (borrowVars boundary).Meets e (fun vars e' => Borrowed e e' boundary vars)
      (fun error e' => (∃ limit, error = .exhausted limit) ∧ e.pool.available < varsNeeded boundary ∧ Lapsed e e') := by
  unfold borrowVars
  rw [Step.meets_bind]
  refine (takeVar_meets h).mono ?_ ?_
  swap
  · rintro error e' ⟨rfl, hnone, rfl⟩
    refine ⟨⟨_, rfl⟩, ?_, lapsed_self _⟩
    rw [hnone]
    cases boundary <;> decide
  rintro x e₁ ⟨hpool, hfree, hiff, havailable, halloc, hquery, hstale⟩
  obtain ⟨hlimit, hcover, hcovers⟩ := IdPool.covers_allocate halloc
  cases boundary with
  | true =>
    refine ⟨hpool, by simp [VarPair.isBoundary], ?_, ?_, havailable, hlimit, ?_, hquery, hstale⟩
    · rintro v (rfl | rfl) <;> exact hfree
    · intro v
      simp [hiff, VarPair.Uses]
    · rintro v ((rfl | rfl) | hv)
      · exact hcover
      · exact hcover
      · exact hcovers v hv
  | false =>
    simp only [Bool.false_eq_true, if_false]
    rw [Step.meets_bind, Step.meets_tryCatch]
    refine (takeVar_meets hpool).mono ?_ ?_
    · rintro y e₂ ⟨hpool₂, hfree₂, hiff₂, havailable₂, halloc₂, hquery₂, hstale₂⟩
      obtain ⟨hfree₁, hne⟩ := (hiff y).mp hfree₂
      obtain ⟨hlimit₂, hcover₂, hcovers₂⟩ := IdPool.covers_allocate halloc₂
      refine ⟨hpool₂, by simpa [VarPair.isBoundary] using hne.symm, ?_, ?_, ?_, hlimit₂.trans hlimit, ?_, ?_,
        hstale₂.trans hstale⟩
      · rintro v (rfl | rfl)
        · exact hfree
        · exact hfree₁
      · intro v
        change e₂.pool.isFree v = true ↔ _
        simp [hiff₂, hiff, VarPair.Uses, and_assoc]
      · change e₂.pool.available + 2 = e.pool.available
        omega
      · rintro v ((rfl | rfl) | hv)
        · exact hcovers₂ _ hcover
        · exact hcover₂
        · exact hcovers₂ _ (hcovers v hv)
      · simp [hquery₂, hquery]
    · rintro error e₂ ⟨rfl, hnone, rfl⟩
      refine ⟨⟨_, rfl⟩, ?_, ⟨e₂.pool.maxUsed, ?_⟩, fun hv => hcovers _ hv, hquery, hstale⟩
      · change e.pool.available < 2
        omega
      · have hback := IdPool.free_release_allocate h halloc
        change (⟨(e₂.pool.release x).free, e₂.pool.limit, e₂.pool.maxUsed⟩ : IdPool) = ⟨e.pool.free, e.pool.limit, _⟩
        rw [hback, hlimit]

/-- What returning the variables of an arnode does to the pool. -/
structure Returned (e e' : Encoding α) (vars : VarPair) : Prop where
  pool : e'.pool.WellFormed
  isFree_iff : ∀ v, e'.pool.isFree v = true ↔ vars.Uses v ∨ e.pool.isFree v = true
  available_eq : e'.pool.available = e.pool.available + varsNeeded vars.isBoundary
  limit_eq : e'.pool.limit = e.pool.limit
  covers_iff : ∀ v, e'.pool.Covers v ↔ e.pool.Covers v
  stale_eq : e'.stale = e.stale

theorem pool_dropEquation [BEq α] (e : Encoding α) (equation : Option (Equation α)) :
    (e.dropEquation equation).pool = e.pool ∧ (e.dropEquation equation).stale = e.stale := by
  cases equation <;> exact ⟨rfl, rfl⟩

theorem releaseVars_returned [BEq α] {e : Encoding α} (h : e.pool.WellFormed) {vars : VarPair}
    (hused : ∀ {v}, vars.Uses v → e.pool.isFree v = false) (equation : Option (Equation α)) :
    Returned e (e.releaseVars vars equation) vars := by
  obtain ⟨hpool, hstale⟩ := pool_dropEquation e equation
  obtain ⟨x, y⟩ := vars
  unfold releaseVars
  dsimp only
  by_cases hxy : x = y
  · subst hxy
    have hboundary : (VarPair.mk x x).isBoundary = true := by simp [VarPair.isBoundary]
    rw [if_pos hboundary]
    obtain ⟨hwf, hiff, havailable⟩ := IdPool.release_spec h (hused (Or.inl rfl))
    refine ⟨?_, ?_, ?_, by rw [← hpool]; rfl, fun v => by rw [← hpool]; rfl, hstale⟩
    · simpa [giveBack, removeBounds, hpool] using hwf
    · intro v
      simp [giveBack, removeBounds, hpool, hiff, VarPair.Uses]
    · simpa [giveBack, removeBounds, hpool, varsNeeded, hboundary] using havailable
  · have hboundary : ¬(VarPair.mk x y).isBoundary = true := by simpa [VarPair.isBoundary] using hxy
    rw [if_neg hboundary]
    obtain ⟨hwf, hiff, havailable⟩ := IdPool.release_spec h (hused (Or.inr rfl))
    have hx : (e.pool.release y).isFree x = false := by
      rw [← Bool.not_eq_true, hiff, not_or]
      exact ⟨hxy, by simpa using hused (Or.inl rfl)⟩
    obtain ⟨hwf', hiff', havailable'⟩ := IdPool.release_spec hwf hx
    refine ⟨?_, ?_, ?_, by rw [← hpool]; rfl, fun v => by rw [← hpool]; rfl, hstale⟩
    · simpa [giveBack, removeBounds, hpool] using hwf'
    · intro v
      simp [giveBack, removeBounds, hpool, hiff, hiff', VarPair.Uses, or_assoc]
    · simp [giveBack, removeBounds, hpool, varsNeeded, hboundary, havailable, havailable']

/-- The same variables and query, with other marks. -/
structure Remarked (e e' : Encoding α) (marked : ArNodeId → Prop) : Prop where
  pool_eq : e'.pool = e.pool
  query_eq : e'.query = e.query
  isStale_iff : ∀ x, e'.isStale x = true ↔ marked x

theorem remarked_self (e : Encoding α) : Remarked e e fun x => e.isStale x = true := ⟨rfl, rfl, fun _ => Iff.rfl⟩

theorem Remarked.congr {e e' : Encoding α} {marked marked' : ArNodeId → Prop} (h : Remarked e e' marked)
    (hmarked : ∀ x, marked x ↔ marked' x) : Remarked e e' marked' :=
  ⟨h.pool_eq, h.query_eq, fun x => (h.isStale_iff x).trans (hmarked x)⟩

theorem isStale_markStale (e : Encoding α) (id x : ArNodeId) :
    (e.markStale id).isStale x = true ↔ x = id ∨ e.isStale x = true := by
  simp [isStale, markStale, SortedSet.contains_add]

theorem Remarked.mark {e e' : Encoding α} {marked : ArNodeId → Prop} (h : Remarked e e' marked) (id : ArNodeId) :
    Remarked e (e'.markStale id) fun x => x = id ∨ marked x :=
  ⟨h.pool_eq, h.query_eq, fun x => by rw [isStale_markStale, h.isStale_iff]⟩

theorem Remarked.forget {e e' : Encoding α} {marked : ArNodeId → Prop} (h : Remarked e e' marked) (id : ArNodeId) :
    Remarked e (e'.forget id) fun x => x ≠ id ∧ marked x := by
  refine ⟨h.pool_eq, h.query_eq, fun x => ?_⟩
  rw [← h.isStale_iff]
  by_cases hx : x = id <;> simp [isStale, Encoding.forget, SortedMap.contains, SortedMap.get?_erase, hx]

end Encoding

end ReluAbstraction
