import ReluAbstraction.IdPool
import Mathlib.Tactic

/-!
# Id pools as sets of free ids

A pool whose ranges are non-empty, increasing and apart from each other stands for the set of ids in its ranges. Issuing
takes the smallest id out of the set and taking back puts one in; both keep the ranges in order and count correctly.
-/

namespace ReluAbstraction.IdPool

/-- Ranges are non-empty and increase, with at least one id between two of them. -/
def Ordered (ranges : List IdRange) : Prop :=
  (∀ r ∈ ranges, r.start < r.stop) ∧ ranges.Pairwise fun a b => a.stop < b.start

/-- Some range has the id. -/
def Holds (ranges : List IdRange) (id : Nat) : Prop := ∃ r ∈ ranges, r.start ≤ id ∧ id < r.stop

/-- Number of ids in the ranges. -/
def count (ranges : List IdRange) : Nat := ranges.foldr (fun range n => range.stop - range.start + n) 0

theorem isFree_iff (p : IdPool) (id : Nat) : p.isFree id = true ↔ Holds p.free id := by
  simp [isFree, Holds]

theorem isFree_eq_false_iff (p : IdPool) (id : Nat) : p.isFree id = false ↔ ¬Holds p.free id := by
  rw [← isFree_iff, Bool.not_eq_true]

theorem available_eq (p : IdPool) : p.available = count p.free := rfl

@[simp] theorem holds_nil (id : Nat) : ¬Holds [] id := by simp [Holds]

@[simp] theorem holds_cons (r : IdRange) (rest : List IdRange) (id : Nat) :
    Holds (r :: rest) id ↔ (r.start ≤ id ∧ id < r.stop) ∨ Holds rest id := by simp [Holds]

@[simp] theorem count_nil : count [] = 0 := rfl

@[simp] theorem count_cons (r : IdRange) (rest : List IdRange) :
    count (r :: rest) = r.stop - r.start + count rest := rfl

theorem ordered_nil : Ordered [] := by simp [Ordered]

theorem ordered_cons {r : IdRange} {rest : List IdRange} :
    Ordered (r :: rest) ↔ r.start < r.stop ∧ (∀ x ∈ rest, r.stop < x.start) ∧ Ordered rest := by
  simp only [Ordered, List.mem_cons, forall_eq_or_imp, List.pairwise_cons]
  tauto

/-- Ids in ranges that all start later are later. -/
theorem start_le_of_holds {ranges : List IdRange} {bound id : Nat} (hbound : ∀ r ∈ ranges, bound < r.start)
    (h : Holds ranges id) : bound < id := by
  obtain ⟨r, hr, hle, _⟩ := h
  have := hbound r hr
  omega

/-- A range of the list after adding an id starts with the id or where a range started before. -/
theorem start_insertId {id : Nat} {ranges : List IdRange} {r : IdRange} (h : r ∈ insertId id ranges) :
    r.start = id ∨ ∃ old ∈ ranges, old.start = r.start := by
  fun_induction insertId id ranges with
  | case1 => grind
  | case2 => grind
  | case3 => grind
  | case4 => grind
  | case5 => grind
  | case6 => grind
  | case7 range rest _ _ _ ih =>
    rcases List.mem_cons.mp h with rfl | h
    · exact .inr ⟨r, by simp, rfl⟩
    · rcases ih h with h | ⟨old, hold, hstart⟩
      · exact .inl h
      · exact .inr ⟨old, by simp [hold], hstart⟩

/-- Adding an id keeps the ranges in order. -/
theorem ordered_insertId {id : Nat} {ranges : List IdRange} (h : Ordered ranges) (hid : ¬Holds ranges id) :
    Ordered (insertId id ranges) := by
  fun_induction insertId id ranges with
  | case1 => simp [ordered_cons, ordered_nil]
  | case2 range rest hlt =>
    refine ordered_cons.mpr ⟨by simp, fun x hx => ?_, h⟩
    rcases List.mem_cons.mp hx with rfl | hx
    · exact hlt
    · obtain ⟨hstart, hafter, _⟩ := ordered_cons.mp h
      have := hafter x hx
      dsimp only
      omega
  | case3 range rest _ heq =>
    obtain ⟨hstart, hafter, hrest⟩ := ordered_cons.mp h
    exact ordered_cons.mpr ⟨by dsimp only; omega, hafter, hrest⟩
  | case4 range =>
    obtain ⟨hstart, _, _⟩ := ordered_cons.mp h
    exact ordered_cons.mpr ⟨by dsimp only; omega, by simp, ordered_nil⟩
  | case5 range _ _ _ next more heq =>
    obtain ⟨hstart, hafter, hrest⟩ := ordered_cons.mp h
    obtain ⟨hnext, hmore, hlast⟩ := ordered_cons.mp hrest
    exact ordered_cons.mpr ⟨by dsimp only; omega, hmore, hlast⟩
  | case6 range _ _ _ next more hne =>
    obtain ⟨hstart, hafter, hrest⟩ := ordered_cons.mp h
    refine ordered_cons.mpr ⟨by dsimp only; omega, fun x hx => ?_, hrest⟩
    have hnext := hafter next (by simp)
    rcases List.mem_cons.mp hx with rfl | hx
    · dsimp only
      omega
    · have := (ordered_cons.mp hrest).2.1 x hx
      have := (ordered_cons.mp hrest).1
      dsimp only
      omega
  | case7 range rest h1 h2 h3 ih =>
    obtain ⟨hstart, hafter, hrest⟩ := ordered_cons.mp h
    rw [holds_cons, not_or] at hid
    refine ordered_cons.mpr ⟨hstart, fun x hx => ?_, ih hrest hid.2⟩
    rcases start_insertId hx with hx | ⟨old, hold, hx⟩
    · omega
    · have := hafter old hold
      omega

/-- The ids after adding one. -/
theorem holds_insertId {id : Nat} {ranges : List IdRange} (h : Ordered ranges) (hid : ¬Holds ranges id) (x : Nat) :
    Holds (insertId id ranges) x ↔ x = id ∨ Holds ranges x := by
  fun_induction insertId id ranges with
  | case1 =>
    simp only [holds_cons, holds_nil, or_false]
    omega
  | case2 range rest hlt =>
    rw [holds_cons]
    refine or_congr_left ?_
    dsimp only
    omega
  | case3 range rest _ heq =>
    obtain ⟨hstart, _, _⟩ := ordered_cons.mp h
    rw [holds_cons, holds_cons, ← or_assoc]
    refine or_congr_left ?_
    dsimp only
    omega
  | case4 range =>
    obtain ⟨hstart, _, _⟩ := ordered_cons.mp h
    simp only [holds_cons, holds_nil, or_false]
    omega
  | case5 range _ _ _ next more heq =>
    obtain ⟨hstart, _, hrest⟩ := ordered_cons.mp h
    obtain ⟨hnext, _, _⟩ := ordered_cons.mp hrest
    simp only [holds_cons, ← or_assoc]
    refine or_congr_left ?_
    omega
  | case6 range _ _ _ next more hne =>
    obtain ⟨hstart, _, _⟩ := ordered_cons.mp h
    rw [holds_cons, holds_cons range, ← or_assoc]
    refine or_congr_left ?_
    dsimp only
    omega
  | case7 range rest _ _ _ ih =>
    obtain ⟨_, _, hrest⟩ := ordered_cons.mp h
    rw [holds_cons, not_or] at hid
    rw [holds_cons, holds_cons, ih hrest hid.2]
    tauto

/-- The number of ids after adding one. -/
theorem count_insertId {id : Nat} {ranges : List IdRange} (h : Ordered ranges) :
    count (insertId id ranges) = count ranges + 1 := by
  fun_induction insertId id ranges with
  | case1 => simp
  | case2 range rest hlt =>
    simp only [count_cons]
    omega
  | case3 range rest _ heq =>
    obtain ⟨hstart, _, _⟩ := ordered_cons.mp h
    simp only [count_cons]
    omega
  | case4 range =>
    obtain ⟨hstart, _, _⟩ := ordered_cons.mp h
    simp only [count_cons, count_nil]
    omega
  | case5 range _ _ _ next more heq =>
    obtain ⟨hstart, _, hrest⟩ := ordered_cons.mp h
    obtain ⟨hnext, _, _⟩ := ordered_cons.mp hrest
    simp only [count_cons]
    omega
  | case6 range _ _ _ next more hne =>
    obtain ⟨hstart, _, _⟩ := ordered_cons.mp h
    simp only [count_cons]
    omega
  | case7 range rest _ _ _ ih =>
    obtain ⟨_, _, hrest⟩ := ordered_cons.mp h
    simp only [count_cons, ih hrest]
    omega

section Canonical

variable {r r' : IdRange} {rest rest' : List IdRange} {id : Nat}

/-- The first range has the smallest id. -/
theorem start_le_of_holds_cons (h : Ordered (r :: rest)) (hid : Holds (r :: rest) id) : r.start ≤ id := by
  obtain ⟨hstart, hafter, _⟩ := ordered_cons.mp h
  rcases (holds_cons ..).mp hid with hid | hid
  · exact hid.1
  · have := start_le_of_holds hafter hid
    omega

/-- The ids of the other ranges are those after the id where the first one stops, which is in none. -/
theorem holds_tail_iff (h : Ordered (r :: rest)) : Holds rest id ↔ Holds (r :: rest) id ∧ r.stop < id := by
  obtain ⟨_, hafter, _⟩ := ordered_cons.mp h
  rw [holds_cons]
  constructor
  · intro hid
    exact ⟨.inr hid, start_le_of_holds hafter hid⟩
  · rintro ⟨hid, hstop⟩
    exact hid.resolve_left (by omega)

/-- The first range goes as far as the ids follow one another. -/
theorem stop_le_of_holds_iff (h : Ordered (r :: rest)) (hstart : r.start = r'.start)
    (hsame : ∀ id, Holds (r :: rest) id ↔ Holds (r' :: rest') id) : r'.stop ≤ r.stop := by
  by_contra hlt
  have hfirst := (ordered_cons.mp h).1
  have hheld : Holds (r :: rest) r.stop := (hsame r.stop).mpr ((holds_cons ..).mpr (.inl (by omega)))
  rcases (holds_cons ..).mp hheld with hin | hlater
  · omega
  · exact lt_irrefl _ ((holds_tail_iff h).mp hlater).2

/-- Ranges in order are known by the ids that they have. -/
theorem eq_of_holds_iff {ranges ranges' : List IdRange} (h : Ordered ranges) (h' : Ordered ranges')
    (hsame : ∀ id, Holds ranges id ↔ Holds ranges' id) : ranges = ranges' := by
  have hheld : ∀ {r rest}, Ordered (r :: rest) → Holds (r :: rest) r.start :=
    fun hr => (holds_cons ..).mpr (.inl ⟨le_rfl, (ordered_cons.mp hr).1⟩)
  induction ranges generalizing ranges' with
  | nil =>
    cases ranges' with
    | nil => rfl
    | cons r' rest' => exact absurd ((hsame _).mpr (hheld h')) (holds_nil _)
  | cons r rest ih =>
    cases ranges' with
    | nil => exact absurd ((hsame _).mp (hheld h)) (holds_nil _)
    | cons r' rest' =>
      have hstart : r.start = r'.start := le_antisymm (start_le_of_holds_cons h ((hsame _).mpr (hheld h')))
        (start_le_of_holds_cons h' ((hsame _).mp (hheld h)))
      have hstop : r.stop = r'.stop := le_antisymm (stop_le_of_holds_iff h' hstart.symm fun id => (hsame id).symm)
        (stop_le_of_holds_iff h hstart hsame)
      have hrest : rest = rest' := ih (ordered_cons.mp h).2.2 (ordered_cons.mp h').2.2 fun id => by
        rw [holds_tail_iff h, holds_tail_iff h', hsame, hstop]
      obtain ⟨start, stop⟩ := r
      obtain ⟨start', stop'⟩ := r'
      cases hstart
      cases hstop
      rw [hrest]

end Canonical

/-- A pool that stands for a set of ids. -/
def WellFormed (p : IdPool) : Prop := Ordered p.free

theorem wellFormed_unbounded : WellFormed unbounded := by
  simp [WellFormed, unbounded, ordered_cons, ordered_nil, ceiling]

theorem wellFormed_ofLimit? (limit : Option Nat) : WellFormed (ofLimit? limit) := by
  cases limit with
  | none => exact wellFormed_unbounded
  | some n =>
    unfold WellFormed ofLimit? bounded
    by_cases h : n = 0
    · simp [h, ordered_nil]
    · simp only [h, if_false, ordered_cons]
      exact ⟨by omega, by simp, ordered_nil⟩

variable {p q : IdPool} {id : Nat}

/-- A pool fails to issue an id only for want of one. -/
theorem allocate_error {e : Error} (h : p.allocate = .error e) : e = p.exhausted ∧ p.available = 0 := by
  unfold allocate at h
  cases hfree : p.free with
  | nil =>
    rw [hfree] at h
    exact ⟨(Except.error.inj h).symm, by simp [available_eq, hfree]⟩
  | cons range rest =>
    rw [hfree] at h
    cases h

/-- An issued id is the first one of the first range. -/
theorem exists_of_allocate (h : p.allocate = .ok (id, q)) : ∃ range rest, p.free = range :: rest ∧ id = range.start ∧
    q = { p with
      free := if range.start + 1 = range.stop then rest else ⟨range.start + 1, range.stop⟩ :: rest
      maxUsed := raise p.maxUsed range.start } := by
  unfold allocate at h
  cases hfree : p.free with
  | nil =>
    rw [hfree] at h
    cases h
  | cons range rest =>
    rw [hfree] at h
    injection h with h
    obtain ⟨rfl, rfl⟩ := Prod.mk.inj h
    exact ⟨range, rest, rfl, rfl, rfl⟩

/-- What issuing an id does to the pool. -/
theorem allocate_spec (hp : p.WellFormed) (h : p.allocate = .ok (id, q)) :
    q.WellFormed ∧ p.isFree id = true ∧ (∀ x, q.isFree x = true ↔ p.isFree x = true ∧ x ≠ id) ∧
      q.available + 1 = p.available := by
  obtain ⟨range, rest, hfree, rfl, rfl⟩ := exists_of_allocate h
  unfold WellFormed at hp
  rw [hfree] at hp
  obtain ⟨hstart, hafter, hrest⟩ := ordered_cons.mp hp
  have hlater (x : Nat) (hx : Holds rest x) : range.stop < x := start_le_of_holds hafter hx
  refine ⟨?_, ?_, fun x => ?_, ?_⟩
  · unfold WellFormed
    dsimp only
    split
    · exact hrest
    · exact ordered_cons.mpr ⟨by dsimp only; omega, hafter, hrest⟩
  · rw [isFree_iff, hfree, holds_cons]
    omega
  · rw [isFree_iff, isFree_iff, hfree, holds_cons]
    have := hlater x
    dsimp only
    split
    · constructor
      · intro hx
        exact ⟨.inr hx, by have := this hx; omega⟩
      · rintro ⟨hx | hx, hne⟩
        · omega
        · exact hx
    · rw [holds_cons]
      dsimp only
      constructor
      · rintro (hx | hx)
        · exact ⟨.inl (by omega), by omega⟩
        · exact ⟨.inr hx, by have := this hx; omega⟩
      · rintro ⟨hx | hx, hne⟩
        · exact .inl (by omega)
        · exact .inr hx
  · rw [available_eq, available_eq, hfree, count_cons]
    dsimp only
    split
    · omega
    · rw [count_cons]
      dsimp only
      omega

/-- At first all ids below the limit are free. -/
theorem isFree_ofLimit? (limit : Option Nat) (id : Nat) :
    (ofLimit? limit).isFree id = true ↔ id < (ofLimit? limit).limit.getD ceiling := by
  rw [isFree_iff]
  cases limit with
  | none => simp [ofLimit?, unbounded]
  | some limit =>
    by_cases hzero : limit = 0
    · simp [ofLimit?, bounded, hzero]
    · simp [ofLimit?, bounded, hzero]

/-- An id was issued before, or a larger one. -/
def Covers (p : IdPool) (id : Nat) : Prop := ∃ top, p.maxUsed = some top ∧ id ≤ top

/-- The id is in use: it could be issued, and it is not free. -/
def Issued (p : IdPool) (id : Nat) : Prop := id < p.limit.getD ceiling ∧ p.isFree id = false

/-- Issuing an id keeps the limit, and the largest id issued covers the new one too. -/
theorem covers_allocate (h : p.allocate = .ok (id, q)) :
    q.limit = p.limit ∧ q.Covers id ∧ ∀ x, p.Covers x → q.Covers x := by
  obtain ⟨range, rest, hfree, rfl, rfl⟩ := exists_of_allocate h
  refine ⟨rfl, ?_, ?_⟩
  · cases hused : p.maxUsed with
    | none => exact ⟨range.start, rfl, le_rfl⟩
    | some top =>
      refine ⟨if top < range.start then range.start else top, rfl, ?_⟩
      split <;> omega
  · rintro x ⟨top, hused, hle⟩
    refine ⟨if top < range.start then range.start else top, by simp [hused, raise], ?_⟩
    split <;> omega

/-- What taking an id back does to the pool. -/
theorem release_spec (hp : p.WellFormed) (hid : p.isFree id = false) :
    (p.release id).WellFormed ∧ (∀ x, (p.release id).isFree x = true ↔ x = id ∨ p.isFree x = true) ∧
      (p.release id).available = p.available + 1 := by
  have hnot := (isFree_eq_false_iff p id).mp hid
  refine ⟨ordered_insertId hp hnot, fun x => ?_, count_insertId hp⟩
  rw [isFree_iff, isFree_iff]
  exact holds_insertId hp hnot x

/-- An id that is given back at once leaves the same ids free. -/
theorem free_release_allocate (hp : p.WellFormed) (h : p.allocate = .ok (id, q)) : (q.release id).free = p.free := by
  obtain ⟨hq, hfree, hrest, _⟩ := allocate_spec hp h
  have hused : q.isFree id = false := by
    rw [← Bool.not_eq_true, hrest]
    exact fun hid => hid.2 rfl
  obtain ⟨hback, hsame, _⟩ := release_spec hq hused
  refine eq_of_holds_iff hback hp fun x => ?_
  rw [← isFree_iff, ← isFree_iff, hsame, hrest]
  constructor
  · rintro (rfl | hx)
    · exact hfree
    · exact hx.1
  · intro hx
    by_cases heq : x = id
    · exact .inl heq
    · exact .inr ⟨hx, heq⟩

end ReluAbstraction.IdPool
