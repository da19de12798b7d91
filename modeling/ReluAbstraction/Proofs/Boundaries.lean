import ReluAbstraction.Proofs.IdPool

/-!
# Pools in machine words

The ranges of a pool can be kept as one flat list of boundaries, each range as its first id and the first id after it. On
such a list ids are looked up by the number of boundaries before them, and given back by changing or splicing one or two
boundaries. Here every sum and difference has to be a machine word again. As long as only ids that are out are given back,
none of them fails, and the lists stay in step with the pool.

The pool itself stands for a set: what it issues and counts depends only on the ids that are out, and so do its ranges.
-/

namespace ReluAbstraction.IdPool

section Words

/-- The sum of two words, if it is a word. -/
def sumWord? (a b : Nat) : Option Nat := if a + b ≤ ceiling then some (a + b) else none

/-- The difference of two words, if it is a word. -/
def differenceWord? (a b : Nat) : Option Nat := if b ≤ a then some (a - b) else none

theorem sumWord?_eq {a b : Nat} (h : a + b ≤ ceiling) : sumWord? a b = some (a + b) := if_pos h

theorem differenceWord?_eq {a b : Nat} (h : b ≤ a) : differenceWord? a b = some (a - b) := if_pos h

/-- Number of leading boundaries that are at most `id`. -/
def rank (bounds : List Nat) (id : Nat) : Nat := (bounds.takeWhile (· ≤ id)).length

/-- Issues the first id of the first range. -/
def allocateWords? : List Nat → Option (Nat × List Nat)
  | first :: stop :: rest => do
    let next ← sumWord? first 1
    return (first, if next = stop then rest else next :: stop :: rest)
  | _ => none

/-- Makes the id before `next` free, where `k` ranges come before it. The last of them and the range after them may touch
it. -/
def splice (bounds : List Nat) (id next k : Nat) : List Nat :=
  if 0 < k ∧ bounds[2 * k - 1]? = some id then
    if bounds[2 * k]? = some next then bounds.take (2 * k - 1) ++ bounds.drop (2 * k + 1)
    else bounds.set (2 * k - 1) next
  else if bounds[2 * k]? = some next then bounds.set (2 * k) id
  else bounds.take (2 * k) ++ id :: next :: bounds.drop (2 * k)

/-- Takes an id back. -/
def releaseWords? (bounds : List Nat) (id : Nat) : Option (List Nat) := do
  let next ← sumWord? id 1
  return splice bounds id next (rank bounds id / 2)

/-- Adds the sizes of the ranges to a total. -/
def availableWords? (total : Nat) : List Nat → Option Nat
  | start :: stop :: rest => do
    let size ← differenceWord? stop start
    let total ← sumWord? total size
    availableWords? total rest
  | _ => some total

end Words

section Flat

/-- The boundaries of ranges. -/
def boundaries (ranges : List IdRange) : List Nat := ranges.flatMap fun r => [r.start, r.stop]

@[simp] theorem boundaries_nil : boundaries [] = [] := rfl

@[simp] theorem boundaries_cons (r : IdRange) (rest : List IdRange) :
    boundaries (r :: rest) = r.start :: r.stop :: boundaries rest := rfl

theorem length_boundaries (ranges : List IdRange) : (boundaries ranges).length = 2 * ranges.length := by
  induction ranges with
  | nil => rfl
  | cons r rest ih =>
    rw [boundaries_cons, List.length_cons, List.length_cons, List.length_cons, ih]
    omega

theorem mem_boundaries_iff {ranges : List IdRange} {b : Nat} :
    b ∈ boundaries ranges ↔ ∃ r ∈ ranges, b = r.start ∨ b = r.stop := by simp [boundaries]

variable {ranges : List IdRange} {id : Nat}

/-- Boundaries of ranges in order increase. -/
theorem pairwise_boundaries (h : Ordered ranges) : (boundaries ranges).Pairwise (· < ·) := by
  induction ranges with
  | nil => exact .nil
  | cons r rest ih =>
    obtain ⟨hstart, hafter, hrest⟩ := ordered_cons.mp h
    have hlater : ∀ b ∈ boundaries rest, r.stop < b := by
      intro b hb
      obtain ⟨x, hx, hside⟩ := mem_boundaries_iff.mp hb
      have hnext := hafter x hx
      have hsize := hrest.1 x hx
      omega
    refine .cons (fun b hb => ?_) (.cons hlater (ih hrest))
    rcases List.mem_cons.mp hb with rfl | hb
    · exact hstart
    · exact hstart.trans (hlater b hb)

theorem rank_of_lt {r : IdRange} {rest : List IdRange} (h : id < r.start) : rank (boundaries (r :: rest)) id = 0 := by
  simp [rank, Nat.not_le.mpr h]

theorem rank_of_mem {r : IdRange} {rest : List IdRange} (hstart : r.start ≤ id) (hstop : id < r.stop) :
    rank (boundaries (r :: rest)) id = 1 := by
  simp [rank, hstart, Nat.not_le.mpr hstop]

theorem rank_of_le {r : IdRange} {rest : List IdRange} (hstart : r.start ≤ id) (hstop : r.stop ≤ id) :
    rank (boundaries (r :: rest)) id = rank (boundaries rest) id + 2 := by
  simp [rank, hstart, hstop]

/-- Before ranges that all start later there is no boundary. -/
theorem rank_eq_zero (h : ∀ r ∈ ranges, id < r.start) : rank (boundaries ranges) id = 0 := by
  cases ranges with
  | nil => rfl
  | cons r rest => exact rank_of_lt (h r List.mem_cons_self)

/-- An id is in a range if the number of boundaries up to it is odd. -/
theorem odd_rank_iff (h : Ordered ranges) : rank (boundaries ranges) id % 2 = 1 ↔ Holds ranges id := by
  induction ranges with
  | nil => simp [rank]
  | cons r rest ih =>
    obtain ⟨hstart, hafter, hrest⟩ := ordered_cons.mp h
    rw [holds_cons]
    rcases Nat.lt_or_ge id r.start with hlt | hge
    · rw [rank_of_lt hlt]
      refine iff_of_false (by decide) (not_or.mpr ⟨by omega, fun hholds => ?_⟩)
      have := start_le_of_holds hafter hholds
      omega
    · rcases Nat.lt_or_ge id r.stop with hin | hout
      · rw [rank_of_mem hge hin]
        exact iff_of_true rfl (.inl ⟨hge, hin⟩)
      · rw [rank_of_le hge hout, Nat.add_mod_right, ih hrest]
        exact ⟨.inr, fun hholds => hholds.resolve_left (by omega)⟩

/-- One more range that ends before the id moves all positions up by two. -/
theorem splice_cons {start stop next : Nat} {bounds : List Nat} (h : stop ≠ id) (k : Nat) :
    splice (start :: stop :: bounds) id next (k + 1) = start :: stop :: splice bounds id next k := by
  unfold splice
  cases k with
  | zero => by_cases hjoin : bounds[0]? = some next <;> simp [h, hjoin]
  | succ k =>
    have hleft : 2 * (k + 1 + 1) - 1 = 2 * k + 1 + 2 := by omega
    have hleft' : 2 * (k + 1) - 1 = 2 * k + 1 := by omega
    have hright : 2 * (k + 1 + 1) = 2 * (k + 1) + 2 := by omega
    rw [hleft, hleft', hright]
    by_cases hbefore : bounds[2 * k + 1]? = some id <;> by_cases hjoin : bounds[2 * (k + 1)]? = some next <;>
      simp [hbefore, hjoin]

/-- Splicing boundaries does what adding the id to the ranges does. -/
theorem splice_eq (h : Ordered ranges) (hid : ¬Holds ranges id) :
    splice (boundaries ranges) id (id + 1) (rank (boundaries ranges) id / 2) = boundaries (insertId id ranges) := by
  fun_induction insertId id ranges with
  | case1 => simp [splice, rank]
  | case2 range rest hlt =>
    rw [rank_of_lt (Nat.lt_of_succ_lt hlt)]
    simp [splice, hlt.ne']
  | case3 range rest _ heq =>
    rw [rank_of_lt (heq ▸ Nat.lt_succ_self id)]
    simp [splice, heq]
  | case4 range _ _ hstop =>
    obtain ⟨hstart, hafter, _⟩ := ordered_cons.mp h
    subst hstop
    rw [rank_of_le hstart.le le_rfl, rank_eq_zero hafter]
    simp [splice]
  | case5 range _ _ hstop next more heq =>
    obtain ⟨hstart, hafter, _⟩ := ordered_cons.mp h
    subst hstop
    rw [rank_of_le hstart.le le_rfl, rank_eq_zero hafter]
    simp [splice, heq]
  | case6 range _ _ hstop next more hne =>
    obtain ⟨hstart, hafter, _⟩ := ordered_cons.mp h
    subst hstop
    rw [rank_of_le hstart.le le_rfl, rank_eq_zero hafter]
    simp [splice, hne]
  | case7 range rest hfar hnear hstop ih =>
    obtain ⟨hstart, _, hrest⟩ := ordered_cons.mp h
    rw [holds_cons, not_or] at hid
    have hbefore : range.stop < id := by omega
    rw [rank_of_le (hstart.le.trans hbefore.le) hbefore.le, Nat.add_div_right _ Nat.two_pos, boundaries_cons,
      splice_cons hbefore.ne, ih hrest hid.2, boundaries_cons]

/-- Adding up the sizes of the ranges gives their number of ids, as long as that is a word. -/
theorem availableWords?_eq {total : Nat} (h : Ordered ranges) (hroom : total + count ranges ≤ ceiling) :
    availableWords? total (boundaries ranges) = some (total + count ranges) := by
  induction ranges generalizing total with
  | nil => rfl
  | cons r rest ih =>
    obtain ⟨hstart, _, hrest⟩ := ordered_cons.mp h
    rw [count_cons] at hroom
    have hsum : sumWord? total (r.stop - r.start) = some (total + (r.stop - r.start)) := sumWord?_eq (by omega)
    rw [boundaries_cons, availableWords?, differenceWord?_eq hstart.le]
    simp only [Option.bind_eq_bind, Option.bind_some, hsum]
    rw [ih hrest (by omega), count_cons, Nat.add_assoc]

end Flat

section Service

/-- A pool after ids have been issued and given back, with the ids that are out and all that were ever issued, the latest
one first. Only ids that are out are given back. -/
inductive Serves (limit : Option Nat) : IdPool → Finset Nat → List Nat → Prop
  /-- No id was issued. -/
  | start : Serves limit (ofLimit? limit) ∅ []
  /-- One more id is issued. -/
  | allocate {p q : IdPool} {out : Finset Nat} {issued : List Nat} {id : Nat} (h : Serves limit p out issued)
      (hid : p.allocate = .ok (id, q)) : Serves limit q (insert id out) (id :: issued)
  /-- An id is given back. -/
  | release {p : IdPool} {out : Finset Nat} {issued : List Nat} {id : Nat} (h : Serves limit p out issued)
      (hid : id ∈ out) : Serves limit (p.release id) (out.erase id) issued

/-- The pool stands for the ids below `bound` that are not out. -/
structure StandsFor (p : IdPool) (bound : Nat) (out : Finset Nat) (issued : List Nat) : Prop where
  wellFormed : p.WellFormed
  bound_eq : p.limit.getD ceiling = bound
  isFree_iff : ∀ id, p.isFree id = true ↔ id < bound ∧ id ∉ out
  out_lt : ∀ id ∈ out, id < bound
  available_add : p.available + out.card = bound
  maxUsed_eq : p.maxUsed = issued.max?

variable {limit : Option Nat} {p q : IdPool} {bound id : Nat} {out : Finset Nat} {issued : List Nat}

theorem standsFor_ofLimit? (limit : Option Nat) : (ofLimit? limit).StandsFor (limit.getD ceiling) ∅ [] := by
  have hbound : (ofLimit? limit).limit.getD ceiling = limit.getD ceiling := by cases limit <;> rfl
  refine ⟨wellFormed_ofLimit? limit, hbound, fun id => ?_, by simp, ?_, by cases limit <;> rfl⟩
  · rw [isFree_ofLimit?, hbound]
    simp
  · cases limit with
    | none => rfl
    | some n =>
      by_cases hzero : n = 0
      · simp [ofLimit?, bounded, available_eq, hzero]
      · simp [ofLimit?, bounded, available_eq, hzero]

/-- Issuing an id puts it among those that are out. -/
theorem StandsFor.allocate (h : p.StandsFor bound out issued) (hid : p.allocate = .ok (id, q)) :
    q.StandsFor bound (insert id out) (id :: issued) := by
  obtain ⟨hwell, hfree, hrest, hcount⟩ := allocate_spec h.wellFormed hid
  obtain ⟨hlimit, _, _⟩ := covers_allocate hid
  obtain ⟨hlt, hnew⟩ := (h.isFree_iff id).mp hfree
  refine ⟨hwell, hlimit ▸ h.bound_eq, fun x => ?_, fun x hx => ?_, ?_, ?_⟩
  · rw [hrest, h.isFree_iff, Finset.mem_insert]
    tauto
  · rcases Finset.mem_insert.mp hx with rfl | hx
    · exact hlt
    · exact h.out_lt x hx
  · have := h.available_add
    rw [Finset.card_insert_of_notMem hnew]
    omega
  · obtain ⟨range, rest, _, rfl, rfl⟩ := exists_of_allocate hid
    dsimp only
    rw [h.maxUsed_eq, List.max?_cons]
    cases issued.max? with
    | none => rfl
    | some top => exact congrArg some (by grind)

/-- Giving an id back takes it from those that are out. -/
theorem StandsFor.release (h : p.StandsFor bound out issued) (hid : id ∈ out) :
    (p.release id).StandsFor bound (out.erase id) issued := by
  have hused : p.isFree id = false := by
    rw [← Bool.not_eq_true, h.isFree_iff]
    exact fun hfree => hfree.2 hid
  obtain ⟨hwell, hrest, hcount⟩ := release_spec h.wellFormed hused
  have hlt := h.out_lt id hid
  refine ⟨hwell, h.bound_eq, fun x => ?_, fun x hx => h.out_lt x (Finset.mem_of_mem_erase hx), ?_, h.maxUsed_eq⟩
  · rw [hrest, h.isFree_iff, Finset.mem_erase]
    constructor
    · rintro (rfl | ⟨hx, hout⟩)
      · exact ⟨hlt, fun hne => hne.1 rfl⟩
      · exact ⟨hx, fun hne => hout hne.2⟩
    · rintro ⟨hx, hout⟩
      by_cases heq : x = id
      · exact .inl heq
      · exact .inr ⟨hx, fun hmem => hout ⟨heq, hmem⟩⟩
  · have := h.available_add
    have := Finset.card_erase_add_one hid
    omega

theorem Serves.standsFor (h : Serves limit p out issued) : p.StandsFor (limit.getD ceiling) out issued := by
  induction h with
  | start => exact standsFor_ofLimit? limit
  | allocate _ hid ih => exact ih.allocate hid
  | release _ hid ih => exact ih.release hid

/-- The ranges depend on the ids that are out alone. -/
theorem StandsFor.free_eq {issued' : List Nat} (h : p.StandsFor bound out issued) (h' : q.StandsFor bound out issued') :
    p.free = q.free := by
  refine eq_of_holds_iff h.wellFormed h'.wellFormed fun id => ?_
  rw [← IdPool.isFree_iff, ← IdPool.isFree_iff, h.isFree_iff, h'.isFree_iff]

/-- Giving all ids back, in any order. -/
theorem StandsFor.release_all (h : p.StandsFor bound out issued) {ids : List Nat} (hnodup : ids.Nodup)
    (hids : ids.toFinset = out) : (ids.foldl IdPool.release p).StandsFor bound ∅ issued := by
  induction ids generalizing p out with
  | nil =>
    subst hids
    exact h
  | cons id ids ih =>
    obtain ⟨hnew, hnodup⟩ := List.nodup_cons.mp hnodup
    subst hids
    refine ih (h.release (by simp)) hnodup ?_
    rw [List.toFinset_cons, Finset.erase_insert (by simpa using hnew)]

theorem StandsFor.holds_iff (h : p.StandsFor bound out issued) (id : Nat) :
    Holds p.free id ↔ id < bound ∧ id ∉ out := by
  rw [← IdPool.isFree_iff, h.isFree_iff]

/-- An issued id is the smallest free one, and issuing it stays within machine words. -/
theorem StandsFor.allocate_ok (h : p.StandsFor bound out issued) (hbound : bound ≤ ceiling)
    (hid : p.allocate = .ok (id, q)) : IsLeast { x | Holds p.free x } id ∧
      allocateWords? (boundaries p.free) = some (id, boundaries q.free) := by
  obtain ⟨range, rest, hfree, rfl, rfl⟩ := exists_of_allocate hid
  have hordered : Ordered (range :: rest) := hfree ▸ h.wellFormed
  have hheld : Holds p.free range.start := by
    rw [hfree, holds_cons]
    exact .inl ⟨le_rfl, (ordered_cons.mp hordered).1⟩
  have hroom : range.start < ceiling := ((h.holds_iff _).mp hheld).1.trans_le hbound
  refine ⟨⟨hheld, fun x hx => ?_⟩, ?_⟩
  · rw [Set.mem_ofPred_eq, hfree] at hx
    exact start_le_of_holds_cons hordered hx
  · rw [hfree, boundaries_cons, allocateWords?, sumWord?_eq hroom]
    by_cases hlast : range.start + 1 = range.stop <;> simp [hlast]

/-- No id is issued exactly if all ids below the limit are out. -/
theorem StandsFor.allocate_error_iff (h : p.StandsFor bound out issued) (e : Error) :
    p.allocate = .error e ↔ e = .exhausted bound ∧ ∀ id < bound, id ∈ out := by
  constructor
  · intro herror
    obtain ⟨rfl, hnone⟩ := allocate_error herror
    refine ⟨by rw [exhausted, h.bound_eq], ?_⟩
    have hcard := h.available_add
    have hall : out = Finset.range bound := by
      refine Finset.eq_of_subset_of_card_le (fun id hid => Finset.mem_range.mpr (h.out_lt id hid)) ?_
      rw [Finset.card_range]
      omega
    exact fun id hid => hall ▸ Finset.mem_range.mpr hid
  · rintro ⟨rfl, hall⟩
    cases hresult : p.allocate with
    | error e => rw [(allocate_error hresult).1, exhausted, h.bound_eq]
    | ok result =>
      obtain ⟨hlt, hnew⟩ := (h.isFree_iff _).mp (allocate_spec h.wellFormed hresult).2.1
      exact absurd (hall _ hlt) hnew

/-- A pool in service stands for the set of free ids, and its boundaries are kept in machine words. -/
structure Refines (limit : Option Nat) (p : IdPool) (out : Finset Nat) (issued : List Nat) : Prop where
  /-- The boundaries come in pairs. -/
  even : Even (boundaries p.free).length
  /-- They increase strictly, so that no range is empty and no two ranges touch. -/
  increasing : (boundaries p.free).Pairwise (· < ·)
  /-- The ranges have the ids below the limit that are not out. -/
  holds_iff : ∀ id, Holds p.free id ↔ id < limit.getD ceiling ∧ id ∉ out
  isFree_iff : ∀ id, p.isFree id = true ↔ Holds p.free id
  /-- An id is free if the number of boundaries up to it is odd. -/
  odd_rank_iff : ∀ id, rank (boundaries p.free) id % 2 = 1 ↔ Holds p.free id
  /-- The smallest free id is issued, with no overflow. -/
  allocate_ok : ∀ {id q}, p.allocate = .ok (id, q) →
    IsLeast { x | Holds p.free x } id ∧ allocateWords? (boundaries p.free) = some (id, boundaries q.free)
  /-- None is issued if all ids below the limit are out, and only then. -/
  allocate_error_iff : ∀ e, p.allocate = .error e ↔
    e = .exhausted (limit.getD ceiling) ∧ ∀ id < limit.getD ceiling, id ∈ out
  /-- An id that is out is taken back with no overflow. -/
  release_eq : ∀ id ∈ out, releaseWords? (boundaries p.free) id = some (boundaries (p.release id).free)
  /-- The free ids are counted, with no overflow. -/
  available_eq : p.available = (Finset.range (limit.getD ceiling) \ out).card
  availableWords?_eq : availableWords? 0 (boundaries p.free) = some p.available
  /-- The largest id ever issued is known. -/
  maxUsed_eq : p.maxUsed = issued.max?
  /-- Whatever has happened, the same ids being out means the same ranges. -/
  unique : ∀ {q issued'}, Serves limit q out issued' → q.free = p.free
  /-- An id that is given back at once leaves the ranges as they were. -/
  restored : ∀ {id q}, p.allocate = .ok (id, q) → (q.release id).free = p.free
  /-- Once all ids are back, in any order, the ranges are those of the start. -/
  emptied : ∀ {ids : List Nat}, ids.Nodup → ids.toFinset = out →
    (ids.foldl IdPool.release p).free = (ofLimit? limit).free

/-- Whatever ids a pool has issued and taken back, it stands for the set of ids below its limit that are not out: it issues
the smallest one, fails only if there is none, and its ranges depend on this set alone. No sum or difference of boundaries
leaves the machine words. -/
theorem refines_of_serves (hlimit : ∀ n, limit = some n → n ≤ ceiling) (h : Serves limit p out issued) :
    Refines limit p out issued := by
  have hs := h.standsFor
  have hbound : limit.getD ceiling ≤ ceiling := by
    cases limit with
    | none => exact le_rfl
    | some n => exact hlimit n rfl
  have hcard := hs.available_add
  refine ⟨?_, pairwise_boundaries hs.wellFormed, hs.holds_iff, p.isFree_iff, fun id => odd_rank_iff hs.wellFormed,
    hs.allocate_ok hbound, hs.allocate_error_iff, fun id hid => ?_, ?_, ?_, hs.maxUsed_eq, ?_,
    free_release_allocate hs.wellFormed, ?_⟩
  · rw [length_boundaries]
    exact even_two_mul _
  · have hnot : ¬Holds p.free id := fun hheld => ((hs.holds_iff id).mp hheld).2 hid
    rw [releaseWords?, sumWord?_eq ((hs.out_lt id hid).trans_le hbound)]
    exact congrArg some (splice_eq hs.wellFormed hnot)
  · have hsubset : out ⊆ Finset.range (limit.getD ceiling) := fun id hid => Finset.mem_range.mpr (hs.out_lt id hid)
    rw [Finset.card_sdiff_of_subset hsubset, Finset.card_range]
    omega
  · rw [IdPool.availableWords?_eq hs.wellFormed (by rw [← IdPool.available_eq]; omega), Nat.zero_add]
    rfl
  · exact fun hq => hq.standsFor.free_eq hs
  · exact fun hnodup hids => (hs.release_all hnodup hids).free_eq (standsFor_ofLimit? limit)

/-- A pool of three ids of which the second one is still out. When it comes back it joins the ranges on both sides. -/
theorem refines_of_serves_three : ∃ p, Serves (some 3) p {1} [2, 1, 0] ∧ p.free = [⟨0, 1⟩, ⟨2, 3⟩] ∧
    (p.release 1).free = [⟨0, 3⟩] ∧ Refines (some 3) p {1} [2, 1, 0] := by
  have hall : Serves (some 3) ⟨[], some 3, some 2⟩ {2, 1, 0} [2, 1, 0] :=
    .allocate (.allocate (.allocate .start rfl) rfl) rfl
  have hends := (hall.release (show 0 ∈ _ by decide)).release (show 2 ∈ _ by decide)
  rw [show ((({2, 1, 0} : Finset Nat).erase 0).erase 2) = {1} by decide] at hends
  exact ⟨_, hends, rfl, rfl, refines_of_serves (by decide) hends⟩

end Service

end ReluAbstraction.IdPool
