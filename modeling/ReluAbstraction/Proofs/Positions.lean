import Mathlib.Tactic
import ReluAbstraction.Proofs.Tables

/-!
# Positions in chains of tables

An entry's position in its table is the number of entries at smaller slots. When every table knows how many entries stand
above it, position and offset together number the entries of the whole chain from 0 on, without gaps.
-/

namespace ReluAbstraction

variable {η : Type}

namespace Table

variable {t : Table η} {slot : Slot} {p : Nat}

/-- In an increasing list, the number of smaller elements is the position. -/
theorem getElem?_eq_some_iff_of_increasing {xs : List Nat} (h : xs.Pairwise (· < ·)) {p x : Nat} :
    xs[p]? = some x ↔ x ∈ xs ∧ (xs.filter (· < x)).length = p := by
  induction xs generalizing p with
  | nil => simp
  | cons y ys ih =>
    obtain ⟨hy, hys⟩ := List.pairwise_cons.mp h
    have hnone : (ys.filter (· < y)).length = 0 := by
      rw [List.length_eq_zero_iff, List.filter_eq_nil_iff]
      intro z hz
      have := hy z hz
      simp only [decide_eq_true_eq]
      omega
    cases p with
    | zero =>
      rw [List.getElem?_cons_zero, Option.some.injEq]
      constructor
      · rintro rfl
        simpa using hnone
      · rintro ⟨hmem, hlen⟩
        rcases List.mem_cons.mp hmem with rfl | hmem
        · rfl
        · simp [hy x hmem] at hlen
    | succ p =>
      rw [List.getElem?_cons_succ, ih hys]
      constructor
      · rintro ⟨hmem, hlen⟩
        exact ⟨List.mem_cons_of_mem _ hmem, by simp [hy x hmem, hlen]⟩
      · rintro ⟨hmem, hlen⟩
        rcases List.mem_cons.mp hmem with rfl | hmem
        · simp [hnone] at hlen
        · exact ⟨hmem, by simpa [hy x hmem] using hlen⟩

/-- The position of a slot is its place in the list of entries. -/
theorem position?_eq_some_iff : t.position? slot = some p ↔ (t.toList.map (·.1))[p]? = some slot := by
  have hsorted := t.pairwise_slots
  obtain ⟨entries, offset⟩ := t
  cases entries with
  | appendOnly entries =>
    rw [slots_appendOnly, List.getElem?_eq_some_iff]
    simp only [position?, List.getElem_range, List.length_range]
    split
    · next hlt =>
      rw [Option.some.injEq]
      exact ⟨fun h => ⟨h ▸ hlt, h.symm⟩, fun ⟨_, h⟩ => h.symm⟩
    · next hge =>
      refine iff_of_false (by simp) ?_
      rintro ⟨hlt, rfl⟩
      exact hge hlt
  | deletable entries slots =>
    rw [getElem?_eq_some_iff_of_increasing hsorted]
    have hmem : entries.contains slot = true ↔ slot ∈ entries.keys := SortedMap.mem_keys_iff.symm
    change (if entries.contains slot = true then some (entries.keys.filter (· < slot)).length else none) = some p ↔
      slot ∈ entries.keys ∧ (entries.keys.filter (· < slot)).length = p
    split
    · next hin => simp [hmem.mp hin]
    · next hout => simp [mt hmem.mpr hout]

/-- The entry at a slot is the one at the slot's position. -/
theorem get?_of_position? (h : t.position? slot = some p) :
    ∃ x, t.get? slot = some x ∧ t.toList[p]? = some (slot, x) := by
  rw [position?_eq_some_iff, List.getElem?_map, Option.map_eq_some_iff] at h
  obtain ⟨⟨_, x⟩, hx, rfl⟩ := h
  exact ⟨x, mem_toList_iff.mp (List.mem_of_getElem? hx), hx⟩

theorem exists_position? {x : η} (h : t.get? slot = some x) : ∃ p, t.position? slot = some p := by
  obtain ⟨p, hp⟩ := List.getElem?_of_mem (mem_toList_iff.mpr h)
  exact ⟨p, position?_eq_some_iff.mpr (by rw [List.getElem?_map, hp, Option.map_some])⟩

theorem position?_lt (h : t.position? slot = some p) : p < t.size := by
  rw [position?_eq_some_iff] at h
  have := (List.getElem?_eq_some_iff.mp h).1
  rwa [List.length_map, ← size_eq_length] at this

theorem exists_slot (h : p < t.size) : ∃ slot, t.position? slot = some p := by
  rw [size_eq_length] at h
  exact ⟨t.toList[p].1, position?_eq_some_iff.mpr (by rw [List.getElem?_map, List.getElem?_eq_getElem h, Option.map_some])⟩

/-- Positions are in the order of slots. -/
theorem position?_lt_iff {slot' : Slot} {p' : Nat} (h : t.position? slot = some p) (h' : t.position? slot' = some p') :
    p < p' ↔ slot < slot' := by
  rw [position?_eq_some_iff] at h h'
  obtain ⟨hp, rfl⟩ := List.getElem?_eq_some_iff.mp h
  obtain ⟨hp', rfl⟩ := List.getElem?_eq_some_iff.mp h'
  exact t.pairwise_slots.sortedLT.getElem_lt_getElem_iff.symm

end Table

namespace TableChain

variable {c : TableChain η} {t n : Nat} {slot : Slot} {table : Table η}

/-- Number of entries in the tables above table `t`. -/
def above (c : TableChain η) (t : Nat) : Nat := ∑ i ∈ Finset.range t, c.tableSize i

theorem tableSize_of_getElem? (h : c.tables[t]? = some table) : c.tableSize t = table.size := by
  simp [tableSize, h]

theorem above_succ (h : c.tables[t]? = some table) : c.above (t + 1) = c.above t + table.size := by
  rw [above, Finset.sum_range_succ, tableSize_of_getElem? h, above]

theorem above_mono {t' : Nat} (h : t ≤ t') : c.above t ≤ c.above t' :=
  Finset.sum_le_sum_of_subset (Finset.range_subset_range.mpr h)

theorem above_cons (first : Table η) (rest : List (Table η)) (t : Nat) :
    above ⟨first :: rest⟩ (t + 1) = first.size + above ⟨rest⟩ t := by
  rw [above, Finset.sum_range_succ', Nat.add_comm]
  rfl

theorem size_eq_above (c : TableChain η) : c.size = c.above c.tables.length := by
  obtain ⟨tables⟩ := c
  induction tables with
  | nil => rfl
  | cons first rest ih =>
    rw [List.length_cons, above_cons, ← ih]
    rfl

/-- Every number below the total falls into one table. -/
theorem exists_of_lt_size (h : n < c.size) :
    ∃ t table p, c.tables[t]? = some table ∧ p < table.size ∧ n = c.above t + p := by
  obtain ⟨tables⟩ := c
  induction tables generalizing n with
  | nil => cases h
  | cons first rest ih =>
    by_cases hn : n < first.size
    · exact ⟨0, first, n, rfl, hn, by simp [above]⟩
    · have hrest : n - first.size < size ⟨rest⟩ := by
        have htotal : size ⟨first :: rest⟩ = first.size + size ⟨rest⟩ := rfl
        omega
      obtain ⟨t, table, p, htable, hp, hnp⟩ := ih hrest
      refine ⟨t + 1, table, p, htable, hp, ?_⟩
      rw [above_cons]
      omega

/-- The handles of a table stand after those of the tables above. -/
theorem handles_getElem? (h : c.tables[t]? = some table) {p : Nat} (hp : p < table.size) :
    c.handles[c.above t + p]? = (table.toList[p]?).map (·.2) := by
  obtain ⟨tables⟩ := c
  induction tables generalizing t with
  | nil => cases h
  | cons first rest ih =>
    have hhandles : handles ⟨first :: rest⟩ = first.toList.map (·.2) ++ handles ⟨rest⟩ := rfl
    have hlength : (first.toList.map (·.2)).length = first.size := by rw [List.length_map, ← Table.size_eq_length]
    cases t with
    | zero =>
      cases h
      rw [hhandles, above, Finset.sum_range_zero, Nat.zero_add, List.getElem?_append_left (by rwa [hlength]), List.getElem?_map]
    | succ t =>
      rw [hhandles, above_cons, Nat.add_assoc, ← hlength, List.getElem?_append_right (Nat.le_add_right _ _),
        Nat.add_sub_cancel_left]
      exact ih h

theorem length_handles (c : TableChain η) : c.handles.length = c.size := by
  obtain ⟨tables⟩ := c
  induction tables with
  | nil => rfl
  | cons first rest ih =>
    have hhandles : handles ⟨first :: rest⟩ = first.toList.map (·.2) ++ handles ⟨rest⟩ := rfl
    rw [hhandles, List.length_append, List.length_map, ← Table.size_eq_length, ih]
    rfl

theorem get_eq_ok_iff {x : η} : c.get t slot = .ok x ↔ c.at? t slot = some x := by
  unfold get at? TableChain.table
  cases c.tables[t]? with
  | none => simp [bind, Except.bind]
  | some table =>
    cases hget : table.get? slot with
    | none => simp [bind, Except.bind, hget, throw, throwThe, MonadExceptOf.throw]
    | some y => simp [bind, Except.bind, hget, pure, Except.pure]

theorem globalIndex_eq_ok_iff :
    c.globalIndex t slot = .ok n ↔ ∃ table p, c.tables[t]? = some table ∧ table.position? slot = some p ∧
      n = table.offset + p := by
  unfold globalIndex TableChain.table
  cases c.tables[t]? with
  | none => simp [bind, Except.bind]
  | some table =>
    cases hposition : table.position? slot with
    | none => simp [bind, Except.bind, hposition, throw, throwThe, MonadExceptOf.throw]
    | some p => simp [bind, Except.bind, hposition, pure, Except.pure, eq_comm]

/-- Each table knows how many entries stand above it. -/
def Aligned (c : TableChain η) : Prop := ∀ t table, c.tables[t]? = some table → table.offset = c.above t

namespace Aligned

variable {t' n' : Nat} {slot' : Slot}

theorem globalIndex_iff (hc : c.Aligned) :
    c.globalIndex t slot = .ok n ↔ ∃ table p, c.tables[t]? = some table ∧ table.position? slot = some p ∧
      n = c.above t + p := by
  rw [globalIndex_eq_ok_iff]
  refine exists_congr fun table => exists_congr fun p => and_congr_right fun htable => ?_
  rw [hc t table htable]

/-- The entries, and only they, have a number. -/
theorem exists_globalIndex_iff (hc : c.Aligned) :
    (∃ n, c.globalIndex t slot = .ok n) ↔ ∃ x, c.get t slot = .ok x := by
  simp only [hc.globalIndex_iff, get_eq_ok_iff, at?, Option.bind_eq_some_iff]
  constructor
  · rintro ⟨n, table, p, htable, hp, _⟩
    obtain ⟨x, hx, _⟩ := Table.get?_of_position? hp
    exact ⟨x, table, htable, hx⟩
  · rintro ⟨x, table, htable, hx⟩
    obtain ⟨p, hp⟩ := Table.exists_position? hx
    exact ⟨_, table, p, htable, hp, rfl⟩

/-- Entries of a table come before those of a later one. -/
theorem globalIndex_lt_of_table_lt (hc : c.Aligned) (h : c.globalIndex t slot = .ok n)
    (h' : c.globalIndex t' slot' = .ok n') (hlt : t < t') : n < n' := by
  obtain ⟨table, p, htable, hp, rfl⟩ := hc.globalIndex_iff.mp h
  obtain ⟨table', p', _, _, rfl⟩ := hc.globalIndex_iff.mp h'
  have hsize := Table.position?_lt hp
  have hnext := above_succ htable
  have hle : c.above (t + 1) ≤ c.above t' := above_mono hlt
  omega

/-- Numbers are in the order of tables and slots. -/
theorem globalIndex_lt_iff (hc : c.Aligned) (h : c.globalIndex t slot = .ok n) (h' : c.globalIndex t' slot' = .ok n') :
    n < n' ↔ t < t' ∨ t = t' ∧ slot < slot' := by
  rcases Nat.lt_trichotomy t t' with hlt | rfl | hgt
  · exact iff_of_true (hc.globalIndex_lt_of_table_lt h h' hlt) (.inl hlt)
  · obtain ⟨table, p, htable, hp, rfl⟩ := hc.globalIndex_iff.mp h
    obtain ⟨table', p', htable', hp', rfl⟩ := hc.globalIndex_iff.mp h'
    rw [htable] at htable'
    cases htable'
    have horder := Table.position?_lt_iff hp hp'
    simp only [lt_irrefl, true_and, false_or, ← horder]
    omega
  · have hback := hc.globalIndex_lt_of_table_lt h' h hgt
    omega

/-- The numbers are those below the total. -/
theorem lt_size_iff (hc : c.Aligned) : n < c.size ↔ ∃ t slot, c.globalIndex t slot = .ok n := by
  constructor
  · intro h
    obtain ⟨t, table, p, htable, hp, hn⟩ := exists_of_lt_size h
    obtain ⟨slot, hslot⟩ := Table.exists_slot hp
    exact ⟨t, slot, hc.globalIndex_iff.mpr ⟨table, p, htable, hslot, hn⟩⟩
  · rintro ⟨t, slot, h⟩
    obtain ⟨table, p, htable, hp, rfl⟩ := hc.globalIndex_iff.mp h
    have hsize := Table.position?_lt hp
    have hnext := above_succ htable
    have hle : c.above (t + 1) ≤ c.above c.tables.length := above_mono (List.getElem?_eq_some_iff.mp htable).1
    rw [size_eq_above]
    omega

/-- The entry with a number is the handle at that place. -/
theorem handles_of_globalIndex (hc : c.Aligned) (h : c.globalIndex t slot = .ok n) (x : η) :
    c.handles[n]? = some x ↔ c.get t slot = .ok x := by
  obtain ⟨table, p, htable, hp, rfl⟩ := hc.globalIndex_iff.mp h
  obtain ⟨y, hy, hlist⟩ := Table.get?_of_position? hp
  rw [handles_getElem? htable (Table.position?_lt hp), hlist, get_eq_ok_iff, at?, htable]
  simp [hy]

theorem startingIndex?_eq (hc : c.Aligned) (t : Nat) :
    c.startingIndex? t = if c.tableSize t = 0 then none else some (c.above t) := by
  unfold startingIndex? tableSize
  cases htable : c.tables[t]? with
  | none => rfl
  | some table => simp [Table.isEmpty, hc t table htable]

end Aligned

end TableChain

end ReluAbstraction
