import Mathlib.Tactic
import ReluAbstraction.Proofs.Positions
import ReluAbstraction.Proofs.Boundaries

/-!
# Numbering the entries of a layer

The tables of a chain keep three things in step: the entries, the pool of slots not in use and the number of entries above.
An insertion whose entry cannot be built gives back the slot that was set aside for it. The chain it leaves is not the
same, since the pool remembers the largest slot it ever issued, but no later request tells the two apart.
-/

namespace ReluAbstraction

variable {η : Type}

namespace Table

/-- Gives back a slot that was set aside. -/
def giveBack (t : Table η) (slot : Slot) : Table η :=
  match t.entries with
  | .appendOnly _ => t
  | .deletable entries slots => { t with entries := .deletable entries (slots.release slot) }

/-- The slots not in use are those without an entry. -/
def Exact (t : Table η) : Prop :=
  ∀ entries slots, t.entries = .deletable entries slots →
    ∃ issued, slots.StandsFor IdPool.ceiling entries.keys.toFinset issued

/-- Tables that differ at most in the largest slot that was ever issued, which no call reads. -/
inductive Alike : Table η → Table η → Prop
  | appendOnly (entries : List η) (offset : Nat) : Alike ⟨.appendOnly entries, offset⟩ ⟨.appendOnly entries, offset⟩
  | deletable (entries : SortedMap Slot η) {slots slots' : IdPool} (offset : Nat) (hfree : slots'.free = slots.free)
      (hlimit : slots'.limit = slots.limit) : Alike ⟨.deletable entries slots, offset⟩ ⟨.deletable entries slots', offset⟩

end Table

namespace TableChain

/-- A call that changes a chain. -/
inductive Request (η : Type) where
  /-- Store what is built for the next slot of table `t`. -/
  | insert (t : Nat) (build : Slot → Except Error η)
  /-- Take out the entry at a slot of table `t`. -/
  | remove (t : Nat) (slot : Slot)

/-- The chain after a slot of table `t` was set aside and given back, as when no entry can be built for it. -/
def relinquish (c : TableChain η) (t : Nat) : TableChain η :=
  (c.table t >>= Table.reserve).toOption.elim c fun r => c.setTable t (r.2.giveBack r.1)

/-- The answer to a request, and the chain it leaves. -/
def serve (c : TableChain η) : Request η → Except Error (Slot × η) × TableChain η
  | .insert t build =>
    let made := ((c.insertWith t fun slot => Step.ofExcept (build slot)).outcome ()).1
    (made.map fun r => (r.1, r.2.1), made.toOption.elim (c.relinquish t) fun r => r.2.2)
  | .remove t slot =>
    let taken := c.remove t slot
    (taken.map fun r => (slot, r.1), taken.toOption.elim c fun r => r.2)

/-- The chain after a list of requests. -/
def after (c : TableChain η) (rs : List (Request η)) : TableChain η := rs.foldl (fun c r => (c.serve r).2) c

/-- The answers to a list of requests. -/
def answers (c : TableChain η) : List (Request η) → List (Except Error (Slot × η))
  | [] => []
  | r :: rs => (c.serve r).1 :: answers (c.serve r).2 rs

section Serving

variable {c : TableChain η} {t : Nat} {slot : Slot} {table reserved : Table η} {build : Slot → Except Error η} {x : η}
  {e : Error}

theorem outcome_insertWith (hreserve : (c.table t >>= Table.reserve) = .ok (slot, reserved)) :
    ((c.insertWith t fun slot => Step.ofExcept (build slot)).outcome ()).1 =
      (build slot).map fun x => (slot, x, (c.setTable t (reserved.place slot x)).shiftBelow t (· + 1)) := by
  change (Step.outcome (EStateM.bind (Step.ofExcept (c.table t >>= Table.reserve)) _) ()).1 = _
  rw [hreserve]
  change (Step.outcome (EStateM.bind (Step.ofExcept (build slot)) _) ()).1 = _
  cases build slot with
  | ok x => rfl
  | error e => rfl

theorem outcome_insertWith_error (hreserve : (c.table t >>= Table.reserve) = .error e) :
    ((c.insertWith t fun slot => Step.ofExcept (build slot)).outcome ()).1 = .error e := by
  change (Step.outcome (EStateM.bind (Step.ofExcept (c.table t >>= Table.reserve)) _) ()).1 = _
  rw [hreserve]
  rfl

theorem table_reserve (htable : c.tables[t]? = some table) : (c.table t >>= Table.reserve) = table.reserve := by
  simp only [TableChain.table, htable]
  rfl

theorem table_reserve_none (htable : c.tables[t]? = none) :
    (c.table t >>= Table.reserve) = .error (.invalidArgument (.noTable t)) := by
  simp only [TableChain.table, htable]
  rfl

theorem serve_insert (hreserve : (c.table t >>= Table.reserve) = .ok (slot, reserved)) (hbuild : build slot = .ok x) :
    c.serve (.insert t build) = (.ok (slot, x), (c.setTable t (reserved.place slot x)).shiftBelow t (· + 1)) := by
  simp only [serve, outcome_insertWith hreserve, hbuild]
  rfl

theorem serve_insert_abandoned (hreserve : (c.table t >>= Table.reserve) = .ok (slot, reserved))
    (hbuild : build slot = .error e) : c.serve (.insert t build) = (.error e, c.setTable t (reserved.giveBack slot)) := by
  simp only [serve, outcome_insertWith hreserve, hbuild, relinquish, hreserve]
  rfl

theorem serve_insert_refused (hreserve : (c.table t >>= Table.reserve) = .error e) :
    c.serve (.insert t build) = (.error e, c) := by
  simp only [serve, outcome_insertWith_error hreserve, relinquish, hreserve]
  rfl

theorem serve_remove_noTable (htable : c.tables[t]? = none) :
    c.serve (.remove t slot) = (.error (.invalidArgument (.noTable t)), c) := by
  simp only [serve, remove, TableChain.table, htable]
  rfl

theorem serve_remove_appendOnly {entries : List η} {offset : Nat}
    (htable : c.tables[t]? = some ⟨.appendOnly entries, offset⟩) :
    c.serve (.remove t slot) = (.error (.appendOnly t), c) := by
  simp only [serve, remove, TableChain.table, htable]
  rfl

theorem serve_remove_vacant {entries : SortedMap Slot η} {slots : IdPool} {offset : Nat}
    (htable : c.tables[t]? = some ⟨.deletable entries slots, offset⟩) (hget : entries.get? slot = none) :
    c.serve (.remove t slot) = (.error (.emptySlot t slot), c) := by
  simp only [serve, remove, TableChain.table, htable, bind, Except.bind, hget]
  rfl

theorem serve_remove {entries : SortedMap Slot η} {slots : IdPool} {offset : Nat}
    (htable : c.tables[t]? = some ⟨.deletable entries slots, offset⟩) (hget : entries.get? slot = some x) :
    c.serve (.remove t slot) = (.ok (slot, x),
      (c.setTable t ⟨.deletable (entries.erase slot) (slots.release slot), offset⟩).shiftBelow t (· - 1)) := by
  simp only [serve, remove, TableChain.table, htable, bind, Except.bind, hget]
  rfl

/-- What a request can do. -/
inductive Served (c : TableChain η) : Request η → Except Error (Slot × η) × TableChain η → Prop
  /-- An entry is stored. -/
  | inserted {t : Nat} {build : Slot → Except Error η} {table reserved : Table η} {slot : Slot} {x : η}
      (htable : c.tables[t]? = some table) (hreserve : table.reserve = .ok (slot, reserved)) (hbuild : build slot = .ok x) :
      Served c (.insert t build) (.ok (slot, x), (c.setTable t (reserved.place slot x)).shiftBelow t (· + 1))
  /-- An entry is taken out. -/
  | removed {t offset : Nat} {entries : SortedMap Slot η} {slots : IdPool} {slot : Slot} {x : η}
      (htable : c.tables[t]? = some ⟨.deletable entries slots, offset⟩) (hget : entries.get? slot = some x) :
      Served c (.remove t slot) (.ok (slot, x),
        (c.setTable t ⟨.deletable (entries.erase slot) (slots.release slot), offset⟩).shiftBelow t (· - 1))
  /-- A slot is set aside in vain. -/
  | abandoned {t : Nat} {build : Slot → Except Error η} {table reserved : Table η} {slot : Slot} {e : Error}
      (htable : c.tables[t]? = some table) (hreserve : table.reserve = .ok (slot, reserved)) (hbuild : build slot = .error e) :
      Served c (.insert t build) (.error e, c.setTable t (reserved.giveBack slot))
  /-- Nothing is touched. -/
  | refused {r : Request η} {e : Error} : Served c r (.error e, c)

theorem served (c : TableChain η) (r : Request η) : Served c r (c.serve r) := by
  cases r with
  | insert t build =>
    cases htable : c.tables[t]? with
    | none =>
      rw [serve_insert_refused (table_reserve_none htable)]
      exact .refused
    | some table =>
      have hread := table_reserve htable
      cases hreserve : table.reserve with
      | error e =>
        rw [serve_insert_refused (hread.trans hreserve)]
        exact .refused
      | ok result =>
        obtain ⟨slot, reserved⟩ := result
        cases hbuild : build slot with
        | error e =>
          rw [serve_insert_abandoned (hread.trans hreserve) hbuild]
          exact .abandoned htable hreserve hbuild
        | ok x =>
          rw [serve_insert (hread.trans hreserve) hbuild]
          exact .inserted htable hreserve hbuild
  | remove t slot =>
    cases htable : c.tables[t]? with
    | none =>
      rw [serve_remove_noTable htable]
      exact .refused
    | some table =>
      obtain ⟨entries, offset⟩ := table
      cases entries with
      | appendOnly entries =>
        rw [serve_remove_appendOnly htable]
        exact .refused
      | deletable entries slots =>
        cases hget : entries.get? slot with
        | none =>
          rw [serve_remove_vacant htable hget]
          exact .refused
        | some x =>
          rw [serve_remove htable hget]
          exact .removed htable hget

end Serving

end TableChain

namespace Table

variable {t reserved : Table η} {slot : Slot}

theorem exact_empty (kind : TableKind) : (empty kind : Table η).Exact := by
  intro entries slots h
  cases kind with
  | appendOnly => cases h
  | deletable =>
    cases h
    exact ⟨[], IdPool.standsFor_ofLimit? none⟩

theorem Exact.of_entries {t' : Table η} (h : t.Exact) (heq : t'.entries = t.entries) : t'.Exact := by
  intro entries slots h'
  exact h entries slots (heq ▸ h')

theorem mem_out_iff {entries : SortedMap Slot η} : slot ∈ entries.keys.toFinset ↔ ∃ x, entries.get? slot = some x := by
  rw [List.mem_toFinset, SortedMap.mem_keys_iff, Option.isSome_iff_exists]

theorem Exact.sound (h : t.Exact) : t.Sound := by
  obtain ⟨entries, offset⟩ := t
  cases entries with
  | appendOnly entries => trivial
  | deletable entries slots =>
    obtain ⟨issued, hslots⟩ := h entries slots rfl
    refine ⟨hslots.wellFormed, fun slot x hx => ?_, ?_⟩
    · rw [← Bool.not_eq_true, hslots.isFree_iff]
      exact fun hfree => hfree.2 (mem_out_iff.mpr ⟨x, hx⟩)
    · have hcard := hslots.available_add
      rwa [List.toFinset_card_of_nodup SortedMap.keys_nodup, SortedMap.keys, List.length_map] at hcard

/-- The slot that is set aside is the smallest one without an entry. -/
theorem Exact.isLeast (h : t.Exact) (hreserve : t.reserve = .ok (slot, reserved)) :
    IsLeast { s | t.get? s = none } slot := by
  refine ⟨get?_of_reserve h.sound hreserve, fun s hs => ?_⟩
  obtain ⟨entries, offset⟩ := t
  cases entries with
  | appendOnly entries =>
    cases hreserve
    exact List.getElem?_eq_none_iff.mp hs
  | deletable entries slots =>
    obtain ⟨issued, hslots⟩ := h entries slots rfl
    obtain ⟨rest, halloc, rfl⟩ := exists_of_reserve hreserve
    obtain ⟨hleast, _⟩ := hslots.allocate_ok le_rfl halloc
    have hunused : s ∉ entries.keys.toFinset := by
      rw [mem_out_iff]
      rintro ⟨x, hx⟩
      have hnone : entries.get? s = none := hs
      rw [hnone] at hx
      cases hx
    by_cases hbound : s < IdPool.ceiling
    · exact hleast.2 ((hslots.holds_iff s).mpr ⟨hbound, hunused⟩)
    · exact ((hslots.holds_iff _).mp hleast.1).1.le.trans (not_lt.mp hbound)

theorem keys_insert {entries : SortedMap Slot η} (x : η) :
    (entries.insert slot x).keys.toFinset = insert slot entries.keys.toFinset := by
  ext s
  rw [Finset.mem_insert, mem_out_iff, mem_out_iff, SortedMap.get?_insert]
  by_cases h : s = slot <;> simp [h]

theorem keys_erase {entries : SortedMap Slot η} :
    (entries.erase slot).keys.toFinset = entries.keys.toFinset.erase slot := by
  ext s
  rw [Finset.mem_erase, mem_out_iff, mem_out_iff, SortedMap.get?_erase]
  by_cases h : s = slot <;> simp [h]

/-- Storing an entry at the slot that was set aside. -/
theorem Exact.place (h : t.Exact) (hreserve : t.reserve = .ok (slot, reserved)) (x : η) :
    (reserved.place slot x).Exact ∧ (reserved.place slot x).size = t.size + 1 ∧
      (reserved.place slot x).offset = t.offset := by
  have hvacant := get?_of_reserve h.sound hreserve
  obtain ⟨entries, offset⟩ := t
  cases entries with
  | appendOnly entries =>
    cases hreserve
    refine ⟨fun _ _ hentries => ?_, by simp [Table.place, Table.size], rfl⟩
    cases hentries
  | deletable entries slots =>
    obtain ⟨issued, hslots⟩ := h entries slots rfl
    obtain ⟨rest, halloc, rfl⟩ := exists_of_reserve hreserve
    refine ⟨?_, SortedMap.size_insert_of_none hvacant x, rfl⟩
    rintro _ _ ⟨⟩
    rw [keys_insert]
    exact ⟨_, hslots.allocate halloc⟩

/-- A slot that is given back leaves the table as it was. -/
theorem Exact.giveBack (h : t.Exact) (hreserve : t.reserve = .ok (slot, reserved)) :
    (reserved.giveBack slot).Exact ∧ t.Alike (reserved.giveBack slot) := by
  obtain ⟨entries, offset⟩ := t
  cases entries with
  | appendOnly entries =>
    cases hreserve
    exact ⟨h, .appendOnly entries offset⟩
  | deletable entries slots =>
    obtain ⟨issued, hslots⟩ := h entries slots rfl
    obtain ⟨rest, halloc, rfl⟩ := exists_of_reserve hreserve
    have hnew : slot ∉ entries.keys.toFinset :=
      ((hslots.isFree_iff slot).mp (IdPool.allocate_spec hslots.wellFormed halloc).2.1).2
    have hback := (hslots.allocate halloc).release (Finset.mem_insert_self _ _)
    rw [Finset.erase_insert hnew] at hback
    refine ⟨?_, .deletable entries offset (IdPool.free_release_allocate hslots.wellFormed halloc) ?_⟩
    · rintro _ _ ⟨⟩
      exact ⟨_, hback⟩
    · exact (IdPool.covers_allocate halloc).1

/-- Taking an entry out. -/
theorem Exact.erase {entries : SortedMap Slot η} {slots : IdPool} {offset : Nat} {x : η}
    (h : Exact ⟨.deletable entries slots, offset⟩) (hget : entries.get? slot = some x) :
    Exact ⟨.deletable (entries.erase slot) (slots.release slot), offset⟩ := by
  obtain ⟨issued, hslots⟩ := h entries slots rfl
  rintro _ _ ⟨⟩
  rw [keys_erase]
  exact ⟨issued, hslots.release (mem_out_iff.mpr ⟨x, hget⟩)⟩

end Table

namespace Table.Alike

variable {t t' : Table η}

theorem refl (t : Table η) : t.Alike t := by
  obtain ⟨entries, offset⟩ := t
  cases entries with
  | appendOnly entries => exact .appendOnly entries offset
  | deletable entries slots => exact .deletable entries offset rfl rfl

theorem size_eq (h : t.Alike t') : t'.size = t.size := by cases h <;> rfl

theorem offset_eq (h : t.Alike t') : t'.offset = t.offset := by cases h <;> rfl

theorem kind_eq (h : t.Alike t') : t'.kind = t.kind := by cases h <;> rfl

theorem get?_eq (h : t.Alike t') (slot : Slot) : t'.get? slot = t.get? slot := by cases h <;> rfl

theorem shift (h : t.Alike t') (f : Nat → Nat) :
    Alike { t with offset := f t.offset } { t' with offset := f t'.offset } := by
  cases h with
  | appendOnly entries offset => exact .appendOnly entries (f offset)
  | deletable entries offset hfree hlimit => exact .deletable entries (f offset) hfree hlimit

theorem place (h : t.Alike t') (slot : Slot) (x : η) : (t.place slot x).Alike (t'.place slot x) := by
  cases h with
  | appendOnly entries offset => exact .appendOnly _ offset
  | deletable entries offset hfree hlimit => exact .deletable _ offset hfree hlimit

theorem giveBack (h : t.Alike t') (slot : Slot) : (t.giveBack slot).Alike (t'.giveBack slot) := by
  cases h with
  | appendOnly entries offset => exact .appendOnly entries offset
  | deletable entries offset hfree hlimit =>
    exact .deletable entries offset (congrArg (IdPool.insertId slot) hfree) hlimit

/-- Both tables set the same slot aside. -/
theorem reserve (h : t.Alike t') : (∃ e, t.reserve = .error e ∧ t'.reserve = .error e) ∨
    ∃ slot r r', t.reserve = .ok (slot, r) ∧ t'.reserve = .ok (slot, r') ∧ r.Alike r' := by
  cases h with
  | appendOnly entries offset => exact .inr ⟨_, _, _, rfl, rfl, .appendOnly entries offset⟩
  | deletable entries offset hfree hlimit =>
    rename_i slots slots'
    obtain ⟨free, limit, maxUsed⟩ := slots
    obtain ⟨free', limit', maxUsed'⟩ := slots'
    cases hfree
    cases hlimit
    cases free with
    | nil => exact .inl ⟨_, rfl, rfl⟩
    | cons range rest => exact .inr ⟨range.start, _, _, rfl, rfl, .deletable entries offset rfl rfl⟩

end Table.Alike

namespace TableChain

variable {c c' : TableChain η} {t : Nat} {slot : Slot} {table table' reserved : Table η} {change : Int} {shift : Nat → Nat}

/-- The tables of a chain after one was replaced and the offsets below it were shifted. -/
theorem getElem?_replace (htable : c.tables[t]? = some table) (i : Nat) :
    ((c.setTable t table').shiftBelow t shift).tables[i]? =
      if i = t then some table' else
        c.tables[i]?.map fun x => if t < i then { x with offset := shift x.offset } else x := by
  have hlt : t < c.tables.length := (List.getElem?_eq_some_iff.mp htable).1
  simp only [shiftBelow, setTable, List.getElem?_mapIdx, List.getElem?_set]
  by_cases h : i = t
  · subst h
    simp [hlt]
  · rw [if_neg h, if_neg (Ne.symm h)]

theorem tableSize_replace (htable : c.tables[t]? = some table) (hsize : (table'.size : Int) = table.size + change) (i : Nat) :
    (((c.setTable t table').shiftBelow t shift).tableSize i : Int) = c.tableSize i + if i = t then change else 0 := by
  unfold tableSize
  rw [getElem?_replace htable]
  by_cases h : i = t
  · subst h
    simp [htable, hsize]
  · rw [if_neg h, if_neg h, Int.add_zero]
    cases c.tables[i]? with
    | none => rfl
    | some x =>
      by_cases hlt : t < i
      · simp only [Option.map_some, hlt, if_true]
        rfl
      · simp only [Option.map_some, hlt, if_false]

/-- The tables below have that many more entries above them. -/
theorem above_replace (htable : c.tables[t]? = some table) (hsize : (table'.size : Int) = table.size + change) (i : Nat) :
    (((c.setTable t table').shiftBelow t shift).above i : Int) = c.above i + if t < i then change else 0 := by
  simp only [above, Nat.cast_sum, tableSize_replace htable hsize, Finset.sum_add_distrib, Finset.sum_ite_eq',
    Finset.mem_range]

theorem shiftBelow_id (c : TableChain η) (t : Nat) : c.shiftBelow t id = c := by
  refine congrArg TableChain.mk (List.ext_getElem? fun i => ?_)
  rw [List.getElem?_mapIdx]
  cases c.tables[i]? <;> simp

/-- Adds a change to a machine word. A sum that is no word is replaced by the nearest one. -/
def saturatingAdd (word : Nat) (change : Int) : Nat := (max 0 (min (word + change) IdPool.ceiling)).toNat

theorem saturatingAdd_eq {word word' : Nat} {change : Int} (h : (word' : Int) = word + change)
    (hword : word' ≤ IdPool.ceiling) : saturatingAdd word change = word' := by
  unfold saturatingAdd
  omega

/-- The offsets below table `t` are changed, none of them beyond the words. -/
structure Shifted (c c' : TableChain η) (t : Nat) (change : Int) : Prop where
  offset_eq : ∀ {i table}, c.tables[i]? = some table → ∃ table', c'.tables[i]? = some table' ∧
    (table'.offset : Int) = table.offset + if t < i then change else 0
  saturatingAdd_eq : ∀ {i table table'}, t < i → c.tables[i]? = some table → c'.tables[i]? = some table' →
    c'.size ≤ IdPool.ceiling → saturatingAdd table.offset change = table'.offset

/-- The slots not in use are known, and so are the numbers of entries above. -/
structure InStep (c : TableChain η) : Prop where
  exact : ∀ table ∈ c.tables, table.Exact
  aligned : c.Aligned

theorem inStep_empty (kinds : List TableKind) : (empty kinds : TableChain η).InStep := by
  constructor
  · intro table htable
    obtain ⟨kind, _, rfl⟩ := List.mem_map.mp htable
    exact Table.exact_empty kind
  · intro t table htable
    have hsize : ∀ i, (empty kinds : TableChain η).tableSize i = 0 := by
      intro i
      simp only [tableSize, empty, List.getElem?_map]
      cases kinds[i]? with
      | none => rfl
      | some kind => cases kind <;> rfl
    obtain ⟨kind, _, rfl⟩ := List.mem_map.mp (List.mem_of_getElem? htable)
    rw [above, Finset.sum_eq_zero fun i _ => hsize i]
    cases kind <;> rfl

namespace InStep

theorem sound (hc : c.InStep) : c.Sound := fun table htable => (hc.exact table htable).sound

/-- Replacing a table by one with more or less entries, where the offsets below are shifted accordingly. -/
theorem replace (hc : c.InStep) (htable : c.tables[t]? = some table) (hexact : table'.Exact)
    (hsize : (table'.size : Int) = table.size + change) (hoffset : table'.offset = table.offset)
    (hshift : ∀ {i x}, t < i → c.tables[i]? = some x → (shift x.offset : Int) = x.offset + change) :
    ((c.setTable t table').shiftBelow t shift).InStep ∧ Shifted c ((c.setTable t table').shiftBelow t shift) t change := by
  have hforward : ∀ {i x}, c.tables[i]? = some x → ∃ x', ((c.setTable t table').shiftBelow t shift).tables[i]? = some x' ∧
      (x'.offset : Int) = x.offset + if t < i then change else 0 := by
    intro i x hx
    rw [getElem?_replace htable]
    by_cases hi : i = t
    · subst hi
      rw [htable] at hx
      cases hx
      exact ⟨table', if_pos rfl, by simp [hoffset]⟩
    · refine ⟨if t < i then { x with offset := shift x.offset } else x, by rw [if_neg hi, hx, Option.map_some], ?_⟩
      by_cases hlt : t < i
      · simpa [hlt] using hshift hlt hx
      · simp [hlt]
  have haligned : ((c.setTable t table').shiftBelow t shift).Aligned := by
    intro i x' hx'
    have hi : i < c.tables.length := by simpa [shiftBelow, setTable] using (List.getElem?_eq_some_iff.mp hx').1
    obtain ⟨x'', hx'', hoffset'⟩ := hforward (List.getElem?_eq_getElem hi)
    rw [hx'] at hx''
    cases hx''
    have habove : (((c.setTable t table').shiftBelow t shift).above i : Int) = c.above i + if t < i then change else 0 :=
      above_replace htable hsize i
    rw [hc.aligned _ _ (List.getElem?_eq_getElem hi), ← habove] at hoffset'
    exact_mod_cast hoffset'
  refine ⟨⟨fun x' hx' => ?_, haligned⟩, hforward, fun {i x x'} hlt hx hx' hword => ?_⟩
  · obtain ⟨i, hi⟩ := List.getElem?_of_mem hx'
    rw [getElem?_replace htable] at hi
    split at hi
    · cases hi
      exact hexact
    · obtain ⟨x, hx, rfl⟩ := Option.map_eq_some_iff.mp hi
      refine (hc.exact x (List.mem_of_getElem? hx)).of_entries ?_
      split <;> rfl
  · obtain ⟨x'', hx'', hoffset'⟩ := hforward hx
    rw [hx'] at hx''
    cases hx''
    rw [if_pos hlt] at hoffset'
    refine TableChain.saturatingAdd_eq hoffset' (le_trans ?_ hword)
    rw [haligned _ _ hx', size_eq_above]
    exact above_mono (List.getElem?_eq_some_iff.mp hx').1.le

theorem insert (hc : c.InStep) (htable : c.tables[t]? = some table) (hreserve : table.reserve = .ok (slot, reserved)) (x : η) :
    ((c.setTable t (reserved.place slot x)).shiftBelow t (· + 1)).InStep ∧
      Shifted c ((c.setTable t (reserved.place slot x)).shiftBelow t (· + 1)) t 1 := by
  obtain ⟨hexact, hsize, hoffset⟩ := (hc.exact table (List.mem_of_getElem? htable)).place hreserve x
  exact hc.replace htable hexact (by rw [hsize]; rfl) hoffset fun _ _ => rfl

theorem remove {entries : SortedMap Slot η} {slots : IdPool} {offset : Nat} {x : η} (hc : c.InStep)
    (htable : c.tables[t]? = some ⟨.deletable entries slots, offset⟩) (hget : entries.get? slot = some x) :
    ((c.setTable t ⟨.deletable (entries.erase slot) (slots.release slot), offset⟩).shiftBelow t (· - 1)).InStep ∧
      Shifted c ((c.setTable t ⟨.deletable (entries.erase slot) (slots.release slot), offset⟩).shiftBelow t (· - 1)) t
        (-1) := by
  have hsize : (entries.erase slot).size + 1 = entries.size := SortedMap.size_erase_of_some hget
  refine hc.replace htable ((hc.exact _ (List.mem_of_getElem? htable)).erase hget) ?_ rfl fun {i y} hlt hy => ?_
  · change ((entries.erase slot).size : Int) = entries.size + -1
    omega
  · -- The entry that is taken out is one of those above.
    have hnext : c.above (t + 1) = c.above t + entries.size := above_succ htable
    have hle : c.above (t + 1) ≤ c.above i := above_mono hlt
    have hoffset := hc.aligned _ _ hy
    omega

/-- Giving a slot back changes neither entries nor offsets. -/
theorem giveBack (hc : c.InStep) (htable : c.tables[t]? = some table) (hreserve : table.reserve = .ok (slot, reserved)) :
    (c.setTable t (reserved.giveBack slot)).InStep := by
  obtain ⟨hexact, halike⟩ := (hc.exact table (List.mem_of_getElem? htable)).giveBack hreserve
  have hsize : ((reserved.giveBack slot).size : Int) = table.size + 0 := by rw [halike.size_eq, Int.add_zero]
  have hsame : ((c.setTable t (reserved.giveBack slot)).shiftBelow t id).InStep :=
    (hc.replace htable hexact hsize halike.offset_eq fun _ _ => (Int.add_zero _).symm).1
  rwa [shiftBelow_id] at hsame

/-- Every request keeps the chain in step. -/
theorem serve (hc : c.InStep) (r : Request η) : (c.serve r).2.InStep := by
  have hserved := c.served r
  generalize c.serve r = result at hserved
  cases hserved with
  | inserted htable hreserve hbuild => exact (hc.insert htable hreserve _).1
  | removed htable hget => exact (hc.remove htable hget).1
  | abandoned htable hreserve hbuild => exact hc.giveBack htable hreserve
  | refused => exact hc

theorem after (hc : c.InStep) (rs : List (Request η)) : (c.after rs).InStep := by
  induction rs generalizing c with
  | nil => exact hc
  | cons r rs ih => exact ih (hc.serve r)

end InStep

/-- Chains whose tables are alike. -/
def Alike (c c' : TableChain η) : Prop :=
  ∀ t : Nat, (c.tables[t]? = none ∧ c'.tables[t]? = none) ∨
    ∃ x x', c.tables[t]? = some x ∧ c'.tables[t]? = some x' ∧ x.Alike x'

namespace Alike

theorem refl (c : TableChain η) : Alike c c := by
  intro t
  cases c.tables[t]? with
  | none => exact .inl ⟨rfl, rfl⟩
  | some table => exact .inr ⟨table, table, rfl, rfl, .refl table⟩

/-- What is alike stays so when a table is replaced in both chains. -/
theorem replace (h : Alike c c') (htable : c.tables[t]? = some table) (htable' : c'.tables[t]? = some table')
    {x x' : Table η} (hx : x.Alike x') :
    Alike ((c.setTable t x).shiftBelow t shift) ((c'.setTable t x').shiftBelow t shift) := by
  intro i
  rw [getElem?_replace htable, getElem?_replace htable']
  by_cases hi : i = t
  · exact .inr ⟨x, x', if_pos hi, if_pos hi, hx⟩
  · rw [if_neg hi, if_neg hi]
    rcases h i with ⟨hy, hy'⟩ | ⟨y, y', hy, hy', hyy⟩
    · exact .inl ⟨by rw [hy, Option.map_none], by rw [hy', Option.map_none]⟩
    · refine .inr ⟨_, _, by rw [hy, Option.map_some], by rw [hy', Option.map_some], ?_⟩
      by_cases hlt : t < i
      · simpa only [hlt, if_true] using hyy.shift shift
      · simpa only [hlt, if_false] using hyy

theorem setTable (h : Alike c c') (htable : c.tables[t]? = some table) (htable' : c'.tables[t]? = some table')
    {x x' : Table η} (hx : x.Alike x') : Alike (c.setTable t x) (c'.setTable t x') := by
  have hsame : Alike ((c.setTable t x).shiftBelow t id) ((c'.setTable t x').shiftBelow t id) := h.replace htable htable' hx
  rwa [shiftBelow_id, shiftBelow_id] at hsame

/-- Chains that are alike answer alike and stay so. -/
theorem serve (h : Alike c c') (r : Request η) : (c'.serve r).1 = (c.serve r).1 ∧ Alike (c.serve r).2 (c'.serve r).2 := by
  cases r with
  | insert t build =>
    rcases h t with ⟨hx, hx'⟩ | ⟨x, x', hx, hx', hxx⟩
    · rw [serve_insert_refused (table_reserve_none hx), serve_insert_refused (table_reserve_none hx')]
      exact ⟨rfl, h⟩
    · have hread := table_reserve hx
      have hread' := table_reserve hx'
      rcases hxx.reserve with ⟨e, he, he'⟩ | ⟨slot, y, y', hy, hy', hyy⟩
      · rw [serve_insert_refused (hread.trans he), serve_insert_refused (hread'.trans he')]
        exact ⟨rfl, h⟩
      · cases hbuild : build slot with
        | error e =>
          rw [serve_insert_abandoned (hread.trans hy) hbuild, serve_insert_abandoned (hread'.trans hy') hbuild]
          exact ⟨rfl, h.setTable hx hx' (hyy.giveBack slot)⟩
        | ok z =>
          rw [serve_insert (hread.trans hy) hbuild, serve_insert (hread'.trans hy') hbuild]
          exact ⟨rfl, h.replace hx hx' (hyy.place slot z)⟩
  | remove t slot =>
    rcases h t with ⟨hx, hx'⟩ | ⟨x, x', hx, hx', hxx⟩
    · rw [serve_remove_noTable hx, serve_remove_noTable hx']
      exact ⟨rfl, h⟩
    · cases hxx with
      | appendOnly entries offset =>
        rw [serve_remove_appendOnly hx, serve_remove_appendOnly hx']
        exact ⟨rfl, h⟩
      | deletable entries offset hfree hlimit =>
        cases hget : entries.get? slot with
        | none =>
          rw [serve_remove_vacant hx hget, serve_remove_vacant hx' hget]
          exact ⟨rfl, h⟩
        | some z =>
          rw [serve_remove hx hget, serve_remove hx' hget]
          exact ⟨rfl, h.replace hx hx' (.deletable _ offset (congrArg (IdPool.insertId slot) hfree) hlimit)⟩

theorem answers (h : Alike c c') (rs : List (Request η)) : c'.answers rs = c.answers rs := by
  induction rs generalizing c c' with
  | nil => rfl
  | cons r rs ih =>
    obtain ⟨hanswer, hnext⟩ := h.serve r
    rw [TableChain.answers, TableChain.answers, hanswer, ih hnext]

theorem at?_eq (h : Alike c c') (t : Nat) (slot : Slot) : c'.at? t slot = c.at? t slot := by
  rcases h t with ⟨hx, hx'⟩ | ⟨x, x', hx, hx', hxx⟩
  · simp [at?, hx, hx']
  · simp [at?, hx, hx', hxx.get?_eq]

theorem offsets_eq (h : Alike c c') : c'.tables.map Table.offset = c.tables.map Table.offset := by
  refine List.ext_getElem? fun t => ?_
  rw [List.getElem?_map, List.getElem?_map]
  rcases h t with ⟨hx, hx'⟩ | ⟨x, x', hx, hx', hxx⟩
  · rw [hx, hx']
  · simp [hx, hx', hxx.offset_eq]

theorem kinds_eq (h : Alike c c') : c'.kinds = c.kinds := by
  refine List.ext_getElem? fun t => ?_
  rw [kinds, kinds, List.getElem?_map, List.getElem?_map]
  rcases h t with ⟨hx, hx'⟩ | ⟨x, x', hx, hx', hxx⟩
  · rw [hx, hx']
  · simp [hx, hx', hxx.kind_eq]

end Alike

namespace InStep

variable {r : Request η} {build : Slot → Except Error η} {x : η} {e : Error}

/-- Giving back the slot that was set aside leaves a chain that is alike. -/
theorem alike_giveBack (hc : c.InStep) (htable : c.tables[t]? = some table) (hreserve : table.reserve = .ok (slot, reserved)) :
    Alike c (c.setTable t (reserved.giveBack slot)) := by
  have hself : c.setTable t table = c := by
    obtain ⟨hlt, rfl⟩ := List.getElem?_eq_some_iff.mp htable
    exact congrArg TableChain.mk (List.set_getElem_self hlt)
  have halike := ((hc.exact table (List.mem_of_getElem? htable)).giveBack hreserve).2
  have hchains := (Alike.refl c).setTable htable htable halike
  rwa [hself] at hchains

theorem refused (hc : c.InStep) (h : c.serve r = (.error e, c')) : Alike c c' := by
  have hserved := c.served r
  rw [h] at hserved
  cases hserved with
  | abandoned htable hreserve hbuild => exact hc.alike_giveBack htable hreserve
  | refused => exact .refl c

theorem isLeast (hc : c.InStep) (htable : c.tables[t]? = some table) (hreserve : table.reserve = .ok (slot, reserved)) :
    IsLeast { s | c.at? t s = none } slot := by
  have hleast := (hc.exact table (List.mem_of_getElem? htable)).isLeast hreserve
  have hat : ∀ s, c.at? t s = table.get? s := fun s => by rw [at?, htable, Option.bind_some]
  simpa only [hat] using hleast

theorem inserted (hc : c.InStep) (h : c.serve (.insert t build) = (.ok (slot, x), c')) :
    build slot = .ok x ∧ IsLeast { s | c.at? t s = none } slot ∧ Inserted c c' t slot x ∧ Shifted c c' t 1 := by
  have hserved := c.served (.insert t build)
  rw [h] at hserved
  cases hserved with
  | inserted htable hreserve hbuild =>
    exact ⟨hbuild, hc.isLeast htable hreserve, inserted_of_reserve hc.sound htable hreserve x, (hc.insert htable hreserve x).2⟩

/-- An entry is built for the smallest empty slot as long as one is left. -/
theorem exists_inserted (hc : c.InStep) (ht : t < c.tables.length) (hsize : c.tableSize t < IdPool.ceiling) :
    ∃ slot, IsLeast { s | c.at? t s = none } slot ∧
      ∀ build x, build slot = .ok x → ∃ c', c.serve (.insert t build) = (.ok (slot, x), c') := by
  have htable := List.getElem?_eq_getElem ht
  cases hreserve : (c.tables[t]).reserve with
  | error e =>
    have hfull := (Table.reserve_error (hc.sound _ (List.mem_of_getElem? htable)) hreserve).2.2
    rw [tableSize_of_getElem? htable] at hsize
    omega
  | ok result =>
    obtain ⟨slot, reserved⟩ := result
    exact ⟨slot, hc.isLeast htable hreserve, fun build x hbuild =>
      ⟨_, serve_insert ((table_reserve htable).trans hreserve) hbuild⟩⟩

theorem removed (hc : c.InStep) (h : c.serve (.remove t slot) = (.ok (slot', x), c')) :
    slot' = slot ∧ c.at? t slot = some x ∧ c.kinds[t]? = some .deletable ∧ Removed c c' t slot ∧ Shifted c c' t (-1) := by
  have hserved := c.served (.remove t slot)
  rw [h] at hserved
  cases hserved with
  | removed htable hget =>
    have hat : c.at? t slot = some x := by rwa [at?, htable, Option.bind_some]
    have hkind : c.kinds[t]? = some .deletable := by simp [kinds, htable, Table.kind]
    obtain ⟨c', hremove, hremoved⟩ := remove_spec hc.sound hkind hat
    have hserve := serve_remove htable hget
    simp only [TableChain.serve, hremove, Prod.mk.injEq] at hserve
    obtain ⟨_, hserve⟩ := hserve
    cases hserve
    exact ⟨rfl, hat, hkind, hremoved, (hc.remove htable hget).2⟩

theorem exists_removed (hc : c.InStep) (hkind : c.kinds[t]? = some .deletable) (hat : c.at? t slot = some x) :
    ∃ c', c.serve (.remove t slot) = (.ok (slot, x), c') := by
  obtain ⟨c', hremove, _⟩ := remove_spec hc.sound hkind hat
  exact ⟨c', by simp only [TableChain.serve, hremove]; rfl⟩

/-- No request moves or drops an entry of a table that only grows. -/
theorem keeps (hc : c.InStep) (r : Request η) (hkind : c.kinds[t]? = some .appendOnly) (hat : c.at? t slot = some x) :
    (c.serve r).2.kinds[t]? = some .appendOnly ∧ (c.serve r).2.at? t slot = some x := by
  generalize hresult : c.serve r = result
  obtain ⟨answer, c'⟩ := result
  cases answer with
  | error e =>
    have halike := hc.refused hresult
    exact ⟨halike.kinds_eq ▸ hkind, (halike.at?_eq t slot).trans hat⟩
  | ok made =>
    obtain ⟨slot', y⟩ := made
    cases r with
    | insert t' build =>
      obtain ⟨_, _, hinserted, _⟩ := hc.inserted hresult
      refine ⟨hinserted.kinds_eq ▸ hkind, ?_⟩
      rw [hinserted.at?_eq, if_neg, hat]
      rintro ⟨rfl, rfl⟩
      rw [hinserted.vacant] at hat
      cases hat
    | remove t' slot'' =>
      obtain ⟨rfl, _, hdeletable, hremoved, _⟩ := hc.removed hresult
      refine ⟨hremoved.kinds_eq ▸ hkind, ?_⟩
      rw [hremoved.at?_eq, if_neg, hat]
      rintro ⟨rfl, rfl⟩
      rw [hdeletable] at hkind
      cases hkind

theorem keeps_after (hc : c.InStep) (rs : List (Request η)) (hkind : c.kinds[t]? = some .appendOnly)
    (hat : c.at? t slot = some x) : (c.after rs).at? t slot = some x := by
  induction rs generalizing c with
  | nil => exact hat
  | cons r rs ih =>
    obtain ⟨hkind', hat'⟩ := hc.keeps r hkind hat
    exact ih (hc.serve r) hkind' hat'

end InStep

/-- The entries of a chain are numbered from 0 on, table by table and in slot order, and every request keeps to that. -/
structure Numbered (c : TableChain η) : Prop where
  /-- A table knows the number of entries in the tables above. -/
  offset_eq : ∀ {t table}, c.tables[t]? = some table → table.offset = ∑ i ∈ Finset.range t, c.tableSize i
  /-- The entries, and only they, have a number. -/
  exists_globalIndex_iff : ∀ {t slot}, (∃ n, c.globalIndex t slot = .ok n) ↔ ∃ x, c.get t slot = .ok x
  /-- The numbers are those below the total. -/
  lt_size_iff : ∀ {n}, n < c.size ↔ ∃ t slot, c.globalIndex t slot = .ok n
  /-- Numbers are in the order of tables and slots. -/
  globalIndex_lt_iff : ∀ {t t' slot slot' n n'}, c.globalIndex t slot = .ok n → c.globalIndex t' slot' = .ok n' →
    (n < n' ↔ t < t' ∨ t = t' ∧ slot < slot')
  /-- The entry with a number is the handle at that place. -/
  handles_getElem?_iff : ∀ {t slot n}, c.globalIndex t slot = .ok n → ∀ x, c.handles[n]? = some x ↔ c.get t slot = .ok x
  /-- There are no other handles. -/
  length_handles : c.handles.length = c.size
  /-- A table with entries starts where those above end. -/
  startingIndex?_eq : ∀ t, c.startingIndex? t = if c.tableSize t = 0 then none else some (∑ i ∈ Finset.range t, c.tableSize i)
  /-- A new entry takes the smallest empty slot of its table, and moves the tables below down by one. -/
  inserted : ∀ {t build slot x c'}, c.serve (.insert t build) = (.ok (slot, x), c') →
    build slot = .ok x ∧ IsLeast { s | c.at? t s = none } slot ∧ Inserted c c' t slot x ∧ Shifted c c' t 1
  /-- It is built for that slot as long as the table has one left. -/
  exists_inserted : ∀ {t}, t < c.tables.length → c.tableSize t < IdPool.ceiling →
    ∃ slot, IsLeast { s | c.at? t s = none } slot ∧
      ∀ build x, build slot = .ok x → ∃ c', c.serve (.insert t build) = (.ok (slot, x), c')
  /-- What is taken out stood in a table that allows it, and the tables below move up by one. -/
  removed : ∀ {t slot slot' x c'}, c.serve (.remove t slot) = (.ok (slot', x), c') →
    slot' = slot ∧ c.at? t slot = some x ∧ c.kinds[t]? = some .deletable ∧ Removed c c' t slot ∧ Shifted c c' t (-1)
  exists_removed : ∀ {t slot x}, c.kinds[t]? = some .deletable → c.at? t slot = some x →
    ∃ c', c.serve (.remove t slot) = (.ok (slot, x), c')
  /-- A request that fails changes no entry, no offset and no later answer. -/
  refused : ∀ {r e c'}, c.serve r = (.error e, c') → (∀ t slot, c'.at? t slot = c.at? t slot) ∧
    c'.tables.map Table.offset = c.tables.map Table.offset ∧ ∀ rs, c'.answers rs = c.answers rs
  /-- An entry of a table that only grows stays at its slot. -/
  kept : ∀ {t slot x} rs, c.kinds[t]? = some .appendOnly → c.at? t slot = some x → (c.after rs).at? t slot = some x

/-- Whatever is stored and taken out, the entries of a chain stay numbered. -/
theorem numbered_after (kinds : List TableKind) (rs : List (Request η)) : Numbered ((empty kinds).after rs) := by
  have hc : ((empty kinds).after rs : TableChain η).InStep := (inStep_empty kinds).after rs
  exact {
    offset_eq := hc.aligned _ _
    exists_globalIndex_iff := hc.aligned.exists_globalIndex_iff
    lt_size_iff := hc.aligned.lt_size_iff
    globalIndex_lt_iff := hc.aligned.globalIndex_lt_iff
    handles_getElem?_iff := hc.aligned.handles_of_globalIndex
    length_handles := length_handles _
    startingIndex?_eq := hc.aligned.startingIndex?_eq
    inserted := hc.inserted
    exists_inserted := hc.exists_inserted
    removed := hc.removed
    exists_removed := hc.exists_removed
    refused := by
      intro r e c' h
      have halike := hc.refused h
      exact ⟨halike.at?_eq, halike.offsets_eq, halike.answers⟩
    kept := fun rs => hc.keeps_after rs }

end TableChain

end ReluAbstraction
