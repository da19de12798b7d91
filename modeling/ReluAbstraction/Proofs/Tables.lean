import ReluAbstraction.Table
import ReluAbstraction.Proofs.IdPool
import ReluAbstraction.Proofs.SortedMap
import ReluAbstraction.Proofs.Steps

/-!
# Look-up in chains of tables

A chain of tables is seen as a partial map from a table and a slot to an entry. An insertion fills a place that was empty
and a removal empties one; both leave the other places alone.
-/

namespace ReluAbstraction

variable {η τ : Type}

namespace Table

/-- A slot in use is not free, and the free slots of a table together with its entries are all slots there are. -/
def Sound (t : Table η) : Prop :=
  match t.entries with
  | .appendOnly _ => True
  | .deletable entries slots =>
    slots.WellFormed ∧ (∀ slot h, entries.get? slot = some h → slots.isFree slot = false) ∧
      slots.available + entries.size = IdPool.ceiling

theorem sound_empty (kind : TableKind) : (empty kind : Table η).Sound := by
  cases kind with
  | appendOnly => trivial
  | deletable =>
    refine ⟨IdPool.wellFormed_unbounded, fun slot h hget => by simp at hget, ?_⟩
    simp [IdPool.unbounded, IdPool.available, SortedMap.size]

@[simp] theorem get?_tableEmpty (kind : TableKind) (slot : Slot) : (empty kind : Table η).get? slot = none := by
  cases kind <;> simp [empty, get?]

@[simp] theorem kind_empty (kind : TableKind) : (empty kind : Table η).kind = kind := by cases kind <;> rfl

variable {t reserved : Table η} {slot : Slot}

/-- A table that allows removal sets aside what its pool of slots issues. -/
theorem exists_of_reserve {entries : SortedMap Slot η} {slots : IdPool} {offset : Nat}
    (h : reserve ⟨.deletable entries slots, offset⟩ = .ok (slot, reserved)) :
    ∃ rest, slots.allocate = .ok (slot, rest) ∧ reserved = ⟨.deletable entries rest, offset⟩ := by
  simp only [reserve] at h
  cases halloc : slots.allocate with
  | error e =>
    rw [halloc] at h
    cases h
  | ok result =>
    rw [halloc] at h
    injection h with h
    obtain ⟨rfl, rfl⟩ := Prod.mk.inj h
    exact ⟨_, rfl, rfl⟩

/-- The slot set aside was empty. -/
theorem get?_of_reserve (ht : t.Sound) (h : t.reserve = .ok (slot, reserved)) : t.get? slot = none := by
  obtain ⟨entries, offset⟩ := t
  cases entries with
  | appendOnly entries =>
    injection h with h
    obtain ⟨rfl, rfl⟩ := Prod.mk.inj h
    simp [get?]
  | deletable entries slots =>
    obtain ⟨hwf, hused, _⟩ := ht
    obtain ⟨rest, halloc, rfl⟩ := exists_of_reserve h
    change entries.get? slot = none
    rw [Option.eq_none_iff_forall_ne_some]
    intro x hx
    have hfree := (IdPool.allocate_spec hwf halloc).2.1
    rw [hused slot x hx] at hfree
    cases hfree

/-- The entry placed at the slot set aside is found there, and all else stays. -/
theorem place_spec (ht : t.Sound) (h : t.reserve = .ok (slot, reserved)) (x : η) :
    (reserved.place slot x).Sound ∧ (∀ s, (reserved.place slot x).get? s = if s = slot then some x else t.get? s) ∧
      (reserved.place slot x).kind = t.kind := by
  have hnone := get?_of_reserve ht h
  obtain ⟨entries, offset⟩ := t
  cases entries with
  | appendOnly entries =>
    injection h with h
    obtain ⟨rfl, rfl⟩ := Prod.mk.inj h
    refine ⟨trivial, fun s => ?_, rfl⟩
    change (entries ++ [x])[s]? = if s = entries.length then some x else entries[s]?
    rcases Nat.lt_trichotomy s entries.length with hs | hs | hs
    · rw [if_neg (Nat.ne_of_lt hs), List.getElem?_append_left hs]
    · simp [hs]
    · rw [if_neg (Nat.ne_of_gt hs), List.getElem?_eq_none (by simpa using hs), List.getElem?_eq_none (Nat.le_of_lt hs)]
  | deletable entries slots =>
    obtain ⟨hwf, hused, hcount⟩ := ht
    obtain ⟨rest, halloc, rfl⟩ := exists_of_reserve h
    obtain ⟨hwf', hfree, hiff, hcount'⟩ := IdPool.allocate_spec hwf halloc
    refine ⟨⟨hwf', fun s y hy => ?_, ?_⟩, fun s => SortedMap.get?_insert entries s slot x, rfl⟩
    · rw [SortedMap.get?_insert] at hy
      rw [← Bool.not_eq_true, hiff]
      rintro ⟨hs, hne⟩
      rw [if_neg hne] at hy
      rw [hused s y hy] at hs
      cases hs
    · have hsize : (entries.insert slot x).size = entries.size + 1 := SortedMap.size_insert_of_none hnone x
      change rest.available + (entries.insert slot x).size = IdPool.ceiling
      omega

/-- A table fails to set a slot aside only when all slots are in use. -/
theorem reserve_error {e : Error} (ht : t.Sound) (h : t.reserve = .error e) :
    (∃ limit, e = .exhausted limit) ∧ t.kind = .deletable ∧ IdPool.ceiling ≤ t.size := by
  obtain ⟨entries, offset⟩ := t
  cases entries with
  | appendOnly entries => cases h
  | deletable entries slots =>
    obtain ⟨_, _, hcount⟩ := ht
    simp only [reserve] at h
    cases halloc : slots.allocate with
    | ok result =>
      rw [halloc] at h
      cases h
    | error e' =>
      rw [halloc] at h
      injection h with h
      obtain ⟨he, hnone⟩ := IdPool.allocate_error halloc
      refine ⟨⟨_, h.symm.trans he⟩, rfl, ?_⟩
      change IdPool.ceiling ≤ entries.size
      omega

theorem mem_toList_iff {h : η} : (slot, h) ∈ t.toList ↔ t.get? slot = some h := by
  obtain ⟨entries, offset⟩ := t
  cases entries with
  | appendOnly entries =>
    simp only [toList, get?, List.mem_map, Prod.mk.injEq, Prod.exists, List.mem_zipIdx_iff_getElem?]
    constructor
    · rintro ⟨x, i, hx, rfl, rfl⟩
      exact hx
    · exact fun hx => ⟨h, slot, hx, rfl, rfl⟩
  | deletable entries slots => exact SortedMap.mem_toList_iff

/-- The slots of a table that only grows are its positions. -/
theorem slots_appendOnly (entries : List η) (offset : Nat) :
    (toList ⟨.appendOnly entries, offset⟩).map (·.1) = List.range entries.length := by
  rw [toList, List.map_map]
  exact List.zipIdx_map_snd 0 entries |>.trans (by simp [List.range_eq_range'])

/-- The slots of a table's entries increase. -/
theorem pairwise_slots (t : Table η) : (t.toList.map (·.1)).Pairwise (· < ·) := by
  obtain ⟨entries, offset⟩ := t
  cases entries with
  | appendOnly entries =>
    rw [slots_appendOnly]
    exact List.pairwise_lt_range
  | deletable entries slots =>
    rw [List.pairwise_map]
    exact entries.sorted.imp fun h => Nat.compare_eq_lt.mp h

theorem toList_slots_nodup : (t.toList.map (·.1)).Nodup := t.pairwise_slots.imp Nat.ne_of_lt

theorem size_eq_length : t.size = t.toList.length := by
  obtain ⟨entries, offset⟩ := t
  cases entries with
  | appendOnly entries => simp [size, toList]
  | deletable entries slots => rfl

theorem size_eq_zero_iff : t.size = 0 ↔ t.toList = [] := by
  rw [size_eq_length, List.length_eq_zero_iff]

end Table

namespace TableChain

/-- Entry at a slot of table `t`, if there is one. -/
def at? (c : TableChain η) (t : Nat) (slot : Slot) : Option η := c.tables[t]?.bind (·.get? slot)

/-- Kinds of the tables. -/
def kinds (c : TableChain η) : List TableKind := c.tables.map Table.kind

/-- All tables of the chain are sound. -/
def Sound (c : TableChain η) : Prop := ∀ t ∈ c.tables, t.Sound

theorem sound_empty (kinds : List TableKind) : (empty kinds : TableChain η).Sound := by
  intro t ht
  obtain ⟨kind, _, rfl⟩ := List.mem_map.mp ht
  exact Table.sound_empty kind

@[simp] theorem at?_empty (kinds : List TableKind) (t : Nat) (slot : Slot) :
    (empty kinds : TableChain η).at? t slot = none := by
  simp only [at?, empty, List.getElem?_map]
  cases kinds[t]? <;> simp

@[simp] theorem kinds_empty (kinds : List TableKind) : (empty kinds : TableChain η).kinds = kinds := by
  simp [TableChain.kinds, empty, Function.comp_def]

variable {c : TableChain η} {t : Nat} {slot : Slot} {table table' : Table η}

/-- The chain with one table replaced and the offsets below it shifted. -/
theorem at?_replace (htable : c.tables[t]? = some table) (shift : Nat → Nat) (t' : Nat) (s : Slot) :
    ((c.setTable t table').shiftBelow t shift).at? t' s = if t' = t then table'.get? s else c.at? t' s := by
  have hlt : t < c.tables.length := (List.getElem?_eq_some_iff.mp htable).1
  simp only [at?, shiftBelow, setTable, List.getElem?_mapIdx, List.getElem?_set]
  by_cases h : t' = t
  · subst h
    simp [hlt]
  · rw [if_neg h, if_neg (Ne.symm h)]
    cases c.tables[t']? with
    | none => rfl
    | some other =>
      simp only [Option.map_some, Option.bind_some]
      split <;> rfl

theorem sound_replace (hc : c.Sound) (ht : table'.Sound) (shift : Nat → Nat) :
    ((c.setTable t table').shiftBelow t shift).Sound := by
  intro x hx
  simp only [shiftBelow, setTable, List.mem_mapIdx] at hx
  obtain ⟨i, hi, rfl⟩ := hx
  have hmem : (c.tables.set t table')[i] ∈ c.tables ∨ (c.tables.set t table')[i] = table' :=
    List.mem_or_eq_of_mem_set (List.getElem_mem hi)
  have hsound : ((c.tables.set t table')[i]).Sound := by
    rcases hmem with h | h
    · exact hc _ h
    · rw [h]
      exact ht
  split
  · exact hsound
  · exact hsound

theorem kinds_replace (htable : c.tables[t]? = some table) (hkind : table'.kind = table.kind) (shift : Nat → Nat) :
    ((c.setTable t table').shiftBelow t shift).kinds = c.kinds := by
  apply List.ext_getElem?
  intro i
  simp only [kinds, shiftBelow, setTable, List.getElem?_map, List.getElem?_mapIdx, List.getElem?_set]
  by_cases h : t = i
  · subst h
    have hlt : t < c.tables.length := (List.getElem?_eq_some_iff.mp htable).1
    simp only [hlt, if_true, Option.map_some, lt_irrefl, if_false, htable, hkind]
  · rw [if_neg h]
    cases c.tables[i]? with
    | none => rfl
    | some other =>
      simp only [Option.map_some]
      split <;> rfl

/-- What putting an entry into a chain does. -/
structure Inserted (c c' : TableChain η) (t : Nat) (slot : Slot) (h : η) : Prop where
  vacant : c.at? t slot = none
  at?_eq : ∀ t' s, c'.at? t' s = if t' = t ∧ s = slot then some h else c.at? t' s
  sound : c'.Sound
  kinds_eq : c'.kinds = c.kinds

theorem inserted_of_reserve {reserved : Table η} (hc : c.Sound) (htable : c.tables[t]? = some table)
    (hreserve : table.reserve = .ok (slot, reserved)) (h : η) :
    Inserted c ((c.setTable t (reserved.place slot h)).shiftBelow t (· + 1)) t slot h := by
  have htableSound := hc table (List.mem_of_getElem? htable)
  obtain ⟨hsound, hget, hkind⟩ := Table.place_spec htableSound hreserve h
  refine ⟨?_, fun t' s => ?_, sound_replace hc hsound _, kinds_replace htable hkind _⟩
  · simp [at?, htable, Table.get?_of_reserve htableSound hreserve]
  · rw [at?_replace htable]
    by_cases ht : t' = t
    · subst ht
      simp [hget, at?, htable]
    · simp [ht]

/-- Inserting runs the builder on a vacant slot; it fails by itself only when the table has no slot left. -/
theorem insertWith_meets {build : Slot → Step τ η} {s : τ} {post : Slot × η × TableChain η → τ → Prop}
    {fail : Error → τ → Prop} (hc : c.Sound) (htable : c.tables[t]? = some table)
    (hfull : ∀ limit, table.kind = .deletable → IdPool.ceiling ≤ table.size → fail (.exhausted limit) s)
    (hbuild : ∀ slot, c.at? t slot = none → (build slot).Meets s
      (fun h s' => ∀ c', Inserted c c' t slot h → post (slot, h, c') s') fail) :
    (c.insertWith t build).Meets s post fail := by
  have hread : (c.table t >>= fun table => table.reserve) = table.reserve := by
    simp only [TableChain.table, htable]
    rfl
  unfold insertWith
  rw [Step.meets_bind, Step.meets_ofExcept, hread]
  cases hreserve : table.reserve with
  | error e =>
    obtain ⟨⟨limit, rfl⟩, hkind, hsize⟩ := Table.reserve_error (hc table (List.mem_of_getElem? htable)) hreserve
    exact hfull limit hkind hsize
  | ok result =>
    obtain ⟨slot, reserved⟩ := result
    have hvacant : c.at? t slot = none := by
      simp [at?, htable, Table.get?_of_reserve (hc table (List.mem_of_getElem? htable)) hreserve]
    dsimp only
    rw [Step.meets_bind]
    exact (hbuild slot hvacant).imp fun h s' hpost => hpost _ (inserted_of_reserve hc htable hreserve h)

/-- Inserting an entry into a table that only grows succeeds. -/
theorem insert_spec (hc : c.Sound) (htable : c.tables[t]? = some table) (hkind : table.kind = .appendOnly) (h : η) :
    ∃ slot c', c.insert t h = .ok (slot, c') ∧ Inserted c c' t slot h := by
  obtain ⟨entries, offset⟩ := table
  cases entries with
  | deletable entries slots => cases hkind
  | appendOnly entries =>
    refine ⟨entries.length, _, ?_, inserted_of_reserve hc htable rfl h⟩
    simp only [insert, TableChain.table, htable]
    rfl

/-- What taking an entry out of a chain does. -/
structure Removed (c c' : TableChain η) (t : Nat) (slot : Slot) : Prop where
  at?_eq : ∀ t' s, c'.at? t' s = if t' = t ∧ s = slot then none else c.at? t' s
  sound : c'.Sound
  kinds_eq : c'.kinds = c.kinds

/-- An entry of a table that allows removal can be taken out. -/
theorem remove_spec {h : η} (hc : c.Sound) (hkind : c.kinds[t]? = some .deletable) (hat : c.at? t slot = some h) :
    ∃ c', c.remove t slot = .ok (h, c') ∧ Removed c c' t slot := by
  obtain ⟨table, htable, hget⟩ := Option.bind_eq_some_iff.mp hat
  have hdeletable : table.kind = .deletable := by simpa [kinds, htable] using hkind
  have hsound := hc table (List.mem_of_getElem? htable)
  obtain ⟨entries, offset⟩ := table
  cases entries with
  | appendOnly entries => cases hdeletable
  | deletable entries slots =>
    obtain ⟨hwf, hused, hcount⟩ := hsound
    have hentry : entries.get? slot = some h := hget
    obtain ⟨hwf', hiff, hcount'⟩ := IdPool.release_spec hwf (hused slot h hentry)
    have hsize := SortedMap.size_erase_of_some hentry
    have hnew : Table.Sound ⟨.deletable (entries.erase slot) (slots.release slot), offset⟩ := by
      refine ⟨hwf', fun s y hy => ?_, ?_⟩
      · rw [SortedMap.get?_erase] at hy
        rw [← Bool.not_eq_true, hiff]
        rintro (hs | hs)
        · rw [if_pos hs] at hy
          cases hy
        · split at hy
          · cases hy
          · rw [hused s y hy] at hs
            cases hs
      · omega
    refine ⟨(c.setTable t ⟨.deletable (entries.erase slot) (slots.release slot), offset⟩).shiftBelow t (· - 1), ?_,
      ⟨fun t' s => ?_, sound_replace hc hnew _, kinds_replace htable ?_ _⟩⟩
    · simp only [remove, TableChain.table, htable, bind, Except.bind, hentry]
      rfl
    · rw [at?_replace htable]
      by_cases ht : t' = t
      · subst ht
        by_cases hs : s = slot <;> simp [Table.get?, SortedMap.get?_erase, hs, at?, htable]
      · simp [ht]
    · rfl

/-- The entries of table `t` are what look-up finds there. -/
theorem mem_entries_iff {h : η} : (slot, h) ∈ c.entries t ↔ c.at? t slot = some h := by
  unfold entries at?
  cases c.tables[t]? with
  | none => simp
  | some table => simp [Table.mem_toList_iff]

theorem entries_slots_nodup : ((c.entries t).map (·.1)).Nodup := by
  unfold entries
  cases c.tables[t]? with
  | none => simp
  | some table => exact Table.toList_slots_nodup

/-- The handles of a chain are what look-up finds anywhere in it. -/
theorem mem_handles_iff {h : η} : h ∈ c.handles ↔ ∃ t slot, c.at? t slot = some h := by
  simp only [handles, List.mem_flatMap, List.mem_map, Prod.exists, exists_eq_right, Table.mem_toList_iff]
  constructor
  · rintro ⟨table, hmem, slot, hget⟩
    obtain ⟨t, ht⟩ := List.getElem?_of_mem hmem
    exact ⟨t, slot, by simp [at?, ht, hget]⟩
  · rintro ⟨t, slot, hat⟩
    obtain ⟨table, htable, hget⟩ := Option.bind_eq_some_iff.mp hat
    exact ⟨table, List.mem_of_getElem? htable, slot, hget⟩

end TableChain

end ReluAbstraction
