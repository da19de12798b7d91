import ReluAbstraction.Arena
import Mathlib.Tactic

/-!
# Look-up in arenas

Every operation on an arena is described by what look-up gives afterwards. An arena is well formed when its list of free
slots names each empty slot once; then a new entity gets a handle under which nothing was live.
-/

namespace ReluAbstraction.Arena

variable {k : EntityKind} {β : Type}

/-- The free slots are exactly the empty ones, each listed once, the others are counted, and slots are numbered within the
span. -/
structure WellFormed (a : Arena k β) : Prop where
  nodup : a.free.Nodup
  mem_free_iff : ∀ i, i ∈ a.free ↔ ∃ slot, a.slots[i]? = some slot ∧ slot.value = none
  size_le : a.slots.size ≤ span
  size_eq : a.size + a.free.length = a.slots.size

/-- A slot is left for another entity. -/
def HasRoom (a : Arena k β) : Prop := a.free ≠ [] ∨ a.slots.size < span

theorem wellFormed_empty : WellFormed (empty : Arena k β) where
  nodup := .nil
  mem_free_iff i := by simp [empty]
  size_le := by simp [empty]
  size_eq := by simp [empty]

@[simp] theorem get?_empty (h : Handle k) : (empty : Arena k β).get? h = none := by simp [get?, empty]

variable {a a' : Arena k β} {h : Handle k} {v : β}

/-- A handle is live if its slot has its generation and holds an entity. -/
theorem get?_eq_some_iff : a.get? h = some v ↔ a.slots[h.index]? = some ⟨h.generation, some v⟩ := by
  unfold get?
  cases hslot : a.slots[h.index]? with
  | none => simp
  | some slot =>
    obtain ⟨generation, value⟩ := slot
    by_cases hg : generation = h.generation <;> simp [hg]

theorem get_of_get? (hv : a.get? h = some v) : a.get h = .ok v := by simp [get, hv]

theorem get?_of_get_eq_ok (hv : a.get h = .ok v) : a.get? h = some v := by
  unfold get at hv
  cases hget : a.get? h with
  | none =>
    rw [hget] at hv
    cases hv
  | some u =>
    rw [hget] at hv
    exact congrArg some (Except.ok.inj hv)

theorem get_of_none (hv : a.get? h = none) : a.get h = .error (.usedAfterDestroy k h.index) := by simp [get, hv]

/-- Handles that are live together differ in their slots. -/
theorem eq_of_index_eq {h' : Handle k} {v' : β} (hv : a.get? h = some v) (hv' : a.get? h' = some v')
    (hindex : h.index = h'.index) : h = h' := by
  rw [get?_eq_some_iff] at hv hv'
  rw [hindex, hv'] at hv
  injection hv with hv
  injection hv with hgeneration _
  cases h
  cases h'
  simp_all

theorem index_lt_of_get? (hv : a.get? h = some v) : h.index < a.slots.size := by
  rw [get?_eq_some_iff] at hv
  exact (Array.getElem?_eq_some_iff.mp hv).1

/-- The slot of a live handle is not free. -/
theorem WellFormed.nodup_cons_of_live (hw : a.WellFormed) (hv : a.get? h = some v) : (h.index :: a.free).Nodup := by
  refine List.nodup_cons.mpr ⟨fun hmem => ?_, hw.nodup⟩
  obtain ⟨slot, hslot, hnone⟩ := (hw.mem_free_iff _).mp hmem
  rw [get?_eq_some_iff.mp hv] at hslot
  injection hslot with hslot
  rw [← hslot] at hnone
  cases hnone

theorem WellFormed.length_free_lt (hw : a.WellFormed) (hv : a.get? h = some v) : a.free.length < a.slots.size := by
  have hsub : h.index :: a.free ⊆ List.range a.slots.size := by
    intro i hi
    rw [List.mem_range]
    rcases List.mem_cons.mp hi with rfl | hfree
    · exact index_lt_of_get? hv
    · obtain ⟨slot, hslot, _⟩ := (hw.mem_free_iff i).mp hfree
      exact (Array.getElem?_eq_some_iff.mp hslot).1
  have hle := (List.subperm_of_subset (hw.nodup_cons_of_live hv) hsub).length_le
  rw [List.length_cons, List.length_range] at hle
  exact hle

/-- In a well-formed arena without free slots every slot holds an entity. -/
theorem WellFormed.exists_get?_of_free_nil (hw : a.WellFormed) (hfree : a.free = []) {i : Nat}
    (hi : i < a.slots.size) : ∃ h v, a.get? h = some v ∧ h.index = i := by
  have hslot : a.slots[i]? = some a.slots[i] := Array.getElem?_eq_getElem hi
  cases hvalue : a.slots[i].value with
  | none =>
    have hmem := (hw.mem_free_iff i).mpr ⟨_, hslot, hvalue⟩
    rw [hfree] at hmem
    cases hmem
  | some v =>
    refine ⟨⟨i, a.slots[i].generation⟩, v, ?_, rfl⟩
    rw [get?_eq_some_iff, hslot, ← hvalue]

/-- There are at most as many live handles as slots. -/
theorem length_le_of_live {hs : List (Handle k)} (hnodup : hs.Nodup) (hlive : ∀ h ∈ hs, ∃ v, a.get? h = some v) :
    hs.length ≤ a.slots.size := by
  have hindex : (hs.map Handle.index).Nodup := by
    refine hnodup.map_on fun h hh h' hh' heq => ?_
    obtain ⟨v, hv⟩ := hlive h hh
    obtain ⟨v', hv'⟩ := hlive h' hh'
    exact eq_of_index_eq hv hv' heq
  have hsub : (hs.map Handle.index).toFinset ⊆ Finset.range a.slots.size := by
    intro i hi
    obtain ⟨h, hh, rfl⟩ := List.mem_map.mp (List.mem_toFinset.mp hi)
    obtain ⟨v, hv⟩ := hlive h hh
    exact Finset.mem_range.mpr (index_lt_of_get? hv)
  calc hs.length = (hs.map Handle.index).toFinset.card := by
        rw [List.toFinset_card_of_nodup hindex, List.length_map]
    _ ≤ (Finset.range a.slots.size).card := Finset.card_le_card hsub
    _ = a.slots.size := Finset.card_range _

/-- An arena without room has a live handle for each index. -/
theorem WellFormed.exists_live_of_full (hw : a.WellFormed) (hfull : ¬a.HasRoom) :
    ∃ hs : List (Handle k), hs.Nodup ∧ hs.length = span ∧ ∀ h ∈ hs, ∃ v, a.get? h = some v := by
  obtain ⟨hfree, hsize⟩ := not_or.mp hfull
  have hsize' : a.slots.size = span := le_antisymm hw.size_le (not_lt.mp hsize)
  have hslot : ∀ i : Fin span, ∃ h v, a.get? h = some v ∧ h.index = i := fun i =>
    hw.exists_get?_of_free_nil (not_not.mp hfree) (by rw [hsize']; exact i.isLt)
  choose handle v hv hindex using hslot
  refine ⟨List.ofFn handle, ?_, List.length_ofFn, ?_⟩
  · refine List.nodup_ofFn.mpr fun i j hij => Fin.ext ?_
    rw [← hindex i, ← hindex j, hij]
  · intro h hh
    obtain ⟨i, rfl⟩ := (List.mem_ofFn' _ _).mp hh
    exact ⟨v i, hv i⟩

/-- Inserting fails only when no slot is left. -/
theorem insert_error {e : Error} (he : a.insert v = .error e) : e = .exhausted (span - 1) ∧ ¬a.HasRoom := by
  unfold insert insertWith nextHandle at he
  cases hfree : a.free with
  | cons index rest =>
    rw [hfree] at he
    cases he
  | nil =>
    rw [hfree] at he
    by_cases hsize : a.slots.size < span
    · rw [if_pos hsize] at he
      cases he
    · rw [if_neg hsize] at he
      injection he with he
      exact ⟨he.symm, by simp [HasRoom, hfree, hsize]⟩

/-- Look-up after an emptied slot was filled again. -/
theorem get?_push_of_cons {index : Nat} {rest : List Nat} {slot : ArenaSlot β} (hfree : a.free = index :: rest)
    (hslot : a.slots[index]? = some slot) (hnone : slot.value = none) (x : Handle k) :
    (a.push v).get? x = if x = ⟨index, slot.generation⟩ then some v else a.get? x := by
  obtain ⟨generation, value⟩ := slot
  obtain rfl : value = none := hnone
  ext w
  rw [get?_eq_some_iff, push, hfree]
  dsimp only
  rw [Array.getElem?_modify]
  by_cases hx : index = x.index
  · rw [if_pos hx, ← hx, hslot]
    by_cases hxh : x = ⟨index, generation⟩
    · rw [if_pos hxh]
      simp [hxh]
    · have hgeneration : generation ≠ x.generation := by
        rintro rfl
        exact hxh (by rw [hx])
      rw [if_neg hxh, get?_eq_some_iff, ← hx, hslot]
      simp [hgeneration]
  · have hxh : x ≠ ⟨index, generation⟩ := by
      rintro rfl
      exact hx rfl
    rw [if_neg hx, if_neg hxh, get?_eq_some_iff]

theorem WellFormed.push_of_cons (hw : a.WellFormed) {index : Nat} {rest : List Nat} (hfree : a.free = index :: rest) :
    (a.push v).WellFormed := by
  obtain ⟨slot, hslot, _⟩ := (hw.mem_free_iff index).mp (by simp [hfree])
  have hnodup := hw.nodup
  have hsize := hw.size_eq
  rw [hfree, List.nodup_cons] at hnodup
  rw [hfree, List.length_cons] at hsize
  have hpush : a.push v = ⟨a.slots.modify index fun slot => { slot with value := some v }, rest, a.size + 1⟩ := by
    simp [push, hfree]
  rw [hpush]
  refine ⟨hnodup.2, fun i => ?_, by simpa using hw.size_le, by simp only [Array.size_modify]; omega⟩
  have hmem := hw.mem_free_iff i
  rw [hfree, List.mem_cons] at hmem
  rw [Array.getElem?_modify]
  by_cases hi : index = i
  · subst hi
    simp [hnodup.1, hslot]
  · rw [if_neg hi, ← hmem]
    simp [Ne.symm hi]

/-- Look-up after a slot was added. -/
theorem get?_push_of_nil (hfree : a.free = []) (x : Handle k) :
    (a.push v).get? x = if x = ⟨a.slots.size, 0⟩ then some v else a.get? x := by
  ext w
  rw [get?_eq_some_iff, push, hfree]
  dsimp only
  rw [Array.getElem?_push]
  by_cases hx : x.index = a.slots.size
  · rw [if_pos hx]
    by_cases hxh : x = ⟨a.slots.size, 0⟩
    · simp [hxh]
    · have hgeneration : x.generation ≠ 0 := by
        intro hg
        exact hxh (by rw [← hx, ← hg])
      rw [if_neg hxh, get?_eq_some_iff, hx]
      simp [Ne.symm hgeneration]
  · have hxh : x ≠ ⟨a.slots.size, 0⟩ := by
      rintro rfl
      exact hx rfl
    rw [if_neg hx, if_neg hxh, get?_eq_some_iff]

theorem WellFormed.push_of_nil (hw : a.WellFormed) (hfree : a.free = []) (hroom : a.slots.size < span) :
    (a.push v).WellFormed := by
  have hsize := hw.size_eq
  have hpush : a.push v = ⟨a.slots.push ⟨0, some v⟩, a.free, a.size + 1⟩ := by simp [push, hfree]
  rw [hpush]
  refine ⟨hw.nodup, fun i => ?_, by simp only [Array.size_push]; omega, by simp only [Array.size_push]; omega⟩
  rw [hw.mem_free_iff i, Array.getElem?_push]
  by_cases hi : i = a.slots.size
  · simp [hi]
  · simp [hi]

/-- A new entity gets a handle under which nothing was live, and all else stays. -/
theorem insert_spec (hw : a.WellFormed) (hok : a.insert v = .ok (h, a')) :
    a'.WellFormed ∧ a.get? h = none ∧ (∀ x, a'.get? x = if x = h then some v else a.get? x) ∧
      a.slots.size ≤ a'.slots.size := by
  unfold insert insertWith nextHandle at hok
  cases hfree : a.free with
  | cons index rest =>
    obtain ⟨slot, hslot, hnone⟩ := (hw.mem_free_iff index).mp (by simp [hfree])
    rw [hfree] at hok
    dsimp only at hok
    rw [hslot] at hok
    injection hok with hok
    obtain ⟨rfl, rfl⟩ := Prod.mk.inj hok
    refine ⟨hw.push_of_cons hfree, ?_, get?_push_of_cons hfree hslot hnone, ?_⟩
    · simp [get?, hslot, hnone]
    · simp [push, hfree]
  | nil =>
    rw [hfree] at hok
    by_cases hroom : a.slots.size < span
    · rw [if_pos hroom] at hok
      injection hok with hok
      obtain ⟨rfl, rfl⟩ := Prod.mk.inj hok
      refine ⟨hw.push_of_nil hfree hroom, ?_, get?_push_of_nil hfree, ?_⟩
      · simp [get?]
      · simp [push, hfree]
    · rw [if_neg hroom] at hok
      cases hok

/-- Changing the slot of a live handle does not touch other handles, as long as the slot keeps its generation or is
emptied. -/
theorem get?_of_modify_slot {old : β} {f : ArenaSlot β → ArenaSlot β} {x : Handle k} (hold : a.get? h = some old)
    (hslots : a'.slots = a.slots.modify h.index f)
    (hf : (f ⟨h.generation, some old⟩).generation = h.generation ∨ (f ⟨h.generation, some old⟩).value = none)
    (hx : x ≠ h) : a'.get? x = a.get? x := by
  have hslot := get?_eq_some_iff.mp hold
  ext w
  rw [get?_eq_some_iff, get?_eq_some_iff, hslots, Array.getElem?_modify]
  by_cases hindex : h.index = x.index
  · have hgeneration : h.generation ≠ x.generation := by
      intro hg
      apply hx
      cases x
      cases h
      simp_all
    rw [if_pos hindex, ← hindex, hslot]
    simp only [Option.map_some, Option.some.injEq]
    constructor
    · intro heq
      rw [heq] at hf
      rcases hf with hf | hf
      · exact absurd hf.symm hgeneration
      · cases hf
    · intro heq
      exact absurd (congrArg ArenaSlot.generation heq) hgeneration
  · rw [if_neg hindex]

/-- Replacing a live entity. -/
theorem set_spec {old : β} (hold : a.get? h = some old) :
    ∃ a', a.set h v = .ok a' ∧ (∀ x, a'.get? x = if x = h then some v else a.get? x) ∧
      (a.WellFormed → a'.WellFormed) ∧ a'.slots.size = a.slots.size := by
  have hslot := get?_eq_some_iff.mp hold
  refine ⟨{ a with slots := a.slots.modify h.index fun slot => { slot with value := some v } },
    by simp only [set, hold], fun x => ?_, fun hw => ⟨hw.nodup, fun i => ?_, ?_, ?_⟩, by simp⟩
  · by_cases hx : x = h
    · rw [if_pos hx, get?_eq_some_iff, Array.getElem?_modify, hx, if_pos rfl, hslot]
      rfl
    · rw [if_neg hx]
      exact get?_of_modify_slot (f := fun slot => { slot with value := some v }) hold rfl (.inl rfl) hx
  · rw [hw.mem_free_iff, Array.getElem?_modify]
    by_cases hi : h.index = i
    · subst hi
      simp [hslot]
    · rw [if_neg hi]
  · simpa using hw.size_le
  · simpa using hw.size_eq

section Change

variable {f : β → Except Error β}

theorem modify_of_get? (hv : a.get? h = some v) : a.modify h f = (f v >>= fun w => a.set h w) := by
  rw [modify, get_of_get? hv]
  rfl

theorem modify_of_none (hv : a.get? h = none) : a.modify h f = .error (.usedAfterDestroy k h.index) := by
  rw [modify, get_of_none hv]
  rfl

/-- Changing a live entity by a change that succeeds. -/
theorem modify_spec {old : β} (hold : a.get? h = some old) (hf : f old = .ok v) :
    ∃ a', a.modify h f = .ok a' ∧ (∀ x, a'.get? x = if x = h then some v else a.get? x) ∧
      (a.WellFormed → a'.WellFormed) ∧ a'.slots.size = a.slots.size := by
  obtain ⟨a', hset, hspec⟩ := set_spec (v := v) hold
  refine ⟨a', ?_, hspec⟩
  rw [modify_of_get? hold, hf]
  exact hset

end Change

theorem remove_of_none (hv : a.get? h = none) : a.remove h = .error (.usedAfterDestroy k h.index) := by
  simp [remove, hv]

/-- Taking a live entity out. -/
theorem remove_spec (hv : a.get? h = some v) :
    ∃ a', a.remove h = .ok (v, a') ∧ (∀ x, a'.get? x = if x = h then none else a.get? x) ∧
      (a.WellFormed → a'.WellFormed) ∧ a'.slots.size = a.slots.size := by
  have hslot := get?_eq_some_iff.mp hv
  refine ⟨⟨a.slots.modify h.index fun slot => ⟨(slot.generation + 1) % span, none⟩, h.index :: a.free, a.size - 1⟩,
    by simp only [remove, hv], fun x => ?_, fun hw => ⟨hw.nodup_cons_of_live hv, fun i => ?_, ?_, ?_⟩, by simp⟩
  · by_cases hx : x = h
    · subst hx
      simp [get?, Array.getElem?_modify, hslot]
    · rw [if_neg hx]
      exact get?_of_modify_slot (f := fun slot => ⟨(slot.generation + 1) % span, none⟩) hv rfl (.inr rfl) hx
  · rw [List.mem_cons, hw.mem_free_iff, Array.getElem?_modify]
    by_cases hi : h.index = i
    · subst hi
      simp [hslot]
    · simp [hi, Ne.symm hi]
  · simpa using hw.size_le
  · have hsize := hw.size_eq
    have hlt := hw.length_free_lt hv
    simp only [List.length_cons, Array.size_modify]
    omega

/-- The live entities are those that a handle refers to. -/
theorem mem_toList_iff : (h, v) ∈ a.toList ↔ a.get? h = some v := by
  simp only [toList, get?, List.mem_filterMap, Prod.exists, List.mem_zipIdx_iff_getElem?, Array.getElem?_toList,
    Option.map_eq_some_iff, Prod.mk.injEq]
  constructor
  · rintro ⟨slot, index, hslot, value, hvalue, rfl, rfl⟩
    rw [hslot]
    simp [hvalue]
  · intro hget
    split at hget
    · next slot hslot =>
      split at hget
      · next hgeneration => exact ⟨slot, h.index, hslot, v, hget, by rw [hgeneration], rfl⟩
      · cases hget
    · cases hget

/-- The handles in use. -/
def handles (a : Arena k β) : Finset (Handle k) := (a.toList.map (·.1)).toFinset

theorem mem_handles_iff : h ∈ a.handles ↔ ∃ v, a.get? h = some v := by
  simp [handles, mem_toList_iff]

/-- An arena counts its handles. -/
theorem WellFormed.card_handles (hw : a.WellFormed) : a.handles.card = a.size := by
  have hinjective : Set.InjOn Handle.index (a.handles : Set (Handle k)) := by
    intro x hx y hy hindex
    obtain ⟨v, hv⟩ := mem_handles_iff.mp hx
    obtain ⟨w, hw⟩ := mem_handles_iff.mp hy
    exact eq_of_index_eq hv hw hindex
  -- A slot is either in use or free.
  have hdisjoint : Disjoint (a.handles.image Handle.index) a.free.toFinset := by
    rw [Finset.disjoint_left]
    intro i hi hfree
    obtain ⟨x, hx, rfl⟩ := Finset.mem_image.mp hi
    obtain ⟨v, hv⟩ := mem_handles_iff.mp hx
    exact (List.nodup_cons.mp (hw.nodup_cons_of_live hv)).1 (List.mem_toFinset.mp hfree)
  have hunion : a.handles.image Handle.index ∪ a.free.toFinset = Finset.range a.slots.size := by
    ext i
    rw [Finset.mem_union, List.mem_toFinset, Finset.mem_range, hw.mem_free_iff]
    constructor
    · rintro (hi | ⟨slot, hslot, _⟩)
      · obtain ⟨x, hx, rfl⟩ := Finset.mem_image.mp hi
        obtain ⟨v, hv⟩ := mem_handles_iff.mp hx
        exact index_lt_of_get? hv
      · exact (Array.getElem?_eq_some_iff.mp hslot).1
    · intro hi
      obtain ⟨⟨generation, value⟩, hslot⟩ : ∃ slot, a.slots[i]? = some slot := ⟨_, Array.getElem?_eq_getElem hi⟩
      cases value with
      | none => exact .inr ⟨_, hslot, rfl⟩
      | some v =>
        exact .inl (Finset.mem_image.mpr ⟨⟨i, generation⟩, mem_handles_iff.mpr ⟨v, get?_eq_some_iff.mpr hslot⟩, rfl⟩)
  have hcount := Finset.card_union_of_disjoint hdisjoint
  rw [hunion, Finset.card_range, Finset.card_image_of_injOn hinjective, List.toFinset_card_of_nodup hw.nodup] at hcount
  have hsize := hw.size_eq
  omega

end ReluAbstraction.Arena
