import ReluAbstraction.Handle
import ReluAbstraction.Location
import ReluAbstraction.SortedMap
import Mathlib.Tactic

/-!
# Look-up in sorted maps

Every operation on a sorted map is described by what look-up gives afterwards. For this the order has to tell different
keys apart, which the orders of handles and edge keys do.
-/

namespace ReluAbstraction

instance : Std.LawfulEqOrd EdgeKey where
  eq_of_compare {a b} h := by
    obtain ⟨ha, hb⟩ := compareLex_eq_eq.mp h
    have hcategory : a.category = b.category := Category.index_injective (Std.LawfulEqOrd.eq_of_compare ha)
    have hslot : a.slot = b.slot := Std.LawfulEqOrd.eq_of_compare hb
    cases a
    cases b
    simp_all

instance {k : EntityKind} : Std.LawfulEqOrd (Handle k) where
  eq_of_compare {a b} h := by
    obtain ⟨ha, hb⟩ := compareLex_eq_eq.mp h
    have hindex : a.index = b.index := Std.LawfulEqOrd.eq_of_compare ha
    have hgeneration : a.generation = b.generation := Std.LawfulEqOrd.eq_of_compare hb
    cases a
    cases b
    simp_all

namespace SortedMap

variable {κ β : Type} [Ord κ]

@[simp] theorem get?_empty (k : κ) : (empty : SortedMap κ β).get? k = none := rfl

@[simp] theorem toList_empty : (empty : SortedMap κ β).toList = [] := rfl

variable [Std.LawfulEqOrd κ] {m : SortedMap κ β}

theorem keys_nodup : m.keys.Nodup := by
  unfold keys
  rw [List.nodup_iff_pairwise_ne, List.pairwise_map]
  refine m.sorted.imp fun {a b} h => ?_
  intro heq
  rw [heq] at h
  simp at h

variable [DecidableEq κ]

/-- Look-up after placing an entry. -/
theorem find_place (k key : κ) (v : β) (entries : List (κ × β)) :
    find k (place key v entries) = if k = key then some v else find k entries := by
  induction entries with
  | nil => simp [place, find]
  | cons first rest ih =>
    obtain ⟨key', value⟩ := first
    unfold place
    split
    · simp [find]
    · next heq =>
      have hkey : key = key' := Std.LawfulEqOrd.eq_of_compare heq
      subst hkey
      by_cases h : k = key <;> simp [find, h]
    · next hgt =>
      have hne : key ≠ key' := by
        rintro rfl
        simp at hgt
      by_cases h : k = key
      · subst h
        simp [find, ih, hne]
      · simp [find, ih, h]

/-- In a list whose keys increase strictly, look-up finds exactly the entries. -/
theorem find_eq_some_iff {k : κ} {v : β} {entries : List (κ × β)}
    (h : entries.Pairwise fun a b => compare a.1 b.1 = .lt) : find k entries = some v ↔ (k, v) ∈ entries := by
  induction entries with
  | nil => simp [find]
  | cons first rest ih =>
    obtain ⟨key, value⟩ := first
    obtain ⟨hfirst, hrest⟩ := List.pairwise_cons.mp h
    by_cases heq : k = key
    · subst heq
      have hnot : (k, v) ∉ rest := by
        intro hmem
        have hlt := hfirst (k, v) hmem
        simp at hlt
      simp only [find, Std.compare_self, if_true, Option.some.injEq, List.mem_cons, Prod.mk.injEq, true_and]
      exact ⟨fun h => .inl h.symm, fun h => (h.resolve_right hnot).symm⟩
    · simp [find, heq, ih hrest]

/-- Look-up after dropping an entry. -/
theorem find_drop (k key : κ) {entries : List (κ × β)} (h : entries.Pairwise fun a b => compare a.1 b.1 = .lt) :
    find k (drop key entries) = if k = key then none else find k entries := by
  induction entries with
  | nil => simp [drop, find]
  | cons first rest ih =>
    obtain ⟨key', value⟩ := first
    obtain ⟨hfirst, hrest⟩ := List.pairwise_cons.mp h
    by_cases heq : key = key'
    · subst heq
      have hnone : find key rest = none := by
        rw [Option.eq_none_iff_forall_ne_some]
        intro v hv
        have hlt := hfirst _ ((find_eq_some_iff hrest).mp hv)
        simp at hlt
      by_cases hk : k = key
      · subst hk
        simpa [drop] using hnone
      · simp [drop, find, hk]
    · by_cases hk : k = key
      · subst hk
        simp [drop, find, heq, ih hrest]
      · simp [drop, find, heq, ih hrest, hk]

theorem get?_insert [Std.TransOrd κ] (m : SortedMap κ β) (k key : κ) (v : β) :
    (m.insert key v).get? k = if k = key then some v else m.get? k :=
  find_place k key v m.toList

theorem get?_erase (m : SortedMap κ β) (k key : κ) : (m.erase key).get? k = if k = key then none else m.get? k :=
  find_drop k key m.sorted

/-- The entries of a map are what look-up finds. -/
theorem mem_toList_iff {k : κ} {v : β} : (k, v) ∈ m.toList ↔ m.get? k = some v := (find_eq_some_iff m.sorted).symm

theorem mem_keys_iff {k : κ} : k ∈ m.keys ↔ (m.get? k).isSome := by
  simp only [keys, List.mem_map, Prod.exists, exists_and_right, exists_eq_right, Option.isSome_iff_exists, mem_toList_iff]

theorem isEmpty_iff : m.isEmpty ↔ ∀ k, m.get? k = none := by
  constructor
  · intro h k
    have hnil : m.toList = [] := by simpa [isEmpty] using h
    simp [get?, hnil, find]
  · intro h
    cases hlist : m.toList with
    | nil => simp [isEmpty, hlist]
    | cons first rest =>
      have hmem : (first.1, first.2) ∈ m.toList := by simp [hlist]
      rw [mem_toList_iff, h] at hmem
      simp at hmem

/-- Maps with the same look-up are equal. -/
theorem ext_get? [Std.TransOrd κ] {m' : SortedMap κ β} (h : ∀ k, m.get? k = m'.get? k) : m = m' := by
  have hperm : m.toList.Perm m'.toList := by
    refine (List.perm_ext_iff_of_nodup ?_ ?_).mpr fun e => ?_
    · exact List.Nodup.of_map (fun e : κ × β => e.1) keys_nodup
    · exact List.Nodup.of_map (fun e : κ × β => e.1) keys_nodup
    · obtain ⟨k, v⟩ := e
      rw [mem_toList_iff, mem_toList_iff, h]
  have hlist : m.toList = m'.toList := by
    refine hperm.eq_of_pairwise (fun a b _ _ hab hba => ?_) m.sorted m'.sorted
    have hgt := Std.OrientedCmp.gt_of_lt hab
    rw [hba] at hgt
    cases hgt
  cases m
  cases m'
  cases hlist
  rfl

/-- Look-up in a map that is made of entries with different keys. -/
theorem get?_ofList_iff [Std.TransOrd κ] {entries : List (κ × β)} (h : (entries.map Prod.fst).Nodup) {k : κ} {v : β} :
    (ofList entries).get? k = some v ↔ (k, v) ∈ entries := by
  suffices hfold : ∀ (entries : List (κ × β)) (m : SortedMap κ β), (entries.map Prod.fst).Nodup →
      (∀ e ∈ entries, m.get? e.1 = none) →
      ((entries.foldl (fun m e => m.insert e.1 e.2) m).get? k = some v ↔ m.get? k = some v ∨ (k, v) ∈ entries) by
    simpa [ofList] using hfold entries empty h fun _ _ => rfl
  intro entries
  induction entries with
  | nil => simp
  | cons first rest ih =>
    intro m hnodup hnone
    obtain ⟨hfirst, hrest⟩ := List.nodup_cons.mp hnodup
    have hnew : ∀ e ∈ rest, (m.insert first.1 first.2).get? e.1 = none := by
      intro e he
      rw [get?_insert, if_neg, hnone e (List.mem_cons_of_mem _ he)]
      rintro heq
      exact hfirst (heq ▸ List.mem_map_of_mem he)
    rw [List.foldl_cons, ih _ hrest hnew, get?_insert, List.mem_cons]
    by_cases hk : k = first.1
    · subst hk
      simp [hnone first, Prod.ext_iff, eq_comm]
    · simp [hk, Prod.ext_iff]

/-- Setting a key that has no value adds one entry. -/
theorem size_insert_of_none [Std.TransOrd κ] {k : κ} (h : m.get? k = none) (v : β) : (m.insert k v).size = m.size + 1 := by
  suffices hlen : ∀ entries : List (κ × β), find k entries = none →
      (place k v entries).length = entries.length + 1 from hlen m.toList h
  intro entries
  induction entries with
  | nil => simp [place]
  | cons first rest ih =>
    obtain ⟨key, value⟩ := first
    intro hfind
    by_cases heq : k = key
    · subst heq
      simp [find] at hfind
    · unfold place
      split
      · simp
      · next hcmp => exact absurd (Std.LawfulEqOrd.eq_of_compare hcmp) heq
      · have hrest : find k rest = none := by simpa [find, heq] using hfind
        simp [ih hrest]

/-- Removing a key that has a value removes one entry. -/
theorem size_erase_of_some {k : κ} {v : β} (h : m.get? k = some v) : (m.erase k).size + 1 = m.size := by
  suffices hlen : ∀ entries : List (κ × β), find k entries = some v →
      (drop k entries).length + 1 = entries.length from hlen m.toList h
  intro entries
  induction entries with
  | nil => simp [find]
  | cons first rest ih =>
    obtain ⟨key, value⟩ := first
    intro hfind
    by_cases heq : k = key
    · subst heq
      simp [drop]
    · have hrest : find k rest = some v := by simpa [find, heq] using hfind
      simp [drop, heq, ih hrest]

end SortedMap

namespace SortedSet

variable {κ : Type} [Ord κ] [Std.TransOrd κ] [Std.LawfulEqOrd κ] [DecidableEq κ]

theorem contains_add (s : SortedSet κ) (k key : κ) :
    SortedMap.contains (s.add key) k = (decide (k = key) || SortedMap.contains s k) := by
  unfold add SortedMap.contains
  rw [SortedMap.get?_insert]
  by_cases h : k = key <;> simp [h]

/-- Sets with the same elements are equal. -/
theorem ext_contains {s s' : SortedSet κ} (h : ∀ k, SortedMap.contains s k = SortedMap.contains s' k) : s = s' := by
  refine SortedMap.ext_get? fun k => ?_
  have hk : (SortedMap.get? s k).isSome = (SortedMap.get? s' k).isSome := h k
  cases hget : SortedMap.get? s k with
  | none =>
    rw [hget, Option.isSome_none, eq_comm, Option.isSome_eq_false_iff, Option.isNone_iff_eq_none] at hk
    rw [hk]
  | some _ =>
    rw [hget, Option.isSome_some, eq_comm, Option.isSome_iff_exists] at hk
    obtain ⟨_, hget'⟩ := hk
    rw [hget']

/-- Elements collected from a list. -/
theorem mem_keys_foldl_add (xs : List κ) (s : SortedSet κ) (k : κ) :
    k ∈ SortedMap.keys (xs.foldl add s) ↔ k ∈ xs ∨ k ∈ SortedMap.keys s := by
  induction xs generalizing s with
  | nil => simp
  | cons x xs ih =>
    rw [List.foldl_cons, ih]
    simp only [SortedMap.mem_keys_iff, List.mem_cons, add, SortedMap.get?_insert]
    by_cases h : k = x <;> simp [h]

end SortedSet

end ReluAbstraction
