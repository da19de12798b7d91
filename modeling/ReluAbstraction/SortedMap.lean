/-!
# Sorted finite maps

A finite map kept as a list of entries with strictly increasing keys. Equal maps are equal lists, iteration is in key
order, and look-up, insertion and removal are by plain recursion on the entries.
-/

namespace ReluAbstraction

/-- A finite map from `κ` to `β`, as entries with strictly increasing keys. -/
structure SortedMap (κ β : Type) [Ord κ] where
  /-- Entries in key order. -/
  toList : List (κ × β)
  /-- Keys increase strictly. -/
  sorted : toList.Pairwise fun a b => compare a.1 b.1 = .lt

namespace SortedMap

variable {κ β γ : Type} [Ord κ]

instance [DecidableEq κ] [DecidableEq β] : DecidableEq (SortedMap κ β) := fun a b =>
  decidable_of_iff (a.toList = b.toList) ⟨fun h => by cases a; cases b; cases h; rfl, fun h => h ▸ rfl⟩

/-- The map without entries. -/
def empty : SortedMap κ β := ⟨[], .nil⟩

instance : EmptyCollection (SortedMap κ β) := ⟨empty⟩

instance : Inhabited (SortedMap κ β) := ⟨empty⟩

/-- Value stored in an entry list under `k`. -/
def find (k : κ) : List (κ × β) → Option β
  | [] => none
  | (key, value) :: rest => if compare k key = .eq then some value else find k rest

/-- Places an entry into an entry list, over an entry with the same key. -/
def place (k : κ) (v : β) : List (κ × β) → List (κ × β)
  | [] => [(k, v)]
  | (key, value) :: rest =>
    match compare k key with
    | .lt => (k, v) :: (key, value) :: rest
    | .eq => (k, v) :: rest
    | .gt => (key, value) :: place k v rest

/-- Drops the entry with key `k` from an entry list. -/
def drop (k : κ) : List (κ × β) → List (κ × β)
  | [] => []
  | (key, value) :: rest => if compare k key = .eq then rest else (key, value) :: drop k rest

/-- An entry of a list after placing is the placed one or an earlier one. -/
theorem mem_place {k : κ} {v : β} {entries : List (κ × β)} {e : κ × β} (h : e ∈ place k v entries) :
    e = (k, v) ∨ e ∈ entries := by
  induction entries with
  | nil => simpa [place] using h
  | cons first rest ih =>
    obtain ⟨key, value⟩ := first
    unfold place at h
    split at h
    · simpa using h
    · simp only [List.mem_cons] at h ⊢
      exact h.imp_right .inr
    · simp only [List.mem_cons] at h ⊢
      rcases h with h | h
      · exact .inr (.inl h)
      · exact (ih h).imp_right .inr

/-- Placing an entry keeps the keys strictly increasing. -/
theorem sorted_place [Std.TransOrd κ] (k : κ) (v : β) {entries : List (κ × β)}
    (h : entries.Pairwise fun a b => compare a.1 b.1 = .lt) :
    (place k v entries).Pairwise fun a b => compare a.1 b.1 = .lt := by
  induction entries with
  | nil => simp [place]
  | cons first rest ih =>
    obtain ⟨key, value⟩ := first
    obtain ⟨hfirst, hrest⟩ := List.pairwise_cons.mp h
    unfold place
    split
    · next hlt =>
      refine List.pairwise_cons.mpr ⟨fun e he => ?_, h⟩
      rcases List.mem_cons.mp he with rfl | he
      · exact hlt
      · exact Std.TransCmp.lt_trans hlt (hfirst e he)
    · next heq =>
      exact List.pairwise_cons.mpr
        ⟨fun e he => Std.TransCmp.lt_of_eq_of_lt heq (hfirst e he), hrest⟩
    · next hgt =>
      refine List.pairwise_cons.mpr ⟨fun e he => ?_, ih hrest⟩
      rcases mem_place he with rfl | he
      · exact Std.OrientedCmp.lt_of_gt hgt
      · exact hfirst e he

/-- Dropping an entry leaves a sublist. -/
theorem drop_sublist (k : κ) (entries : List (κ × β)) : (drop k entries).Sublist entries := by
  induction entries with
  | nil => exact .slnil
  | cons first rest ih =>
    unfold drop
    split
    · exact List.sublist_cons_self ..
    · exact ih.cons_cons _

/-- Value under `k`. -/
def get? (m : SortedMap κ β) (k : κ) : Option β := find k m.toList

/-- Whether `k` has a value. -/
def contains (m : SortedMap κ β) (k : κ) : Bool := (m.get? k).isSome

/-- Sets the value under `k`. -/
def insert [Std.TransOrd κ] (m : SortedMap κ β) (k : κ) (v : β) : SortedMap κ β :=
  ⟨place k v m.toList, sorted_place k v m.sorted⟩

/-- Removes the value under `k`. -/
def erase (m : SortedMap κ β) (k : κ) : SortedMap κ β :=
  ⟨drop k m.toList, m.sorted.sublist (drop_sublist k m.toList)⟩

/-- Number of entries. -/
def size (m : SortedMap κ β) : Nat := m.toList.length

/-- Whether there is no entry. -/
def isEmpty (m : SortedMap κ β) : Bool := m.toList.isEmpty

/-- Keys in increasing order. -/
def keys (m : SortedMap κ β) : List κ := m.toList.map (·.1)

/-- Values in key order. -/
def values (m : SortedMap κ β) : List β := m.toList.map (·.2)

/-- Inserts entries one after another; a later entry replaces an earlier one with its key. -/
def ofList [Std.TransOrd κ] (entries : List (κ × β)) : SortedMap κ β :=
  entries.foldl (fun m e => m.insert e.1 e.2) empty

end SortedMap

/-- A finite set, as a map whose values say nothing. -/
abbrev SortedSet (κ : Type) [Ord κ] := SortedMap κ Unit

namespace SortedSet

variable {κ : Type} [Ord κ]

/-- Adds an element. -/
def add [Std.TransOrd κ] (s : SortedSet κ) (k : κ) : SortedSet κ := s.insert k ()

end SortedSet

end ReluAbstraction
