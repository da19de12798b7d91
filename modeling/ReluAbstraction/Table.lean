import ReluAbstraction.IdPool
import ReluAbstraction.SortedMap

/-!
# Tables

The entities of one category in one layer stand in a table, each at a slot. The tables of a layer form a chain in which
each table knows how many entries stand above it, which numbers the entities of the whole layer.
-/

namespace ReluAbstraction

/-- What may happen to the entries of a table. -/
inductive TableKind where
  /-- Entries are only added; a slot is an entry's position for good. -/
  | appendOnly
  /-- Entries come and go; a new one takes the smallest slot not in use. -/
  | deletable
deriving DecidableEq, Repr

/-- Entries of a table. -/
inductive TableEntries (η : Type) where
  /-- Entries at slots 0, 1, 2 and so on. -/
  | appendOnly (entries : List η)
  /-- Entries by slot, and the slots not in use. -/
  | deletable (entries : SortedMap Slot η) (slots : IdPool)

/-- One table of a chain. -/
structure Table (η : Type) where
  /-- The entries. -/
  entries : TableEntries η
  /-- Number of entries in the tables above. -/
  offset : Nat

namespace Table

variable {η : Type}

/-- A table without entries. -/
def empty (kind : TableKind) : Table η :=
  match kind with
  | .appendOnly => ⟨.appendOnly [], 0⟩
  | .deletable => ⟨.deletable .empty .unbounded, 0⟩

/-- Kind of a table. -/
def kind (t : Table η) : TableKind :=
  match t.entries with
  | .appendOnly _ => .appendOnly
  | .deletable _ _ => .deletable

/-- Entries with their slots, in slot order. -/
def toList (t : Table η) : List (Slot × η) :=
  match t.entries with
  | .appendOnly entries => entries.zipIdx.map fun (h, slot) => (slot, h)
  | .deletable entries _ => entries.toList

/-- Number of entries. -/
def size (t : Table η) : Nat :=
  match t.entries with
  | .appendOnly entries => entries.length
  | .deletable entries _ => entries.size

/-- Whether there is no entry. -/
def isEmpty (t : Table η) : Bool := t.size == 0

/-- Entry at a slot. -/
def get? (t : Table η) (slot : Slot) : Option η :=
  match t.entries with
  | .appendOnly entries => entries[slot]?
  | .deletable entries _ => entries.get? slot

/-- Number of entries before the one at `slot`. -/
def position? (t : Table η) (slot : Slot) : Option Nat :=
  match t.entries with
  | .appendOnly entries => if slot < entries.length then some slot else none
  | .deletable entries _ =>
    if entries.contains slot then some (entries.keys.filter (· < slot)).length else none

/-- Slot of the next entry, and the table with that slot set aside. -/
def reserve (t : Table η) : Except Error (Slot × Table η) :=
  match t.entries with
  | .appendOnly entries => .ok (entries.length, t)
  | .deletable entries slots => do
    let (slot, slots) ← slots.allocate
    return (slot, { t with entries := .deletable entries slots })

/-- Puts an entry at a slot that was set aside. -/
def place (t : Table η) (slot : Slot) (h : η) : Table η :=
  match t.entries with
  | .appendOnly entries => { t with entries := .appendOnly (entries ++ [h]) }
  | .deletable entries slots => { t with entries := .deletable (entries.insert slot h) slots }

end Table

/-- The tables of one layer, top to bottom. -/
structure TableChain (η : Type) where
  /-- The tables. -/
  tables : List (Table η)

namespace TableChain

variable {η τ : Type}

/-- A chain of empty tables of the given kinds. -/
def empty (kinds : List TableKind) : TableChain η := ⟨kinds.map Table.empty⟩

/-- One table of the chain. -/
def table (c : TableChain η) (t : Nat) : Except Error (Table η) :=
  match c.tables[t]? with
  | some table => .ok table
  | none => .error (.invalidArgument (.noTable t))

/-- Changes the number of entries above every table below table `t`. -/
def shiftBelow (c : TableChain η) (t : Nat) (shift : Nat → Nat) : TableChain η :=
  ⟨c.tables.mapIdx fun i table => if t < i then { table with offset := shift table.offset } else table⟩

/-- Replaces one table. -/
def setTable (c : TableChain η) (t : Nat) (table : Table η) : TableChain η := ⟨c.tables.set t table⟩

/-- Sets a slot of table `t` aside, builds the entry for it and stores it there. When building fails, no slot is taken. -/
def insertWith (c : TableChain η) (t : Nat) (build : Slot → Step τ η) :
    Step τ (Slot × η × TableChain η) := do
  let (slot, reserved) ← Step.ofExcept do (← c.table t).reserve
  let h ← build slot
  return (slot, h, (c.setTable t (reserved.place slot h)).shiftBelow t (· + 1))

/-- Stores an entry in table `t`. -/
def insert (c : TableChain η) (t : Nat) (h : η) : Except Error (Slot × TableChain η) := do
  let (slot, reserved) ← (← c.table t).reserve
  return (slot, (c.setTable t (reserved.place slot h)).shiftBelow t (· + 1))

/-- Takes the entry at a slot out of a table that allows it. -/
def remove (c : TableChain η) (t : Nat) (slot : Slot) : Except Error (η × TableChain η) := do
  let table ← c.table t
  match table.entries with
  | .appendOnly _ => throw (.appendOnly t)
  | .deletable entries slots =>
    match entries.get? slot with
    | none => throw (.emptySlot t slot)
    | some h =>
      let table := { table with entries := .deletable (entries.erase slot) (slots.release slot) }
      return (h, (c.setTable t table).shiftBelow t (· - 1))

/-- Entry at a slot of table `t`. -/
def get (c : TableChain η) (t : Nat) (slot : Slot) : Except Error η := do
  match (← c.table t).get? slot with
  | some h => return h
  | none => throw (.emptySlot t slot)

/-- Number of the first entry of table `t` in the layer, if the table has one. -/
def startingIndex? (c : TableChain η) (t : Nat) : Option Nat :=
  match c.tables[t]? with
  | some table => if table.isEmpty then none else some table.offset
  | none => none

/-- Number of an entry in the layer. -/
def globalIndex (c : TableChain η) (t : Nat) (slot : Slot) : Except Error Nat := do
  let table ← c.table t
  match table.position? slot with
  | some position => return table.offset + position
  | none => throw (.emptySlot t slot)

/-- Entries of table `t` with their slots; none if there is no such table. -/
def entries (c : TableChain η) (t : Nat) : List (Slot × η) :=
  match c.tables[t]? with
  | some table => table.toList
  | none => []

/-- Number of entries of table `t`. -/
def tableSize (c : TableChain η) (t : Nat) : Nat :=
  match c.tables[t]? with
  | some table => table.size
  | none => 0

/-- Number of entries of all tables. -/
def size (c : TableChain η) : Nat := c.tables.foldr (fun table n => table.size + n) 0

/-- All entries, table by table and in slot order. -/
def handles (c : TableChain η) : List η := c.tables.flatMap fun table => table.toList.map (·.2)

end TableChain

end ReluAbstraction
