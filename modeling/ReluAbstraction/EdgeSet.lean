import ReluAbstraction.Combinations
import ReluAbstraction.Error
import ReluAbstraction.SortedMap

/-!
# Edge sets

The edges of an entity on one side, as a finite map from the neighbour's table and slot to the edge. A set is made for a
number of tables, and refuses keys of other tables. Tables are gone through in the order of their numbers. Where the order
within a table can be seen, it is a parameter.
-/

namespace ReluAbstraction

/-- An edge to a neighbour of type `η`. -/
structure Edge (α η : Type) where
  /-- Weight of the edge. -/
  weight : α
  /-- The neighbour. -/
  neighbor : η
deriving DecidableEq, Repr

/-- Edges of one entity on one side. -/
structure EdgeSet (α η : Type) where
  /-- Number of tables in the neighbouring layer. -/
  tables : Nat
  /-- Edges by the neighbour's key. -/
  edges : SortedMap EdgeKey (Edge α η)
deriving DecidableEq

namespace EdgeSet

variable {α η : Type}

/-- An edge set for `tables` tables. -/
def empty (tables : Nat) : EdgeSet α η := ⟨tables, .empty⟩

/-- Whether the set has the key's table. -/
def covers (s : EdgeSet α η) (key : EdgeKey) : Bool := decide (key.category.index < s.tables)

/-- Fails unless the set has the key's table. -/
def check (s : EdgeSet α η) (key : EdgeKey) : Except Error Unit :=
  if s.covers key then .ok () else .error (.invalidArgument (.edgeTable key.category))

/-- Edge under a key. -/
def get? (s : EdgeSet α η) (key : EdgeKey) : Option (Edge α η) := s.edges.get? key

/-- Puts an edge under a key, over an earlier one. -/
def add (s : EdgeSet α η) (key : EdgeKey) (weight : α) (neighbor : η) : Except Error (EdgeSet α η) := do
  s.check key
  return { s with edges := s.edges.insert key ⟨weight, neighbor⟩ }

/-- Takes the edge under a key out. -/
def remove (s : EdgeSet α η) (key : EdgeKey) : Except Error (Edge α η × EdgeSet α η) := do
  s.check key
  match s.get? key with
  | some edge => return (edge, { s with edges := s.edges.erase key })
  | none => throw (.noSuchEdge key)

/-- Moves an edge to another key. An edge already there is replaced only if `overwrite` says so. -/
def moveEdge (s : EdgeSet α η) (source target : EdgeKey) (overwrite : Bool) :
    Except Error (EdgeSet α η) :=
  if source = target then do
    s.check source
    if (s.get? source).isSome then return s else throw (.noSuchEdge source)
  else if !overwrite && (s.get? target).isSome then throw (.edgeConflict target)
  else do
    s.check target
    let (edge, rest) ← s.remove source
    rest.add target edge.weight edge.neighbor

/-- Number of edges. -/
def size (s : EdgeSet α η) : Nat := s.edges.size

/-- Whether there is no edge. -/
def isEmpty (s : EdgeSet α η) : Bool := s.edges.isEmpty

/-- Edges by table and then by slot. -/
def toList (s : EdgeSet α η) : List (EdgeKey × Edge α η) := s.edges.toList

/-- The neighbours, in the order of their edges. -/
def neighbors (s : EdgeSet α η) : List η := s.toList.map fun e => e.2.neighbor

/-- Edges into one table. -/
def table (s : EdgeSet α η) (category : Category) : List (EdgeKey × Edge α η) :=
  s.toList.filter fun e => e.1.category = category

/-- An order in which the edges into each table are taken. -/
structure Listing (α η : Type) where
  /-- The edges into one table. -/
  table : EdgeSet α η → Category → List (EdgeKey × Edge α η)
  /-- Each of them comes once. -/
  perm : ∀ s category, (table s category).Perm (s.table category)

/-- The edges into each table by slot. -/
def Listing.bySlot : Listing α η := ⟨EdgeSet.table, fun _ _ => .refl _⟩

/-- Every set of `r` edges into one table, table by table; none for `r = 0`. The edges of a table are taken in the given
order. -/
def combinationsIn (order : Listing α η) (s : EdgeSet α η) (r : Nat) : List (List (EdgeKey × Edge α η)) :=
  (Combinations.among r (Category.all.map (order.table s))).toList

/-- Every set of `r` edges into one table, by slot. -/
def combinations (s : EdgeSet α η) (r : Nat) : List (List (EdgeKey × Edge α η)) := combinationsIn .bySlot s r

end EdgeSet

end ReluAbstraction
