import ReluAbstraction.Category

/-!
# Places in the network

An entity sits at a slot of a table of a layer. Its neighbours, which all belong to one other layer, refer to it by the
table and the slot alone.
-/

namespace ReluAbstraction

/-- Position inside one table. -/
abbrev Slot := Nat

/-- Table and slot of an entity, as its neighbours know it. -/
structure EdgeKey where
  /-- Table of the entity. -/
  category : Category
  /-- Slot in that table. -/
  slot : Slot
deriving DecidableEq, Repr, Inhabited

namespace EdgeKey

/-- Keys are ordered by table and then by slot. -/
instance : Ord EdgeKey := ⟨compareLex (compareOn fun k => k.category.index) (compareOn fun k => k.slot)⟩

instance : Std.TransOrd EdgeKey :=
  inferInstanceAs (Std.TransCmp (compareLex (compareOn fun k : EdgeKey => k.category.index)
    (compareOn fun k : EdgeKey => k.slot)))

end EdgeKey

/-- Layer, table and slot of an entity; layer 0 holds the inputs. -/
structure Location where
  /-- Layer number. -/
  layer : Nat
  /-- Table in the layer. -/
  category : Category
  /-- Slot in the table. -/
  slot : Slot
deriving DecidableEq, Repr, Inhabited

namespace Location

/-- Key under which neighbours store edges to this place. -/
def key (loc : Location) : EdgeKey := ⟨loc.category, loc.slot⟩

/-- Text of a location. -/
def text (loc : Location) : String := s!"L{loc.layer}/{loc.category.name}/{loc.slot}"

end Location

/-- Side of an entity on which an edge lies. -/
inductive Direction where
  /-- Edges from the layer before. -/
  | incoming
  /-- Edges into the layer after. -/
  | outgoing
deriving DecidableEq, Repr, Inhabited

namespace Direction

/-- Side on which the other end sees the edge. -/
def reverse : Direction → Direction
  | incoming => outgoing
  | outgoing => incoming

end Direction

/-- A neuron of the described network. All nodes split from one neuron share it. -/
structure NeuronRef where
  /-- Layer of the neuron. -/
  layer : Nat
  /-- Number of the neuron in its layer. -/
  index : Nat
deriving DecidableEq, Repr, Inhabited

namespace NeuronRef

/-- Neurons are ordered by layer and then by number. -/
instance : Ord NeuronRef := ⟨compareLex (compareOn fun n => n.layer) (compareOn fun n => n.index)⟩

end NeuronRef

end ReluAbstraction
