/-!
# Handles

An entity is named by the index of its arena slot and by how often that slot had been emptied when the entity moved in,
so that a name never comes to mean a later occupant.
-/

namespace ReluAbstraction

/-- What a handle refers to. -/
inductive EntityKind where
  /-- A node of the network. -/
  | node
  /-- An abstract node, standing for a group of nodes. -/
  | arnode
deriving DecidableEq, Repr, Inhabited

namespace EntityKind

/-- Word for the kind in messages. -/
def word : EntityKind → String
  | node => "node"
  | arnode => "arnode"

/-- Name of the kind's handle record. -/
def recordName : EntityKind → String
  | node => "NodeId"
  | arnode => "ArNodeId"

end EntityKind

/-- Name of an entity of kind `k`. -/
structure Handle (k : EntityKind) where
  /-- Slot in the arena. -/
  index : Nat
  /-- Number of earlier occupants of the slot. -/
  generation : Nat
deriving DecidableEq, Repr, Inhabited

/-- Handle of a node. -/
abbrev NodeId := Handle .node

/-- Handle of an arnode. -/
abbrev ArNodeId := Handle .arnode

namespace Handle

variable {k : EntityKind}

/-- Handles are ordered by index and then by generation. -/
instance : Ord (Handle k) := ⟨compareLex (compareOn fun h => h.index) (compareOn fun h => h.generation)⟩

instance : Std.TransOrd (Handle k) :=
  inferInstanceAs (Std.TransCmp (compareLex (compareOn fun h : Handle k => h.index)
    (compareOn fun h : Handle k => h.generation)))

/-- Short text of a handle. -/
def text (h : Handle k) : String := s!"{k.word}#{h.index}.{h.generation}"

/-- Text of a handle as a record. -/
def recordText (h : Handle k) : String :=
  s!"{k.recordName} \x7b index: {h.index}, generation: {h.generation} \x7d"

end Handle

end ReluAbstraction
