import ReluAbstraction.Error

/-!
# Generational arenas

An arena owns all entities of one kind. Removing an entity empties its slot and raises the slot's generation, so that a
handle to it fails from then on, whatever moves into the slot later.
-/

namespace ReluAbstraction

/-- A place for one entity. -/
structure ArenaSlot (β : Type) where
  /-- Number of entities removed from the slot, modulo `2 ^ 32`. -/
  generation : Nat
  /-- The entity, if there is one. -/
  value : Option β
deriving DecidableEq, Repr

/-- Storage for entities of kind `k`. -/
structure Arena (k : EntityKind) (β : Type) where
  /-- All slots ever used. -/
  slots : Array (ArenaSlot β)
  /-- Emptied slots, the last emptied first. -/
  free : List Nat
  /-- Number of live entities. -/
  size : Nat
deriving DecidableEq

namespace Arena

variable {k : EntityKind} {β : Type}

/-- An arena without entities. -/
def empty : Arena k β := ⟨#[], [], 0⟩

instance : EmptyCollection (Arena k β) := ⟨empty⟩

instance : Inhabited (Arena k β) := ⟨empty⟩

/-- Number of distinct indices and of distinct generations. -/
def span : Nat := 4294967296

/-- Whether no entity is live. -/
def isEmpty (a : Arena k β) : Bool := a.size == 0

/-- The live entity under a handle. -/
def get? (a : Arena k β) (h : Handle k) : Option β :=
  match a.slots[h.index]? with
  | some slot => if slot.generation = h.generation then slot.value else none
  | none => none

/-- Whether a handle refers to a live entity. -/
def contains (a : Arena k β) (h : Handle k) : Bool := (a.get? h).isSome

/-- The live entity under a handle, or a failure. -/
def get (a : Arena k β) (h : Handle k) : Except Error β :=
  match a.get? h with
  | some value => .ok value
  | none => .error (.usedAfterDestroy k h.index)

/-- Handle that the next entity will get. -/
def nextHandle (a : Arena k β) : Except Error (Handle k) :=
  match a.free with
  | index :: _ => .ok ⟨index, (a.slots[index]?.map (·.generation)).getD 0⟩
  | [] => if a.slots.size < span then .ok ⟨a.slots.size, 0⟩ else .error (.exhausted (span - 1))

/-- Puts an entity under the handle that is next. -/
def push (a : Arena k β) (value : β) : Arena k β :=
  match a.free with
  | index :: rest =>
    { slots := a.slots.modify index fun slot => { slot with value := some value }
      free := rest
      size := a.size + 1 }
  | [] => { a with slots := a.slots.push ⟨0, some value⟩, size := a.size + 1 }

/-- Inserts an entity built from its own handle. Nothing changes when building fails. -/
def insertWith (a : Arena k β) (build : Handle k → Except Error β) :
    Except Error (Handle k × Arena k β) := do
  let h ← a.nextHandle
  let value ← build h
  return (h, a.push value)

/-- Inserts an entity. -/
def insert (a : Arena k β) (value : β) : Except Error (Handle k × Arena k β) :=
  a.insertWith fun _ => .ok value

/-- Replaces a live entity. -/
def set (a : Arena k β) (h : Handle k) (value : β) : Except Error (Arena k β) :=
  match a.get? h with
  | some _ => .ok { a with slots := a.slots.modify h.index fun slot => { slot with value := some value } }
  | none => .error (.usedAfterDestroy k h.index)

/-- Changes a live entity; nothing changes when the change fails. -/
def modify (a : Arena k β) (h : Handle k) (f : β → Except Error β) : Except Error (Arena k β) := do
  a.set h (← f (← a.get h))

/-- Takes an entity out and empties its slot. -/
def remove (a : Arena k β) (h : Handle k) : Except Error (β × Arena k β) :=
  match a.get? h with
  | some value =>
    .ok (value,
      { slots := a.slots.modify h.index fun slot => ⟨(slot.generation + 1) % span, none⟩
        free := h.index :: a.free
        size := a.size - 1 })
  | none => .error (.usedAfterDestroy k h.index)

/-- Live entities with their handles, in slot order. -/
def toList (a : Arena k β) : List (Handle k × β) :=
  a.slots.toList.zipIdx.filterMap fun (slot, index) =>
    slot.value.map fun value => (⟨index, slot.generation⟩, value)

end Arena

end ReluAbstraction
