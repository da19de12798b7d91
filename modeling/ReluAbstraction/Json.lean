import ReluAbstraction.Document

/-!
# JSON values

A value that is well formed but stands for nothing, such as a number beyond all doubles, is kept as `unreadable`: it does no
harm where a value is skipped over, and cannot be read as anything.
-/

namespace ReluAbstraction

/-- A JSON value. -/
inductive Json where
  /-- No value. -/
  | null
  /-- A truth value. -/
  | bool (b : Bool)
  /-- A natural number below `2 ^ 64`. -/
  | nat (n : Nat)
  /-- Any other number. -/
  | float (x : Float)
  /-- A text. -/
  | string (s : String)
  /-- A list of values. -/
  | array (items : List Json)
  /-- Named values, in the order in which they are written. -/
  | object (fields : List (String × Json))
  /-- A value that stands for nothing. -/
  | unreadable

namespace Json

/-- A value that may be missing. -/
def option {β : Type} (f : β → Json) : Option β → Json
  | some b => f b
  | none => null

/-- A list. -/
def list {β : Type} (f : β → Json) (items : List β) : Json := array (items.map f)

/-- Choices are texts, or records whose one field bears the name and is null. Records written as lists have exactly as many
values as fields. -/
instance : Document Json where
  nat?
    | nat n => some n
    | _ => none
  number?
    | nat n => some (Float.ofNat n)
    | float x => some x
    | _ => none
  text?
    | string s => some s
    | _ => none
  flag?
    | bool b => some b
    | _ => none
  items?
    | array items => some items
    | _ => none
  fields?
    | object fields => some (.named fields)
    | array items => some (.positional items)
    | _ => none
  choice?
    | string s => some s
    | object [(name, null)] => some name
    | _ => none
  isNull
    | null => true
    | _ => false
  surplus := false

end Json

end ReluAbstraction
