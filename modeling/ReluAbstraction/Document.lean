/-!
# Documents

Settings, properties and networks are read from documents. What a value of a document can stand for depends on its format;
`Document` lists the readings, and the readers of records and choices below work for every format.

A record is written with the names of its fields, or as a list of its values in the order of the fields.
-/

namespace ReluAbstraction

/-- Fields of a record as they are written. -/
inductive Fields (ν : Type) where
  /-- Each value stands beside the name of its field. -/
  | named (fields : List (String × ν))
  /-- The values stand in the order of the fields. -/
  | positional (values : List ν)

/-- A format of documents with values `ν`. -/
class Document (ν : Type) where
  /-- A natural number below `2 ^ 64`. -/
  nat? : ν → Option Nat
  /-- A number. -/
  number? : ν → Option Float
  /-- A text. -/
  text? : ν → Option String
  /-- A truth value. -/
  flag? : ν → Option Bool
  /-- A list. -/
  items? : ν → Option (List ν)
  /-- A record. -/
  fields? : ν → Option (Fields ν)
  /-- The name of one of several choices. -/
  choice? : ν → Option String
  /-- Whether a value says that there is none. -/
  isNull : ν → Bool
  /-- Whether a list may have more values than the record it stands for has fields. -/
  surplus : Bool

namespace Document

variable {ν β : Type} [Document ν]

/-- Values of the named fields of a record, where a field may be missing. No field may be given twice, and unless the
record is open there may be no other fields. -/
def record (names : List String) (v : ν) (isOpen : Bool := false) : Option (List (Option ν)) :=
  match fields? v with
  | some (.named fields) =>
    let given := fields.map (·.1)
    if names.all (given.count · ≤ 1) && (isOpen || given.all names.contains) then
      some (names.map fun name => fields.lookup name)
    else none
  | some (.positional values) =>
    if values.length ≤ names.length || surplus ν then
      some ((List.range names.length).map fun i => values[i]?)
    else none
  | none => none

/-- Reads a field that has to be given. -/
def required (read : ν → Option β) (v : Option ν) : Option β := v.bind read

/-- Reads a field that has a default. -/
def defaulted (read : ν → Option β) (default : β) : Option ν → Option β
  | some v => read v
  | none => some default

/-- Reads a value that may be null. -/
def nullable (read : ν → Option β) (v : ν) : Option (Option β) :=
  if isNull v then some none else (read v).map some

/-- Reads a list. -/
def list (read : ν → Option β) (v : ν) : Option (List β) := do (← items? v).mapM read

/-- Reads one of several choices by its name. -/
def choice (all : List β) (name : β → String) (v : ν) : Option β := do
  let chosen ← choice? v
  all.find? fun b => name b = chosen

end Document

end ReluAbstraction
