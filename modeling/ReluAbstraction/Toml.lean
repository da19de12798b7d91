import ReluAbstraction.Document

/-!
# TOML documents

A document is a table of tables. A table comes into being in one of several ways, and its form decides what may be added to
it later: a table with a header of its own is not opened a second time, one that only lies on the way to others may still
get its header, one made by a dotted key grows only by dotted keys, and one in braces is closed.
-/

namespace ReluAbstraction

/-- How a table came into being. -/
inductive TableForm where
  /-- By a header of its own. -/
  | headed
  /-- On the way to a table with a header. -/
  | implied
  /-- On the way of a dotted key, possibly between braces. -/
  | dotted (braces : Bool)
  /-- In braces. -/
  | braced
deriving DecidableEq, Repr

namespace TableForm

/-- Whether the table was made by dotted keys. -/
def isDotted : TableForm → Bool
  | dotted _ => true
  | _ => false

/-- Whether the table stands in braces. -/
def isBraced : TableForm → Bool
  | dotted braces => braces
  | braced => true
  | _ => false

end TableForm

/-- A TOML value. Fractions and times play no part in settings, so nothing is kept of them. -/
inductive Toml where
  /-- A text. -/
  | string (s : String)
  /-- A whole number. -/
  | integer (n : Int)
  /-- A truth value. -/
  | boolean (b : Bool)
  /-- A number with a fraction or an exponent, an infinity, or not a number. -/
  | float
  /-- A date, a time or both. -/
  | time
  /-- A list of values. -/
  | array (items : List Toml)
  /-- Tables that share a header. -/
  | tables (items : List (List (String × Toml)))
  /-- A table. -/
  | table (form : TableForm) (entries : List (String × Toml))

namespace Toml

/-- Entries of a table, in the order in which they were made. -/
abbrev Entries := List (String × Toml)

namespace Entries

/-- Exchanges the value of a key. -/
def replace (key : String) (v : Toml) (entries : Entries) : Entries :=
  entries.map fun e => if e.1 = key then (key, v) else e

/-- Changes the last of several tables. -/
def onLast (f : Entries → Option Entries) (items : List Entries) : Option (List Entries) := do
  let last ← items.getLast?
  return items.dropLast ++ [← f last]

/-- Gives a value to a dotted key. The key has to be new. A table on the way has to be open to dotted keys; the one that
gets the value has to be made by them. -/
def assign (braces : Bool) : List String → Toml → Entries → Option Entries
  | [], _, _ => none
  | [key], v, entries => if (entries.lookup key).isSome then none else some (entries ++ [(key, v)])
  | key :: next :: rest, v, entries =>
    match entries.lookup key with
    | none => do
      return entries ++ [(key, .table (.dotted braces) (← assign braces (next :: rest) v []))]
    | some (.table form sub) => do
      if form.isDotted || (form = .implied && !rest.isEmpty) then
        return entries.replace key (.table form (← assign braces (next :: rest) v sub))
      else none
    | some (.tables items) => do
      if rest.isEmpty then none
      else return entries.replace key (.tables (← onLast (assign braces (next :: rest) v) items))
    | some _ => none

/-- Changes the table at the end of a path of headers. Tables missing on the way are made; of tables that share a header
the last one is meant. -/
def within (f : Entries → Option Entries) : List String → Entries → Option Entries
  | [], entries => f entries
  | key :: rest, entries =>
    match entries.lookup key with
    | none => do return entries ++ [(key, .table .implied (← within f rest []))]
    | some (.table form sub) => do
      if form.isBraced then none else return entries.replace key (.table form (← within f rest sub))
    | some (.tables items) => do return entries.replace key (.tables (← onLast (within f rest) items))
    | some _ => none

/-- Opens a table by its header. Only a table that was on the way to others may be there already. -/
def openTable (key : String) (entries : Entries) : Option Entries :=
  match entries.lookup key with
  | none => some (entries ++ [(key, .table .headed [])])
  | some (.table .implied sub) => some (entries.replace key (.table .headed sub))
  | some _ => none

/-- Opens one more of the tables that share a header. -/
def openNext (key : String) (entries : Entries) : Option Entries :=
  match entries.lookup key with
  | none => some (entries ++ [(key, .tables [[]])])
  | some (.tables items) => some (entries.replace key (.tables (items ++ [[]])))
  | some _ => none

end Entries

/-- A line of a document. -/
inductive Statement where
  /-- A dotted key gets a value. -/
  | assign (key : List String) (v : Toml)
  /-- The header of a table. -/
  | header (path : List String)
  /-- The header of one more of several tables. -/
  | nextHeader (path : List String)

/-- A document read up to some line. -/
structure Draft where
  /-- All entries so far. -/
  root : Entries
  /-- Path of the table that assignments go to. -/
  current : List String

namespace Draft

/-- Nothing has been read. -/
def empty : Draft := ⟨[], []⟩

/-- Opens a table at the end of a path. -/
def openAt (d : Draft) (opening : String → Entries → Option Entries) (path : List String) : Option Draft := do
  let key ← path.getLast?
  return ⟨← Entries.within (opening key) path.dropLast d.root, path⟩

/-- Reads one more line. -/
def add (d : Draft) : Statement → Option Draft
  | .assign key v => do return { d with root := ← Entries.within (Entries.assign false key v) d.current d.root }
  | .header path => d.openAt Entries.openTable path
  | .nextHeader path => d.openAt Entries.openNext path

end Draft

/-- The document that lines make up. -/
def ofStatements (lines : List Statement) : Option Toml := do
  return .table .headed (← lines.foldlM Draft.add .empty).root

/-- Whether a value may stand beside the name of a choice: nothing may be in it. -/
def isBlank : Toml → Bool
  | array [] | tables [] | table _ [] => true
  | _ => false

/-- Choices are texts, or tables whose one key is the name, with nothing in it. A list may have more values than the record
it stands for has fields. -/
instance : Document Toml where
  nat?
    | integer n => n.toNat?
    | _ => none
  number? _ := none
  text?
    | string s => some s
    | _ => none
  flag?
    | boolean b => some b
    | _ => none
  items?
    | array items => some items
    | tables items => some (items.map (table .headed))
    | _ => none
  fields?
    | table _ entries => some (.named entries)
    | array items => some (.positional items)
    | tables items => some (.positional (items.map (table .headed)))
    | _ => none
  choice?
    | string s => some s
    | table _ [(name, v)] => if isBlank v then some name else none
    | _ => none
  isNull _ := false
  surplus := true

end Toml

end ReluAbstraction
