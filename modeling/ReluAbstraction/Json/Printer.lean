import ReluAbstraction.Decimal.Layout
import ReluAbstraction.Json

/-!
# Writing JSON

Values are written one to a line, with two blanks for each level. Numbers that JSON cannot express are written as `null`.
-/

namespace ReluAbstraction.Json

/-- A character of a text. -/
def escape (c : Char) : String :=
  match c with
  | '"' => "\\\""
  | '\\' => "\\\\"
  | '\x08' => "\\b"
  | '\x0c' => "\\f"
  | '\n' => "\\n"
  | '\r' => "\\r"
  | '\t' => "\\t"
  | c =>
    if c.toNat < 16 then "\\u000" ++ String.ofList (Nat.toDigits 16 c.toNat)
    else if c.toNat < 32 then "\\u00" ++ String.ofList (Nat.toDigits 16 c.toNat)
    else c.toString

/-- A text in quotes. -/
def quote (s : String) : String := "\"" ++ String.join (s.toList.map escape) ++ "\""

/-- Start of a line at a level. -/
def newline (level : Nat) : String := "\n" ++ String.ofList (List.replicate (2 * level) ' ')

/-- Lines between brackets; nothing at all between them if there are none. -/
def enclose (opening closing : String) (level : Nat) (lines : List String) : String :=
  match lines with
  | [] => opening ++ closing
  | lines => opening ++ newline (level + 1) ++ ("," ++ newline (level + 1)).intercalate lines ++ newline level ++ closing

mutual

/-- Text of a value at a level. -/
def print (level : Nat) : Json → String
  | null => "null"
  | bool b => if b then "true" else "false"
  | nat n => toString n
  | float x => if x.isNaN || x.isInf then "null" else Layout.json.finite x
  | string s => quote s
  | array items => enclose "[" "]" level (printItems (level + 1) items)
  | object fields => enclose "\x7b" "\x7d" level (printFields (level + 1) fields)
  | unreadable => "null"

/-- Texts of values at a level. -/
def printItems (level : Nat) : List Json → List String
  | [] => []
  | v :: rest => print level v :: printItems level rest

/-- Texts of named values at a level. -/
def printFields (level : Nat) : List (String × Json) → List String
  | [] => []
  | (name, v) :: rest => (quote name ++ ": " ++ print level v) :: printFields level rest

end

/-- Text of a value. -/
def text (v : Json) : String := print 0 v

end ReluAbstraction.Json
