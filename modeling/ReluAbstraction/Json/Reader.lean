import ReluAbstraction.Json.Number

/-!
# Reading JSON

The grammar of JSON: one value between blanks. Escapes in a text name units of UTF-16, which have to form characters; a text
in which they do not is unreadable, and so is an object with such a name.
-/

namespace ReluAbstraction.Json

/-- Part of a text as it is written. -/
inductive Piece where
  /-- A character. -/
  | char (c : Char)
  /-- A unit of UTF-16. -/
  | unit (n : Nat)

/-- Characters that stand for themselves or for a control character after a backslash. -/
def escaped? : Char → Option Char
  | '"' => some '"'
  | '\\' => some '\\'
  | '/' => some '/'
  | 'b' => some '\x08'
  | 'f' => some '\x0c'
  | 'n' => some '\n'
  | 'r' => some '\r'
  | 't' => some '\t'
  | _ => none

/-- The pieces of a text up to its closing quote. -/
def pieces : Scan (List Piece)
  | '"' :: rest => some ([], rest)
  | '\\' :: 'u' :: a :: b :: c :: d :: rest =>
    if [a, b, c, d].all isHexDigit then do
      let (ps, rest) ← pieces rest
      return (.unit (ofDigits 16 [a, b, c, d]) :: ps, rest)
    else none
  | '\\' :: e :: rest => do
    let c ← escaped? e
    let (ps, rest) ← pieces rest
    return (.char c :: ps, rest)
  | c :: rest =>
    if c.toNat < 32 then none
    else do
      let (ps, rest) ← pieces rest
      return (.char c :: ps, rest)
  | [] => none

/-- Whether a unit is the first half of a pair. -/
def isLead (n : Nat) : Bool := decide (0xD800 ≤ n ∧ n < 0xDC00)

/-- Whether a unit is the second half of a pair. -/
def isTrail (n : Nat) : Bool := decide (0xDC00 ≤ n ∧ n < 0xE000)

/-- Characters that the pieces form; none if half of a pair stands alone. -/
def join : List Piece → Option (List Char)
  | [] => some []
  | .char c :: rest => return c :: (← join rest)
  | .unit a :: .unit b :: rest =>
    if isLead a then
      if isTrail b then return Char.ofNat (0x10000 + 0x400 * (a - 0xD800) + (b - 0xDC00)) :: (← join rest) else none
    else if isTrail a then none
    else return Char.ofNat a :: (← join (.unit b :: rest))
  | .unit a :: rest => if isLead a || isTrail a then none else return Char.ofNat a :: (← join rest)

/-- A text after its opening quote; none if half of a pair stands alone. -/
def quoted : Scan (Option String) := return (join (← pieces)).map String.ofList

/-- Takes blanks. -/
def blanks : Scan Unit := discard (Scan.span fun c => c = ' ' || c = '\t' || c = '\n' || c = '\r')

/-- The digits after a point, if there is one. -/
def fraction : Scan (Option (List Char)) := do
  if ← Scan.accept '.' then return some (← Scan.span1 Char.isDigit) else return none

/-- An exponent, if there is one. -/
def exponent : Scan (Option Int) := do
  match ← Scan.attempt (Scan.char fun c => c = 'e' || c = 'E') with
  | none => return none
  | some _ =>
    let sign ← Scan.attempt (Scan.char fun c => c = '+' || c = '-')
    let size : Int := ofDigits 10 (← Scan.span1 Char.isDigit)
    return some (if sign = some '-' then -size else size)

/-- A number. It starts with a zero only if nothing but the zero stands before the point. -/
def number : Scan NumberLiteral := do
  let negative ← Scan.accept '-'
  let integer ← Scan.span1 Char.isDigit
  if integer.head? = some '0' && decide (1 < integer.length) then failure
  return { negative, integer, fraction := ← fraction, exponent := ← exponent }

/-- An object, unless one of its names is unreadable. -/
def ofFields (fields : List (Option String × Json)) : Json :=
  match fields.mapM fun (name, v) => name.map fun name => (name, v) with
  | some fields => object fields
  | none => unreadable

mutual

/-- A value after blanks. -/
def value : Nat → Scan Json
  | 0 => failure
  | fuel + 1 => do
    blanks
    match ← Scan.peek? with
    | some 'n' => Scan.exactly "null"; return null
    | some 't' => Scan.exactly "true"; return bool true
    | some 'f' => Scan.exactly "false"; return bool false
    | some '"' =>
      discard (Scan.accept '"')
      match ← quoted with
      | some s => return string s
      | none => return unreadable
    | some '[' =>
      discard (Scan.accept '[')
      blanks
      if ← Scan.accept ']' then return array [] else return array (← items fuel)
    | some '\x7b' =>
      discard (Scan.accept '\x7b')
      blanks
      if ← Scan.accept '\x7d' then return object [] else return ofFields (← members fuel)
    | _ => return (← number).toJson

/-- The values of a list up to its closing bracket. -/
def items : Nat → Scan (List Json)
  | 0 => failure
  | fuel + 1 => do
    let v ← value fuel
    blanks
    if ← Scan.accept ',' then return v :: (← items fuel)
    Scan.exactly "]"
    return [v]

/-- The named values of an object up to its closing brace. -/
def members : Nat → Scan (List (Option String × Json))
  | 0 => failure
  | fuel + 1 => do
    blanks
    Scan.exactly "\""
    let name ← quoted
    blanks
    Scan.exactly ":"
    let v ← value fuel
    blanks
    if ← Scan.accept ',' then return (name, v) :: (← members fuel)
    Scan.exactly "\x7d"
    return [(name, v)]

end

/-- A JSON text: one value, with blanks around it. -/
def document : Scan Json := do
  let v ← Scan.fueled value
  blanks
  return v

/-- Reads a JSON text. -/
def read? (text : String) : Option Json := document.whole text

end ReluAbstraction.Json
