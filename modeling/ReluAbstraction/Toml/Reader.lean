import ReluAbstraction.Toml
import ReluAbstraction.Toml.Time

/-!
# Reading TOML

The grammar of TOML, line by line. Control characters other than tabs stand nowhere, a line ends with a line feed that may
have a carriage return before it, and a document may start with a byte order mark. Brackets and braces are nested, and keys
are divided, less than `depthLimit` deep.
-/

namespace ReluAbstraction.Toml

/-- Depth that neither nested values nor dotted keys reach. -/
def depthLimit : Nat := 80

/-! ### Blanks, comments and line ends -/

/-- Whether a character may stand in a comment, and in quotes unless it ends them. -/
def isPrintable (c : Char) : Bool := c = '\t' || (decide (' ' ≤ c) && c ≠ '\x7f')

/-- Takes blanks. -/
def spaces : Scan Unit := discard (Scan.span fun c => c = ' ' || c = '\t')

/-- Takes a line end. -/
def lineEnd : Scan Unit := do
  discard (Scan.accept '\r')
  Scan.exactly "\n"

/-- Takes a comment, without its line end. -/
def comment : Scan Unit := do
  Scan.exactly "#"
  discard (Scan.span isPrintable)

/-- Takes what may follow on a line, and the end of the line or of the text. -/
def restOfLine : Scan Unit := do
  spaces
  discard (Scan.attempt comment)
  if (← get).isEmpty then pure () else lineEnd

/-- Takes blanks and line ends, and comments if they may stand here. -/
def gap (comments : Bool) : Nat → Scan Unit
  | 0 => pure ()
  | fuel + 1 => do
    match ← Scan.peek? with
    | some ' ' | some '\t' => spaces; gap comments fuel
    | some '\n' | some '\r' => lineEnd; gap comments fuel
    | some '#' => if comments then comment; gap comments fuel else pure ()
    | _ => pure ()

/-! ### Texts and keys -/

/-- Characters that a character stands for after a backslash. -/
def escaped? : Char → Option Char
  | '"' => some '"'
  | '\\' => some '\\'
  | 'b' => some '\x08'
  | 'f' => some '\x0c'
  | 'n' => some '\n'
  | 'r' => some '\r'
  | 't' => some '\t'
  | _ => none

/-- The character of a number, which may not be half of a surrogate pair. -/
def character? (n : Nat) : Option Char := if n.isValidChar then some (Char.ofNat n) else none

/-- What a backslash and the characters after it stand for. -/
def escape : Scan Char := do
  Scan.exactly "\\"
  match ← Scan.char fun _ => true with
  | 'u' => character? (ofDigits 16 (← Scan.times 4 isHexDigit))
  | 'U' => character? (ofDigits 16 (← Scan.times 8 isHexDigit))
  | c => escaped? c

/-- A backslash that joins its line to the next text, which may be some lines further down. -/
def continuation : Scan Unit := do
  Scan.exactly "\\"
  spaces
  lineEnd
  Scan.fueled (gap false)

/-- Characters of a text on one line, up to its closing quote. Escapes count in double quotes only. -/
def lineText (quote : Char) : Nat → Scan (List Char)
  | 0 => failure
  | fuel + 1 => do
    if ← Scan.accept quote then return []
    let c ← if quote = '"' && (← Scan.peek?) = some '\\' then escape else Scan.char isPrintable
    return c :: (← lineText quote fuel)

/-- Characters of a text on several lines, up to its three closing quotes. One or two quotes belong to the text, also right
before the closing ones. -/
def blockText (quote : Char) : Nat → Scan (List Char)
  | 0 => failure
  | fuel + 1 => do
    let quotes ← Scan.span (· = quote)
    if 3 ≤ quotes.length then
      if quotes.length ≤ 5 then return quotes.drop 3 else failure
    let part ← match ← Scan.peek? with
      | some '\\' =>
        if quote = '"' then (do continuation; return []) <|> (do return [← escape])
        else pure [← Scan.char isPrintable]
      | some '\n' | some '\r' => do lineEnd; pure ['\n']
      | _ => pure [← Scan.char isPrintable]
    return quotes ++ part ++ (← blockText quote fuel)

/-- A text in the given quotes, on one line or on several. A line end right after three opening quotes is left out. -/
def textIn (quote : Char) : Scan String := do
  match (← get).take 3 with
  | [a, b, c] =>
    if a = quote ∧ b = quote ∧ c = quote then
      discard (Scan.times 3 (· = quote))
      discard (Scan.attempt lineEnd)
      return String.ofList (← Scan.fueled (blockText quote))
  | _ => pure ()
  discard (Scan.char (· = quote))
  return String.ofList (← Scan.fueled (lineText quote))

/-- One part of a key. -/
def keyPart : Scan String := do
  match ← Scan.peek? with
  | some '"' => discard (Scan.accept '"'); return String.ofList (← Scan.fueled (lineText '"'))
  | some '\'' => discard (Scan.accept '\''); return String.ofList (← Scan.fueled (lineText '\''))
  | _ => return String.ofList (← Scan.span1 fun c => c.isAlphanum || c = '-' || c = '_')

/-- The parts of a dotted key. -/
def keyParts : Nat → Scan (List String)
  | 0 => failure
  | fuel + 1 => do
    spaces
    let part ← keyPart
    spaces
    if ← Scan.accept '.' then return part :: (← keyParts fuel) else return [part]

/-- A dotted key. -/
def key : Scan (List String) := do
  let parts ← Scan.fueled keyParts
  if parts.length < depthLimit then return parts else failure

/-! ### Numbers -/

/-- Digits, between which single underscores may stand. -/
def digits (isDigit : Char → Bool) : Scan (List Char) := do
  let run ← Scan.span1 fun c => isDigit c || c = '_'
  let bare (a b : Char) : Bool := a = '_' && b = '_'
  if run.head? = some '_' || run.getLast? = some '_' || (List.zipWith bare run run.tail).any id then failure
  return run.filter (· ≠ '_')

/-- A sign, if there is one; whether it is a minus. -/
def sign : Scan Bool := return (← Scan.attempt (Scan.char fun c => c = '+' || c = '-')) = some '-'

/-- Digits of a decimal number. It starts with a zero only if it is zero. -/
def decimal : Scan (List Char) := do
  let run ← digits Char.isDigit
  if run.head? = some '0' && decide (1 < run.length) then failure
  return run

/-- A whole number that fits into 64 bits with its sign. -/
def fitting (n : Int) : Scan Int := if -9223372036854775808 ≤ n ∧ n < 9223372036854775808 then pure n else failure

/-- A whole number in another base, after the mark of the base. -/
def inBase (mark : String) (base : Nat) (isDigit : Char → Bool) : Scan Int := do
  Scan.exactly mark
  fitting (ofDigits base (← digits isDigit))

/-- A whole number. -/
def wholeNumber : Scan Int :=
  inBase "0x" 16 isHexDigit <|> inBase "0o" 8 (fun c => '0' ≤ c && c ≤ '7') <|>
    inBase "0b" 2 (fun c => c = '0' || c = '1') <|> do
      let negative ← sign
      let size : Int := ofDigits 10 (← decimal)
      fitting (if negative then -size else size)

/-- Whether `digits · 10 ^ power` is beyond all doubles, that is at least `2 ^ 1024 - 2 ^ 970`. -/
def overflows (digits : List Char) (power : Int) : Bool :=
  let significant := digits.dropWhile (· = '0')
  let point := significant.length + power
  let limit := Nat.pow 2 1024 - Nat.pow 2 970
  if significant.isEmpty || point < 309 then false
  else if 309 < point then true
  else if 0 ≤ power then decide (limit ≤ ofDigits 10 significant * Nat.pow 10 power.toNat)
  else decide (limit * Nat.pow 10 (-power).toNat ≤ ofDigits 10 significant)

/-- An exponent. -/
def power : Scan Int := do
  discard (Scan.char fun c => c = 'e' || c = 'E')
  let negative ← sign
  let size : Int := ofDigits 10 (← digits Char.isDigit)
  return if negative then -size else size

/-- A number with a fraction or an exponent, an infinity, or not a number. A positive number may not be beyond all
doubles. -/
def fractional : Scan Unit := do
  let negative ← sign
  (Scan.exactly "inf" <|> Scan.exactly "nan") <|> do
    let whole ← decimal
    let fraction ← if ← Scan.accept '.' then some <$> digits Char.isDigit else pure none
    let exponent ← Scan.attempt power
    if fraction.isNone && exponent.isNone then failure
    let places := fraction.getD []
    if !negative && overflows (whole ++ places) (exponent.getD 0 - places.length) then failure

/-! ### Values -/

mutual

/-- A value inside of `depth` others. -/
def value (depth : Nat) : Nat → Scan Toml
  | 0 => failure
  | fuel + 1 => do
    match ← Scan.peek? with
    | some '"' => return string (← textIn '"')
    | some '\'' => return string (← textIn '\'')
    | some 't' => Scan.exactly "true"; return boolean true
    | some 'f' => Scan.exactly "false"; return boolean false
    | some '[' =>
      if depthLimit ≤ depth + 1 then failure
      discard (Scan.accept '[')
      Scan.fueled (gap true)
      return array (← elements (depth + 1) fuel)
    | some '\x7b' =>
      if depthLimit ≤ depth + 1 then failure
      discard (Scan.accept '\x7b')
      spaces
      if ← Scan.accept '\x7d' then return table .braced []
      let entries ← pairs (depth + 1) fuel
      return table .braced (← entries.foldlM (fun es (key, v) => Entries.assign true key v es) [])
    | _ => (do dateOrTime; return time) <|> (do fractional; return float) <|> (do return integer (← wholeNumber))

/-- The values of a list up to its closing bracket, before which a comma may stand. -/
def elements (depth : Nat) : Nat → Scan (List Toml)
  | 0 => failure
  | fuel + 1 => do
    if ← Scan.accept ']' then return []
    let v ← value depth fuel
    Scan.fueled (gap true)
    if ← Scan.accept ',' then
      Scan.fueled (gap true)
      return v :: (← elements depth fuel)
    Scan.exactly "]"
    return [v]

/-- The keys and values in braces, up to the closing one. -/
def pairs (depth : Nat) : Nat → Scan (List (List String × Toml))
  | 0 => failure
  | fuel + 1 => do
    let path ← key
    Scan.exactly "="
    spaces
    let v ← value depth fuel
    spaces
    if ← Scan.accept ',' then return (path, v) :: (← pairs depth fuel)
    Scan.exactly "\x7d"
    return [(path, v)]

end

/-! ### Lines -/

/-- A header. -/
def header : Scan Statement := do
  Scan.exactly "["
  if ← Scan.accept '[' then
    let path ← key
    Scan.exactly "]]"
    return .nextHeader path
  else
    let path ← key
    Scan.exactly "]"
    return .header path

/-- A key and its value. -/
def assignment : Scan Statement := do
  let path ← key
  Scan.exactly "="
  spaces
  return .assign path (← Scan.fueled (value 0))

/-- The lines of a document. -/
def statements : Nat → Scan (List Statement)
  | 0 => failure
  | fuel + 1 => do
    spaces
    match ← Scan.peek? with
    | none => return []
    | some '#' | some '\n' | some '\r' => restOfLine; statements fuel
    | some c =>
      let statement ← if c = '[' then header else assignment
      restOfLine
      return statement :: (← statements fuel)

/-- A document, possibly after a byte order mark. -/
def document : Scan Toml := do
  discard (Scan.accept '\ufeff')
  ofStatements (← Scan.fueled statements)

/-- Reads a TOML text. -/
def read? (text : String) : Option Toml := document.whole text

end ReluAbstraction.Toml
