/-!
# Scanning text

A scan takes something off the front of a text, or fails and leaves the choice to the caller. Alternatives start over from
the same place.
-/

namespace ReluAbstraction

/-- A computation that reads characters from the front of a text and may fail. -/
abbrev Scan := StateT (List Char) Option

namespace Scan

variable {β : Type}

/-- Applies a scan to a whole text, of which nothing may be left over. -/
def whole (scan : Scan β) (text : String) : Option β :=
  match scan text.toList with
  | some (b, []) => some b
  | _ => none

/-- The next character, which stays where it is. -/
def peek? : Scan (Option Char) := return (← get).head?

/-- Takes the next character, which has to satisfy `p`. -/
def char (p : Char → Bool) : Scan Char
  | c :: rest => if p c then some (c, rest) else none
  | [] => none

/-- Takes the next character if it is `c`, and says whether it was. -/
def accept (c : Char) : Scan Bool
  | d :: rest => some (if d = c then (true, rest) else (false, d :: rest))
  | [] => some (false, [])

/-- Takes exactly the given characters. -/
def exactly (word : String) : Scan Unit := word.toList.forM fun c => discard (char (· = c))

/-- Takes characters while they satisfy `p`. -/
def span (p : Char → Bool) : Scan (List Char) := fun cs => some (cs.takeWhile p, cs.dropWhile p)

/-- Takes characters while they satisfy `p`, at least one. -/
def span1 (p : Char → Bool) : Scan (List Char) := do
  match ← span p with
  | [] => failure
  | cs => return cs

/-- Takes as many characters as asked for, all of which have to satisfy `p`. -/
def times (n : Nat) (p : Char → Bool) : Scan (List Char) := (List.replicate n p).mapM char

/-- Applies a scan if it succeeds, and otherwise takes nothing. -/
def attempt (scan : Scan β) : Scan (Option β) := fun cs =>
  match scan cs with
  | some (b, rest) => some (some b, rest)
  | none => some (none, cs)

/-- A scan that calls itself, with enough fuel for two calls at each character that is left. -/
def fueled (scan : Nat → Scan β) : Scan β := fun cs => scan (2 * cs.length + 2) cs

end Scan

/-- Value of a digit in bases up to sixteen. -/
def digitValue (c : Char) : Nat :=
  if c.isDigit then c.toNat - '0'.toNat
  else if c.isLower then c.toNat - 'a'.toNat + 10
  else c.toNat - 'A'.toNat + 10

/-- Number with the given digits, the first one most significant. -/
def ofDigits (base : Nat) (digits : List Char) : Nat :=
  digits.foldl (fun n c => base * n + digitValue c) 0

/-- Whether a character is a digit in base sixteen. -/
def isHexDigit (c : Char) : Bool := c.isDigit || ('a' ≤ c && c ≤ 'f') || ('A' ≤ c && c ≤ 'F')

end ReluAbstraction
