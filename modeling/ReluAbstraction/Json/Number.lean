import ReluAbstraction.Json
import ReluAbstraction.Scan

/-!
# JSON numbers

A number is read from as many of its leading digits as fit into 64 bits, followed by one multiplication or division by a
power of ten. For numbers of up to fifteen digits and powers up to the twenty-second this is the nearest double; beyond that
it may be off by a little. Numbers too large for a double cannot be read, and numbers too small are zero.
-/

namespace ReluAbstraction.Json

/-- A number as it is written. -/
structure NumberLiteral where
  /-- Whether there is a minus sign. -/
  negative : Bool
  /-- Digits before the point. -/
  integer : List Char
  /-- Digits after the point, if there is one. -/
  fraction : Option (List Char)
  /-- The exponent, if there is one. -/
  exponent : Option Int

/-- The first number that does not fit into 64 bits. -/
def wordLimit : Nat := 18446744073709551616

/-- Appends leading digits to a number while the result fits into 64 bits. Gives the number and the digits left over. -/
def gather : Nat → List Char → Nat × List Char
  | n, [] => (n, [])
  | n, d :: ds =>
    let next := 10 * n + digitValue d
    if next < wordLimit then gather next ds else (n, d :: ds)

/-- A power of ten, for exponents up to 308. -/
def powerOfTen (n : Nat) : Float := Float.ofScientific 1 false n

/-- `x / 10 ^ n`, in steps of at most 308 powers. -/
def shrink (x : Float) (n : Nat) : Float :=
  if n ≤ 308 then x / powerOfTen n
  else if x == 0.0 then x
  else shrink (x / powerOfTen 308) (n - 308)
termination_by n

/-- `x * 10 ^ n`, unless that is too large. -/
def grow? (x : Float) (n : Nat) : Option Float :=
  if n ≤ 308 then
    let y := x * powerOfTen n
    if y.isInf then none else some y
  else if x == 0.0 then some x
  else none

namespace NumberLiteral

/-- The double that the number is read as, unless it is too large. -/
def toFloat? (l : NumberLiteral) : Option Float := do
  let (whole, dropped) := gather 0 l.integer
  let fraction := l.fraction.getD []
  let (significand, ignored) := gather whole fraction
  let places : Int := (fraction.length - ignored.length : Nat)
  let power := l.exponent.getD 0 + dropped.length - places
  let x := Float.ofNat significand
  let size ← if 0 ≤ power then grow? x power.toNat else some (shrink x (-power).toNat)
  return if l.negative then -size else size

/-- The JSON value of the number. -/
def toJson (l : NumberLiteral) : Json :=
  let whole := ofDigits 10 l.integer
  if !l.negative && l.fraction.isNone && l.exponent.isNone && decide (whole < wordLimit) then nat whole
  else
    match l.toFloat? with
    | some x => float x
    | none => unreadable

end NumberLiteral

end ReluAbstraction.Json
