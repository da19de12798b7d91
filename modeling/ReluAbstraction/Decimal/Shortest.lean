/-!
# Shortest decimal digits of a double

A finite double is `m · 2 ^ q`. Every real that rounds to it lies in an interval around it, and the shortest decimal is
the one with the fewest digits inside that interval. The search below runs over digit counts, in exact natural-number
arithmetic.
-/

namespace ReluAbstraction

/-- A positive decimal number `digits · 10 ^ exponent`. -/
structure Decimal where
  /-- Digits read as one number, without trailing zeros. -/
  digits : Nat
  /-- Power of ten of the last digit. -/
  exponent : Int
deriving DecidableEq, Repr

/-- Which of two equally near decimals is taken. -/
inductive Tie where
  /-- The one with an even last digit. -/
  | toEven
  /-- The larger one. -/
  | upward
deriving DecidableEq, Repr

/-- Whether the smaller one of two equally near decimals is taken, given its digits. -/
def Tie.takesLower : Tie → Nat → Bool
  | toEven, digits => digits % 2 = 0
  | upward, _ => false

/-- A positive finite double as `mantissa · 2 ^ exponent`. -/
structure Binary where
  /-- Integer significand. -/
  mantissa : Nat
  /-- Power of two of the significand. -/
  exponent : Int
  /-- Whether the next smaller double is only half as far away as the next larger one. -/
  narrowBelow : Bool
deriving DecidableEq, Repr

namespace Binary

/-- Splits the bits of a positive finite double. -/
def ofBits (bits : UInt64) : Binary :=
  let fraction := (bits &&& 0xFFFFFFFFFFFFF).toNat
  let biased := ((bits >>> 52) &&& 0x7FF).toNat
  if biased = 0 then ⟨fraction, -1074, false⟩
  else ⟨fraction + 4503599627370496, biased - 1075, fraction = 0 ∧ 1 < biased⟩

/-- `x · 2 ^ (exponent - 2) / 10 ^ e` as a numerator and a denominator. Quarters of the last place are enough to write
down the ends of the rounding interval. -/
def scaled (b : Binary) (e : Int) (x : Nat) : Nat × Nat :=
  let q := b.exponent - 2
  (x * Nat.pow 2 q.toNat * Nat.pow 10 (-e).toNat, Nat.pow 2 (-q).toNat * Nat.pow 10 e.toNat)

/-- Number of decimal digits of `n`, zero for zero. -/
def digitCount (n : Nat) : Nat :=
  if n = 0 then 0 else (Nat.toDigits 10 n).length

/-- Power of ten of the leading digit. -/
def leading (b : Binary) : Int :=
  let (num, den) := b.scaled 0 (4 * b.mantissa)
  if den ≤ num then (digitCount (num / den) : Int) - 1
  else -((digitCount ((den + num - 1) / num - 1)) : Int)

/-- The decimal with last digit at `10 ^ e` that lies in the rounding interval, if there is one. Of two such the nearer is
taken, and of two equally near the one that `tie` says. -/
def atPlace (tie : Tie) (b : Binary) (e : Int) : Option Decimal :=
  let (num, den) := b.scaled e (4 * b.mantissa)
  let (low, _) := b.scaled e (4 * b.mantissa - if b.narrowBelow then 1 else 2)
  let (high, _) := b.scaled e (4 * b.mantissa + 2)
  let closed := b.mantissa % 2 = 0
  let floor := num / den
  let below := if closed then low ≤ floor * den else low < floor * den
  let above := if closed then (floor + 1) * den ≤ high else (floor + 1) * den < high
  let twice := 2 * (num % den)
  let roundDown := twice < den ∨ (twice = den ∧ tie.takesLower floor)
  if below ∧ (¬ above ∨ roundDown) then some ⟨floor, e⟩
  else if above then some ⟨floor + 1, e⟩
  else none

end Binary

namespace Decimal

/-- Moves trailing zeros of the digits into the exponent; `fuel` bounds the number of zeros. -/
def strip : Nat → Decimal → Decimal
  | 0, d => d
  | fuel + 1, d => if d.digits % 10 = 0 ∧ d.digits ≠ 0 then strip fuel ⟨d.digits / 10, d.exponent + 1⟩ else d

/-- The shortest decimal that reads back as a positive finite double. Seventeen digits always suffice. -/
def shortest (tie : Tie) (bits : UInt64) : Decimal :=
  let b := Binary.ofBits bits
  let leading := b.leading
  match (List.range 17).findSome? fun (n : Nat) => b.atPlace tie (leading - n) with
  | some d => d.strip 20
  | none => ⟨0, 0⟩

end Decimal

end ReluAbstraction
