import ReluAbstraction.Decimal.Shortest

/-!
# Text of a double

The digits of a double are fixed by `Decimal.shortest`, but for the choice between two that are equally near. A `Layout`
makes that choice, and says where the point goes and when an exponent is written. Two layouts are used: plain text in
messages, and the numbers of JSON documents.
-/

namespace ReluAbstraction

/-- How the digits of a number are laid out. -/
structure Layout where
  /-- Whether a number is written without an exponent, given the place of its point counted from the first digit. -/
  positional : Int → Bool
  /-- Whether an integral number keeps a point and a zero. -/
  pointZero : Bool
  /-- Which of two equally near decimals is written. -/
  tie : Tie

namespace Layout

/-- Plain text: never an exponent, and no point after an integer. A tie goes to the decimal that is larger in size. -/
def plain : Layout := ⟨fun _ => true, false, .upward⟩

/-- Numbers of a JSON document: an exponent, with its sign, below `0.00001` and from `10 ^ 16` on; otherwise always a
point. A tie goes to the decimal with an even last digit. -/
def json : Layout := ⟨fun point => -5 < point ∧ point ≤ 16, true, .toEven⟩

/-- A run of zeros. -/
def zeros (n : Int) : String := String.ofList (List.replicate n.toNat '0')

/-- Lays out the digits of a positive number. -/
def digits (layout : Layout) (d : Decimal) : String :=
  let text := Nat.toDigits 10 d.digits
  let point : Int := text.length + d.exponent
  if layout.positional point then
    if 0 ≤ d.exponent then
      String.ofList text ++ zeros d.exponent ++ (if layout.pointZero then ".0" else "")
    else if 0 < point then
      String.ofList (text.take point.toNat) ++ "." ++ String.ofList (text.drop point.toNat)
    else "0." ++ zeros (-point) ++ String.ofList text
  else
    let power := (if 0 < point then "+" else "") ++ toString (point - 1)
    match text with
    | [digit] => digit.toString ++ "e" ++ power
    | digit :: rest => digit.toString ++ "." ++ String.ofList rest ++ "e" ++ power
    | [] => "0"

/-- Text of a finite double, its sign included. -/
def finite (layout : Layout) (x : Float) : String :=
  let bits := x.toBits
  let size := bits &&& 0x7FFFFFFFFFFFFFFF
  let sign := if size = bits then "" else "-"
  if size = 0 then sign ++ (if layout.pointZero then "0.0" else "0")
  else sign ++ layout.digits (.shortest layout.tie size)

/-- Text of any double in a message. -/
def message (x : Float) : String :=
  if x.isNaN then "NaN"
  else if x.isInf then (if x < 0 then "-inf" else "inf")
  else plain.finite x

end Layout

end ReluAbstraction
