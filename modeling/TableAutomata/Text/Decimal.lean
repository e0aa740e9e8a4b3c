import TableAutomata.Text.Binary

/-! Floating point numbers in decimal notation: the fewest digits that read back as the number, and
the place of the point among them. -/

namespace TableAutomata.Text

def digitCount (n : Nat) : Nat :=
  (Nat.toDigits 10 n).length

namespace Binary

/-- The power of ten that the leading digit of a positive value counts. Below one it is read off the
reciprocal: `10^k ≤ x` means `1 / x ≤ 10^(-k)`. -/
def magnitude (x : Binary) : Int :=
  let num := x.m <<< x.q.toNat
  let den := 1 <<< (-x.q).toNat
  if den ≤ num then (digitCount (num / den) : Int) - 1
  else -(digitCount ((den - 1) / num) : Int)

/-- A multiple of `10^exponent` that reads back as `x`. Of the two multiples next to `x` it is the
nearer one, and the upper one if both are equally near. -/
def onGrid? (x : Binary) (exponent : Int) : Option Decimal :=
  let n := x.floor exponent
  match x.readsBack ⟨n, exponent⟩, x.readsBack ⟨n + 1, exponent⟩ with
  | true, true =>
    if compareScaled (2 * n + 1) exponent (2 * x.m) x.q == .gt then some ⟨n, exponent⟩
    else some ⟨n + 1, exponent⟩
  | true, false => some ⟨n, exponent⟩
  | false, true => some ⟨n + 1, exponent⟩
  | false, false => none

/-- The decimal with the fewest digits that reads back as a positive value. Seventeen digits are
enough to tell all values apart. -/
def shortest (x : Binary) : Decimal :=
  let top := x.magnitude
  ((List.range 17).findSome? fun n => x.onGrid? (top - Int.ofNat n)).getD x.exact

end Binary

namespace Decimal

def significant (d : Decimal) : List Char :=
  ((Nat.toDigits 10 d.digits).reverse.dropWhile (· == '0')).reverse

def magnitude (d : Decimal) : Int :=
  d.exponent + digitCount d.digits - 1

end Decimal

/-- Digits of which the first counts `10^top`, with the point among them and at least one digit on
either side of it. -/
def positional (digits : List Char) (top : Int) : String :=
  let whole := (top + 1).toNat
  let padded := List.replicate (-top).toNat '0' ++ digits
  if top < 0 then
    String.ofList (padded.take 1) ++ "." ++ String.ofList (padded.drop 1)
  else if digits.length ≤ whole then
    String.ofList (digits ++ List.replicate (whole - digits.length) '0') ++ ".0"
  else
    String.ofList (digits.take whole) ++ "." ++ String.ofList (digits.drop whole)

def scientific (digits : List Char) (top : Int) : String :=
  let fraction := digits.drop 1
  let point := if fraction.isEmpty then "" else "."
  String.ofList (digits.take 1) ++ point ++ String.ofList fraction ++ "e" ++ toString top

/-- The point stands among the digits from `0.0001` up to sixteen digits before it. -/
def Decimal.text (d : Decimal) : String :=
  if -4 ≤ d.magnitude && d.magnitude < 16 then positional d.significant d.magnitude
  else scientific d.significant d.magnitude

def decimal (x : Float) : String :=
  let bits := x.toBits.toNat
  let sign := if 0x8000000000000000 ≤ bits then "-" else ""
  let value := Binary.ofBits bits
  if x.isNaN then "NaN"
  else if x.isInf then sign ++ "inf"
  else if value.m == 0 then sign ++ "0.0"
  else sign ++ value.shortest.text

end TableAutomata.Text
