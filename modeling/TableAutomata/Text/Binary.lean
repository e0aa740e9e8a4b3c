/-! Finite binary floating point values as exact numbers, and the decimals that read back as them.
Every comparison is one of natural numbers, after both sides are multiplied by the powers of two and
ten that they lack. -/

namespace TableAutomata.Text

structure Decimal where
  digits : Nat
  exponent : Int

/-- A finite value without its sign, `m · 2^q`. -/
structure Binary where
  m : Nat
  q : Int
  /-- The value below is half as far away as the value above. -/
  narrowBelow : Bool

namespace Binary

/-- The value with these bits, its sign left out. Bits of an infinity or of no number at all are
not for this function. -/
def ofBits (bits : Nat) : Binary :=
  let exponent := (bits >>> 52) % 0x800
  let fraction := bits % 0x10000000000000
  if exponent == 0 then ⟨fraction, -1074, false⟩
  else ⟨0x10000000000000 + fraction, Int.ofNat exponent - 1075, fraction == 0 && 1 < exponent⟩

def compareScaled (d : Nat) (i : Int) (n : Nat) (j : Int) : Ordering :=
  compare ((d * Nat.pow 10 i.toNat) <<< (-j).toNat) ((n <<< j.toNat) * Nat.pow 10 (-i).toNat)

/-- `d` rounds to `x`: it lies between the points half way to the two values next to `x`. The points
themselves round to the even one of the values they are between. -/
def readsBack (x : Binary) (d : Decimal) : Bool :=
  let lower := if x.narrowBelow then 4 * x.m - 1 else 4 * x.m - 2
  let upper := 4 * x.m + 2
  let closed := x.m % 2 == 0
  let toLower := compareScaled d.digits d.exponent lower (x.q - 2)
  let toUpper := compareScaled d.digits d.exponent upper (x.q - 2)
  (toLower == .gt || closed && toLower == .eq) && (toUpper == .lt || closed && toUpper == .eq)

def floor (x : Binary) (exponent : Int) : Nat :=
  ((x.m <<< x.q.toNat) * Nat.pow 10 (-exponent).toNat) /
    (Nat.pow 10 exponent.toNat <<< (-x.q).toNat)

def exact (x : Binary) : Decimal :=
  ⟨(x.m <<< x.q.toNat) * Nat.pow 5 (-x.q).toNat, -((-x.q).toNat : Int)⟩

end Binary

end TableAutomata.Text
