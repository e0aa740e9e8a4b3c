/-! Sets of code points, written as closed ranges in ascending order. -/

namespace TableAutomata.Text

abbrev CodePoints := List (Nat × Nat)

def CodePoints.has (ranges : CodePoints) (c : Char) : Bool :=
  ranges.any fun r => r.1 ≤ c.toNat && c.toNat ≤ r.2

end TableAutomata.Text
