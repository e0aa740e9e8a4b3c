import TableAutomata.Text.Quoted
import TableAutomata.Text.Decimal

/-! The text of a value in diagnostics. Lists stand in brackets, records name their fields in
braces, characters and strings are quoted. -/

namespace TableAutomata

class Describe (α : Type) where
  describe : α → String

export Describe (describe)

namespace Describe

def applied (name : String) (arguments : List String) : String :=
  name ++ "(" ++ ", ".intercalate arguments ++ ")"

def fields (name : String) (values : List (String × String)) : String :=
  name ++ " \x7b " ++ ", ".intercalate (values.map fun v => v.1 ++ ": " ++ v.2) ++ " \x7d"

instance : Describe Nat := ⟨toString⟩

instance : Describe Int := ⟨toString⟩

instance : Describe UInt8 := ⟨fun b => toString b.toNat⟩

instance : Describe Bool := ⟨fun b => if b then "true" else "false"⟩

instance : Describe Char := ⟨Text.quotedChar⟩

instance : Describe String := ⟨Text.quotedString⟩

instance : Describe Float := ⟨Text.decimal⟩

instance {α : Type} [Describe α] : Describe (List α) :=
  ⟨fun xs => "[" ++ ", ".intercalate (xs.map describe) ++ "]"⟩

end Describe

end TableAutomata
