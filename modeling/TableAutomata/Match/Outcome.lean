import TableAutomata.Describe

/-! What a match step, or a whole run, reports. -/

namespace TableAutomata

/-- An accepted outcome stands behind the tokens it took. A rejected one stands wherever the failing
step put it, most often at the upper bound. -/
structure Outcome (C : Type) where
  accepted : Bool
  position : C

namespace Outcome

variable {C : Type}

def accept (c : C) : Outcome C := ⟨true, c⟩

def reject (c : C) : Outcome C := ⟨false, c⟩

def ofPlace? (bound : C) : Option C → Outcome C
  | some c => accept c
  | none => reject bound

instance [Describe C] : Describe (Outcome C) :=
  ⟨fun o => Describe.fields "MatchResult"
    [("accepted", describe o.accepted), ("position", describe o.position)]⟩

end Outcome

end TableAutomata
