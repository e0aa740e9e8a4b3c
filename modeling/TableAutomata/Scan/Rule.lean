import TableAutomata.Automaton.Recognizer

/-! Scan rules and the order in which they are tried. -/

namespace TableAutomata

/-- A recognizer and the kind of lexeme it stands for. Rules of higher priority are tried first. -/
structure Rule (C T Ctx K : Type) where
  kind : K
  recognizer : Recognizer C T Ctx
  priority : Int

namespace Rule

variable {C T Ctx K : Type}

def insert (r : Rule C T Ctx K) : List (Rule C T Ctx K) → List (Rule C T Ctx K)
  | [] => [r]
  | s :: rest => if s.priority ≤ r.priority then r :: s :: rest else s :: insert r rest

/-- By falling priority; rules of equal priority keep their order. -/
def byPriority : List (Rule C T Ctx K) → List (Rule C T Ctx K)
  | [] => []
  | r :: rest => insert r (byPriority rest)

end Rule

end TableAutomata
