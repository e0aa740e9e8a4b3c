import TableAutomata.Automaton.Record
import TableAutomata.Input.TextCursor

/-! What a command leaves behind. -/

namespace TableAutomata.Program

structure Report where
  exitCode : Nat
  output : String
  log : List String

namespace Report

def empty : Report := ⟨0, "", []⟩

/-- One report after another, with the graver exit code of the two. -/
def append (a b : Report) : Report :=
  ⟨max a.exitCode b.exitCode, a.output ++ b.output, a.log ++ b.log⟩

@[simp] theorem append_empty (a : Report) : a.append empty = a := by
  simp [append, empty]

def ofEach {α : Type} (report? : α → Option Report) : List α → Option Report
  | [] => some empty
  | x :: rest => do
    let a ← report? x
    let b ← ofEach report? rest
    pure (a.append b)

/-- A grammar that cannot be built ends a command with exit code 2. -/
def ofTableError (output complaint : String) (e : TableError) : Report :=
  let noted : Option (Record TextCursor Char Unit) := Record.ofError? e
  { exitCode := 2
    output
    log := noted.toList.map Record.line ++ [s!"ERROR {complaint}: {e.message}"] }

end Report

end TableAutomata.Program
