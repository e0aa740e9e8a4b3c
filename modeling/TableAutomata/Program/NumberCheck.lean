import TableAutomata.Automaton.WholeText
import TableAutomata.Grammar.Abnf
import TableAutomata.Program.Report

/-! The number checker's command: says of each argument how much of it is a number. -/

namespace TableAutomata.Program.NumberCheck

inductive Verdict where
  | number
  | start (accepted : List Char)
  | notANumber
deriving DecidableEq

namespace Verdict

instance : Describe Verdict :=
  ⟨fun
    | number => "Number"
    | start accepted => Describe.applied "Prefix" [describe (String.ofList accepted)]
    | notANumber => "NotANumber"⟩

def sentence : Verdict → String
  | number => "number"
  | start accepted => s!"number prefix {describe (String.ofList accepted)}"
  | notANumber => "not a number"

end Verdict

/-- A text is a number if what is accepted of it has as many bytes as the whole text. -/
def classify (recognizer : Recognizer TextCursor Char Unit) (input : String) :
    Recording TextCursor Char Unit Verdict := do
  match ← recognizer.acceptedStart input with
  | some accepted =>
    pure (if (String.ofList accepted).utf8ByteSize = input.utf8ByteSize then .number
      else .start accepted)
  | none => pure .notANumber

def reportOn (recognizer : Recognizer TextCursor Char Unit) (input : String) : Option Report :=
  (classify recognizer input).map fun (verdict, records) =>
    { exitCode := if verdict = .number then 0 else 1
      output := s!"{input}: {verdict.sentence}\n"
      log := records.map Record.line ++ [s!"DEBUG {describe input} -> {describe verdict}"] }

def demo : List String :=
  ["1972", "0xDEAD", "0x", "0xBEAR", "[number]"]

def run (arguments : List String) : Option Report :=
  match Abnf.number? with
  | .ok number =>
    Report.ofEach (reportOn (.ofTable ⟨0, number⟩)) (if arguments.isEmpty then demo else arguments)
  | .error e => some (.ofTableError "" "invalid grammar" e)

end TableAutomata.Program.NumberCheck
