import TableAutomata.Program.LexemeList
import TableAutomata.Program.NumberCheck

/-! The command line: the first argument chooses the command, the others are its input. -/

namespace TableAutomata.Program

def usage : String :=
  "usage: calc-scanner [EXPRESSION...] | number-recognizer [TEXT...]"

def report? : List String → Option Report
  | "calc-scanner" :: rest => LexemeList.run rest
  | "number-recognizer" :: rest => NumberCheck.run rest
  | _ => none

end TableAutomata.Program

def main (arguments : List String) : IO UInt32 := do
  match TableAutomata.Program.report? arguments with
  | some report =>
    IO.print report.output
    pure report.exitCode.toUInt32
  | none =>
    IO.eprintln TableAutomata.Program.usage
    pure 2
