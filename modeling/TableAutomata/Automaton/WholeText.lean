import TableAutomata.Automaton.Recognizer
import TableAutomata.Input.TextCursor

/-! Recognizers on whole texts. -/

namespace TableAutomata

/-- The text at the start of `input` that the recognizer accepts. A run that stays within the input
has as many places to stand at as the input has characters, and one more. -/
def Recognizer.acceptedStart (r : Recognizer TextCursor Char Unit) (input : String) :
    Recording TextCursor Char Unit (Option (List Char)) := do
  let start := TextCursor.start 0 input
  let o ← r.exec (input.toList.length + 1) () (.stop 0 input) start
  pure (if o.accepted then start.slice? o.position else none)

end TableAutomata
