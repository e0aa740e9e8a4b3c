import TableAutomata.Grammar.Calculator
import TableAutomata.Program.Report

/-! The calculator's command: lists the lexemes of an expression with their places. -/

namespace TableAutomata.Program.LexemeList

open Calculator

/-- Whitespace is scanned but not listed. -/
def lexemeLine (l : Lexeme TextCursor Kind) : String :=
  if l.kind = .whitespace then ""
  else
    let text := String.ofList ((l.start.slice? l.stop).getD [])
    let place := l.start.position
    s!"  {describe l.kind} {describe text} at {place.line}:{place.column}\n"

/-- A scan that gets stuck lists no lexemes, only the character it got stuck at. -/
def scanLines : Except (ScanError TextCursor) (List (Lexeme TextCursor Kind)) → String
  | .ok lexemes => "Tokens:\n" ++ String.join (lexemes.map lexemeLine)
  | .error (.noMatch c) =>
    let char := (Cursor.peek? c).getD ' '
    s!"  error: unexpected {describe char} at {c.position.line}:{c.position.column}\n"

def heading (expression : String) : String :=
  s!"Expression: {expression}\n"

def reportOn (rules : List (Rule TextCursor Char Unit Kind)) (expression : String) : Option Report :=
  (scanWith rules expression).map fun (found, records) =>
    { exitCode := match found with
        | .ok _ => 0
        | .error _ => 1
      output := heading expression ++ scanLines found ++ "\n"
      log := records.map Record.line }

def demo : List String :=
  ["3 + 4", "2 * 3.14", "(1 + 2) * 3", "area = r ^ 2", "10 / 2.5 $"]

def expressionOf (arguments : List String) : String :=
  " ".intercalate arguments

def expressions (arguments : List String) : List String :=
  if arguments.isEmpty then demo else [expressionOf arguments]

def run (arguments : List String) : Option Report :=
  match Calculator.rules? with
  | .ok rules => Report.ofEach (reportOn rules) (expressions arguments)
  | .error e =>
    -- the first expression is announced before the grammar is built
    some (.ofTableError (heading ((expressions arguments).headD "")) "invalid calculator grammar" e)

end TableAutomata.Program.LexemeList
