import TableAutomata.Grammar.Abnf
import TableAutomata.Input.TextCursor
import TableAutomata.Scan.Scanner

/-! The lexemes of arithmetic expressions. -/

namespace TableAutomata.Calculator

open Abnf (digit alpha)

inductive Kind where
  | number
  | ident
  | operator
  | leftParen
  | rightParen
  | whitespace
deriving DecidableEq

instance : Describe Kind :=
  ⟨fun
    | .number => "Number"
    | .ident => "Ident"
    | .operator => "Operator"
    | .leftParen => "LeftParen"
    | .rightParen => "RightParen"
    | .whitespace => "Whitespace"⟩

variable {C Ctx : Type}

/-- `1*DIGIT ["." 1*DIGIT] / "." 1*DIGIT`. One failure link serves the end of the digits and their
absence, so that a number may begin with its point. -/
def numberEntries (digit : Matcher C Char Ctx) : List (Entry C Char Ctx) :=
  [.accept (.index 0) (.index 1) digit,
   .pass (.index 2) .terminal (.equals '.'),
   .accept (.index 2) .terminal digit]

/-- `ALPHA *(ALPHA / DIGIT / "_")` -/
def identEntries (alpha digit : Matcher C Char Ctx) : List (Entry C Char Ctx) :=
  [.accept (.index 1) .terminal alpha,
   .accept (.index 1) (.index 2) alpha,
   .accept (.index 1) (.index 3) digit,
   .accept (.index 1) .terminal (.equals '_')]

def singleEntries (m : Matcher C Char Ctx) : List (Entry C Char Ctx) :=
  [.accept .terminal .terminal m]

def whitespaceEntries : List (Entry C Char Ctx) :=
  [.accept (.index 0) .terminal (.oneOf [' ', '\t', '\r', '\n'])]

def operatorStep : Matcher C Char Ctx :=
  .oneOf ['+', '-', '*', '/', '^', '=']

def number : Table C Char Ctx :=
  .ofEntries (numberEntries digit.toStep) (List.cons_ne_nil _ _)

def ident : Table C Char Ctx :=
  .ofEntries (identEntries alpha.toStep digit.toStep) (List.cons_ne_nil _ _)

def single (m : Matcher C Char Ctx) : Table C Char Ctx :=
  .ofEntries (singleEntries m) (List.cons_ne_nil _ _)

def operator : Table C Char Ctx :=
  single operatorStep

def leftParen : Table C Char Ctx :=
  single (.equals '(')

def rightParen : Table C Char Ctx :=
  single (.equals ')')

def whitespace : Table C Char Ctx :=
  .ofEntries whitespaceEntries (List.cons_ne_nil _ _)

def rulesOf (number ident operator leftParen rightParen whitespace : Recognizer C Char Ctx) :
    List (Rule C Char Ctx Kind) :=
  [⟨.number, number, 20⟩,
   ⟨.ident, ident, 15⟩,
   ⟨.operator, operator, 20⟩,
   ⟨.leftParen, leftParen, 20⟩,
   ⟨.rightParen, rightParen, 20⟩,
   ⟨.whitespace, whitespace, 1⟩]

def rules : List (Rule C Char Ctx Kind) :=
  rulesOf (.ofTable ⟨0, number⟩) (.ofTable ⟨1, ident⟩) (.ofTable ⟨2, operator⟩)
    (.ofTable ⟨3, leftParen⟩) (.ofTable ⟨4, rightParen⟩) (.ofTable ⟨5, whitespace⟩)

def recognizer? (tag : Nat) (es : List (Entry C Char Ctx)) :
    Except TableError (Recognizer C Char Ctx) :=
  (Table.ofEntries? es).map fun t => .ofTable ⟨tag, t⟩

/-- The same rules as a program gets them, which has every link and every start entry checked. -/
def rules? : Except TableError (List (Rule C Char Ctx Kind)) := do
  let digit ← Matcher.nested? (← Abnf.digit?) 0
  let alpha ← Matcher.nested? (← Abnf.alpha?) 0
  let number ← recognizer? 0 (numberEntries digit)
  let ident ← recognizer? 1 (identEntries alpha digit)
  let whitespace ← recognizer? 5 whitespaceEntries
  let operator ← recognizer? 2 (singleEntries operatorStep)
  let leftParen ← recognizer? 3 (singleEntries (.equals '('))
  let rightParen ← recognizer? 4 (singleEntries (.equals ')'))
  pure (rulesOf number ident operator leftParen rightParen whitespace)

theorem rules?_eq : (rules? : Except TableError (List (Rule C Char Ctx Kind))) = .ok rules := rfl

def scannerOf (rules : List (Rule TextCursor Char Unit Kind)) (expression : String) :
    Scanner TextCursor Char Unit Kind :=
  .ofRules rules () (.stop 0 expression) (.start 0 expression)

def scanner (expression : String) : Scanner TextCursor Char Unit Kind :=
  scannerOf rules expression

def scanWith (rules : List (Rule TextCursor Char Unit Kind)) (expression : String) :
    Recording TextCursor Char Unit (Except (ScanError TextCursor) (List (Lexeme TextCursor Kind))) := do
  let (lexemes, _) ← (scannerOf rules expression).tokenize (expression.toList.length + 1)
  pure lexemes

def scan (expression : String) :
    Recording TextCursor Char Unit (Except (ScanError TextCursor) (List (Lexeme TextCursor Kind))) :=
  scanWith rules expression

end TableAutomata.Calculator
