import TableAutomata.Automaton.Table

/-! Core rules of augmented Backus-Naur form as tables, over any cursor on characters. Quoted letters
stand for both cases. The entries of a rule are written over the steps that match the rules it uses. -/

namespace TableAutomata.Abnf

variable {C Ctx : Type}

/-- `DIGIT = %x30-39` -/
def digitEntries : List (Entry C Char Ctx) :=
  [.accept .terminal .terminal (.range '0' '9')]

/-- `ALPHA = %x41-5A / %x61-7A` -/
def alphaEntries : List (Entry C Char Ctx) :=
  [.accept .terminal (.index 1) (.range 'A' 'Z'),
   .accept .terminal .terminal (.range 'a' 'z')]

/-- `HEXDIG = DIGIT / "A" / "B" / "C" / "D" / "E" / "F"` -/
def hexdigEntries (digit : Matcher C Char Ctx) : List (Entry C Char Ctx) :=
  [.accept .terminal (.index 1) digit,
   .accept .terminal (.index 2) (.range 'A' 'F'),
   .accept .terminal .terminal (.range 'a' 'f')]

/-- `1*HEXDIG` -/
def hexDigitsEntries (hexdig : Matcher C Char Ctx) : List (Entry C Char Ctx) :=
  [.accept (.index 0) .terminal hexdig]

/-- `%x31-39 *DIGIT` -/
def decimalEntries (digit : Matcher C Char Ctx) : List (Entry C Char Ctx) :=
  [.accept (.index 1) .terminal (.range '1' '9'),
   .accept (.index 1) .terminal digit]

/-- `decimal / "0" "x" 1*HEXDIG`. A zero alone is no number. -/
def numberEntries (decimal hexDigits : Matcher C Char Ctx) : List (Entry C Char Ctx) :=
  [.accept .terminal (.index 1) decimal,
   .pass (.index 2) .terminal (.equals '0'),
   .pass (.index 3) .terminal (.oneOf ['x', 'X']),
   .accept .terminal .terminal hexDigits]

def digit : Table C Char Ctx :=
  .ofEntries digitEntries (List.cons_ne_nil _ _)

def alpha : Table C Char Ctx :=
  .ofEntries alphaEntries (List.cons_ne_nil _ _)

def hexdig : Table C Char Ctx :=
  .ofEntries (hexdigEntries digit.toStep) (List.cons_ne_nil _ _)

def hexDigits : Table C Char Ctx :=
  .ofEntries (hexDigitsEntries hexdig.toStep) (List.cons_ne_nil _ _)

def decimal : Table C Char Ctx :=
  .ofEntries (decimalEntries digit.toStep) (List.cons_ne_nil _ _)

def number : Table C Char Ctx :=
  .ofEntries (numberEntries decimal.toStep hexDigits.toStep) (List.cons_ne_nil _ _)

/-! The same tables as a program gets them, which has every link and every start entry checked. -/

def digit? : Except TableError (Table C Char Ctx) :=
  Table.ofEntries? digitEntries

def alpha? : Except TableError (Table C Char Ctx) :=
  Table.ofEntries? alphaEntries

def hexdig? : Except TableError (Table C Char Ctx) := do
  Table.ofEntries? (hexdigEntries (← Matcher.nested? (← digit?) 0))

def hexDigits? : Except TableError (Table C Char Ctx) := do
  Table.ofEntries? (hexDigitsEntries (← Matcher.nested? (← hexdig?) 0))

def decimal? : Except TableError (Table C Char Ctx) := do
  Table.ofEntries? (decimalEntries (← Matcher.nested? (← digit?) 0))

def number? : Except TableError (Table C Char Ctx) := do
  let decimal ← Matcher.nested? (← decimal?) 0
  let hexDigits ← Matcher.nested? (← hexDigits?) 0
  Table.ofEntries? (numberEntries decimal hexDigits)

theorem number?_eq : (number? : Except TableError (Table C Char Ctx)) = .ok number := rfl

inductive CoreRule where
  | digit
  | alpha
  | hexdig
  | hexDigits
  | decimal
  | number
deriving DecidableEq

def CoreRule.table : CoreRule → Table C Char Ctx
  | digit => Abnf.digit
  | alpha => Abnf.alpha
  | hexdig => Abnf.hexdig
  | hexDigits => Abnf.hexDigits
  | decimal => Abnf.decimal
  | number => Abnf.number

end TableAutomata.Abnf
