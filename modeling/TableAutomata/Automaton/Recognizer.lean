import TableAutomata.Automaton.Run

/-! Recognizers: a table bound to the entry its runs begin at. A recognizer keeps nothing between
runs, and several of them may share one table. -/

namespace TableAutomata

/-- A table and the tag by which those who share it know it. Equal tables under two tags are two
tables. -/
structure SharedTable (C T Ctx : Type) where
  tag : Nat
  table : Table C T Ctx

/-- The start entry always exists in the bound table. -/
structure Recognizer (C T Ctx : Type) where
  shared : SharedTable C T Ctx
  start : Fin shared.table.size

namespace Recognizer

variable {C T Ctx : Type}

def ofTable (s : SharedTable C T Ctx) : Recognizer C T Ctx :=
  ⟨s, s.table.first⟩

def ofTableAt? (s : SharedTable C T Ctx) (n : Nat) : Except TableError (Recognizer C T Ctx) :=
  (s.table.start? n).map (⟨s, ·⟩)

def table (r : Recognizer C T Ctx) : Table C T Ctx :=
  r.shared.table

def sharesTable (a b : Recognizer C T Ctx) : Bool :=
  a.shared.tag == b.shared.tag

def setStart? (r : Recognizer C T Ctx) (n : Nat) : Except TableError (Recognizer C T Ctx) :=
  ofTableAt? r.shared n

/-- Binds another table, which must have an entry with the number of the start entry. Gives back the
table bound before. -/
def swapTable? (r : Recognizer C T Ctx) (s : SharedTable C T Ctx) :
    Except TableError (SharedTable C T Ctx × Recognizer C T Ctx) :=
  (ofTableAt? s r.start).map (r.shared, ·)

instance : Describe (Recognizer C T Ctx) :=
  ⟨fun r => Describe.fields "Engine"
    [("entries", describe r.table.size), ("start", describe r.start.val)]⟩

variable [Cursor C T] [BEq T] [LE T] [DecidableLE T]

def exec (r : Recognizer C T Ctx) (visits : Nat) (ctx : Ctx) (bound c : C) :
    Recording C T Ctx (Outcome C) :=
  r.table.run r.start visits ctx bound c

end Recognizer

variable {C T Ctx : Type} [Cursor C T] [BEq T] [LE T] [DecidableLE T]

def Table.runFrom? (t : Table C T Ctx) (n visits : Nat) (ctx : Ctx) (bound c : C) :
    Except TableError (Recording C T Ctx (Outcome C)) :=
  (t.start? n).map fun start => t.run start visits ctx bound c

def Recognizer.execFrom? (r : Recognizer C T Ctx) (n visits : Nat) (ctx : Ctx) (bound c : C) :
    Except TableError (Recording C T Ctx (Outcome C)) :=
  r.table.runFrom? n visits ctx bound c

end TableAutomata
