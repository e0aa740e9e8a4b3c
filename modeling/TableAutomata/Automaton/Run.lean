import TableAutomata.Automaton.Record
import TableAutomata.Match.Basic

/-! Running a table. A run goes from entry to entry, trying each entry's matcher at its cursor, until
a link leads out of the table; its outcome is the last place noted at an accepting entry, else the
last failure, else a rejection at the bound.

A run need not end. It is given a number of `visits`: the run may try `visits` entries for every
entry of its table, and so may each run nested in it. A run that stays between its begin and its
bound can stand at no more places than there are tokens ahead, and one more; if it tries more entries
than it has entries and places to combine, it repeats itself and never ends. So that number of visits
tells exactly which runs end. -/

namespace TableAutomata

/-- Where a run stands: its cursor, the place noted last at an accepting entry, and where the last
failing step put its rejection. -/
structure Progress (C : Type) where
  cursor : C
  noted : Option C
  failed : Option C

namespace Progress

variable {C : Type}

def start (c : C) : Progress C := ⟨c, none, none⟩

/-- A success moves the cursor; a failure leaves it where it is. -/
def after (p : Progress C) (accepting : Bool) (o : Outcome C) : Progress C :=
  if o.accepted then
    { p with cursor := o.position, noted := if accepting then some o.position else p.noted }
  else { p with failed := some o.position }

def outcome (p : Progress C) (bound : C) : Outcome C :=
  match p.noted with
  | some c => .accept c
  | none => .reject (p.failed.getD bound)

end Progress

variable {C T Ctx : Type}

/-- From entry to entry until a link leads out of the table. -/
def follow {n : Nat} (link : Fin n → Link n) (attempt : Fin n → C → Recording C T Ctx (Outcome C)) :
    Nat → Option (Fin n) → Progress C → Recording C T Ctx (Progress C)
  | _, none, p => pure p
  | 0, some _, _ => .outOfBudget
  | budget + 1, some i, p => do
    let o ← attempt i p.cursor
    follow link attempt budget ((link i).next o.accepted) (p.after (link i).accepting o)

variable [Cursor C T] [BEq T] [LE T] [DecidableLE T]

def Matcher.apply (visits : Nat) (ctx : Ctx) (bound : C) :
    Matcher C T Ctx → C → Recording C T Ctx (Outcome C)
  | .length n, c => pure (Match.length n bound c)
  | .equals t, c => pure (Match.equals t bound c)
  | .oneOf set, c => pure (Match.oneOf set bound c)
  | .seq pattern, c => pure (Match.seq pattern bound c)
  | .range lo hi, c => pure (Match.range lo hi bound c)
  | .always, c => pure (.accept c)
  | .func f, c => pure (f c bound ctx)
  | .repeatSeq pattern min max _, c => pure (Match.repeatSeq pattern min max bound c)
  | @Matcher.nested _ _ _ size link matcher start, c => do
    let attempt (i : Fin size) (d : C) : Recording C T Ctx (Outcome C) := do
      let o ← (matcher i).apply visits ctx bound d
      Recording.note (.entry i (matcher i) d o)
      pure o
    let p ← follow link attempt (size * visits) (some start) (.start c)
    let o := p.outcome bound
    Recording.note (.run size start o)
    pure o

def Table.run (t : Table C T Ctx) (start : Fin t.size) (visits : Nat) (ctx : Ctx) (bound c : C) :
    Recording C T Ctx (Outcome C) :=
  (t.toMatcher start).apply visits ctx bound c

end TableAutomata
