import TableAutomata.Scan.Rule

/-! Scanners cut a span of tokens into lexemes. At every place the first rule that accepts something,
in order of priority, gives the next lexeme; where no rule does, the scanner says so once and is
stuck for good. -/

namespace TableAutomata

@[ext]
structure Lexeme (C K : Type) where
  kind : K
  start : C
  stop : C

inductive ScanError (C : Type) where
  | noMatch (place : C)

def ScanError.message {C : Type} [Describe C] : ScanError C → String
  | noMatch place => s!"no rule matched at {describe place}"

/-- The rules stand in the order in which they are tried. -/
structure Scanner (C T Ctx K : Type) where
  rules : List (Rule C T Ctx K)
  ctx : Ctx
  bound : C
  cursor : C
  stuck : Bool

namespace Scanner

variable {C T Ctx K : Type}

def ofRules (rules : List (Rule C T Ctx K)) (ctx : Ctx) (bound c : C) : Scanner C T Ctx K :=
  ⟨Rule.byPriority rules, ctx, bound, c, false⟩

variable [Cursor C T] [BEq T] [LE T] [DecidableLE T]

/-- What the first of the rules to accept a nonempty stretch at `c` makes of it. An accepted empty
stretch would lead nowhere and does not count. -/
def firstMatch? (visits : Nat) (ctx : Ctx) (bound c : C) :
    List (Rule C T Ctx K) → Recording C T Ctx (Option (Lexeme C K))
  | [] => pure none
  | r :: rest => do
    let o ← r.recognizer.exec visits ctx bound c
    if o.accepted && !(o.position == c) then pure (some ⟨r.kind, c, o.position⟩)
    else firstMatch? visits ctx bound c rest

def peek? (s : Scanner C T Ctx K) (visits : Nat) : Recording C T Ctx (Option (Lexeme C K)) :=
  firstMatch? visits s.ctx s.bound s.cursor s.rules

/-- The next lexeme, or the error of getting stuck, and the scanner behind it. There is nothing more
once the bound is reached or the scanner is stuck. -/
def next? (s : Scanner C T Ctx K) (visits : Nat) :
    Recording C T Ctx (Option (Except (ScanError C) (Lexeme C K)) × Scanner C T Ctx K) := do
  if s.stuck || s.cursor == s.bound then pure (none, s)
  else
    match ← s.peek? visits with
    | some l => pure (some (.ok l), { s with cursor := l.stop })
    | none =>
      Recording.note (.noRule s.cursor)
      pure (some (.error (.noMatch s.cursor)), { s with stuck := true })

def itemsWithin (visits : Nat) : Nat → Scanner C T Ctx K →
    Recording C T Ctx (List (Except (ScanError C) (Lexeme C K)) × Scanner C T Ctx K)
  | 0, s => do
    match ← s.next? visits with
    | (none, after) => pure ([], after)
    | (some _, _) => .outOfBudget
  | n + 1, s => do
    match ← s.next? visits with
    | (none, after) => pure ([], after)
    | (some x, after) =>
      let (xs, last) ← itemsWithin visits n after
      pure (x :: xs, last)

/-- All that is still to come. No two lexemes begin at one place unless the scanner goes in circles,
so there are no more of them than a run may make visits. -/
def items (s : Scanner C T Ctx K) (visits : Nat) :
    Recording C T Ctx (List (Except (ScanError C) (Lexeme C K)) × Scanner C T Ctx K) :=
  itemsWithin visits visits s

def tokenize (s : Scanner C T Ctx K) (visits : Nat) :
    Recording C T Ctx (Except (ScanError C) (List (Lexeme C K)) × Scanner C T Ctx K) := do
  let (xs, last) ← s.items visits
  pure (xs.mapM id, last)

end Scanner

end TableAutomata
