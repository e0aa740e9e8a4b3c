import TableAutomata.Automaton.Table

/-! The diagnostic record that tables, runs and scanners leave behind, and computations that leave
one while they work within a budget. -/

namespace TableAutomata

inductive Record (C T Ctx : Type) where
  | entry (index : Nat) (matcher : Matcher C T Ctx) (cursor : C) (outcome : Outcome C)
  | run (len start : Nat) (outcome : Outcome C)
  | emptyTable
  | danglingTarget (entry target len : Nat)
  | noRule (cursor : C)

namespace Record

variable {C T Ctx : Type}

/-- Single steps are traced; whatever happens once in a run, a scan or a construction is for
debugging. -/
def level : Record C T Ctx → String
  | entry .. => "TRACE"
  | _ => "DEBUG"

def message [Describe C] [Describe T] : Record C T Ctx → String
  | entry index matcher cursor outcome =>
    s!"entry {index} {describe matcher} at {describe cursor}: {describe outcome}"
  | run len start outcome =>
    s!"run over {len} entries from {start}: accepted={describe outcome.accepted} at " ++
      describe outcome.position
  | emptyTable => "rejecting empty transition table"
  | danglingTarget index target len =>
    s!"rejecting transition table: entry {index} points at {target}, len {len}"
  | noRule cursor => s!"no rule matched at {describe cursor}"

def line [Describe C] [Describe T] (r : Record C T Ctx) : String :=
  r.level ++ " " ++ r.message

/-- What is noted when a table is turned down. The other errors are only reported. -/
def ofError? : TableError → Option (Record C T Ctx)
  | .emptyTable => some emptyTable
  | .danglingTarget index target len => some (danglingTarget index target len)
  | .startOutOfRange .. | .invalidRepeatBounds .. => none

end Record

/-- A computation that notes what it does, and that has no value when its budget does not suffice. -/
def Recording (C T Ctx α : Type) : Type :=
  Option (α × List (Record C T Ctx))

namespace Recording

variable {C T Ctx α : Type}

instance : Monad (Recording C T Ctx) where
  pure a := some (a, [])
  bind x f :=
    match x with
    | none => none
    | some (a, before) =>
      match f a with
      | none => none
      | some (b, after) => some (b, before ++ after)

instance : LawfulMonad (Recording C T Ctx) :=
  .mk' _
    (fun x => by
      rcases x with _ | ⟨a, l⟩
      · rfl
      · exact congrArg some (congrArg (a, ·) (List.append_nil l)))
    (fun a f => by
      change (match f a with
        | none => none
        | some (b, after) => some (b, [] ++ after)) = f a
      rcases f a with _ | ⟨b, l⟩ <;> rfl)
    (fun x f g => by
      rcases x with _ | ⟨a, l⟩
      · rfl
      · simp only [bind]
        rcases f a with _ | ⟨b, l'⟩
        · rfl
        · simp only
          rcases g b with _ | ⟨c, l''⟩
          · rfl
          · exact congrArg some (congrArg (c, ·) (List.append_assoc l l' l'')))

def outOfBudget : Recording C T Ctx α := none

def note (r : Record C T Ctx) : Recording C T Ctx Unit :=
  some ((), [r])

def value? (x : Recording C T Ctx α) : Option α :=
  Option.map Prod.fst x

end Recording

/-- Builds a table, noting why if it is turned down. -/
def Table.build {C T Ctx : Type} (es : List (Entry C T Ctx)) :
    Recording C T Ctx (Except TableError (Table C T Ctx)) := do
  match ofEntries? es with
  | .ok t => pure (.ok t)
  | .error e =>
    if let some r := Record.ofError? e then Recording.note r
    pure (.error e)

end TableAutomata
