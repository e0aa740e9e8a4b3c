import TableAutomata.Match.Outcome

/-! What the entries of a table try: a single match step, a caller's function, or a whole table run
as one step. -/

namespace TableAutomata

/-- An entry's links inside a table of `n` entries; `none` ends the run. The two auxiliary numbers
are for the author of the table and steer nothing. -/
structure Link (n : Nat) where
  onSuccess : Option (Fin n)
  onFailure : Option (Fin n)
  accepting : Bool
  auxA : Nat
  auxB : Nat

def Link.next {n : Nat} (l : Link n) (accepted : Bool) : Option (Fin n) :=
  if accepted then l.onSuccess else l.onFailure

/-- Matchers over cursors `C` on tokens `T`; functions also see a context. A nested table is given
by its links and matchers, so that every link of every table at any depth has an entry to lead to,
and every start entry exists. -/
inductive Matcher (C T Ctx : Type) where
  | length (n : Nat)
  | equals (token : T)
  | oneOf (set : List T)
  | seq (pattern : List T)
  | range (lo hi : T)
  | always
  | func (f : C → C → Ctx → Outcome C)
  | nested {size : Nat} (link : Fin size → Link size) (matcher : Fin size → Matcher C T Ctx)
      (start : Fin size)
  | repeatSeq (pattern : List T) (min max : Nat) (min_le_max : min ≤ max)

instance {C T Ctx : Type} [Describe T] : Describe (Matcher C T Ctx) :=
  ⟨fun
    | .length n => Describe.applied "Length" [describe n]
    | .equals t => Describe.applied "Equals" [describe t]
    | .oneOf set => Describe.applied "OneOf" [describe set]
    | .seq pattern => Describe.applied "Seq" [describe pattern]
    | .range lo hi => Describe.applied "Range" [describe lo, describe hi]
    | .always => "Always"
    | .func _ => "Func"
    | @Matcher.nested _ _ _ size _ _ start =>
      Describe.fields "Nested" [("entries", describe size), ("start", describe start.val)]
    | .repeatSeq pattern min max _ =>
      Describe.fields "RepeatSeq"
        [("pattern", describe pattern), ("min", describe min), ("max", describe max)]⟩

end TableAutomata
