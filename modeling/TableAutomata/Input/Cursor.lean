/-! Forward-only places in a sequence of tokens. A matcher sees its input through a cursor alone, so
it runs over text, bytes or any other tokens, and it knows its upper bound by cursor equality. -/

namespace TableAutomata

/-- A place in a sequence of tokens. `next?` gives the token under the cursor and the cursor behind
it, and nothing at the end of the sequence; `remaining` lists what lies ahead. Cursors over different
sequences are never equal. -/
class Cursor (C : Type) (T : outParam Type) extends BEq C where
  next? : C → Option (T × C)
  remaining : C → List T

namespace Cursor

variable {C T : Type} [Cursor C T]

def peek? (c : C) : Option T :=
  (next? c).map Prod.fst

def advance? (c : C) : Option C :=
  (next? c).map Prod.snd

/-- Up to `n` tokens forward, with the number of tokens passed. -/
def advanceBy : Nat → C → Nat × C
  | 0, c => (0, c)
  | n + 1, c =>
    match next? c with
    | none => (0, c)
    | some (_, d) =>
      let (k, e) := advanceBy n d
      (k + 1, e)

def advanced (n : Nat) (c : C) : C :=
  (advanceBy n c).2

def finish (c : C) : C :=
  advanced (remaining c).length c

/-- The token under the cursor and the cursor behind it, unless the cursor is at `bound`. A bound
that lies behind the cursor or in another sequence is never met, and then only the end of the
sequence stops a match. -/
def nextBefore? (bound c : C) : Option (T × C) :=
  if c == bound then none else next? c

/-- The cursors from `c` on, up to and including `bound`, or the end of the sequence if `bound` is
not met within `n` tokens. -/
def stopsWithin (bound : C) : Nat → C → List C
  | 0, c => [c]
  | n + 1, c =>
    match nextBefore? bound c with
    | none => [c]
    | some (_, d) => c :: stopsWithin bound n d

def stops (bound c : C) : List C :=
  stopsWithin bound (remaining c).length c

end Cursor

/-- Cursors that step through the tokens they list, and that never meet again a place they have
left. -/
class LawfulCursor (C : Type) {T : outParam Type} [Cursor C T] : Prop where
  remaining_eq (c : C) : Cursor.remaining c =
    match Cursor.next? c with
    | none => []
    | some (t, d) => t :: Cursor.remaining d
  beq_refl (c : C) : (c == c) = true
  beq_symm {a b : C} : (a == b) = true → (b == a) = true
  beq_trans {a b c : C} : (a == b) = true → (b == c) = true → (a == c) = true
  ahead_ne {n : Nat} {c : C} : n < (Cursor.remaining c).length →
    (Cursor.advanced (n + 1) c == c) = false

namespace Cursor

variable {C T : Type} [Cursor C T]

@[simp] theorem advanced_zero (c : C) : advanced 0 c = c := rfl

theorem advanced_of_none {n : Nat} {c : C} (h : next? c = none) : advanced n c = c := by
  cases n with
  | zero => rfl
  | succ n => simp [advanced, advanceBy, h]

theorem advanced_succ_of_some {n : Nat} {c d : C} {t : T} (h : next? c = some (t, d)) :
    advanced (n + 1) c = advanced n d := by
  simp [advanced, advanceBy, h]

end Cursor

end TableAutomata
