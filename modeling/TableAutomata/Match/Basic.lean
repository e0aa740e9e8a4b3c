import TableAutomata.Input.Cursor
import TableAutomata.Match.Outcome

/-! Single match steps: each looks at the tokens between a cursor and an upper bound, never at or
beyond the bound, and says how far it got. All of them reject at the bound, except that a single
token that differs from the one asked for is rejected where it stands. -/

namespace TableAutomata.Match

open Cursor

variable {C T : Type} [Cursor C T]

def skip? (bound : C) : Nat → C → Option C
  | 0, c => some c
  | n + 1, c =>
    match nextBefore? bound c with
    | none => none
    | some (_, d) => skip? bound n d

def length (n : Nat) (bound c : C) : Outcome C :=
  .ofPlace? bound (skip? bound n c)

def equals [BEq T] (token : T) (bound c : C) : Outcome C :=
  match nextBefore? bound c with
  | none => .reject bound
  | some (x, d) => if x == token then .accept d else .reject c

/-- One token out of `set`. The empty set asks that no token be left, and takes none. -/
def oneOf [BEq T] (set : List T) (bound c : C) : Outcome C :=
  match nextBefore? bound c with
  | none => if set.isEmpty then .accept c else .reject bound
  | some (x, d) => if set.contains x then .accept d else .reject bound

def range [LE T] [DecidableLE T] (lo hi : T) (bound c : C) : Outcome C :=
  match nextBefore? bound c with
  | none => .reject bound
  | some (x, d) => if lo ≤ x ∧ x ≤ hi then .accept d else .reject bound

/-- The cursor behind `pattern`, if the tokens ahead begin with it. -/
def behind? [BEq T] (bound : C) : List T → C → Option C
  | [], c => some c
  | t :: ts, c =>
    match nextBefore? bound c with
    | none => none
    | some (x, d) => if x == t then behind? bound ts d else none

def seq [BEq T] (pattern : List T) (bound c : C) : Outcome C :=
  .ofPlace? bound (behind? bound pattern c)

/-- As many copies of `pattern` as follow one another, up to `max`: their number and the cursor
behind the last of them. -/
def copies [BEq T] (pattern : List T) (bound : C) : Nat → C → Nat × C
  | 0, c => (0, c)
  | max + 1, c =>
    match behind? bound pattern c with
    | none => (0, c)
    | some d =>
      let (k, e) := copies pattern bound max d
      (k + 1, e)

/-- At least `min` copies of `pattern`, and as many as there are up to `max`. Copies are never given
back. An empty pattern takes nothing and is there as often as anyone asks. -/
def repeatSeq [BEq T] (pattern : List T) (min max : Nat) (bound c : C) : Outcome C :=
  if pattern.isEmpty then .accept c
  else
    let (k, d) := copies pattern bound max c
    if min ≤ k then .accept d else .reject bound

end TableAutomata.Match
