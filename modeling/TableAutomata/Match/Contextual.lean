import TableAutomata.Match.Basic

/-! Ready-made functions for `Matcher.func`. Each is given a cursor, the upper bound and a context,
and may reject or accept anywhere. -/

namespace TableAutomata

structure Lexicon (T : Type) where
  words : List (List T)
  limit : Nat

namespace Match

open Cursor

variable {C T Ctx : Type}

def skipAll (_c bound : C) (_ctx : Ctx) : Outcome C :=
  .accept bound

def goTo (place _c _bound : C) (_ctx : Ctx) : Outcome C :=
  .accept place

variable [Cursor C T]

/-- Rejects up to `n` tokens ahead, heedless of the bound. -/
def rejectAfter (n : Nat) (c _bound : C) (_ctx : Ctx) : Outcome C :=
  .reject (advanced n c)

/-- Accepts up to `n` tokens ahead, heedless of the bound. -/
def overrun (n : Nat) (c _bound : C) (_ctx : Ctx) : Outcome C :=
  .accept (advanced n c)

def upTo (bound : C) : Nat → C → C
  | 0, c => c
  | n + 1, c =>
    match nextBefore? bound c with
    | none => c
    | some (_, d) => upTo bound n d

/-- Takes up to `n` tokens, and at least one. -/
def take (n : Nat) (c bound : C) (_ctx : Ctx) : Outcome C :=
  if n = 0 ∨ (nextBefore? bound c).isNone then .reject bound else .accept (upTo bound n c)

def takeLimit (c bound : C) (ctx : Lexicon T) : Outcome C :=
  take ctx.limit c bound ctx

def peekNot [BEq T] (tokens : List T) (c bound : C) (_ctx : Ctx) : Outcome C :=
  match nextBefore? bound c with
  | none => .accept c
  | some (x, _) => if tokens.contains x then .reject bound else .accept c

def longer (a b : List T × C) : List T × C :=
  if b.1.length < a.1.length then a else b

def longestWord [BEq T] (c bound : C) (ctx : Lexicon T) : Outcome C :=
  let found := ctx.words.filterMap fun w => (behind? bound w c).map fun d => (w, d)
  match found with
  | [] => .reject bound
  | w :: rest => .accept (rest.foldl longer w).2

end Match

end TableAutomata
