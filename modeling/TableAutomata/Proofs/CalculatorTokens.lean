import TableAutomata.Grammar.Calculator
import TableAutomata.Proofs.CoreRules
import TableAutomata.Proofs.MaximalMunch
import TableAutomata.Proofs.Resumption

/-! The lexemes of arithmetic expressions against their grammar. -/

namespace TableAutomata.Calculator

open Abnf (digit alpha isDigit isAlpha takes_digit takes_alpha)
open Computability
open Cursor (Precedes advanced span)
open Recording (Ends)

def isIdentChar (x : Char) : Bool :=
  isAlpha x || (isDigit x || x == '_')

def operators : List Char :=
  ['+', '-', '*', '/', '^', '=']

def blanks : List Char :=
  [' ', '\t', '\r', '\n']

def findFraction : List Char → Option (List Char) :=
  findAfter (· == '.') (findWord isDigit isDigit)

section

variable {C Ctx : Type} [Cursor C Char]

theorem reads_single {m : Matcher C Char Ctx} {find : List Char → Option (List Char)}
    {place : List Char → Mark} (h : m.Reads (Reading.finding find place)) :
    (single m).toStep.Reads (Reading.finding find place) := by
  have hlast : Offers (single m).entries (.index 0) find place := .last (m := m) rfl h
  exact hlast.reads

variable [LawfulCursor C]

theorem takes_whitespace :
    (whitespace : Table C Char Ctx).toStep.Takes (findWord blanks.contains blanks.contains) := by
  have hm : (Matcher.oneOf blanks : Matcher C Char Ctx).Takes (findOne blanks.contains) :=
    Matcher.takes_oneOf (List.cons_ne_nil _ _)
  have h : Offers (whitespace : Table C Char Ctx).entries (.index 0) _ _ :=
    .word (s := .index 0) (m := .oneOf blanks) rfl hm (.one (m := .oneOf blanks) rfl hm)
  exact h.reads

theorem takes_ident : (ident : Table C Char Ctx).toStep.Takes (findWord isAlpha isIdentChar) := by
  have hmore : Branches (ident : Table C Char Ctx).entries isIdentChar (.index 1) (.index 1)
      .terminal :=
    .or (s := .index 2) (m := alpha.toStep) rfl takes_alpha
      (.or (s := .index 3) (m := digit.toStep) rfl takes_digit
        (.one (m := .equals '_') rfl (Matcher.reads_equals '_')))
  have h : Offers (ident : Table C Char Ctx).entries (.index 0) _ _ :=
    .word (s := .index 1) (m := alpha.toStep) rfl takes_alpha hmore
  exact h.reads

/-- The link that leaves the digits leads to the point even if there was no digit. -/
theorem reads_number : (number : Table C Char Ctx).toStep.Reads
    (Reading.finding (fun r => (findRun isDigit findFraction r).or (findFraction r))
      (Reading.beside '.')) := by
  have hdigits : Offers (number : Table C Char Ctx).entries (.index 2) _ _ :=
    .word (s := .index 2) (m := digit.toStep) rfl takes_digit
      (.one (m := digit.toStep) rfl takes_digit)
  have hpoint : Offers (number : Table C Char Ctx).entries (.index 1) findFraction
      (Reading.beside '.') :=
    .after (m := .equals '.') rfl (Matcher.reads_equals '.') (fun _ _ h => if_pos h) hdigits
  have h : Offers (number : Table C Char Ctx).entries (.index 0) _ _ :=
    .run (s := .index 1) (m := digit.toStep) rfl takes_digit hpoint
  exact h.reads

end

def digits : Language Char :=
  one (between '0' '9') * (one (between '0' '9'))∗

def letters : Language Char :=
  one (between 'A' 'Z') + one (between 'a' 'z')

namespace Kind

/-- The grammar of the lexemes: `1*DIGIT ["." 1*DIGIT]`, `ALPHA *(ALPHA / DIGIT / "_")`, single
operators and parentheses, and runs of blanks. -/
def language : Kind → Language Char
  | number => digits * (1 + {['.']} * digits)
  | ident => letters * (letters + one (between '0' '9') + {['_']})∗
  | operator => one operators.contains
  | leftParen => {['(']}
  | rightParen => {[')']}
  | whitespace => one blanks.contains * (one blanks.contains)∗

/-- The grammar of what is scanned: a number may begin with its point. -/
def scanned : Kind → Language Char
  | number => digits * (1 + {['.']} * digits) + {['.']} * digits
  | k => k.language

def sortOf (x : Char) : Option Kind :=
  if isAlpha x then some ident
  else if isDigit x || x == '.' then some number
  else if operators.contains x then some operator
  else if x == '(' then some leftParen
  else if x == ')' then some rightParen
  else if blanks.contains x then some whitespace
  else none

end Kind

theorem finds_fraction (s : List Char) : Finds ({['.']} * digits) s (findFraction s) := by
  rw [singleton_eq_one]
  exact finds_after (finds_word isDigit isDigit) s

theorem eq_point_of_mem {x : Char} {w : List Char} (h : x :: w ∈ {['.']} * digits) : x = '.' := by
  rw [singleton_eq_one] at h
  have hx := of_cons_mem_one_mul (p := (· == '.')) h
  exact beq_iff_eq.mp hx

theorem not_digit_of_fraction {x : Char} {w : List Char} (h : x :: w ∈ 1 + {['.']} * digits) :
    isDigit x = false := by
  rcases (Language.mem_add _ _ _).mp h with hnil | hpoint
  · cases hnil
  · obtain rfl := eq_point_of_mem hpoint
    decide

theorem finds_number (s : List Char) :
    Finds Kind.number.scanned s ((findRun isDigit findFraction s).or (findFraction s)) := by
  have hrun : Finds Kind.number.language s (findRun isDigit findFraction s) := by
    rw [Kind.language, digits, mul_assoc]
    refine finds_after (fun r => ?_) s
    exact finds_run_append (fun _ _ h => not_digit_of_fraction h) (finds_fraction _).optional
  refine hrun.or (finds_fraction s) ?_
  cases s with
  | nil => exact .inl rfl
  | cons x r =>
    by_cases hx : x = '.'
    · subst x
      exact .inl (findAfter_of_false _ (by decide))
    · exact .inr (findAfter_of_false _ (by simpa using hx))

theorem letters_eq : letters = one isAlpha := one_add_one _ _

theorem finds_ident (s : List Char) : Finds Kind.ident.scanned s (findWord isAlpha isIdentChar s) := by
  have hmore : letters + one (between '0' '9') + {['_']} = one isIdentChar := by
    rw [letters_eq, singleton_eq_one, add_assoc, one_add_one, one_add_one]
    rfl
  change Finds (letters * (letters + one (between '0' '9') + {['_']})∗) s _
  rw [hmore, letters_eq]
  exact finds_word isAlpha isIdentChar s

theorem not_alpha_of_digit {x : Char} (h : isDigit x = true) : isAlpha x = false := by
  have h0 : ('0' : Char).val.toNat = 48 := rfl
  have h9 : ('9' : Char).val.toNat = 57 := rfl
  have hA : ('A' : Char).val.toNat = 65 := rfl
  have ha : ('a' : Char).val.toNat = 97 := rfl
  simp only [isDigit, isAlpha, between, decide_eq_true_eq, Bool.or_eq_false_iff,
    decide_eq_false_iff_not, Char.le_def, UInt32.le_iff_toNat_le] at h ⊢
  omega

namespace Kind

variable {k : Kind} {x : Char} {w : List Char}

theorem language_le_scanned (h : w ∈ k.language) : w ∈ k.scanned := by
  cases k with
  | number => exact .inl h
  | _ => exact h

theorem digit_of_mem_number (h : x :: w ∈ number.language) : isDigit x = true := by
  rw [language, digits, mul_assoc] at h
  exact of_cons_mem_one_mul h

theorem sortOf_of_mem (h : x :: w ∈ k.scanned) : sortOf x = some k := by
  have hoperators : operators.all fun x => sortOf x = some operator := by decide
  have hblanks : blanks.all fun x => sortOf x = some whitespace := by decide
  rw [List.all_eq_true] at hoperators hblanks
  cases k with
  | number =>
    rcases (Language.mem_add _ _ _).mp h with hdigits | hpoint
    · have hx := digit_of_mem_number hdigits
      simp [sortOf, not_alpha_of_digit hx, hx]
    · obtain rfl := eq_point_of_mem hpoint
      decide
  | ident =>
    change x :: w ∈ letters * _ at h
    rw [letters_eq] at h
    simp [sortOf, of_cons_mem_one_mul h]
  | operator =>
    obtain ⟨y, hy, heq⟩ := h
    obtain ⟨rfl, -⟩ := List.cons.inj heq
    exact of_decide_eq_true (hoperators x (List.contains_iff_mem.mp hy))
  | leftParen =>
    obtain ⟨rfl, -⟩ := List.cons.inj (show x :: w = ['('] from h)
    decide
  | rightParen =>
    obtain ⟨rfl, -⟩ := List.cons.inj (show x :: w = [')'] from h)
    decide
  | whitespace =>
    exact of_decide_eq_true (hblanks x (List.contains_iff_mem.mp (of_cons_mem_one_mul h)))

theorem scanned_apart : Apart scanned :=
  fun _ _ _ _ _ h h' => Option.some.inj ((sortOf_of_mem h).symm.trans (sortOf_of_mem h'))

theorem language_apart : Apart language :=
  fun k k' x w w' h h' =>
    scanned_apart k k' x w w' (language_le_scanned h) (language_le_scanned h')

end Kind

theorem rules_implement :
    Rule.Implement (rules : List (Rule TextCursor Char Unit Kind)) Kind.scanned where
  recognizes := by
    have hoperators : (Matcher.oneOf operators : Matcher TextCursor Char Unit).Takes
        (findOne operators.contains) := Matcher.takes_oneOf (List.cons_ne_nil _ _)
    simp only [rules, rulesOf, List.forall_mem_cons]
    refine ⟨reads_number.recognizes finds_number, takes_ident.recognizes finds_ident,
      (reads_single hoperators).recognizes (finds_one _),
      (reads_single (Matcher.reads_equals '(')).recognizes (finds_singleton '('),
      (reads_single (Matcher.reads_equals ')')).recognizes (finds_singleton ')'),
      takes_whitespace.recognizes (finds_word _ _), List.forall_mem_nil _⟩
  exists_rule k := by
    have hk : k ∈ (rules : List (Rule TextCursor Char Unit Kind)).map (·.kind) := by
      cases k <;> decide
    exact List.mem_map.mp hk
  callbackFree := by
    simp only [rules, rulesOf, List.forall_mem_cons]
    refine ⟨?_, ?_, ?_, ?_, ?_, ?_, List.forall_mem_nil _⟩ <;> decide
  apart := Kind.scanned_apart

end TableAutomata.Calculator
