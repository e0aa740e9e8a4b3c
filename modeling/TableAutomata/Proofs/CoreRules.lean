import TableAutomata.Proofs.TableReading
import TableAutomata.Proofs.WholeText

/-! The tables of the core rules against the languages of the rules. -/

namespace TableAutomata.Abnf

open Computability
open Cursor (advanced span)

def isDigit : Char → Bool :=
  between '0' '9'

def isAlpha (x : Char) : Bool :=
  between 'A' 'Z' x || between 'a' 'z' x

def isHexdig (x : Char) : Bool :=
  isDigit x || (between 'A' 'F' x || between 'a' 'f' x)

def findHex : List Char → Option (List Char) :=
  findAfter (· == '0') (findAfter ['x', 'X'].contains (findWord isHexdig isHexdig))

section

variable {C Ctx : Type} [Cursor C Char] [LawfulCursor C]

theorem takes_digit : (digit : Table C Char Ctx).toStep.Takes (findOne isDigit) := by
  have h : Offers (digit : Table C Char Ctx).entries (.index 0) _ _ :=
    .last (m := .range '0' '9') rfl (Matcher.takes_range _ _)
  exact h.reads

theorem takes_alpha : (alpha : Table C Char Ctx).toStep.Takes (findOne isAlpha) := by
  have h : Offers (alpha : Table C Char Ctx).entries (.index 0) _ _ :=
    .or (s := .index 1) (m := .range 'A' 'Z') rfl (Matcher.takes_range _ _)
      (.last (m := .range 'a' 'z') rfl (Matcher.takes_range _ _))
  simp only [findOne_or] at h
  exact h.reads

theorem takes_hexdig : (hexdig : Table C Char Ctx).toStep.Takes (findOne isHexdig) := by
  have h : Offers (hexdig : Table C Char Ctx).entries (.index 0) _ _ :=
    .or (s := .index 1) (m := digit.toStep) rfl takes_digit
      (.or (s := .index 2) (m := .range 'A' 'F') rfl (Matcher.takes_range _ _)
        (.last (m := .range 'a' 'f') rfl (Matcher.takes_range _ _)))
  simp only [findOne_or] at h
  exact h.reads

theorem takes_hexDigits :
    (hexDigits : Table C Char Ctx).toStep.Takes (findWord isHexdig isHexdig) := by
  have h : Offers (hexDigits : Table C Char Ctx).entries (.index 0) _ _ :=
    .word (s := .index 0) (m := hexdig.toStep) rfl takes_hexdig
      (.one (m := hexdig.toStep) rfl takes_hexdig)
  exact h.reads

theorem takes_decimal :
    (decimal : Table C Char Ctx).toStep.Takes (findWord (between '1' '9') isDigit) := by
  have h : Offers (decimal : Table C Char Ctx).entries (.index 0) _ _ :=
    .word (s := .index 1) (m := .range '1' '9') rfl (Matcher.takes_range _ _)
      (.one (m := digit.toStep) rfl takes_digit)
  exact h.reads

theorem reads_number :
    (number : Table C Char Ctx).toStep.Reads
      (Reading.finding (fun r => (findWord (between '1' '9') isDigit r).or (findHex r))
        (Reading.beside '0')) := by
  have hdigits : Offers (number : Table C Char Ctx).entries (.index 3) _ _ :=
    .last (m := hexDigits.toStep) rfl takes_hexDigits
  have hx : Offers (number : Table C Char Ctx).entries (.index 2) _ _ :=
    .after (m := .oneOf ['x', 'X']) rfl (Matcher.takes_oneOf (List.cons_ne_nil _ _))
      (fun _ _ _ => rfl) hdigits
  have hzero : Offers (number : Table C Char Ctx).entries (.index 1) findHex (Reading.beside '0') :=
    .after (m := .equals '0') rfl (Matcher.reads_equals '0') (fun _ _ h => if_pos h) hx
  have h : Offers (number : Table C Char Ctx).entries (.index 0) _ _ :=
    .or (m := decimal.toStep) rfl takes_decimal hzero
  exact h.reads

end

namespace CoreRule

/-- The languages of the rules, with both cases of the letters. -/
def hexdigs : Language Char :=
  one (between '0' '9') + one (between 'A' 'F') + one (between 'a' 'f')

def decimals : Language Char :=
  one (between '1' '9') * (one (between '0' '9'))∗

def language : CoreRule → Language Char
  | digit => one (between '0' '9')
  | alpha => one (between 'A' 'Z') + one (between 'a' 'z')
  | hexdig => hexdigs
  | hexDigits => hexdigs * hexdigs∗
  | decimal => decimals
  | number => decimals + {['0']} * ({['x']} + {['X']}) * (hexdigs * hexdigs∗)

def find : CoreRule → List Char → Option (List Char)
  | digit => findOne isDigit
  | alpha => findOne isAlpha
  | hexdig => findOne isHexdig
  | hexDigits => findWord isHexdig isHexdig
  | decimal => findWord (between '1' '9') isDigit
  | number => fun r => (findWord (between '1' '9') isDigit r).or (findHex r)

/-- Where the rule's table puts its rejection. -/
def refusal : CoreRule → List Char → Mark
  | number => Reading.beside '0'
  | _ => fun _ => .bound

theorem reads {C Ctx : Type} [Cursor C Char] [LawfulCursor C] (rule : CoreRule) :
    (rule.table : Table C Char Ctx).toStep.Reads (Reading.finding rule.find rule.refusal) := by
  cases rule with
  | digit => exact takes_digit
  | alpha => exact takes_alpha
  | hexdig => exact takes_hexdig
  | hexDigits => exact takes_hexDigits
  | decimal => exact takes_decimal
  | number => exact reads_number

theorem hexdigs_eq : hexdigs = one isHexdig := by
  rw [hexdigs, add_assoc, one_add_one, one_add_one]
  rfl

theorem finds_hex (s : List Char) :
    Finds ({['0']} * ({['x']} + {['X']}) * (hexdigs * hexdigs∗)) s (findHex s) := by
  rw [hexdigs_eq, mul_assoc, singleton_eq_one, singleton_eq_one, singleton_eq_one, one_add_one]
  have hx : (fun x : Char => x == 'x' || x == 'X') = ['x', 'X'].contains := by
    funext x
    rw [Bool.eq_iff_iff]
    simp
  rw [hx]
  exact finds_after (finds_after (finds_word isHexdig isHexdig)) s

theorem decimal_or_hex (s : List Char) :
    findWord (between '1' '9') isDigit s = none ∨ findHex s = none := by
  cases s with
  | nil => exact .inl rfl
  | cons x r =>
    by_cases hx : x = '0'
    · subst x
      exact .inl (findAfter_of_false _ (by decide))
    · exact .inr (findAfter_of_false _ (by simpa using hx))

theorem finds (rule : CoreRule) (s : List Char) : Finds rule.language s (rule.find s) := by
  cases rule with
  | digit => exact finds_one isDigit s
  | alpha =>
    rw [language, one_add_one]
    exact finds_one isAlpha s
  | hexdig =>
    rw [language, hexdigs_eq]
    exact finds_one isHexdig s
  | hexDigits =>
    rw [language, hexdigs_eq]
    exact finds_word isHexdig isHexdig s
  | decimal => exact finds_word (between '1' '9') isDigit s
  | number => exact (finds_word (between '1' '9') isDigit s).or (finds_hex s) (decimal_or_hex s)

theorem table_callbackFree (rule : CoreRule) :
    (rule.table : Table TextCursor Char Unit).CallbackFree := by
  cases rule <;> decide

theorem between_of_ne_zero {x : Char} (h : between '0' '9' x = true) (hx : x ≠ '0') :
    between '1' '9' x = true := by
  have hne : x.val.toNat ≠ 48 := fun hv => hx (Char.ext (UInt32.toNat_inj.mp hv))
  have h0 : ('0' : Char).val.toNat = 48 := rfl
  have h1 : ('1' : Char).val.toNat = 49 := rfl
  simp only [between, decide_eq_true_eq, Char.le_def, UInt32.le_iff_toNat_le] at h ⊢
  omega

theorem refusal_eq {rule : CoreRule} {s : List Char} (h : rule.find s = none) :
    rule.refusal s =
      if rule = .number ∧ s.head?.any (!between '0' '9' ·) then .ahead 0 else .bound := by
  by_cases hr : rule = .number
  · subst hr
    cases s with
    | nil => simp [refusal, Reading.beside]
    | cons x r =>
      have hfirst : ¬ between '1' '9' x = true := by
        intro hx
        simp [find, findWord, findAfter_of_true _ hx] at h
      by_cases hx : x = '0'
      · subst x
        rfl
      · have hdigit : between '0' '9' x = false := by
          rw [Bool.eq_false_iff]
          exact fun hd => hfirst (between_of_ne_zero hd hx)
        simp [refusal, Reading.beside, hx, hdigit]
  · rw [if_neg fun h => hr h.1]
    cases rule with
    | number => exact absurd rfl hr
    | _ => rfl

end CoreRule

/-- The recognizer of a rule always gives an answer: the longest text of the rule's language at the
start of its input, or nothing if there is none. The run behind it rejects at the end of the input,
but for numbers, where an input that begins with no digit is rejected at once. -/
theorem acceptedStart_longest (tag : Nat) (rule : CoreRule) (text : String) :
    ∃ found o,
      ((Recognizer.ofTable ⟨tag, rule.table⟩).acceptedStart text).value? = some found ∧
        (∀ w, found = some w ↔ Longest rule.language text.toList w) ∧
        (found = none ↔ ∀ w, w <+: text.toList → w ∉ rule.language) ∧
        (Recognizer.ofTable ⟨tag, rule.table⟩).Yields () (.stop 0 text) (.start 0 text) o ∧
        (o.accepted = true ↔ found ≠ none) ∧
        (o.accepted = false → o.position =
          if rule = .number ∧ text.toList.head?.any (!between '0' '9' ·) then
            TextCursor.start 0 text
          else TextCursor.stop 0 text) := by
  have hfinds := rule.finds text.toList
  have hyields := rule.reads () (TextCursor.stop 0 text) (.start 0 text)
  rw [TextCursor.span_stop_start] at hyields
  have hvalue := Recognizer.value?_acceptedStart (r := .ofTable ⟨tag, rule.table⟩)
    rule.table_callbackFree hyields
  refine ⟨rule.find text.toList, _, ?_, fun w => hfinds.eq_some_iff, hfinds.eq_none_iff, hyields,
    ?_⟩
  · rw [hvalue]
    cases hf : rule.find text.toList with
    | none =>
      rw [Reading.finding_of_none hf]
      rfl
    | some w =>
      rw [hf] at hfinds
      rw [Reading.finding_of_some hf, Outcome.place_accept_ahead,
        ← TextCursor.slice?_advanced (c := .start 0 text) hfinds.begins]
      rfl
  · cases hf : rule.find text.toList with
    | none =>
      rw [Reading.finding_of_none hf, CoreRule.refusal_eq hf]
      refine ⟨by simp [Outcome.place, Outcome.reject], fun _ => ?_⟩
      split <;> rfl
    | some w =>
      rw [Reading.finding_of_some hf, Outcome.place_accept_ahead]
      exact ⟨by simp [Outcome.accept], by simp [Outcome.accept]⟩

end TableAutomata.Abnf
