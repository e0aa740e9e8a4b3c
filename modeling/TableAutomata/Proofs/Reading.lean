import TableAutomata.Proofs.Budget
import TableAutomata.Proofs.Span

/-! Single match steps as readers of their span. Apart from a caller's functions, a step sees of its
input and of its bound only the tokens between its cursor and the bound. -/

namespace TableAutomata

open Cursor

/-- A place told without naming a sequence: so many tokens ahead, or the bound. -/
inductive Mark where
  | ahead (n : Nat)
  | bound

def Mark.place {C T : Type} [Cursor C T] (bound c : C) : Mark → C
  | ahead n => advanced n c
  | .bound => bound

namespace Outcome

def place {C T : Type} [Cursor C T] (bound c : C) (o : Outcome Mark) : Outcome C :=
  ⟨o.accepted, o.position.place bound c⟩

/-- Marks that a span of `n` tokens has room for. Only rejections stand at the bound by name. -/
def Fits (n : Nat) (o : Outcome Mark) : Prop :=
  match o.position with
  | .ahead k => k ≤ n
  | .bound => o.accepted = false

section

variable {C T : Type} [Cursor C T] (bound c : C) (k n : Nat)

@[simp] theorem place_accept_ahead :
    (accept (.ahead k)).place bound c = .accept (advanced k c) := rfl

@[simp] theorem place_reject_ahead :
    (reject (.ahead k)).place bound c = .reject (advanced k c) := rfl

@[simp] theorem place_reject_bound : (reject .bound).place bound c = .reject bound := rfl

@[simp] theorem fits_accept_ahead : (accept (.ahead k)).Fits n ↔ k ≤ n := Iff.rfl

@[simp] theorem fits_reject_ahead : (reject (.ahead k)).Fits n ↔ k ≤ n := Iff.rfl

@[simp] theorem fits_reject_bound : (reject .bound).Fits n := rfl

end

theorem rejected_ite {p : Prop} [Decidable p] {m : Mark}
    (h : (if p then accept m else reject .bound).accepted = false) :
    (if p then accept m else reject .bound).position = .bound := by
  by_cases hp : p
  · rw [if_pos hp] at h
    cases h
  · rw [if_neg hp]
    rfl

end Outcome

/-! What each step makes of the tokens in its span. -/
namespace Reading

variable {T : Type}

def length (n : Nat) (s : List T) : Outcome Mark :=
  if n ≤ s.length then .accept (.ahead n) else .reject .bound

def equals [BEq T] (token : T) : List T → Outcome Mark
  | [] => .reject .bound
  | x :: _ => if x == token then .accept (.ahead 1) else .reject (.ahead 0)

def oneOf [BEq T] (set : List T) : List T → Outcome Mark
  | [] => if set.isEmpty then .accept (.ahead 0) else .reject .bound
  | x :: _ => if set.contains x then .accept (.ahead 1) else .reject .bound

def range [LE T] [DecidableLE T] (lo hi : T) : List T → Outcome Mark
  | [] => .reject .bound
  | x :: _ => if lo ≤ x ∧ x ≤ hi then .accept (.ahead 1) else .reject .bound

def startsWith [BEq T] : List T → List T → Bool
  | [], _ => true
  | _ :: _, [] => false
  | t :: ts, x :: xs => x == t && startsWith ts xs

def seq [BEq T] (pattern s : List T) : Outcome Mark :=
  if startsWith pattern s then .accept (.ahead pattern.length) else .reject .bound

def copies [BEq T] (pattern : List T) : Nat → List T → Nat
  | 0, _ => 0
  | max + 1, s =>
    if startsWith pattern s then copies pattern max (s.drop pattern.length) + 1 else 0

def repeatSeq [BEq T] (pattern : List T) (min max : Nat) (s : List T) : Outcome Mark :=
  if pattern.isEmpty then .accept (.ahead 0)
  else if min ≤ copies pattern max s then .accept (.ahead (copies pattern max s * pattern.length))
  else .reject .bound

theorem length_le_of_startsWith [BEq T] {pattern s : List T} (h : startsWith pattern s) :
    pattern.length ≤ s.length := by
  induction pattern generalizing s with
  | nil => exact Nat.zero_le _
  | cons t ts ih =>
    cases s with
    | nil => cases h
    | cons x xs =>
      simp only [startsWith, Bool.and_eq_true] at h
      exact Nat.succ_le_succ (ih h.2)

theorem copies_mul_le [BEq T] (pattern : List T) (max : Nat) (s : List T) :
    copies pattern max s * pattern.length ≤ s.length := by
  induction max generalizing s with
  | zero => simp [copies]
  | succ max ih =>
    by_cases h : startsWith pattern s = true
    · have hl := length_le_of_startsWith h
      have hr := ih (s.drop pattern.length)
      simp only [List.length_drop] at hr
      rw [copies, if_pos h, Nat.succ_mul]
      omega
    · simp [copies, h]

end Reading

/-- What the matcher makes of a span, unless it is a function or a table. -/
def Matcher.reading? {C T Ctx : Type} [BEq T] [LE T] [DecidableLE T] :
    Matcher C T Ctx → Option (List T → Outcome Mark)
  | .length n => some (Reading.length n)
  | .equals t => some (Reading.equals t)
  | .oneOf set => some (Reading.oneOf set)
  | .seq pattern => some (Reading.seq pattern)
  | .range lo hi => some (Reading.range lo hi)
  | .always => some fun _ => .accept (.ahead 0)
  | .func _ => none
  | .nested .. => none
  | .repeatSeq pattern min max _ => some (Reading.repeatSeq pattern min max)

/-- No entry, at any depth, asks a caller's function. -/
def Matcher.CallbackFree {C T Ctx : Type} : Matcher C T Ctx → Prop
  | .func _ => False
  | .nested _ matcher _ => ∀ i, (matcher i).CallbackFree
  | _ => True

def Matcher.decideCallbackFree {C T Ctx : Type} : (m : Matcher C T Ctx) → Decidable m.CallbackFree
  | .func _ => isFalse id
  | .nested _ matcher _ =>
    have := fun i => (matcher i).decideCallbackFree
    inferInstanceAs (Decidable (∀ i, (matcher i).CallbackFree))
  | .length _ | .equals _ | .oneOf _ | .seq _ | .range _ _ | .always | .repeatSeq .. => isTrue trivial

instance {C T Ctx : Type} : DecidablePred (Matcher.CallbackFree : Matcher C T Ctx → Prop) :=
  Matcher.decideCallbackFree

def Table.CallbackFree {C T Ctx : Type} (t : Table C T Ctx) : Prop :=
  ∀ i, (t.matcher i).CallbackFree

instance {C T Ctx : Type} : DecidablePred (Table.CallbackFree : Table C T Ctx → Prop) :=
  fun t => inferInstanceAs (Decidable (∀ i, (t.matcher i).CallbackFree))

namespace Match

variable {C T : Type} [Cursor C T] [LawfulCursor C]

theorem skip?_eq (n : Nat) (bound c : C) :
    skip? bound n c = if n ≤ (span bound c).length then some (advanced n c) else none := by
  induction n generalizing c with
  | zero => simp [skip?]
  | succ n ih =>
    cases h : nextBefore? bound c with
    | none => simp [skip?, h, span_of_none h]
    | some td =>
      have hn := (nextBefore?_eq_some_iff.mp h).2
      simp [skip?, h, span_of_some h, ih, advanced_succ_of_some hn]

theorem behind?_eq [BEq T] (pattern : List T) (bound c : C) :
    behind? bound pattern c =
      if Reading.startsWith pattern (span bound c) then some (advanced pattern.length c)
      else none := by
  induction pattern generalizing c with
  | nil => simp [behind?, Reading.startsWith]
  | cons t ts ih =>
    cases h : nextBefore? bound c with
    | none => simp [behind?, h, span_of_none h, Reading.startsWith]
    | some xd =>
      obtain ⟨x, d⟩ := xd
      have hn := (nextBefore?_eq_some_iff.mp h).2
      cases hx : x == t <;>
        simp [behind?, h, span_of_some h, ih, advanced_succ_of_some hn, Reading.startsWith, hx]

theorem copies_eq [BEq T] (pattern : List T) (bound : C) (max : Nat) (c : C) :
    copies pattern bound max c =
      (Reading.copies pattern max (span bound c),
        advanced (Reading.copies pattern max (span bound c) * pattern.length) c) := by
  induction max generalizing c with
  | zero => simp [copies, Reading.copies]
  | succ max ih =>
    by_cases h : Reading.startsWith pattern (span bound c) = true
    · have hl := Reading.length_le_of_startsWith h
      simp only [copies, behind?_eq, h, if_true, ih, span_advanced hl, Reading.copies]
      rw [← advanced_add, Nat.succ_mul, Nat.add_comm pattern.length]
    · simp [copies, behind?_eq, h, Reading.copies]

theorem length_eq_reading (n : Nat) (bound c : C) :
    length n bound c = (Reading.length n (span bound c)).place bound c := by
  by_cases h : n ≤ (span bound c).length <;>
    simp [length, skip?_eq, Reading.length, h, Outcome.ofPlace?]

theorem equals_eq_reading [BEq T] (token : T) (bound c : C) :
    equals token bound c = (Reading.equals token (span bound c)).place bound c := by
  cases h : nextBefore? bound c with
  | none => simp [equals, h, span_of_none h, Reading.equals]
  | some xd =>
    obtain ⟨x, d⟩ := xd
    have hd := advanced_one_of_nextBefore? h
    cases hx : x == token <;> simp [equals, h, span_of_some h, Reading.equals, hx, hd]

theorem oneOf_eq_reading [BEq T] (set : List T) (bound c : C) :
    oneOf set bound c = (Reading.oneOf set (span bound c)).place bound c := by
  cases h : nextBefore? bound c with
  | none =>
    simp only [oneOf, h, span_of_none h, Reading.oneOf]
    split <;> rfl
  | some xd =>
    obtain ⟨x, d⟩ := xd
    have hd := advanced_one_of_nextBefore? h
    simp only [oneOf, h, span_of_some h, Reading.oneOf]
    split <;> simp [hd]

theorem range_eq_reading [LE T] [DecidableLE T] (lo hi : T) (bound c : C) :
    range lo hi bound c = (Reading.range lo hi (span bound c)).place bound c := by
  cases h : nextBefore? bound c with
  | none => simp [range, h, span_of_none h, Reading.range]
  | some xd =>
    obtain ⟨x, d⟩ := xd
    have hd := advanced_one_of_nextBefore? h
    simp only [range, h, span_of_some h, Reading.range]
    split <;> simp [hd]

theorem seq_eq_reading [BEq T] (pattern : List T) (bound c : C) :
    seq pattern bound c = (Reading.seq pattern (span bound c)).place bound c := by
  by_cases h : Reading.startsWith pattern (span bound c) = true <;>
    simp [seq, behind?_eq, Reading.seq, h, Outcome.ofPlace?]

theorem repeatSeq_eq_reading [BEq T] (pattern : List T) (min max : Nat) (bound c : C) :
    repeatSeq pattern min max bound c =
      (Reading.repeatSeq pattern min max (span bound c)).place bound c := by
  simp only [repeatSeq, copies_eq, Reading.repeatSeq]
  split
  · rfl
  · split <;> rfl

end Match

namespace Matcher

variable {C T Ctx : Type} [BEq T] [LE T] [DecidableLE T]

@[elab_as_elim]
theorem induction {motive : Matcher C T Ctx → Prop}
    (single : ∀ m read, m.reading? = some read → motive m) (func : ∀ f, motive (.func f))
    (table : ∀ (t : Table C T Ctx) start, (∀ i, motive (t.matcher i)) → motive (t.toMatcher start))
    (m : Matcher C T Ctx) : motive m := by
  induction m with
  | func f => exact func f
  | nested link matcher start ih => exact table ⟨_, start.pos, link, matcher⟩ start ih
  | _ => exact single _ _ rfl

variable [Cursor C T] [LawfulCursor C] {m : Matcher C T Ctx} {read : List T → Outcome Mark}

theorem apply_of_reading? (h : m.reading? = some read) (visits : Nat) (ctx : Ctx) (bound c : C) :
    m.apply visits ctx bound c = pure ((read (span bound c)).place bound c) := by
  cases m with
  | length n =>
    cases h
    exact congrArg pure (Match.length_eq_reading n bound c)
  | equals t =>
    cases h
    exact congrArg pure (Match.equals_eq_reading t bound c)
  | oneOf set =>
    cases h
    exact congrArg pure (Match.oneOf_eq_reading set bound c)
  | seq pattern =>
    cases h
    exact congrArg pure (Match.seq_eq_reading pattern bound c)
  | range lo hi =>
    cases h
    exact congrArg pure (Match.range_eq_reading lo hi bound c)
  | always =>
    cases h
    rfl
  | func f => cases h
  | nested link matcher start => cases h
  | repeatSeq pattern min max _ =>
    cases h
    exact congrArg pure (Match.repeatSeq_eq_reading pattern min max bound c)

theorem yields_of_reading? (h : m.reading? = some read) {ctx : Ctx} {bound c : C} {o : Outcome C} :
    m.Yields ctx bound c o ↔ o = (read (span bound c)).place bound c :=
  yields_iff_of_pure fun visits => apply_of_reading? h visits ctx bound c

omit [Cursor C T] [LawfulCursor C] in
theorem fits_of_reading? (h : m.reading? = some read) (s : List T) : (read s).Fits s.length := by
  cases m with
  | length n =>
    cases h
    by_cases hn : n ≤ s.length <;> simp [Reading.length, hn]
  | equals t =>
    cases h
    cases s with
    | nil => rfl
    | cons x s =>
      simp only [Reading.equals]
      split <;> simp
  | oneOf set =>
    cases h
    cases s with
    | nil =>
      simp only [Reading.oneOf]
      split <;> simp
    | cons x s =>
      simp only [Reading.oneOf]
      split <;> simp
  | seq pattern =>
    cases h
    by_cases hs : Reading.startsWith pattern s = true
    · simp [Reading.seq, hs, Reading.length_le_of_startsWith hs]
    · simp [Reading.seq, hs]
  | range lo hi =>
    cases h
    cases s with
    | nil => rfl
    | cons x s =>
      simp only [Reading.range]
      split <;> simp
  | always =>
    cases h
    exact Nat.zero_le _
  | func f => cases h
  | nested link matcher start => cases h
  | repeatSeq pattern min max _ =>
    cases h
    simp only [Reading.repeatSeq]
    split
    · exact Nat.zero_le _
    · split
      · exact Reading.copies_mul_le pattern max s
      · rfl

omit [Cursor C T] [LawfulCursor C] in
theorem rejected_of_reading? (h : m.reading? = some read) {s : List T}
    (hrej : (read s).accepted = false) :
    (read s).position = .bound ∨
      ∃ t x r, m = .equals t ∧ s = x :: r ∧ (x == t) = false ∧ (read s).position = .ahead 0 := by
  cases m with
  | length n =>
    cases h
    exact .inl (Outcome.rejected_ite hrej)
  | equals t =>
    cases h
    cases s with
    | nil => exact .inl rfl
    | cons x r =>
      cases hx : x == t with
      | true =>
        rw [Reading.equals, hx, if_pos rfl] at hrej
        cases hrej
      | false => exact .inr ⟨t, x, r, rfl, rfl, hx, by rw [Reading.equals, hx]; rfl⟩
  | oneOf set =>
    cases h
    cases s with
    | nil => exact .inl (Outcome.rejected_ite hrej)
    | cons x r => exact .inl (Outcome.rejected_ite hrej)
  | seq pattern =>
    cases h
    exact .inl (Outcome.rejected_ite hrej)
  | range lo hi =>
    cases h
    cases s with
    | nil => exact .inl rfl
    | cons x r => exact .inl (Outcome.rejected_ite hrej)
  | always =>
    cases h
    cases hrej
  | func f => cases h
  | nested link matcher start => cases h
  | repeatSeq pattern min max _ =>
    cases h
    unfold Reading.repeatSeq at hrej ⊢
    by_cases he : pattern.isEmpty = true
    · rw [if_pos he] at hrej
      cases hrej
    · rw [if_neg he] at hrej ⊢
      exact .inl (Outcome.rejected_ite hrej)

end Matcher

end TableAutomata
