import TableAutomata.Proofs.Level
import TableAutomata.Scan.Scanner

/-! Single steps of a scanner, told without budgets: what the rules make of a place, what the scanner
yields next, and all that it yields. -/

namespace TableAutomata

open Recording (Below Steady Ends)

variable {C T Ctx K : Type}

namespace Rule

theorem mem_insert {r s : Rule C T Ctx K} {rules : List (Rule C T Ctx K)} :
    s ∈ insert r rules ↔ s = r ∨ s ∈ rules := by
  induction rules with
  | nil => simp [insert]
  | cons q rest ih =>
    simp only [insert]
    split
    · simp
    · simp only [List.mem_cons, ih]
      exact or_left_comm

theorem mem_byPriority {s : Rule C T Ctx K} {rules : List (Rule C T Ctx K)} :
    s ∈ byPriority rules ↔ s ∈ rules := by
  induction rules with
  | nil => simp [byPriority]
  | cons r rest ih => simp [byPriority, mem_insert, ih]

end Rule

variable [Cursor C T] [BEq T] [LE T] [DecidableLE T]

def Recognizer.Yields (ctx : Ctx) (bound : C) (r : Recognizer C T Ctx) (c : C) (o : Outcome C) :
    Prop :=
  Ends (fun visits => r.exec visits ctx bound c) o

theorem Recognizer.exec_steady (r : Recognizer C T Ctx) (ctx : Ctx) (bound c : C) :
    Steady fun visits => r.exec visits ctx bound c :=
  Matcher.apply_steady _ c

theorem Recognizer.Yields.unique {r : Recognizer C T Ctx} {ctx : Ctx} {bound c : C}
    {o o' : Outcome C} (h : r.Yields ctx bound c o) (h' : r.Yields ctx bound c o') : o = o' :=
  Ends.unique (r.exec_steady ctx bound c) h h'

def Outcome.takes (c : C) (o : Outcome C) : Bool :=
  o.accepted && !(o.position == c)

namespace Scanner

/-- What the first of the rules to take a stretch at `c` makes of it. -/
inductive FirstMatch (ctx : Ctx) (bound c : C) :
    List (Rule C T Ctx K) → Option (Lexeme C K) → Prop where
  | exhausted : FirstMatch ctx bound c [] none
  | taken {r : Rule C T Ctx K} {rest : List (Rule C T Ctx K)} {o : Outcome C} :
      r.recognizer.Yields ctx bound c o → o.takes c = true →
      FirstMatch ctx bound c (r :: rest) (some ⟨r.kind, c, o.position⟩)
  | passed {r : Rule C T Ctx K} {rest : List (Rule C T Ctx K)} {o : Outcome C}
      {l : Option (Lexeme C K)} :
      r.recognizer.Yields ctx bound c o → o.takes c = false → FirstMatch ctx bound c rest l →
      FirstMatch ctx bound c (r :: rest) l

variable {ctx : Ctx} {bound c : C} {rules : List (Rule C T Ctx K)} {l : Option (Lexeme C K)}

theorem firstMatch?_steady (ctx : Ctx) (bound c : C) (rules : List (Rule C T Ctx K)) :
    Steady fun visits => firstMatch? visits ctx bound c rules := by
  induction rules with
  | nil => exact .const _
  | cons r rest ih =>
    exact (r.recognizer.exec_steady ctx bound c).bind fun o => .ite (o.takes c) (.const _) ih

theorem firstMatch?_ends_iff :
    Ends (fun visits => firstMatch? visits ctx bound c rules) l ↔ FirstMatch ctx bound c rules l := by
  induction rules with
  | nil =>
    rw [show (fun visits => firstMatch? visits ctx bound c ([] : List (Rule C T Ctx K))) =
      fun _ => pure none from rfl, Recording.ends_const_iff, Recording.value?_pure]
    constructor
    · intro h
      cases h
      exact .exhausted
    · intro h
      cases h
      rfl
  | cons r rest ih =>
    have hstep : Ends (fun visits => firstMatch? visits ctx bound c (r :: rest)) l ↔
        ∃ o, r.recognizer.Yields ctx bound c o ∧
          Ends (fun visits => if o.takes c then pure (some ⟨r.kind, c, o.position⟩)
            else firstMatch? visits ctx bound c rest) l := by
      refine Recording.ends_bind_iff (r.recognizer.exec_steady ctx bound c) fun o => ?_
      exact .ite (o.takes c) (.const _) (firstMatch?_steady ctx bound c rest)
    rw [hstep]
    constructor
    · rintro ⟨o, ho, h⟩
      cases ht : o.takes c with
      | true =>
        simp only [ht, if_true, Recording.ends_const_iff, Recording.value?_pure] at h
        cases h
        exact .taken ho ht
      | false =>
        simp only [ht, Bool.false_eq_true, if_false] at h
        exact .passed ho ht (ih.mp h)
    · intro h
      cases h with
      | taken ho ht =>
        refine ⟨_, ho, ?_⟩
        simp only [ht, if_true, Recording.ends_const_iff, Recording.value?_pure]
      | passed ho ht h =>
        refine ⟨_, ho, ?_⟩
        simpa only [ht, Bool.false_eq_true, if_false] using ih.mpr h

theorem FirstMatch.unique {l' : Option (Lexeme C K)} (h : FirstMatch ctx bound c rules l)
    (h' : FirstMatch ctx bound c rules l') : l = l' :=
  Ends.unique (firstMatch?_steady ctx bound c rules) (firstMatch?_ends_iff.mpr h)
    (firstMatch?_ends_iff.mpr h')

theorem FirstMatch.exists_of_yields
    (h : ∀ r ∈ rules, ∃ o, r.recognizer.Yields ctx bound c o) :
    ∃ l, FirstMatch ctx bound c rules l := by
  induction rules with
  | nil => exact ⟨_, .exhausted⟩
  | cons r rest ih =>
    obtain ⟨o, ho⟩ := h r List.mem_cons_self
    cases ht : o.takes c with
    | true => exact ⟨_, .taken ho ht⟩
    | false =>
      obtain ⟨l, hl⟩ := ih fun s hs => h s (List.mem_cons_of_mem r hs)
      exact ⟨l, .passed ho ht hl⟩

theorem FirstMatch.passed_of_none (h : FirstMatch ctx bound c rules none) :
    ∀ r ∈ rules, ∃ o, r.recognizer.Yields ctx bound c o ∧ o.takes c = false := by
  generalize hl : (none : Option (Lexeme C K)) = l at h
  induction h with
  | exhausted => simp
  | taken => cases hl
  | passed ho ht _ ih =>
    intro s hs
    rcases List.mem_cons.mp hs with rfl | hs
    · exact ⟨_, ho, ht⟩
    · exact ih hl s hs

theorem FirstMatch.split {x : Lexeme C K} (h : FirstMatch ctx bound c rules (some x)) :
    ∃ passed r rest o, rules = passed ++ r :: rest ∧
      (∀ s ∈ passed, ∃ p, s.recognizer.Yields ctx bound c p ∧ p.takes c = false) ∧
      r.recognizer.Yields ctx bound c o ∧ o.takes c = true ∧ x = ⟨r.kind, c, o.position⟩ := by
  generalize hl : some x = l at h
  induction h with
  | exhausted => cases hl
  | taken ho ht =>
    cases hl
    exact ⟨[], _, _, _, rfl, by simp, ho, ht, rfl⟩
  | @passed q rest o l ho ht _ ih =>
    obtain ⟨passed, r, rest, p, rfl, hpassed, hr⟩ := ih hl
    refine ⟨q :: passed, r, rest, p, rfl, fun s hs => ?_, hr⟩
    rcases List.mem_cons.mp hs with rfl | hs
    · exact ⟨_, ho, ht⟩
    · exact hpassed s hs

theorem FirstMatch.taken_of_some {x : Lexeme C K} (h : FirstMatch ctx bound c rules (some x)) :
    x.start = c ∧ ∃ r ∈ rules, ∃ o, r.recognizer.Yields ctx bound c o ∧ o.takes c = true ∧
      x.kind = r.kind ∧ x.stop = o.position := by
  obtain ⟨passed, r, rest, o, rfl, -, ho, ht, rfl⟩ := h.split
  exact ⟨rfl, r, by simp, o, ho, ht, rfl, rfl⟩

def done (s : Scanner C T Ctx K) : Bool :=
  s.stuck || s.cursor == s.bound

def turn (s : Scanner C T Ctx K) :
    Option (Lexeme C K) → Except (ScanError C) (Lexeme C K) × Scanner C T Ctx K
  | some l => (.ok l, { s with cursor := l.stop })
  | none => (.error (.noMatch s.cursor), { s with stuck := true })

/-- All that a scanner yields, one item after the other, and the scanner behind it. -/
inductive Produces : Scanner C T Ctx K → List (Except (ScanError C) (Lexeme C K)) →
    Scanner C T Ctx K → Prop where
  | done {s : Scanner C T Ctx K} : s.done = true → Produces s [] s
  | turn {s last : Scanner C T Ctx K} {l : Option (Lexeme C K)}
      {xs : List (Except (ScanError C) (Lexeme C K))} :
      s.done = false → FirstMatch s.ctx s.bound s.cursor s.rules l →
      Produces (s.turn l).2 xs last → Produces s ((s.turn l).1 :: xs) last

variable {s last : Scanner C T Ctx K} {xs : List (Except (ScanError C) (Lexeme C K))}

theorem next?_of_done (h : s.done = true) (visits : Nat) : s.next? visits = pure (none, s) := by
  rw [next?, ← done, h]
  rfl

theorem value?_next?_of_not_done (h : s.done = false) (visits : Nat) :
    (s.next? visits).value? =
      (s.peek? visits).value?.map fun l => (some (s.turn l).1, (s.turn l).2) := by
  rw [next?, ← done, h]
  simp only [Bool.false_eq_true, if_false, Recording.value?_bind]
  cases (s.peek? visits).value? with
  | none => rfl
  | some l => cases l <;> rfl

theorem value?_itemsWithin_of_done (h : s.done = true) (visits n : Nat) :
    (itemsWithin visits n s).value? = some ([], s) := by
  cases n <;> simp [itemsWithin, next?_of_done h]

theorem value?_itemsWithin_succ (h : s.done = false) (visits n : Nat) :
    (itemsWithin visits (n + 1) s).value? =
      (s.peek? visits).value?.bind fun l =>
        (itemsWithin visits n (s.turn l).2).value?.map fun r => ((s.turn l).1 :: r.1, r.2) := by
  simp only [itemsWithin, Recording.value?_bind, value?_next?_of_not_done h]
  cases (s.peek? visits).value? with
  | none => rfl
  | some l => simp

theorem produces_of_itemsWithin {visits n : Nat}
    (h : (itemsWithin visits n s).value? = some (xs, last)) : Produces s xs last := by
  induction n generalizing s xs with
  | zero =>
    cases hd : s.done with
    | true =>
      rw [value?_itemsWithin_of_done hd] at h
      cases h
      exact .done hd
    | false =>
      simp only [itemsWithin, Recording.value?_bind, value?_next?_of_not_done hd] at h
      cases hp : (s.peek? visits).value? <;> simp [hp] at h
  | succ n ih =>
    cases hd : s.done with
    | true =>
      rw [value?_itemsWithin_of_done hd] at h
      cases h
      exact .done hd
    | false =>
      rw [value?_itemsWithin_succ hd, Option.bind_eq_some_iff] at h
      obtain ⟨l, hl, h⟩ := h
      obtain ⟨⟨ys, end'⟩, hr, h⟩ := Option.map_eq_some_iff.mp h
      cases h
      exact .turn hd (firstMatch?_ends_iff.mp ⟨visits, hl⟩) (ih hr)

theorem Produces.eventually (h : Produces s xs last) :
    ∃ visits, ∀ w, visits ≤ w → ∀ n, xs.length ≤ n →
      (itemsWithin w n s).value? = some (xs, last) := by
  induction h with
  | done hd => exact ⟨0, fun w _ n _ => value?_itemsWithin_of_done hd w n⟩
  | turn hd hl _ ih =>
    obtain ⟨v, hv⟩ := Ends.eventually (firstMatch?_steady _ _ _ _) (firstMatch?_ends_iff.mpr hl)
    obtain ⟨v', hv'⟩ := ih
    refine ⟨max v v', fun w hw n hn => ?_⟩
    obtain ⟨n, rfl⟩ : ∃ m, n = m + 1 := ⟨n - 1, by simp at hn; omega⟩
    rw [value?_itemsWithin_succ hd, peek?, hv w (by omega)]
    simp [hv' w (by omega) n (by simpa using hn)]

theorem items_ends_iff : Ends s.items (xs, last) ↔ Produces s xs last := by
  constructor
  · rintro ⟨visits, h⟩
    exact produces_of_itemsWithin h
  · intro h
    obtain ⟨visits, hv⟩ := h.eventually
    exact ⟨max visits xs.length, hv _ (Nat.le_max_left _ _) _ (Nat.le_max_right _ _)⟩

theorem Produces.unique {ys : List (Except (ScanError C) (Lexeme C K))} {last' : Scanner C T Ctx K}
    (h : Produces s xs last) (h' : Produces s ys last') : xs = ys ∧ last = last' := by
  induction h generalizing ys with
  | done hd =>
    cases h' with
    | done => exact ⟨rfl, rfl⟩
    | turn hd' _ _ => exact absurd (hd.symm.trans hd') (by decide)
  | turn hd hl _ ih =>
    cases h' with
    | done hd' => exact absurd (hd.symm.trans hd') (by decide)
    | turn _ hl' h' =>
      obtain rfl := hl.unique hl'
      obtain ⟨rfl, rfl⟩ := ih h'
      exact ⟨rfl, rfl⟩

theorem Produces.items_iff (h : Produces s xs last)
    (t : List (Except (ScanError C) (Lexeme C K)) × Scanner C T Ctx K) :
    Ends s.items t ↔ t = (xs, last) := by
  obtain ⟨ys, last'⟩ := t
  rw [items_ends_iff, Prod.mk.injEq]
  constructor
  · intro h'
    exact h'.unique h
  · rintro ⟨rfl, rfl⟩
    exact h

theorem Produces.done_last (h : Produces s xs last) : last.done = true := by
  induction h with
  | done hd => exact hd
  | turn _ _ _ ih => exact ih

end Scanner

end TableAutomata
