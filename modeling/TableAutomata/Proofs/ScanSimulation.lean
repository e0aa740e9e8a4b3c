import TableAutomata.Proofs.ScanStep
import TableAutomata.Proofs.Simulation

/-! Two scanners side by side. If their rules make the same of related places, they yield the same
lexemes at related places, one after the other, and get stuck together. -/

namespace TableAutomata

open Recording (Ends)

variable {C D T U Ctx Ctx' K : Type} {R Q : C → D → Prop}

structure Lexeme.Agree (R : C → D → Prop) (l : Lexeme C K) (l' : Lexeme D K) : Prop where
  kind : l.kind = l'.kind
  start : R l.start l'.start
  stop : R l.stop l'.stop

inductive Yield.Agree (R : C → D → Prop) :
    Except (ScanError C) (Lexeme C K) → Except (ScanError D) (Lexeme D K) → Prop where
  | lexeme {l : Lexeme C K} {l' : Lexeme D K} : l.Agree R l' → Agree R (.ok l) (.ok l')
  | noMatch {c : C} {d : D} : R c d → Agree R (.error (.noMatch c)) (.error (.noMatch d))

theorem Yield.Agree.imp {R R' : C → D → Prop} (h : ∀ c d, R c d → R' c d)
    {x : Except (ScanError C) (Lexeme C K)} {y : Except (ScanError D) (Lexeme D K)}
    (hxy : Yield.Agree R x y) : Yield.Agree R' x y := by
  cases hxy with
  | lexeme hl => exact .lexeme ⟨hl.kind, h _ _ hl.start, h _ _ hl.stop⟩
  | noMatch hc => exact .noMatch (h _ _ hc)

theorem Yield.Agree.eq {x y : Except (ScanError C) (Lexeme C K)} (h : Yield.Agree Eq x y) : x = y := by
  cases h with
  | lexeme hl =>
    obtain ⟨hk, hs, ht⟩ := hl
    exact congrArg Except.ok (by rw [Lexeme.mk.injEq]; exact ⟨hk, hs, ht⟩)
  | noMatch hc => rw [hc]

section

variable [Cursor C T] [Cursor D U]

/-- Of related cursors, two meet exactly if the two related to them do. -/
def MeetTogether (R : C → D → Prop) : Prop :=
  ∀ c d c' d', R c d → R c' d' → (c == c') = (d == d')

theorem Outcome.Agree.takes_eq (hR : MeetTogether R) {o : Outcome C} {p : Outcome D} {c : C} {d : D}
    (h : o.Agree R Q p) (hc : R c d) : o.takes c = p.takes d := by
  have he := h.accepted_eq
  cases ha : o.accepted with
  | false => simp [takes, ha, ← he]
  | true => simp [takes, ha, ← he, hR _ _ _ _ (h.accepted ha) hc]

end

variable [Cursor C T] [BEq T] [LE T] [DecidableLE T] [Cursor D U] [BEq U] [LE U] [DecidableLE U]

structure Rule.Paired (R Q : C → D → Prop) (ctx : Ctx) (ctx' : Ctx') (bound : C) (bound' : D)
    (r : Rule C T Ctx K) (r' : Rule D U Ctx' K) : Prop where
  kind : r.kind = r'.kind
  priority : r.priority = r'.priority
  yields : Simulated R Q (r.recognizer.Yields ctx bound) (r'.recognizer.Yields ctx' bound')

theorem optionRel_imp {α β : Type} {r r' : α → β → Prop} (h : ∀ a b, r a b → r' a b)
    {a? : Option α} {b? : Option β} (hab : Option.Rel r a? b?) : Option.Rel r' a? b? := by
  cases hab with
  | none => exact .none
  | some hab => exact .some (h _ _ hab)

namespace Rule

variable {ctx : Ctx} {ctx' : Ctx'} {bound : C} {bound' : D} {rules : List (Rule C T Ctx K)}
  {rules' : List (Rule D U Ctx' K)}

theorem Paired.insert {r : Rule C T Ctx K} {r' : Rule D U Ctx' K}
    (hr : r.Paired R Q ctx ctx' bound bound' r')
    (h : List.Forall₂ (Paired R Q ctx ctx' bound bound') rules rules') :
    List.Forall₂ (Paired R Q ctx ctx' bound bound') (r.insert rules) (r'.insert rules') := by
  induction h with
  | nil => exact .cons hr .nil
  | @cons s s' rest rest' hs hrest ih =>
    have hp : s.priority ≤ r.priority ↔ s'.priority ≤ r'.priority := by
      rw [hs.priority, hr.priority]
    by_cases hle : s.priority ≤ r.priority
    · simp only [Rule.insert, hle, hp.mp hle, if_true]
      exact .cons hr (.cons hs hrest)
    · simp only [Rule.insert, hle, mt hp.mpr hle, if_false]
      exact .cons hs ih

theorem Paired.byPriority (h : List.Forall₂ (Paired R Q ctx ctx' bound bound') rules rules') :
    List.Forall₂ (Paired R Q ctx ctx' bound bound') (byPriority rules)
      (Rule.byPriority rules') := by
  induction h with
  | nil => exact .nil
  | cons hr _ ih => exact hr.insert ih

end Rule

namespace Scanner

variable {s s' : Scanner C T Ctx K} {t : Scanner D U Ctx' K}

theorem FirstMatch.simulate (hR : MeetTogether R) {ctx : Ctx} {ctx' : Ctx'} {bound c : C}
    {bound' d : D} {rules : List (Rule C T Ctx K)} {rules' : List (Rule D U Ctx' K)}
    (hrules : List.Forall₂ (Rule.Paired R Q ctx ctx' bound bound') rules rules') (hc : R c d)
    {l : Option (Lexeme C K)} (h : FirstMatch ctx bound c rules l) :
    ∃ l', FirstMatch ctx' bound' d rules' l' ∧ Option.Rel (Lexeme.Agree R) l l' := by
  induction h generalizing rules' with
  | exhausted =>
    cases hrules
    exact ⟨none, .exhausted, .none⟩
  | taken ho ht =>
    cases hrules with
    | cons hr _ =>
      obtain ⟨p, hp, hop⟩ := hr.yields c d hc _ ho
      have hacc := (Bool.and_eq_true_iff.mp ht).1
      have ht' := (hop.takes_eq hR hc).symm.trans ht
      exact ⟨_, .taken hp ht', .some ⟨hr.kind, hc, hop.accepted hacc⟩⟩
  | passed ho ht _ ih =>
    cases hrules with
    | cons hr hrest =>
      obtain ⟨p, hp, hop⟩ := hr.yields c d hc _ ho
      obtain ⟨l', hl', hll⟩ := ih hrest
      exact ⟨l', .passed hp ((hop.takes_eq hR hc).symm.trans ht) hl', hll⟩

theorem next?_ends_iff {x : Option (Except (ScanError C) (Lexeme C K))} :
    Ends s.next? (x, s') ↔
      s.done = true ∧ x = none ∧ s' = s ∨
        s.done = false ∧ ∃ l, FirstMatch s.ctx s.bound s.cursor s.rules l ∧
          x = some (s.turn l).1 ∧ s' = (s.turn l).2 := by
  cases hd : s.done with
  | true =>
    have hnext : ∀ visits, (s.next? visits).value? = some (none, s) := fun visits => by
      rw [next?_of_done hd, Recording.value?_pure]
    simp [Ends, hnext, eq_comm]
  | false =>
    simp only [Ends, value?_next?_of_not_done hd, Option.map_eq_some_iff, Prod.mk.injEq]
    simp only [Bool.false_eq_true, false_and, true_and, false_or]
    constructor
    · rintro ⟨visits, l, hl, rfl, rfl⟩
      exact ⟨l, firstMatch?_ends_iff.mp ⟨visits, hl⟩, rfl, rfl⟩
    · rintro ⟨l, hl, rfl, rfl⟩
      obtain ⟨visits, hv⟩ := firstMatch?_ends_iff.mpr hl
      exact ⟨visits, l, hv, rfl, rfl⟩

theorem next?_iff_of_done (hd : s.done = true)
    (t : Option (Except (ScanError C) (Lexeme C K)) × Scanner C T Ctx K) :
    Ends s.next? t ↔ t = (none, s) := by
  obtain ⟨x, s'⟩ := t
  rw [next?_ends_iff, Prod.mk.injEq]
  simp [hd]

theorem next?_unique {x y : Option (Except (ScanError C) (Lexeme C K))} {s₁ s₂ : Scanner C T Ctx K}
    (h : Ends s.next? (x, s₁)) (h' : Ends s.next? (y, s₂)) : x = y ∧ s₁ = s₂ := by
  rcases next?_ends_iff.mp h with ⟨hd, rfl, rfl⟩ | ⟨hd, l, hl, rfl, rfl⟩
  · rcases next?_ends_iff.mp h' with ⟨-, rfl, rfl⟩ | ⟨hd', -⟩
    · exact ⟨rfl, rfl⟩
    · cases hd.symm.trans hd'
  · rcases next?_ends_iff.mp h' with ⟨hd', -⟩ | ⟨-, l', hl', rfl, rfl⟩
    · cases hd.symm.trans hd'
    · obtain rfl := hl.unique hl'
      exact ⟨rfl, rfl⟩

/-- What successive calls of `next?` give, and the scanner behind them. -/
inductive Calls : Scanner C T Ctx K → List (Option (Except (ScanError C) (Lexeme C K))) →
    Scanner C T Ctx K → Prop where
  | nil {s : Scanner C T Ctx K} : Calls s [] s
  | cons {s s' last : Scanner C T Ctx K} {x : Option (Except (ScanError C) (Lexeme C K))}
      {xs : List (Option (Except (ScanError C) (Lexeme C K)))} :
      Ends s.next? (x, s') → Calls s' xs last → Calls s (x :: xs) last

theorem Produces.calls {xs : List (Except (ScanError C) (Lexeme C K))} {last : Scanner C T Ctx K}
    (h : s.Produces xs last) : s.Calls (xs.map some ++ [none]) last := by
  induction h with
  | done hd => exact .cons (next?_ends_iff.mpr (.inl ⟨hd, rfl, rfl⟩)) .nil
  | turn hd hl _ ih => exact .cons (next?_ends_iff.mpr (.inr ⟨hd, _, hl, rfl, rfl⟩)) ih

theorem Calls.unique {xs ys : List (Option (Except (ScanError C) (Lexeme C K)))}
    {last last' : Scanner C T Ctx K} (h : s.Calls xs last) (h' : s.Calls ys last')
    (hl : xs.length = ys.length) : xs = ys ∧ last = last' := by
  induction h generalizing ys with
  | nil =>
    cases h' with
    | nil => exact ⟨rfl, rfl⟩
    | cons => cases hl
  | cons hx _ ih =>
    cases h' with
    | nil => cases hl
    | cons hy h' =>
      obtain ⟨rfl, rfl⟩ := next?_unique hx hy
      obtain ⟨rfl, rfl⟩ := ih h' (Nat.succ.inj hl)
      exact ⟨rfl, rfl⟩

structure Paired (R Q : C → D → Prop) (s : Scanner C T Ctx K) (t : Scanner D U Ctx' K) : Prop where
  rules : List.Forall₂ (Rule.Paired R Q s.ctx t.ctx s.bound t.bound) s.rules t.rules
  bound : R s.bound t.bound
  cursor : R s.cursor t.cursor
  stuck : s.stuck = t.stuck

theorem Paired.done_eq (hR : MeetTogether R) (h : s.Paired R Q t) : s.done = t.done := by
  rw [done, done, h.stuck, hR _ _ _ _ h.cursor h.bound]

theorem Paired.next? (hR : MeetTogether R) (h : s.Paired R Q t)
    {x : Option (Except (ScanError C) (Lexeme C K))} (hx : Ends s.next? (x, s')) :
    ∃ y t', Ends t.next? (y, t') ∧ Option.Rel (Yield.Agree R) x y ∧ s'.Paired R Q t' := by
  have hdone := h.done_eq hR
  rcases next?_ends_iff.mp hx with ⟨hd, rfl, rfl⟩ | ⟨hd, l, hl, rfl, rfl⟩
  · exact ⟨none, t, next?_ends_iff.mpr (.inl ⟨hdone ▸ hd, rfl, rfl⟩), .none, h⟩
  · obtain ⟨l', hl', hll⟩ := hl.simulate hR h.rules h.cursor
    refine ⟨_, _, next?_ends_iff.mpr (.inr ⟨hdone ▸ hd, l', hl', rfl, rfl⟩), ?_⟩
    cases hll with
    | none => exact ⟨.some (.noMatch h.cursor), h.rules, h.bound, h.cursor, rfl⟩
    | some hlex => exact ⟨.some (.lexeme hlex), h.rules, h.bound, hlex.stop, h.stuck⟩

theorem Paired.calls (hR : MeetTogether R) (h : s.Paired R Q t)
    {xs : List (Option (Except (ScanError C) (Lexeme C K)))} (hxs : s.Calls xs s') :
    ∃ ys t', t.Calls ys t' ∧ List.Forall₂ (Option.Rel (Yield.Agree R)) xs ys ∧
      s'.Paired R Q t' := by
  induction hxs generalizing t with
  | nil => exact ⟨[], t, .nil, .nil, h⟩
  | cons hx _ ih =>
    obtain ⟨y, t₁, hy, hxy, h₁⟩ := h.next? hR hx
    obtain ⟨ys, t', hys, hall, h'⟩ := ih h₁
    exact ⟨y :: ys, t', .cons hy hys, .cons hxy hall, h'⟩

theorem Paired.calls_eq {Q : C → C → Prop} {t : Scanner C T Ctx' K} (h : s.Paired Eq Q t)
    {xs : List (Option (Except (ScanError C) (Lexeme C K)))} (hxs : s.Calls xs s') :
    ∃ t', t.Calls xs t' := by
  have hmeet : MeetTogether (Eq : C → C → Prop) := by
    rintro c _ c' _ rfl rfl
    rfl
  obtain ⟨ys, t', hys, hall, -⟩ := h.calls hmeet hxs
  have heq : List.Forall₂ Eq xs ys := by
    refine hall.imp fun x y hxy => ?_
    cases hxy with
    | none => rfl
    | some hxy => exact congrArg some hxy.eq
  rw [List.forall₂_eq_eq_eq] at heq
  exact ⟨t', heq ▸ hys⟩

theorem Paired.together {R' Q' : D → C → Prop} (hR : MeetTogether R) (hR' : MeetTogether R')
    (h : s.Paired R Q t) (h' : t.Paired R' Q' s) (n : Nat) :
    ((∃ xs last, xs.length = n ∧ s.Calls xs last) ↔ ∃ ys last, ys.length = n ∧ t.Calls ys last) ∧
      ∀ xs ys last last', xs.length = ys.length → s.Calls xs last → t.Calls ys last' →
        List.Forall₂ (Option.Rel (Yield.Agree R)) xs ys := by
  refine ⟨⟨?_, ?_⟩, ?_⟩
  · rintro ⟨xs, last, rfl, hxs⟩
    obtain ⟨ys, last', hys, hall, -⟩ := h.calls hR hxs
    exact ⟨ys, last', hall.length_eq.symm, hys⟩
  · rintro ⟨ys, last, rfl, hys⟩
    obtain ⟨xs, last', hxs, hall, -⟩ := h'.calls hR' hys
    exact ⟨xs, last', hall.length_eq.symm, hxs⟩
  · intro xs ys last last' hl hxs hys
    obtain ⟨zs, last'', hzs, hall, -⟩ := h.calls hR hxs
    obtain ⟨rfl, -⟩ := hzs.unique hys (hall.length_eq.symm.trans hl)
    exact hall

end Scanner

end TableAutomata
