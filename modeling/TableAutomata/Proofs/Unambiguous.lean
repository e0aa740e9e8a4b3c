import TableAutomata.Proofs.CalculatorScan

/-! Rules of which no two take something at one place. Their order and their priorities decide
nothing: every scanner with these rules cuts its input alike. -/

namespace TableAutomata

open Cursor (advanced span)
open Recording (Ends)

variable {C T Ctx K : Type}

namespace Rule

def unranked (r : Rule C T Ctx K) : K × Recognizer C T Ctx :=
  (r.kind, r.recognizer)

/-- The same rules, however often and in whatever order they are given, and of any priorities. -/
def SameUnranked (rules rules' : List (Rule C T Ctx K)) : Prop :=
  ∀ u, u ∈ rules.map unranked ↔ u ∈ rules'.map unranked

variable {rules rules' : List (Rule C T Ctx K)}

theorem SameUnranked.of_perm (h : (rules'.map unranked).Perm (rules.map unranked)) :
    SameUnranked rules rules' :=
  fun _ => h.mem_iff.symm

theorem SameUnranked.symm (h : SameUnranked rules rules') : SameUnranked rules' rules :=
  fun u => (h u).symm

theorem SameUnranked.byPriority (h : SameUnranked rules rules') :
    SameUnranked (Rule.byPriority rules) (Rule.byPriority rules') := by
  intro u
  have hu := h u
  simpa only [List.mem_map, mem_byPriority] using hu

theorem SameUnranked.exists_rule (h : SameUnranked rules rules') {r' : Rule C T Ctx K}
    (hr : r' ∈ rules') : ∃ r ∈ rules, r.kind = r'.kind ∧ r.recognizer = r'.recognizer := by
  obtain ⟨r, hmem, heq⟩ := List.mem_map.mp ((h r'.unranked).mpr (List.mem_map_of_mem hr))
  exact ⟨r, hmem, (Prod.mk.inj heq).1, (Prod.mk.inj heq).2⟩

end Rule

section

variable [Cursor C T] [BEq T] [LE T] [DecidableLE T] {ctx : Ctx} {bound c : C}
  {rules rules' : List (Rule C T Ctx K)}

def Rule.Takes (ctx : Ctx) (bound c : C) (r : Rule C T Ctx K) : Prop :=
  ∃ o, r.recognizer.Yields ctx bound c o ∧ o.takes c = true

/-- Every rule comes to an end at `c`, and no two of them take something there. -/
structure Rule.Unambiguous (ctx : Ctx) (bound c : C) (rules : List (Rule C T Ctx K)) : Prop where
  ends : ∀ r ∈ rules, ∃ o, r.recognizer.Yields ctx bound c o
  apart : rules.Pairwise fun r r' => ¬ (r.Takes ctx bound c ∧ r'.Takes ctx bound c)

theorem Rule.Unambiguous.eq (h : Rule.Unambiguous ctx bound c rules) {r r' : Rule C T Ctx K}
    (hr : r ∈ rules) (hr' : r' ∈ rules) (ht : r.Takes ctx bound c) (ht' : r'.Takes ctx bound c) :
    r = r' := by
  have : Std.Symm fun r r' : Rule C T Ctx K => ¬ (r.Takes ctx bound c ∧ r'.Takes ctx bound c) :=
    ⟨fun _ _ hno hboth => hno hboth.symm⟩
  by_contra hne
  exact h.apart.forall hr hr' hne ⟨ht, ht'⟩

/-- Some rule takes the lexeme `x` at `c` if it is tried there. -/
def Rule.Offered (ctx : Ctx) (bound c : C) (rules : List (Rule C T Ctx K))
    (x : Lexeme C K) : Prop :=
  x.start = c ∧ ∃ r ∈ rules, ∃ o, r.recognizer.Yields ctx bound c o ∧ o.takes c = true ∧
    x.kind = r.kind ∧ x.stop = o.position

theorem Rule.Unambiguous.offered_unique (h : Rule.Unambiguous ctx bound c rules)
    {x y : Lexeme C K} (hx : Rule.Offered ctx bound c rules x)
    (hy : Rule.Offered ctx bound c rules y) : x = y := by
  obtain ⟨hstart, r, hr, o, ho, ht, hkind, hstop⟩ := hx
  obtain ⟨hstart', r', hr', p, hp, ht', hkind', hstop'⟩ := hy
  obtain rfl := h.eq hr hr' ⟨o, ho, ht⟩ ⟨p, hp, ht'⟩
  obtain rfl := ho.unique hp
  exact Lexeme.ext (hkind.trans hkind'.symm) (hstart.trans hstart'.symm) (hstop.trans hstop'.symm)

theorem Rule.SameUnranked.offered (h : Rule.SameUnranked rules rules') {x : Lexeme C K}
    (hx : Rule.Offered ctx bound c rules' x) : Rule.Offered ctx bound c rules x := by
  obtain ⟨hstart, r', hr', o, ho, ht, hkind, hstop⟩ := hx
  obtain ⟨r, hr, hsame, hrec⟩ := h.exists_rule hr'
  exact ⟨hstart, r, hr, o, hrec ▸ ho, ht, hkind.trans hsame.symm, hstop⟩

namespace Scanner

theorem FirstMatch.eq_some_iff {l : Option (Lexeme C K)} (h : FirstMatch ctx bound c rules l)
    (hone : ∀ x y, Rule.Offered ctx bound c rules x → Rule.Offered ctx bound c rules y → x = y)
    (x : Lexeme C K) : l = some x ↔ Rule.Offered ctx bound c rules x := by
  constructor
  · rintro rfl
    exact h.taken_of_some
  · intro hx
    cases l with
    | none =>
      obtain ⟨-, r, hr, o, ho, ht, -⟩ := hx
      obtain ⟨p, hp, hpass⟩ := h.passed_of_none r hr
      obtain rfl := ho.unique hp
      cases ht.symm.trans hpass
    | some y => rw [hone y x h.taken_of_some hx]

theorem FirstMatch.of_sameUnranked {l : Option (Lexeme C K)} (h : FirstMatch ctx bound c rules l)
    (hone : Rule.Unambiguous ctx bound c rules) (hsame : Rule.SameUnranked rules rules') :
    FirstMatch ctx bound c rules' l := by
  obtain ⟨l', hl'⟩ : ∃ l', FirstMatch ctx bound c rules' l' := by
    refine FirstMatch.exists_of_yields fun r' hr' => ?_
    obtain ⟨r, hr, -, hrec⟩ := hsame.exists_rule hr'
    exact hrec ▸ hone.ends r hr
  have heq : l' = l := by
    refine Option.ext fun x => ?_
    rw [h.eq_some_iff (fun _ _ hx hy => hone.offered_unique hx hy),
      hl'.eq_some_iff fun _ _ hx hy => hone.offered_unique (hsame.offered hx) (hsame.offered hy)]
    exact ⟨hsame.offered, hsame.symm.offered⟩
  exact heq ▸ hl'

theorem Produces.of_sameUnranked {s last : Scanner C T Ctx K}
    {xs : List (Except (ScanError C) (Lexeme C K))} (h : s.Produces xs last)
    (hone : ∀ c, Rule.Unambiguous s.ctx s.bound c s.rules)
    (hsame : Rule.SameUnranked s.rules rules') :
    ∃ last', ({ s with rules := rules' } : Scanner C T Ctx K).Produces xs last' := by
  induction h with
  | done hd => exact ⟨_, .done hd⟩
  | @turn s last l xs hd hl _ ih =>
    have hl' := hl.of_sameUnranked (hone _) hsame
    cases l with
    | none =>
      obtain ⟨last', hp⟩ := ih hone hsame
      exact ⟨last', .turn (s := { s with rules := rules' }) hd hl' hp⟩
    | some l =>
      obtain ⟨last', hp⟩ := ih hone hsame
      exact ⟨last', .turn (s := { s with rules := rules' }) hd hl' hp⟩

end Scanner

variable [LawfulCursor C]

theorem Rule.Implement.unambiguous {grammar : K → Language T} (h : Rule.Implement rules grammar)
    (hkinds : (rules.map (·.kind)).Nodup) (ctx : Ctx) (bound c : C) :
    Rule.Unambiguous ctx bound c rules where
  ends r hr := h.exists_yields hr ctx bound c
  apart := by
    have hword : ∀ r ∈ rules, r.Takes ctx bound c →
        ∃ x w, x :: w <+: span bound c ∧ x :: w ∈ grammar r.kind := by
      rintro r hr ⟨o, ho, ht⟩
      rcases h.outcome_cases hr ho with ⟨w, hw, rfl⟩ | ⟨-, hrej⟩
      · cases w with
        | nil =>
          rw [Outcome.takes, List.length_nil, Cursor.advanced_zero, Outcome.accept,
            LawfulCursor.beq_refl] at ht
          cases ht
        | cons x w => exact ⟨x, w, hw.begins, hw.mem⟩
      · rw [Outcome.takes, hrej] at ht
        cases ht
    refine (List.pairwise_map.mp hkinds).imp_of_mem fun {r r'} hr hr' hne hboth => hne ?_
    obtain ⟨x, w, hbegin, hmem⟩ := hword r hr hboth.1
    obtain ⟨x', w', hbegin', hmem'⟩ := hword r' hr' hboth.2
    obtain rfl : x = x' := by
      obtain ⟨t, ht⟩ := hbegin
      obtain ⟨t', ht'⟩ := hbegin'
      exact (List.cons.inj (ht.trans ht'.symm)).1
    exact h.apart _ _ x w w' hmem hmem'

end

namespace Calculator

/-- At every place at most one of the rules takes something, and each of them comes to an end there.
So with these rules in any order and of any priorities, the scan of an expression gives the same
lexemes, or gets stuck at the same place. -/
theorem rules_unambiguous :
    (∀ bound c : TextCursor, Rule.Unambiguous () bound c rules) ∧
      ∀ expression, ∃ xs, (∃ last, Ends (scanner expression).items (xs, last)) ∧
        (scan expression).value? = some (xs.mapM id) ∧
        ∀ rules' : List (Rule TextCursor Char Unit Kind),
          (rules'.map Rule.unranked).Perm (rules.map Rule.unranked) →
          (∃ last, Ends (scannerOf rules' expression).items (xs, last)) ∧
            (scanWith rules' expression).value? = some (xs.mapM id) := by
  have hkinds : ((rules : List (Rule TextCursor Char Unit Kind)).map (·.kind)).Nodup := by decide
  have hkinds' : ((Rule.byPriority rules : List (Rule TextCursor Char Unit Kind)).map
    (·.kind)).Nodup := by decide
  refine ⟨rules_implement.unambiguous hkinds (), fun expression => ?_⟩
  let s := scanner expression
  have hone : ∀ c, Rule.Unambiguous s.ctx s.bound c s.rules :=
    rules_implement.byPriority.unambiguous hkinds' () s.bound
  obtain ⟨xs, last, hp⟩ := Scanner.exists_produces_of_implement (scanner_implement expression) rfl
    (scanner_precedes expression)
  refine ⟨xs, ⟨last, Scanner.items_ends_iff.mpr hp⟩,
    value?_scanWith rules_implement.callbackFree hp, fun rules' hperm => ?_⟩
  have hsame := Rule.SameUnranked.of_perm hperm
  have hfree : ∀ r ∈ rules', r.recognizer.table.CallbackFree := by
    intro r' hr'
    obtain ⟨r, hr, -, hrec⟩ := hsame.exists_rule hr'
    exact hrec ▸ rules_implement.callbackFree r hr
  obtain ⟨last', hp'⟩ := hp.of_sameUnranked hone hsame.byPriority
  exact ⟨⟨last', Scanner.items_ends_iff.mpr hp'⟩, value?_scanWith hfree hp'⟩

theorem rules_unambiguous_backwards :
    let rules' := (rules : List (Rule TextCursor Char Unit Kind)).reverse.map fun r =>
      { r with priority := -r.priority }
    (rules'.map Rule.unranked).Perm (rules.map Rule.unranked) ∧
      (scanWith rules' "r=2.").value? =
        some (.error (.noMatch (advanced 3 (TextCursor.start 0 "r=2.")))) := by
  intro rules'
  have hperm : (rules'.map Rule.unranked).Perm (rules.map Rule.unranked) := by
    rw [List.map_map]
    exact (List.reverse_perm rules).map Rule.unranked
  obtain ⟨xs, -, hscan, hsame⟩ := rules_unambiguous.2 "r=2."
  have hstuck : (scan "r=2.").value? =
      some (.error (.noMatch (advanced 3 (TextCursor.start 0 "r=2.")))) := rfl
  exact ⟨hperm, (hsame rules' hperm).2.trans (hscan.symm.trans hstuck)⟩

end Calculator

end TableAutomata
