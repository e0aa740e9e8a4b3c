import TableAutomata.Grammar.Abnf
import TableAutomata.Input.ArrayCursor
import TableAutomata.Proofs.Trail

/-! What a run yields, told without the loop that finds it. A run yields an outcome exactly if a path
of visits leads from its start out of the table, and then the outcome is the verdict on that path. -/

namespace TableAutomata

variable {C T Ctx : Type} [Cursor C T] [BEq T] [LE T] [DecidableLE T]

/-- All visits of a run over the entries `es` that begins at entry `start` and leaves the table. -/
def Path (es : List (Entry C T Ctx)) (ctx : Ctx) (bound : C) (start : Nat) (c : C)
    (vs : List (Visit C)) : Prop :=
  ∃ d, Trail es (Matcher.Yields ctx bound) (.index start) c vs .terminal d

def Matcher.YieldsWithin (visits : Nat) (ctx : Ctx) (bound : C) (m : Matcher C T Ctx) (c : C)
    (o : Outcome C) : Prop :=
  (m.apply visits ctx bound c).value? = some o

namespace Table

variable {t : Table C T Ctx}

omit [Cursor C T] [BEq T] [LE T] [DecidableLE T] in
theorem getElem?_entries_fin (i : Fin t.size) : t.entries[i.val]? = some (t.entry i) :=
  getElem?_entries.mpr ⟨i.isLt, rfl⟩

omit [Cursor C T] [BEq T] [LE T] [DecidableLE T] in
theorem next_entry (i : Fin t.size) (accepted : Bool) :
    (t.entry i).next accepted = .ofLink ((t.link i).next accepted) := by
  cases accepted <;> rfl

omit [Cursor C T] [BEq T] [LE T] [DecidableLE T] in
theorem accepts_entries (i : Fin t.size) : accepts t.entries i = (t.link i).accepting := by
  simp [accepts, getElem?_entries_fin, entry]

theorem value?_follow_none_iff {visits budget : Nat} {ctx : Ctx} {bound : C} {p q : Progress C} :
    (follow t.link (t.attempt visits ctx bound) budget none p).value? = some q ↔
      ∃ vs d, Trail t.entries (Matcher.YieldsWithin visits ctx bound) .terminal p.cursor vs
        .terminal d ∧ vs.length ≤ budget ∧ q = p.afterAll t.entries vs := by
  rw [follow_none, Recording.value?_pure, Option.some.injEq]
  constructor
  · rintro rfl
    exact ⟨[], p.cursor, .stay, Nat.zero_le _, rfl⟩
  · rintro ⟨vs, d, h, -, rfl⟩
    rw [h.eq_nil_of_terminal]
    rfl

theorem value?_follow_iff {visits budget : Nat} {ctx : Ctx} {bound : C} {s : Option (Fin t.size)}
    {p q : Progress C} :
    (follow t.link (t.attempt visits ctx bound) budget s p).value? = some q ↔
      ∃ vs d, Trail t.entries (Matcher.YieldsWithin visits ctx bound) (.ofLink s) p.cursor vs
        .terminal d ∧ vs.length ≤ budget ∧ q = p.afterAll t.entries vs := by
  induction budget generalizing s p with
  | zero =>
    cases s with
    | none => exact value?_follow_none_iff
    | some i =>
      constructor
      · intro h
        cases h
      · rintro ⟨vs, d, h, hl, -⟩
        cases h
        simp at hl
  | succ budget ih =>
    cases s with
    | none => exact value?_follow_none_iff
    | some i =>
      have hstep : (follow t.link (t.attempt visits ctx bound) (budget + 1) (some i) p).value? =
          (((t.matcher i).apply visits ctx bound p.cursor).value?.bind fun o =>
            (follow t.link (t.attempt visits ctx bound) budget ((t.link i).next o.accepted)
              (p.after (t.link i).accepting o)).value?) := by
        simp only [follow, Recording.value?_bind, value?_attempt]
      rw [hstep, Option.bind_eq_some_iff]
      constructor
      · rintro ⟨o, ho, h⟩
        obtain ⟨vs, d, hvs, hl, rfl⟩ := ih.mp h
        rw [Progress.cursor_after, ← next_entry] at hvs
        refine ⟨⟨i, p.cursor, o⟩ :: vs, d, .visit (getElem?_entries_fin i) ho hvs, ?_, ?_⟩
        · simpa using hl
        · simp [Progress.afterAll, accepts_entries]
      · rintro ⟨vs, d, h, hl, rfl⟩
        cases h with
        | visit he ho hr =>
          cases (getElem?_entries_fin i).symm.trans he
          rw [next_entry, ← Progress.cursor_after p (t.link i).accepting] at hr
          refine ⟨_, ho, ih.mpr ⟨_, d, hr, by simpa using hl, ?_⟩⟩
          simp [Progress.afterAll, accepts_entries]

theorem value?_run_iff {start : Fin t.size} {visits : Nat} {ctx : Ctx} {bound c : C}
    {o : Outcome C} :
    (t.run start visits ctx bound c).value? = some o ↔
      ∃ vs d, Trail t.entries (Matcher.YieldsWithin visits ctx bound) (.index start) c vs
        .terminal d ∧ vs.length ≤ t.size * visits ∧ o = verdict t.entries bound vs := by
  rw [value?_run, Option.map_eq_some_iff]
  constructor
  · rintro ⟨p, hp, rfl⟩
    obtain ⟨vs, d, hvs, hl, rfl⟩ := value?_follow_iff.mp hp
    exact ⟨vs, d, hvs, hl, Progress.outcome_afterAll_start _ _ _ _⟩
  · rintro ⟨vs, d, hvs, hl, rfl⟩
    exact ⟨_, value?_follow_iff.mpr ⟨vs, d, hvs, hl, rfl⟩, Progress.outcome_afterAll_start _ _ _ _⟩

end Table

theorem Trail.eventually_within {es : List (Entry C T Ctx)} {ctx : Ctx} {bound c d : C}
    {s s' : Target} {vs : List (Visit C)} (h : Trail es (Matcher.Yields ctx bound) s c vs s' d) :
    ∃ visits, ∀ w, visits ≤ w → Trail es (Matcher.YieldsWithin w ctx bound) s c vs s' d := by
  induction h with
  | stay => exact ⟨0, fun _ _ => .stay⟩
  | visit he ho _ ih =>
    obtain ⟨v, hv⟩ := Recording.Ends.eventually (Matcher.apply_steady _ _) ho
    obtain ⟨w, hw⟩ := ih
    exact ⟨max v w, fun x hx => .visit he (hv x (by omega)) (hw x (by omega))⟩

theorem Table.yields_iff_path {t : Table C T Ctx} {start : Fin t.size} {ctx : Ctx} {bound c : C}
    {o : Outcome C} :
    (t.toMatcher start).Yields ctx bound c o ↔
      ∃ vs, Path t.entries ctx bound start c vs ∧ o = verdict t.entries bound vs := by
  constructor
  · rintro ⟨visits, h⟩
    obtain ⟨vs, d, hvs, -, rfl⟩ := Table.value?_run_iff.mp h
    exact ⟨vs, ⟨d, hvs.mono fun _ _ _ h => ⟨visits, h⟩⟩, rfl⟩
  · rintro ⟨vs, ⟨d, hvs⟩, rfl⟩
    obtain ⟨visits, hw⟩ := hvs.eventually_within
    refine ⟨max visits vs.length, Table.value?_run_iff.mpr ⟨vs, d, hw _ (by omega), ?_, rfl⟩⟩
    calc vs.length ≤ max visits vs.length := Nat.le_max_right _ _
      _ ≤ t.size * max visits vs.length := Nat.le_mul_of_pos_left _ t.size_pos

theorem Path.unique {es : List (Entry C T Ctx)} {ctx : Ctx} {bound c : C} {start : Nat}
    {vs ws : List (Visit C)} (h : Path es ctx bound start c vs)
    (h' : Path es ctx bound start c ws) : vs = ws := by
  obtain ⟨d, h⟩ := h
  obtain ⟨d', h'⟩ := h'
  exact h.terminal_unique (fun _ _ _ _ ho ho' => ho.unique ho') h'

/-- A built table run from one of its entries yields an outcome exactly if a path over the entries
it was built from leads out of the table, and the outcome is the verdict on that path. There is at
most one such path. -/
theorem runFrom?_iff_path {es : List (Entry C T Ctx)} {t : Table C T Ctx}
    (ht : Table.ofEntries? es = .ok t) {start : Nat} (hs : start < t.size) (ctx : Ctx)
    (bound c : C) :
    (∀ o, (∃ visits, (t.runFrom? start visits ctx bound c).map Recording.value? = .ok (some o)) ↔
        ∃ vs, Path es ctx bound start c vs ∧ o = verdict es bound vs) ∧
      ∀ vs ws, Path es ctx bound start c vs → Path es ctx bound start c ws → vs = ws := by
  obtain rfl := Table.entries_eq_of_ofEntries? ht
  refine ⟨fun o => ?_, fun _ _ => Path.unique⟩
  have hstart : ∀ visits, (t.runFrom? start visits ctx bound c).map Recording.value? =
      .ok (t.run ⟨start, hs⟩ visits ctx bound c).value? := by
    intro visits
    simp [Table.runFrom?, Table.start?, hs, Except.map]
  simp only [hstart, Except.ok.injEq]
  have h := @Table.yields_iff_path C T Ctx _ _ _ _ t ⟨start, hs⟩ ctx bound c o
  exact h

def digits : List (Entry (ArrayCursor Char) Char Unit) :=
  [.accept (.index 0) .terminal Abnf.digit.toStep]

def digitsTable : Table (ArrayCursor Char) Char Unit :=
  .ofEntries digits (List.cons_ne_nil _ _)

theorem runFrom?_iff_path_digits :
    ∃ t, Table.ofEntries? digits = .ok t ∧ 0 < t.size ∧
      ∃ vs, Path digits () (ArrayCursor.stop 0 #['1', '9', 'x']) 0
          (ArrayCursor.start 0 #['1', '9', 'x']) vs ∧
        Outcome.accept (Cursor.advanced 2 (ArrayCursor.start 0 #['1', '9', 'x'])) =
          verdict digits (ArrayCursor.stop 0 #['1', '9', 'x']) vs :=
  ⟨_, rfl, by decide, ((runFrom?_iff_path rfl (by decide) () _ _).1 _).mp ⟨3, rfl⟩⟩

end TableAutomata
