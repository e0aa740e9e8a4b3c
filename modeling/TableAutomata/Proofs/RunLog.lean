import TableAutomata.Proofs.Level

/-! What a run puts on record: entry by entry what came of trying it, the record of a nested run
before that of the entry it is nested in, and at last the outcome of the run itself. -/

namespace TableAutomata

variable {C T Ctx : Type}

namespace Record

def isRun : Record C T Ctx → Bool
  | run .. => true
  | _ => false

def isNestedEntry : Record C T Ctx → Bool
  | entry _ (.nested ..) _ _ => true
  | _ => false

theorem isNestedEntry_step {m : Matcher C T Ctx} (h : m.IsStep) (i : Nat) (c : C) (o : Outcome C) :
    (entry i m c o).isNestedEntry = false := by
  cases m with
  | nested => cases h
  | _ => rfl

end Record

variable [Cursor C T] [BEq T] [LE T] [DecidableLE T]

/-- `log` is on record of a run from the link `s` at `c` until the link that leads out of the table,
`vs` being the entries tried. A single step is on record as one entry. A nested run is on record in
full, down to the tables nested in it, and the entry comes behind. -/
inductive Logged (ctx : Ctx) (bound : C) : (t : Table C T Ctx) → Option (Fin t.size) → C →
    List (Visit C) → List (Record C T Ctx) → Prop where
  | leave {t : Table C T Ctx} {c : C} : Logged ctx bound t none c [] []
  | step {t : Table C T Ctx} {i : Fin t.size} {c : C} {o : Outcome C} {vs : List (Visit C)}
      {log : List (Record C T Ctx)} :
      (t.matcher i).IsStep → (t.matcher i).Yields ctx bound c o →
      Logged ctx bound t ((t.link i).next o.accepted) (o.move c) vs log →
      Logged ctx bound t (some i) c (⟨i, c, o⟩ :: vs) (.entry i (t.matcher i) c o :: log)
  | nested {t t' : Table C T Ctx} {i : Fin t.size} {s : Fin t'.size} {c : C} {o : Outcome C}
      {vs ws : List (Visit C)} {log inner : List (Record C T Ctx)} :
      t.matcher i = t'.toMatcher s → Logged ctx bound t' (some s) c ws inner →
      o = verdict t'.entries bound ws →
      Logged ctx bound t ((t.link i).next o.accepted) (o.move c) vs log →
      Logged ctx bound t (some i) c (⟨i, c, o⟩ :: vs)
        (inner ++ .run t'.size s o :: .entry i (t.matcher i) c o :: log)

/-- What trying a matcher puts on record: nothing for a single step, a whole run for a table. -/
def Matcher.Emits (ctx : Ctx) (bound : C) (m : Matcher C T Ctx) (c : C) (o : Outcome C)
    (log : List (Record C T Ctx)) : Prop :=
  m.IsStep ∧ m.Yields ctx bound c o ∧ log = [] ∨
    ∃ (t : Table C T Ctx) (s : Fin t.size) (vs : List (Visit C)) (body : List (Record C T Ctx)),
      m = t.toMatcher s ∧ Logged ctx bound t (some s) c vs body ∧ o = verdict t.entries bound vs ∧
        log = body ++ [.run t.size s o]

variable {ctx : Ctx} {bound c : C} {t : Table C T Ctx} {s : Option (Fin t.size)}
  {vs ws : List (Visit C)} {log log' : List (Record C T Ctx)} {o : Outcome C}

namespace Logged

theorem visit {i : Fin t.size} {before : List (Record C T Ctx)}
    (hm : (t.matcher i).Emits ctx bound c o before)
    (h : Logged ctx bound t ((t.link i).next o.accepted) (o.move c) vs log) :
    Logged ctx bound t (some i) c (⟨i, c, o⟩ :: vs)
      (before ++ .entry i (t.matcher i) c o :: log) := by
  rcases hm with ⟨hstep, ho, rfl⟩ | ⟨t', s', ws, body, hm, hbody, ho, rfl⟩
  · exact .step hstep ho h
  · have hnested := Logged.nested hm hbody ho h
    rwa [List.append_assoc]

theorem trail (h : Logged ctx bound t s c vs log) :
    ∃ d, Trail t.entries (Matcher.Yields ctx bound) (.ofLink s) c vs .terminal d := by
  induction h with
  | leave => exact ⟨_, .stay⟩
  | @step t i c o vs log _ ho _ ih =>
    obtain ⟨d, hvs⟩ := ih
    rw [← Table.next_entry] at hvs
    exact ⟨d, .visit (Table.getElem?_entries_fin i) ho hvs⟩
  | @nested t t' i s c o vs ws log inner hm _ ho _ ih ih' =>
    obtain ⟨d, hvs⟩ := ih'
    rw [← Table.next_entry] at hvs
    have hyields : (t.matcher i).Yields ctx bound c o := by
      rw [hm]
      exact Table.yields_iff_path.mpr ⟨ws, ih, ho⟩
    exact ⟨d, .visit (Table.getElem?_entries_fin i) hyields hvs⟩

theorem countP_isRun (h : Logged ctx bound t s c vs log) :
    log.countP Record.isRun = log.countP Record.isNestedEntry := by
  induction h with
  | leave => rfl
  | step hm _ _ ih => simp [Record.isRun, Record.isNestedEntry_step hm, ih]
  | @nested t t' i s c o vs ws log inner hm _ _ _ ih ih' =>
    have hentry : (Record.entry i (t.matcher i) c o).isNestedEntry = true := by rw [hm]; rfl
    have hrun : (Record.run t'.size s o : Record C T Ctx).isNestedEntry = false := rfl
    simp [List.countP_cons, Record.isRun, hentry, hrun, ih, ih']

theorem length_of_steps (h : Logged ctx bound t s c vs log) (hm : ∀ i, (t.matcher i).IsStep) :
    log.length = vs.length := by
  induction h with
  | leave => rfl
  | step _ _ _ ih => simp [ih hm]
  | @nested t t' i s c o vs ws log inner hi _ _ _ _ _ =>
    have hstep := hm i
    rw [hi] at hstep
    cases hstep

theorem unique (h : Logged ctx bound t s c vs log) (h' : Logged ctx bound t s c ws log') :
    vs = ws ∧ log = log' := by
  induction h generalizing ws log' with
  | leave =>
    cases h'
    exact ⟨rfl, rfl⟩
  | step hm ho _ ih =>
    cases h' with
    | step _ ho' h' =>
      obtain rfl := ho.unique ho'
      obtain ⟨rfl, rfl⟩ := ih h'
      exact ⟨rfl, rfl⟩
    | nested hn =>
      rw [hn] at hm
      cases hm
  | @nested t t' i s c o vs ws₁ log inner hm _ ho _ ih ih' =>
    cases h' with
    | step hs =>
      rw [hm] at hs
      cases hs
    | @nested _ t₂ _ s₂ _ o₂ _ ws₂ _ inner₂ hm' hinner ho' h' =>
      cases Level.eq_of_toMatcher_eq (hm.symm.trans hm') c
      obtain ⟨rfl, rfl⟩ := ih hinner
      obtain rfl := ho.trans ho'.symm
      obtain ⟨rfl, rfl⟩ := ih' h'
      exact ⟨rfl, rfl⟩

end Logged

theorem Table.attempt_eq_some_iff {visits : Nat} {i : Fin t.size} :
    t.attempt visits ctx bound i c = some (o, log) ↔
      ∃ before, (t.matcher i).apply visits ctx bound c = some (o, before) ∧
        log = before ++ [.entry i (t.matcher i) c o] := by
  rw [attempt, Recording.bind_eq_some_iff]
  constructor
  · rintro ⟨o', before, after, ho, hnote, rfl⟩
    cases hnote
    exact ⟨before, ho, rfl⟩
  · rintro ⟨before, ho, rfl⟩
    exact ⟨o, before, [.entry i (t.matcher i) c o], ho, rfl, rfl⟩

theorem Table.exists_logged_of_follow {visits budget : Nat} {p q : Progress C}
    (hm : ∀ (i : Fin t.size) (d : C) (o : Outcome C) (log : List (Record C T Ctx)),
      (t.matcher i).apply visits ctx bound d = some (o, log) →
      (t.matcher i).Emits ctx bound d o log)
    (h : follow t.link (t.attempt visits ctx bound) budget s p = some (q, log)) :
    ∃ vs, Logged ctx bound t s p.cursor vs log ∧ q = p.afterAll t.entries vs := by
  induction budget generalizing s p log with
  | zero =>
    cases s with
    | none =>
      cases h
      exact ⟨[], .leave, rfl⟩
    | some i => cases h
  | succ budget ih =>
    cases s with
    | none =>
      cases h
      exact ⟨[], .leave, rfl⟩
    | some i =>
      obtain ⟨o, first, rest, ho, hrest, rfl⟩ := Recording.bind_eq_some_iff.mp h
      obtain ⟨before, happly, rfl⟩ := attempt_eq_some_iff.mp ho
      obtain ⟨vs, hvs, rfl⟩ := ih hrest
      rw [Progress.cursor_after] at hvs
      have hvisit := Logged.visit (hm i p.cursor o before happly) hvs
      refine ⟨⟨i, p.cursor, o⟩ :: vs, ?_, ?_⟩
      · rwa [List.append_assoc]
      · simp [Progress.afterAll, accepts_entries]

theorem Matcher.emits (m : Matcher C T Ctx) {visits : Nat}
    (h : m.apply visits ctx bound c = some (o, log)) : m.Emits ctx bound c o log := by
  induction m generalizing c o log with
  | @nested size link matcher start ih =>
    let t : Table C T Ctx := ⟨size, start.pos, link, matcher⟩
    have hrun : t.run start visits ctx bound c = some (o, log) := h
    rw [Table.run_eq_follow] at hrun
    obtain ⟨q, body, last, hq, hlast, rfl⟩ := Recording.bind_eq_some_iff.mp hrun
    cases hlast
    obtain ⟨vs, hvs, rfl⟩ := Table.exists_logged_of_follow (t := t) (fun i d o log => ih i) hq
    have ho := Progress.outcome_afterAll_start t.entries bound c vs
    exact .inr ⟨t, start, vs, body, rfl, hvs, ho, rfl⟩
  | _ =>
    cases h
    exact .inl ⟨trivial, ⟨0, rfl⟩, rfl⟩

/-- What a run that ends puts on record. Its entries form the path of the run, each behind the record
of the run nested in it, if there is one, and its outcome comes last and is the verdict on the path.
Nothing else can be on record, and there are as many outcomes of runs as nested tables were tried, and
one more. -/
theorem run_log_nests {t : Table C T Ctx} {start : Fin t.size} {visits : Nat} {ctx : Ctx}
    {bound c : C} {o : Outcome C} {log : List (Record C T Ctx)}
    (h : t.run start visits ctx bound c = some (o, log)) :
    ∃ vs body, log = body ++ [.run t.size start o] ∧
      Logged ctx bound t (some start) c vs body ∧
      (∀ ws body', Logged ctx bound t (some start) c ws body' → ws = vs ∧ body' = body) ∧
      Path t.entries ctx bound start c vs ∧ o = verdict t.entries bound vs ∧
      log.countP Record.isRun = 1 + log.countP Record.isNestedEntry ∧
      ((∀ i, (t.matcher i).IsStep) → log.length = vs.length + 1) := by
  rcases (t.toMatcher start).emits h with ⟨hstep, -, -⟩ | ⟨t', s', vs, body, hm, hbody, ho, rfl⟩
  · cases hstep
  · cases Level.eq_of_toMatcher_eq hm c
    refine ⟨vs, body, rfl, hbody, fun ws body' h' => h'.unique hbody, hbody.trail, ho, ?_,
      fun hsteps => ?_⟩
    · have hcount := hbody.countP_isRun
      have hrun : (Record.run t.size start o : Record C T Ctx).isNestedEntry = false := rfl
      simp [Record.isRun, hrun, hcount, Nat.add_comm]
    · simp [hbody.length_of_steps hsteps]

theorem run_log_nests_digits :
    ∃ log vs body, digitsTable.run digitsTable.first 3 () (ArrayCursor.stop 0 #['1', '9', 'x'])
        (.start 0 #['1', '9', 'x']) =
          some (.accept (Cursor.advanced 2 (.start 0 #['1', '9', 'x'])), log) ∧
      log = body ++ [.run 1 0 (.accept (Cursor.advanced 2 (.start 0 #['1', '9', 'x'])))] ∧
      Logged () (ArrayCursor.stop 0 #['1', '9', 'x']) digitsTable (some digitsTable.first)
        (.start 0 #['1', '9', 'x']) vs body ∧
      log.countP Record.isNestedEntry = 3 ∧ log.countP Record.isRun = 4 := by
  obtain ⟨log, hlog, hnested⟩ : ∃ log, digitsTable.run digitsTable.first 3 ()
      (ArrayCursor.stop 0 #['1', '9', 'x']) (.start 0 #['1', '9', 'x']) =
        some (.accept (Cursor.advanced 2 (.start 0 #['1', '9', 'x'])), log) ∧
      log.countP Record.isNestedEntry = 3 := ⟨_, rfl, rfl⟩
  obtain ⟨vs, body, hbody, hlogged, -, -, -, hcount, -⟩ := run_log_nests hlog
  exact ⟨log, vs, body, hlog, hbody, hlogged, hnested, by omega⟩

end TableAutomata
