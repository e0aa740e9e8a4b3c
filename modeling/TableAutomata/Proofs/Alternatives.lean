import TableAutomata.Proofs.Chain
import TableAutomata.Proofs.Relabelling

/-! Chains of alternatives: every entry is tried at the place where the run begins, until one accepts.
So a block of alternatives may be put into a table of its own. -/

namespace TableAutomata

open Recording (Ends)

variable {C T Ctx : Type}

/-- The matchers as alternatives. A success leads out of the table, and a failure to the next of them. -/
def alternatives (ms : List (Matcher C T Ctx)) : List (Entry C T Ctx) :=
  ms.mapIdx fun i m => .accept .terminal (stage ms.length .terminal (i + 1)) m

/-- A block of the alternatives `ms`, put into a table of its own, is one alternative of `ns`. -/
def Groups (ms ns : List (Matcher C T Ctx)) : Prop :=
  ∃ before block after t, Table.ofEntries? (alternatives block) = .ok t ∧
    ms = before ++ block ++ after ∧ ns = before ++ t.toStep :: after

theorem getElem?_alternatives (ms : List (Matcher C T Ctx)) (i : Nat) :
    (alternatives ms)[i]? = ms[i]?.map (.accept .terminal (stage ms.length .terminal (i + 1))) :=
  List.getElem?_mapIdx

theorem exists_table_alternatives {ms : List (Matcher C T Ctx)} (hne : ms ≠ []) :
    ∃ t, Table.ofEntries? (alternatives ms) = .ok t := by
  refine Table.exists_ofEntries?_mapIdx _ hne fun i m => ?_
  exact Entry.dangling?_eq_none_iff.mpr ⟨rfl, stage_dangling? rfl (i + 1)⟩

theorem ne_nil_of_alternatives {ms : List (Matcher C T Ctx)} {t : Table C T Ctx}
    (h : Table.ofEntries? (alternatives ms) = .ok t) : ms ≠ [] := by
  rintro rfl
  cases h

theorem Groups.eq_nil_iff {ms ns : List (Matcher C T Ctx)} (h : Groups ms ns) :
    ms = [] ↔ ns = [] := by
  obtain ⟨before, block, after, t, ht, rfl, rfl⟩ := h
  simp [ne_nil_of_alternatives ht]

theorem eq_nil_iff_of_eqvGen {ms ns : List (Matcher C T Ctx)} (h : Relation.EqvGen Groups ms ns) :
    ms = [] ↔ ns = [] :=
  (eq_of_eqvGen (fun _ _ h => propext h.eq_nil_iff) h).to_iff

variable [Cursor C T] [BEq T] [LE T] [DecidableLE T]

namespace Matcher

def Refuses (ctx : Ctx) (bound : C) (m : Matcher C T Ctx) (c : C) : Prop :=
  ∃ o, m.Yields ctx bound c o ∧ o.accepted = false

end Matcher

/-- The outcome at `c` of the first of the matchers that accepts there, or of the last matcher if none
does. -/
def Chooses (ctx : Ctx) (bound c : C) (ms : List (Matcher C T Ctx)) (o : Outcome C) : Prop :=
  ∃ before m after, ms = before ++ m :: after ∧ (∀ n ∈ before, n.Refuses ctx bound c) ∧
    m.Yields ctx bound c o ∧ (o.accepted = true ∨ after = [])

namespace Chooses

variable {ctx : Ctx} {bound c : C} {ms ns : List (Matcher C T Ctx)} {m : Matcher C T Ctx}
  {o : Outcome C}

theorem not_nil : ¬ Chooses ctx bound c [] o := by
  rintro ⟨before, m, after, h, -⟩
  simp at h

theorem cons_iff : Chooses ctx bound c (m :: ms) o ↔
    m.Yields ctx bound c o ∧ (o.accepted = true ∨ ms = []) ∨
      m.Refuses ctx bound c ∧ Chooses ctx bound c ms o := by
  constructor
  · rintro ⟨before, n, after, h, hrefuse, hy, hend⟩
    cases before with
    | nil =>
      obtain ⟨rfl, rfl⟩ := List.cons.inj h
      exact .inl ⟨hy, hend⟩
    | cons k before =>
      obtain ⟨rfl, rfl⟩ := List.cons.inj h
      obtain ⟨hm, hrefuse⟩ := List.forall_mem_cons.mp hrefuse
      exact .inr ⟨hm, before, n, after, rfl, hrefuse, hy, hend⟩
  · rintro (⟨hy, hend⟩ | ⟨hm, before, n, after, rfl, hrefuse, hy, hend⟩)
    · exact ⟨[], m, ms, rfl, by simp, hy, hend⟩
    · exact ⟨m :: before, n, after, rfl, List.forall_mem_cons.mpr ⟨hm, hrefuse⟩, hy, hend⟩

theorem append_iff : Chooses ctx bound c (ms ++ ns) o ↔
    Chooses ctx bound c ms o ∧ (o.accepted = true ∨ ns = []) ∨
      (∀ m ∈ ms, m.Refuses ctx bound c) ∧ Chooses ctx bound c ns o := by
  induction ms with
  | nil => simp [not_nil]
  | cons m ms ih =>
    rw [List.cons_append, cons_iff, ih, cons_iff, List.forall_mem_cons, List.append_eq_nil_iff]
    grind

theorem exists_rejected_iff (hne : ms ≠ []) :
    (∃ o, Chooses ctx bound c ms o ∧ o.accepted = false) ↔ ∀ m ∈ ms, m.Refuses ctx bound c := by
  constructor
  · rintro ⟨o, ⟨before, m, after, rfl, hrefuse, hy, hend⟩, hrej⟩
    have hlast : after = [] := by simpa [hrej] using hend
    subst hlast
    intro n hn
    rcases List.mem_append.mp hn with hn | hn
    · exact hrefuse n hn
    · rw [List.mem_singleton.mp hn]
      exact ⟨o, hy, hrej⟩
  · intro hrefuse
    have hsplit := List.dropLast_append_getLast hne
    obtain ⟨o, hy, hrej⟩ := hrefuse _ (List.getLast_mem hne)
    refine ⟨o, ⟨ms.dropLast, ms.getLast hne, [], hsplit.symm, fun n hn => ?_, hy, .inr rfl⟩, hrej⟩
    exact hrefuse n (List.mem_of_mem_dropLast hn)

theorem exists_of_yields (hne : ms ≠ []) (h : ∀ m ∈ ms, ∃ o, m.Yields ctx bound c o) :
    ∃ o, Chooses ctx bound c ms o := by
  induction ms with
  | nil => exact absurd rfl hne
  | cons m ms ih =>
    obtain ⟨⟨o, hy⟩, hms⟩ := List.forall_mem_cons.mp h
    cases ha : o.accepted with
    | true => exact ⟨o, cons_iff.mpr (.inl ⟨hy, .inl ha⟩)⟩
    | false =>
      by_cases he : ms = []
      · exact ⟨o, cons_iff.mpr (.inl ⟨hy, .inr he⟩)⟩
      · obtain ⟨o', ho'⟩ := ih he hms
        exact ⟨o', cons_iff.mpr (.inr ⟨⟨o, hy, ha⟩, ho'⟩)⟩

end Chooses

variable {ctx : Ctx} {bound c d : C} {ms ns : List (Matcher C T Ctx)} {m : Matcher C T Ctx}
  {w o : Outcome C} {t : Table C T Ctx}

theorem comes_index_iff {i : Nat} (hm : ms[i]? = some m) (hw : w.accepted = false) :
    Comes (alternatives ms) ctx bound (.index i) c w o ↔
      m.Yields ctx bound c o ∧ o.accepted = true ∨
        ∃ r, m.Yields ctx bound c r ∧ r.accepted = false ∧
          Comes (alternatives ms) ctx bound (stage ms.length .terminal (i + 1)) c r o := by
  have he := getElem?_alternatives ms i
  rw [hm] at he
  rw [Comes.index_iff he]
  simp only [Entry.accept, Outcome.amend_of_rejected hw]
  constructor
  · rintro ⟨r, hy, h⟩
    cases ha : r.accepted with
    | true =>
      rw [ha] at h
      obtain rfl := Comes.terminal_iff.mp h
      exact .inl ⟨hy, ha⟩
    | false =>
      rw [ha, Outcome.move, ha] at h
      exact .inr ⟨r, hy, ha, h⟩
  · rintro (⟨hy, ha⟩ | ⟨r, hy, hrej, h⟩)
    · refine ⟨o, hy, ?_⟩
      rw [ha]
      exact .leave
    · refine ⟨r, hy, ?_⟩
      rw [hrej, Outcome.move, hrej]
      exact h

theorem comes_alternatives_iff {i : Nat} {rest : List (Matcher C T Ctx)}
    (hi : ms.drop i = m :: rest) (hw : w.accepted = false) :
    Comes (alternatives ms) ctx bound (.index i) c w o ↔ Chooses ctx bound c (m :: rest) o := by
  induction rest generalizing i m w with
  | nil =>
    obtain ⟨hm, -, hlen⟩ := drop_eq_cons hi
    have hend : i + 1 = ms.length := hlen
    have hlast : (∃ r, m.Yields ctx bound c r ∧ r.accepted = false ∧ o = r) ↔
        m.Yields ctx bound c o ∧ o.accepted = false := by
      constructor
      · rintro ⟨r, hy, hrej, rfl⟩
        exact ⟨hy, hrej⟩
      · rintro ⟨hy, hrej⟩
        exact ⟨o, hy, hrej, rfl⟩
    rw [comes_index_iff hm hw, Chooses.cons_iff, hend, stage_self]
    simp only [Comes.terminal_iff, hlast, Chooses.not_nil]
    cases o.accepted <;> simp
  | cons n rest ih =>
    obtain ⟨hm, hnext, hlen⟩ := drop_eq_cons hi
    have hlt : i + 1 < ms.length := by
      rw [List.length_cons] at hlen
      omega
    have hrest : (∃ r, m.Yields ctx bound c r ∧ r.accepted = false ∧
        Comes (alternatives ms) ctx bound (.index (i + 1)) c r o) ↔
          m.Refuses ctx bound c ∧ Chooses ctx bound c (n :: rest) o := by
      constructor
      · rintro ⟨r, hy, hrej, h⟩
        exact ⟨⟨r, hy, hrej⟩, (ih hnext hrej).mp h⟩
      · rintro ⟨⟨r, hy, hrej⟩, h⟩
        exact ⟨r, hy, hrej, (ih hnext hrej).mpr h⟩
    rw [comes_index_iff hm hw, Chooses.cons_iff, stage_of_lt hlt, hrest]
    simp

theorem yields_alternatives_iff (ht : Table.ofEntries? (alternatives ms) = .ok t) :
    t.toStep.Yields ctx bound c o ↔ Chooses ctx bound c ms o := by
  refine (Comes.iff_ends ht).symm.trans ?_
  cases ms with
  | nil => exact absurd rfl (ne_nil_of_alternatives ht)
  | cons m ms => exact comes_alternatives_iff List.drop_zero rfl

theorem Groups.chooses_iff (h : Groups ms ns) :
    Chooses ctx bound c ms o ↔ Chooses ctx bound c ns o := by
  obtain ⟨before, block, after, t, ht, rfl, rfl⟩ := h
  have hrefuses : t.toStep.Refuses ctx bound c ↔ ∀ m ∈ block, m.Refuses ctx bound c := by
    rw [← Chooses.exists_rejected_iff (ne_nil_of_alternatives ht)]
    simp only [Matcher.Refuses, yields_alternatives_iff ht]
  rw [List.append_assoc, Chooses.append_iff, Chooses.append_iff, Chooses.append_iff,
    Chooses.cons_iff, yields_alternatives_iff ht, hrefuses]
  simp [ne_nil_of_alternatives ht]

theorem chooses_iff_of_eqvGen (h : Relation.EqvGen Groups ms ns) :
    Chooses ctx bound c ms o ↔ Chooses ctx bound c ns o :=
  (eq_of_eqvGen (fun _ _ h => propext h.chooses_iff) h).to_iff

omit [Cursor C T] [BEq T] [LE T] [DecidableLE T] in
theorem Trail.alternatives_tried {tries : Matcher C T Ctx → C → Outcome C → Prop} {i : Nat}
    {s : Target} {vs : List (Visit C)}
    (h : Trail (alternatives ms) tries (.index i) c vs s d) :
    vs.map (·.entry) = List.range' i vs.length ∧ ∀ v ∈ vs, v.cursor = c := by
  have hnext : ∀ j (e : Entry C T Ctx), (alternatives ms)[j]? = some e →
      e.next true = .terminal ∧ e.next false = stage ms.length .terminal (j + 1) := by
    intro j e he
    rw [getElem?_alternatives] at he
    obtain ⟨m, -, rfl⟩ := Option.map_eq_some_iff.mp he
    exact ⟨rfl, rfl⟩
  constructor
  · refine h.entries_in_row fun j e he a => ?_
    obtain ⟨htrue, hfalse⟩ := hnext j e he
    cases a with
    | true => exact .inl htrue
    | false => exact hfalse ▸ stage_terminal_cases ms.length (j + 1)
  · generalize Target.index i = s' at h
    induction h with
    | stay => simp
    | @visit j e c d o vs s he _ hrest ih =>
      cases ha : o.accepted with
      | true =>
        rw [ha, (hnext j e he).1] at hrest
        simp [hrest.eq_nil_of_terminal]
      | false =>
        have hmove : o.move c = c := by simp [Outcome.move, ha]
        rw [hmove] at ih
        exact List.forall_mem_cons.mpr ⟨rfl, ih⟩

/-- A run over alternatives yields the outcome of the first that accepts where the run begins, or of the
last if none does; it tries one after another, and each of them there. Any number of blocks of them may
be put into tables of their own, or taken out of them again: the runs end together and agree. -/
theorem alternatives_choose_first :
    (∀ ms : List (Matcher C T Ctx), ms ≠ [] → ∃ t, Table.ofEntries? (alternatives ms) = .ok t ∧
      ∀ ctx bound c,
        ((∀ m ∈ ms, ∃ o, m.Yields ctx bound c o) → ∃ o, Chooses ctx bound c ms o) ∧
        (∀ o, Ends (fun visits => t.run t.first visits ctx bound c) o ↔ Chooses ctx bound c ms o) ∧
        ∀ vs, Path (alternatives ms) ctx bound 0 c vs →
          vs.map (·.entry) = List.range vs.length ∧ ∀ v ∈ vs, v.cursor = c) ∧
    ∀ ms ns : List (Matcher C T Ctx), ms ≠ [] → Relation.EqvGen Groups ms ns →
      ∃ t u, Table.ofEntries? (alternatives ms) = .ok t ∧
        Table.ofEntries? (alternatives ns) = .ok u ∧ t.RunsAlike t.first u u.first := by
  refine ⟨fun ms hne => ?_, fun ms ns hne h => ?_⟩
  · obtain ⟨t, ht⟩ := exists_table_alternatives hne
    refine ⟨t, ht, fun ctx bound c => ⟨Chooses.exists_of_yields hne, ?_, ?_⟩⟩
    · exact fun o => yields_alternatives_iff ht
    · rintro vs ⟨d, hvs⟩
      rw [List.range_eq_range']
      exact hvs.alternatives_tried
  · obtain ⟨t, ht⟩ := exists_table_alternatives hne
    obtain ⟨u, hu⟩ := exists_table_alternatives (mt (eq_nil_iff_of_eqvGen h).mpr hne)
    refine ⟨t, u, ht, hu, fun ctx bound c o => ?_⟩
    have hiff : t.toStep.Yields ctx bound c o ↔ u.toStep.Yields ctx bound c o := by
      rw [yields_alternatives_iff ht, yields_alternatives_iff hu]
      exact chooses_iff_of_eqvGen h
    exact hiff

theorem alternatives_choose_first_word :
    let c := ArrayCursor.start 0 #['a', 'c']
    let bound := ArrayCursor.stop 0 #['a', 'c']
    let digit : Matcher (ArrayCursor Char) Char Unit := Abnf.digit.toStep
    ∃ b t u, Table.ofEntries? (alternatives [.seq ['a', 'b'], .seq ['a']]) = .ok b ∧
      Table.ofEntries? (alternatives [digit, .seq ['a', 'b'], .seq ['a']]) = .ok t ∧
      Table.ofEntries? (alternatives [digit, b.toStep]) = .ok u ∧
      (∃ o, Chooses () bound c [digit, .seq ['a', 'b'], .seq ['a']] o) ∧
      Ends (fun visits => t.run t.first visits () bound c) (.accept (Cursor.advanced 1 c)) ∧
      Ends (fun visits => u.run u.first visits () bound c) (.accept (Cursor.advanced 1 c)) := by
  intro c bound digit
  let words : List (Matcher (ArrayCursor Char) Char Unit) := [.seq ['a', 'b'], .seq ['a']]
  obtain ⟨b, hb⟩ := exists_table_alternatives (by simp [words] : words ≠ [])
  have hgroups : Groups (digit :: words) [digit, b.toStep] :=
    ⟨[digit], words, [], b, hb, rfl, rfl⟩
  have hyield : ∀ m ∈ digit :: words, ∃ o, m.Yields () bound c o := by
    simp only [words, List.forall_mem_cons]
    exact ⟨⟨_, 1, rfl⟩, ⟨_, 0, rfl⟩, ⟨_, 0, rfl⟩, by simp⟩
  obtain ⟨t, ht, hruns⟩ := alternatives_choose_first.1 (digit :: words) (List.cons_ne_nil _ _)
  obtain ⟨t', u, ht', hu, halike⟩ := alternatives_choose_first.2 (digit :: words) _
    (List.cons_ne_nil _ _) (.rel _ _ hgroups)
  obtain rfl : t = t' := Except.ok.inj (ht.symm.trans ht')
  obtain ⟨hexists, hrun, -⟩ := hruns () bound c
  have hword : Chooses () bound c (digit :: words) (.accept (Cursor.advanced 1 c)) := by
    refine ⟨[digit, .seq ['a', 'b']], .seq ['a'], [], rfl, ?_, ⟨0, rfl⟩, .inl rfl⟩
    simp only [List.forall_mem_cons]
    exact ⟨⟨_, ⟨1, rfl⟩, rfl⟩, ⟨_, ⟨0, rfl⟩, rfl⟩, by simp⟩
  have hends := (hrun _).mpr hword
  exact ⟨b, t, u, hb, ht, hu, hexists hyield, hends, (halike () bound c _).mp hends⟩

end TableAutomata
