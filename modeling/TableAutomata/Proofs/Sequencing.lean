import TableAutomata.Match.Contextual
import TableAutomata.Proofs.Chain
import TableAutomata.Proofs.Relabelling

/-! Sequences: a chain in which only the last entry is accepting. A run over it composes what its
matchers do, so a block of them may be put into a table of its own, and a step that does the work of
several may be put in their place. -/

namespace TableAutomata

open Recording (Ends)

variable {C T Ctx : Type}

/-- The matchers as a sequence. A success leads to the next of them, a failure out of the table, and
only a success of the last one is accepted. -/
def sequence (ms : List (Matcher C T Ctx)) : List (Entry C T Ctx) :=
  chain ms.length .terminal ms

/-- What comes of `X`, and then of `Y` at the place that `X` has accepted. A rejection by `X` stays. -/
def AndThen (X Y : C → Outcome C → Prop) (c : C) (o : Outcome C) : Prop :=
  ∃ r, X c r ∧ (r.accepted = true ∧ Y r.position o ∨ r.accepted = false ∧ o = r)

theorem andThen_assoc (X Y Z : C → Outcome C → Prop) :
    AndThen (AndThen X Y) Z = AndThen X (AndThen Y Z) := by
  funext c o
  refine propext ⟨?_, ?_⟩
  · rintro ⟨s, ⟨r, hr, ⟨ha, hs⟩ | ⟨hrej, rfl⟩⟩, h⟩
    · exact ⟨r, hr, .inl ⟨ha, s, hs, h⟩⟩
    · rcases h with ⟨ha, -⟩ | ⟨-, rfl⟩
      · cases hrej.symm.trans ha
      · exact ⟨o, hr, .inr ⟨hrej, rfl⟩⟩
  · rintro ⟨r, hr, ⟨ha, s, hs, h⟩ | ⟨hrej, rfl⟩⟩
    · exact ⟨s, ⟨r, hr, .inl ⟨ha, hs⟩⟩, h⟩
    · exact ⟨o, ⟨o, hr, .inr ⟨hrej, rfl⟩⟩, .inr ⟨hrej, rfl⟩⟩

theorem andThen_accept (Y : C → Outcome C → Prop) :
    AndThen (fun c o => o = .accept c) Y = Y := by
  funext c o
  simp [AndThen, Outcome.accept]

theorem accept_andThen (X : C → Outcome C → Prop) :
    AndThen X (fun c o => o = .accept c) = X := by
  funext c o
  refine propext ⟨?_, fun h => ⟨o, h, ?_⟩⟩
  · rintro ⟨⟨accepted, d⟩, hr, ⟨ha, rfl⟩ | ⟨-, rfl⟩⟩
    · obtain rfl : accepted = true := ha
      exact hr
    · exact hr
  · obtain ⟨accepted, d⟩ := o
    cases accepted with
    | true => exact .inl ⟨rfl, rfl⟩
    | false => exact .inr ⟨rfl, rfl⟩

theorem exists_table_sequence {ms : List (Matcher C T Ctx)} (hne : ms ≠ []) :
    ∃ t, Table.ofEntries? (sequence ms) = .ok t :=
  exists_table_chain hne rfl

theorem ne_nil_of_sequence {ms : List (Matcher C T Ctx)} {t : Table C T Ctx}
    (h : Table.ofEntries? (sequence ms) = .ok t) : ms ≠ [] := by
  rintro rfl
  cases h

variable [Cursor C T] [BEq T] [LE T] [DecidableLE T]

/-- All of the matchers accept, each where the one before it has got to, and `o` accepts where the last
of them does; or `o` is the rejection of the first that rejects. -/
def Composes (ctx : Ctx) (bound : C) (ms : List (Matcher C T Ctx)) (c : C) (o : Outcome C) : Prop :=
  (∃ d, InTurn ctx bound ms c d ∧ o = .accept d) ∨
    ∃ before m after d, ms = before ++ m :: after ∧ InTurn ctx bound before c d ∧
      m.Yields ctx bound d o ∧ o.accepted = false

/-- One step does what the matchers of a block do one behind the other. -/
def Matcher.StandsFor (m : Matcher C T Ctx) (block : List (Matcher C T Ctx)) : Prop :=
  ∀ ctx bound c o, m.Yields ctx bound c o ↔ Composes ctx bound block c o

/-- A block of the matchers `ms` is one matcher of `ns`. -/
def Contracts (ms ns : List (Matcher C T Ctx)) : Prop :=
  ∃ before block after m, block ≠ [] ∧ m.StandsFor block ∧ ms = before ++ block ++ after ∧
    ns = before ++ m :: after

variable {ctx : Ctx} {bound c : C} {ms ns : List (Matcher C T Ctx)} {m : Matcher C T Ctx}
  {w o : Outcome C} {t : Table C T Ctx}

namespace Composes

theorem nil_eq : Composes (T := T) ctx bound [] = fun c o => o = .accept c := by
  funext c o
  refine propext ⟨?_, ?_⟩
  · rintro (⟨d, hturn, rfl⟩ | ⟨before, m, after, d, h, -⟩)
    · cases hturn
      rfl
    · simp at h
  · rintro rfl
    exact .inl ⟨c, .nil, rfl⟩

theorem cons_eq :
    Composes ctx bound (m :: ms) = AndThen (m.Yields ctx bound) (Composes ctx bound ms) := by
  funext c o
  refine propext ⟨?_, ?_⟩
  · rintro (⟨d, hturn, rfl⟩ | ⟨before, n, after, d, h, hturn, hy, hrej⟩)
    · cases hturn with
      | cons hm hturn => exact ⟨_, hm, .inl ⟨rfl, .inl ⟨d, hturn, rfl⟩⟩⟩
    · cases hturn with
      | nil =>
        obtain ⟨rfl, rfl⟩ := List.cons.inj h
        exact ⟨o, hy, .inr ⟨hrej, rfl⟩⟩
      | @cons _ before _ _ _ hm hturn =>
        obtain ⟨rfl, rfl⟩ := List.cons.inj h
        exact ⟨_, hm, .inl ⟨rfl, .inr ⟨before, n, after, d, rfl, hturn, hy, hrej⟩⟩⟩
  · rintro ⟨⟨accepted, d⟩, hm, ⟨ha, h⟩ | ⟨hrej, rfl⟩⟩
    · obtain rfl : accepted = true := ha
      rcases h with ⟨e, hturn, rfl⟩ | ⟨before, n, after, e, rfl, hturn, hy, hrej⟩
      · exact .inl ⟨e, .cons hm hturn, rfl⟩
      · exact .inr ⟨m :: before, n, after, e, rfl, .cons hm hturn, hy, hrej⟩
    · exact .inr ⟨[], m, ms, c, rfl, .nil, hm, hrej⟩

theorem singleton_eq : Composes ctx bound [m] = m.Yields ctx bound := by
  rw [cons_eq, nil_eq, accept_andThen]

theorem append_eq :
    Composes ctx bound (ms ++ ns) = AndThen (Composes ctx bound ms) (Composes ctx bound ns) := by
  induction ms with
  | nil => rw [List.nil_append, nil_eq, andThen_accept]
  | cons m ms ih => rw [List.cons_append, cons_eq, cons_eq, ih, andThen_assoc]

theorem exists_of_yields
    (h : ∀ before m after d, ms = before ++ m :: after → InTurn ctx bound before c d →
      ∃ r, m.Yields ctx bound d r) : ∃ o, Composes ctx bound ms c o := by
  induction ms generalizing c with
  | nil => exact ⟨.accept c, .inl ⟨c, .nil, rfl⟩⟩
  | cons m ms ih =>
    obtain ⟨⟨accepted, d⟩, hm⟩ := h [] m ms c rfl .nil
    rw [cons_eq]
    cases accepted with
    | true =>
      obtain ⟨o, ho⟩ := ih fun before n after e hms hturn =>
        h (m :: before) n after e (congrArg (m :: ·) hms) (.cons hm hturn)
      exact ⟨o, _, hm, .inl ⟨rfl, ho⟩⟩
    | false => exact ⟨_, _, hm, .inr ⟨rfl, rfl⟩⟩

end Composes

theorem Contracts.composes_eq (h : Contracts ms ns) : Composes ctx bound ms = Composes ctx bound ns := by
  obtain ⟨before, block, after, m, -, hm, rfl, rfl⟩ := h
  have hblock : m.Yields ctx bound = Composes ctx bound block := by
    funext c o
    exact propext (hm ctx bound c o)
  rw [List.append_assoc, Composes.append_eq, Composes.append_eq, Composes.append_eq, Composes.cons_eq,
    hblock]

theorem Contracts.eq_nil_iff (h : Contracts ms ns) : ms = [] ↔ ns = [] := by
  obtain ⟨before, block, after, m, hblock, -, rfl, rfl⟩ := h
  simp [hblock]

theorem eq_nil_iff_of_contracts (h : Relation.EqvGen Contracts ms ns) : ms = [] ↔ ns = [] :=
  (eq_of_eqvGen (fun _ _ h => propext h.eq_nil_iff) h).to_iff

theorem composes_eq_of_contracts (h : Relation.EqvGen Contracts ms ns) :
    Composes ctx bound ms = Composes ctx bound ns :=
  eq_of_eqvGen (fun _ _ h => h.composes_eq) h

theorem comes_sequence_index_iff {i : Nat} (hm : ms[i]? = some m) (hw : w.accepted = false) :
    Comes (sequence ms) ctx bound (.index i) c w o ↔
      AndThen (m.Yields ctx bound) (fun d o =>
        Comes (sequence ms) ctx bound (stage ms.length .terminal (i + 1)) d
          (if ms.length ≤ i + 1 then .accept d else w) o) c o := by
  have he : (sequence ms)[i]? = some _ := getElem?_chain hm
  rw [Comes.index_iff he]
  refine exists_congr fun r => and_congr_right fun _ => ?_
  obtain ⟨accepted, d⟩ := r
  cases accepted with
  | true => simp [Entry.next, Outcome.move, Outcome.amend, Outcome.accept]
  | false =>
    simp [Entry.next, Outcome.move, Outcome.amend, hw, Comes.terminal_iff]

theorem comes_sequence_iff {i : Nat} {rest : List (Matcher C T Ctx)}
    (hi : ms.drop i = m :: rest) (hw : w.accepted = false) :
    Comes (sequence ms) ctx bound (.index i) c w o ↔ Composes ctx bound (m :: rest) c o := by
  induction rest generalizing i m c o with
  | nil =>
    obtain ⟨hm, -, hlen⟩ := drop_eq_cons hi
    have hlast : (fun d o => Comes (sequence ms) ctx bound (stage ms.length .terminal (i + 1)) d
        (if ms.length ≤ i + 1 then .accept d else w) o) = Composes ctx bound [] := by
      funext d o
      have hend : i + 1 = ms.length := hlen
      rw [hend, stage_self, if_pos (Nat.le_refl _), Comes.terminal_iff, Composes.nil_eq]
    rw [comes_sequence_index_iff hm hw, hlast, Composes.cons_eq]
  | cons n rest ih =>
    obtain ⟨hm, hnext, hlen⟩ := drop_eq_cons hi
    have hlt : i + 1 < ms.length := by
      rw [List.length_cons] at hlen
      omega
    have hrest : (fun d o => Comes (sequence ms) ctx bound (stage ms.length .terminal (i + 1)) d
        (if ms.length ≤ i + 1 then .accept d else w) o) = Composes ctx bound (n :: rest) := by
      funext d o
      rw [stage_of_lt hlt, if_neg (Nat.not_le_of_lt hlt)]
      exact propext (ih hnext)
    rw [comes_sequence_index_iff hm hw, hrest, ← Composes.cons_eq]

theorem standsFor_of_sequence (ht : Table.ofEntries? (sequence ms) = .ok t) :
    t.toStep.StandsFor ms := by
  intro ctx bound c o
  refine (Comes.iff_ends ht).symm.trans ?_
  cases ms with
  | nil => exact absurd rfl (ne_nil_of_sequence ht)
  | cons m ms => exact comes_sequence_iff List.drop_zero rfl

omit [Cursor C T] [BEq T] [LE T] [DecidableLE T] in
theorem Trail.sequence_tried {tries : Matcher C T Ctx → C → Outcome C → Prop} {i : Nat} {s : Target}
    {vs : List (Visit C)} {d : C} (h : Trail (sequence ms) tries (.index i) c vs s d) :
    vs.map (·.entry) = List.range' i vs.length ∧
      vs.Pairwise fun v _ => v.outcome.accepted = true := by
  have hnext : ∀ j (e : Entry C T Ctx), (sequence ms)[j]? = some e →
      e.next true = stage ms.length .terminal (j + 1) ∧ e.next false = .terminal := by
    intro j e he
    rw [sequence, chain, List.getElem?_mapIdx] at he
    obtain ⟨m, -, rfl⟩ := Option.map_eq_some_iff.mp he
    exact ⟨rfl, rfl⟩
  constructor
  · refine h.entries_in_row fun j e he a => ?_
    obtain ⟨htrue, hfalse⟩ := hnext j e he
    cases a with
    | true => exact htrue ▸ stage_terminal_cases ms.length (j + 1)
    | false => exact .inl hfalse
  · generalize Target.index i = s' at h
    induction h with
    | stay => exact .nil
    | @visit j e c d o vs s he _ hrest ih =>
      cases ha : o.accepted with
      | true => exact .cons (fun _ _ => ha) ih
      | false =>
        rw [ha, (hnext j e he).2] at hrest
        rw [hrest.eq_nil_of_terminal]
        exact List.pairwise_singleton _ _

namespace Match

omit [BEq T] [LE T] [DecidableLE T] in
theorem skip?_add (m n : Nat) (bound c : C) :
    skip? bound (m + n) c = (skip? bound m c).bind (skip? bound n) := by
  induction m generalizing c with
  | zero => simp [skip?]
  | succ m ih =>
    rw [Nat.succ_add, skip?, skip?]
    cases Cursor.nextBefore? bound c with
    | none => rfl
    | some xd => exact ih xd.2

omit [LE T] [DecidableLE T] in
theorem behind?_append (p q : List T) (bound c : C) :
    behind? bound (p ++ q) c = (behind? bound p c).bind (behind? bound q) := by
  induction p generalizing c with
  | nil => simp [behind?]
  | cons t p ih =>
    rw [List.cons_append, behind?, behind?]
    cases Cursor.nextBefore? bound c with
    | none => rfl
    | some xd =>
      obtain ⟨x, d⟩ := xd
      cases hx : x == t <;> simp [hx, ih]

end Match

namespace Matcher

def Locates (m : Matcher C T Ctx) (find : C → C → Option C) : Prop :=
  ∀ ctx bound c o, m.Yields ctx bound c o ↔ o = .ofPlace? bound (find bound c)

theorem locates_length (n : Nat) : (length n : Matcher C T Ctx).Locates (Match.skip? · n) :=
  fun _ _ _ _ => yields_iff_of_pure fun _ => rfl

theorem locates_seq (p : List T) : (seq p : Matcher C T Ctx).Locates (Match.behind? · p) :=
  fun _ _ _ _ => yields_iff_of_pure fun _ => rfl

theorem Locates.standsFor {m n k : Matcher C T Ctx} {find find' find'' : C → C → Option C}
    (hm : m.Locates find) (hn : n.Locates find') (hk : k.Locates find'')
    (h : ∀ bound c, find'' bound c = (find bound c).bind (find' bound)) : k.StandsFor [m, n] := by
  intro ctx bound c o
  rw [Composes.cons_eq, Composes.singleton_eq, hk, h]
  simp only [AndThen, hm ctx bound c, hn ctx bound]
  cases find bound c with
  | none => simp [Outcome.ofPlace?, Outcome.reject]
  | some d => simp [Outcome.ofPlace?, Outcome.accept]

end Matcher

/-- A run over a sequence yields what its matchers come to one behind the other; it tries one after
another, and none behind one that rejects. Blocks of them may be replaced, any number of times, by
single steps that stand for them: a table of the block, a pattern for two patterns that follow one
another, or a length for two lengths. The runs end together and agree. -/
theorem sequences_compose :
    (∀ ms : List (Matcher C T Ctx), ms ≠ [] → ∃ t, Table.ofEntries? (sequence ms) = .ok t ∧
      ∀ ctx bound c,
        ((∀ before m after d, ms = before ++ m :: after → InTurn ctx bound before c d →
          ∃ r, m.Yields ctx bound d r) → ∃ o, Composes ctx bound ms c o) ∧
        (∀ o, Ends (fun visits => t.run t.first visits ctx bound c) o ↔
          Composes ctx bound ms c o) ∧
        ∀ vs, Path (sequence ms) ctx bound 0 c vs → vs.map (·.entry) = List.range vs.length ∧
          vs.Pairwise fun v _ => v.outcome.accepted = true) ∧
    (∀ (block : List (Matcher C T Ctx)) (t : Table C T Ctx),
      Table.ofEntries? (sequence block) = .ok t → t.toStep.StandsFor block) ∧
    (∀ p q : List T, (.seq (p ++ q) : Matcher C T Ctx).StandsFor [.seq p, .seq q]) ∧
    (∀ m n : Nat, (.length (m + n) : Matcher C T Ctx).StandsFor [.length m, .length n]) ∧
    ∀ ms ns : List (Matcher C T Ctx), ms ≠ [] → Relation.EqvGen Contracts ms ns →
      ∃ t u, Table.ofEntries? (sequence ms) = .ok t ∧ Table.ofEntries? (sequence ns) = .ok u ∧
        t.RunsAlike t.first u u.first := by
  refine ⟨fun ms hne => ?_, fun block t => standsFor_of_sequence, fun p q => ?_, fun m n => ?_,
    fun ms ns hne h => ?_⟩
  · obtain ⟨t, ht⟩ := exists_table_sequence hne
    refine ⟨t, ht, fun ctx bound c => ⟨Composes.exists_of_yields, ?_, ?_⟩⟩
    · exact fun o => standsFor_of_sequence ht ctx bound c o
    · rintro vs ⟨d, hvs⟩
      rw [List.range_eq_range']
      exact hvs.sequence_tried
  · exact (Matcher.locates_seq p).standsFor (Matcher.locates_seq q) (Matcher.locates_seq (p ++ q))
      (Match.behind?_append p q)
  · exact (Matcher.locates_length m).standsFor (Matcher.locates_length n)
      (Matcher.locates_length (m + n)) (Match.skip?_add m n)
  · obtain ⟨t, ht⟩ := exists_table_sequence hne
    obtain ⟨u, hu⟩ := exists_table_sequence (mt (eq_nil_iff_of_contracts h).mpr hne)
    refine ⟨t, u, ht, hu, fun ctx bound c o => ?_⟩
    have hiff : t.toStep.Yields ctx bound c o ↔ u.toStep.Yields ctx bound c o := by
      rw [standsFor_of_sequence ht, standsFor_of_sequence hu, composes_eq_of_contracts h]
    exact hiff

theorem sequences_compose_word :
    let c := ArrayCursor.start 0 #['x', '7', 'a', 'b', 'c']
    let bound := ArrayCursor.stop 0 #['x', '7', 'a', 'b', 'c']
    let one : Matcher (ArrayCursor Char) Char Unit := .length 1
    let rest : List (Matcher (ArrayCursor Char) Char Unit) := [.func (Match.take 1), .seq ['a', 'b']]
    ∃ b t u, Table.ofEntries? (sequence rest) = .ok b ∧ b.toStep.StandsFor rest ∧
      Table.ofEntries? (sequence (one :: rest)) = .ok t ∧
      Table.ofEntries? (sequence [one, b.toStep]) = .ok u ∧
      (∃ o, Composes () bound (one :: rest) c o) ∧
      Ends (fun visits => t.run t.first visits () bound c) (.accept (Cursor.advanced 4 c)) ∧
      Ends (fun visits => u.run u.first visits () bound c) (.accept (Cursor.advanced 4 c)) := by
  intro c bound one rest
  obtain ⟨hsequence, htable, -, -, hgroup⟩ := @sequences_compose (ArrayCursor Char) Char Unit _ _ _ _
  obtain ⟨b, hb⟩ := exists_table_sequence (List.cons_ne_nil _ _ : rest ≠ [])
  have hstands := htable rest b hb
  have hcontracts : Contracts (one :: rest) [one, b.toStep] :=
    ⟨[one], rest, [], b.toStep, List.cons_ne_nil _ _, hstands, rfl, rfl⟩
  obtain ⟨t, ht, hruns⟩ := hsequence (one :: rest) (List.cons_ne_nil _ _)
  obtain ⟨t', u, ht', hu, halike⟩ := hgroup (one :: rest) _ (List.cons_ne_nil _ _)
    (.rel _ _ hcontracts)
  obtain rfl : t = t' := Except.ok.inj (ht.symm.trans ht')
  obtain ⟨hexists, hrun, -⟩ := hruns () bound c
  have hstep : ∀ m ∈ one :: rest, m.IsStep := by
    simp only [rest, List.forall_mem_cons]
    exact ⟨trivial, trivial, trivial, by simp⟩
  have hcomposes := hexists fun before m after d hms _ =>
    (hstep m (by simp [hms])).exists_yields () bound d
  have hturn : InTurn () bound (one :: rest) c (Cursor.advanced 4 c) :=
    .cons ⟨0, rfl⟩ (.cons ⟨0, rfl⟩ (.cons ⟨0, rfl⟩ .nil))
  have hends := (hrun _).mpr (.inl ⟨_, hturn, rfl⟩)
  exact ⟨b, t, u, hb, hstands, ht, hu, hcomposes, hends, (halike () bound c _).mp hends⟩

end TableAutomata
