import TableAutomata.Proofs.Execution

/-! The levels of a run: the run itself, and every run that an entry with a nested table starts at
the place where it is tried. If a run yields an outcome, so do the runs at all its levels. -/

namespace TableAutomata

structure Level (C T Ctx : Type) where
  table : Table C T Ctx
  start : Fin table.size
  cursor : C

variable {C T Ctx : Type} [Cursor C T] [BEq T] [LE T] [DecidableLE T]

namespace Level

omit [Cursor C T] [BEq T] [LE T] [DecidableLE T] in
theorem eq_of_toMatcher_eq {t t' : Table C T Ctx} {start : Fin t.size} {start' : Fin t'.size}
    (h : t.toMatcher start = t'.toMatcher start') (c : C) :
    (⟨t, start, c⟩ : Level C T Ctx) = ⟨t', start', c⟩ := by
  obtain ⟨size, size_pos, link, matcher⟩ := t
  obtain ⟨size', size_pos', link', matcher'⟩ := t'
  unfold Table.toMatcher at h
  cases h
  rfl

def Yields (ctx : Ctx) (bound : C) (l : Level C T Ctx) (o : Outcome C) : Prop :=
  (l.table.toMatcher l.start).Yields ctx bound l.cursor o

def Path (ctx : Ctx) (bound : C) (l : Level C T Ctx) (vs : List (Visit C)) : Prop :=
  TableAutomata.Path l.table.entries ctx bound l.start l.cursor vs

/-- The run comes to try entry `i` at `c`. It need not end. -/
def Tries (ctx : Ctx) (bound : C) (l : Level C T Ctx) (i : Fin l.table.size) (c : C) : Prop :=
  ∃ vs, Trail l.table.entries (Matcher.Yields ctx bound) (.index l.start) l.cursor vs (.index i) c

inductive Within (ctx : Ctx) (bound : C) (top : Level C T Ctx) : Level C T Ctx → Prop where
  | top : Within ctx bound top top
  | nested {l : Level C T Ctx} {i : Fin l.table.size} {c : C} {t : Table C T Ctx}
      {s : Fin t.size} :
      Within ctx bound top l → l.Tries ctx bound i c → l.table.matcher i = t.toMatcher s →
      Within ctx bound top ⟨t, s, c⟩

variable {ctx : Ctx} {bound : C} {top l : Level C T Ctx} {o : Outcome C} {vs : List (Visit C)}

theorem yields_iff : l.Yields ctx bound o ↔
    ∃ vs, l.Path ctx bound vs ∧ o = verdict l.table.entries bound vs :=
  Table.yields_iff_path

theorem Path.exists_visit (h : l.Path ctx bound vs) {i : Fin l.table.size} {c : C}
    (hi : l.Tries ctx bound i c) :
    ∃ v ∈ vs, v.cursor = c ∧ (l.table.matcher i).Yields ctx bound c v.outcome := by
  obtain ⟨d, hvs⟩ := h
  obtain ⟨before, hb⟩ := hi
  obtain ⟨rest, rfl, hr⟩ := hb.prefix_of_terminal (fun _ _ _ _ ho ho' => ho.unique ho') hvs
  cases hr with
  | visit he ho _ =>
    cases (Table.getElem?_entries_fin i).symm.trans he
    exact ⟨_, List.mem_append_right _ List.mem_cons_self, rfl, ho⟩

theorem Within.hands_down {P : Table C T Ctx → Prop}
    (hP : ∀ (t t' : Table C T Ctx) (i : Fin t.size) (s : Fin t'.size),
      t.matcher i = t'.toMatcher s → P t → P t')
    (h : Within ctx bound top l) (ht : P top.table) : P l.table := by
  induction h with
  | top => exact ht
  | nested _ _ hm ih => exact hP _ _ _ _ hm ih

theorem Within.exists_yields (h : Within ctx bound top l) (ho : top.Yields ctx bound o) :
    ∃ o', l.Yields ctx bound o' := by
  induction h with
  | top => exact ⟨o, ho⟩
  | nested _ ht hm ih =>
    obtain ⟨o', ho'⟩ := ih
    obtain ⟨vs, hvs, rfl⟩ := yields_iff.mp ho'
    obtain ⟨v, -, -, hv⟩ := hvs.exists_visit ht
    rw [hm] at hv
    exact ⟨v.outcome, hv⟩

end Level

end TableAutomata
