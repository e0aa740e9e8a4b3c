import Mathlib.Data.List.Pairwise
import TableAutomata.Match.Contextual
import TableAutomata.Proofs.Level
import TableAutomata.Proofs.Reading

/-! Runs stay between their begin and their bound, at every depth, and never go back. So the last
place that a run notes is the farthest. Callers' functions are trusted to stay between the cursor and
the bound they are given. -/

namespace TableAutomata

open Cursor (Precedes)

section

variable {C T : Type} [Cursor C T]

def Between (b e c : C) : Prop :=
  Precedes b c ∧ Precedes c e

/-- All functions in the matcher, at any depth, stay between the cursor and the bound they are
given. -/
def Matcher.Confined {Ctx : Type} (ctx : Ctx) : Matcher C T Ctx → Prop
  | .func f => ∀ c bound, Precedes c bound → Between c bound (f c bound ctx).position
  | .nested _ matcher _ => ∀ i, (matcher i).Confined ctx
  | _ => True

def Table.Confined {Ctx : Type} (ctx : Ctx) (t : Table C T Ctx) : Prop :=
  ∀ i, (t.matcher i).Confined ctx

/-- What a run between `b` and `e` makes of its visits: none of them and no outcome lies outside, no
visit goes back, and an accepted outcome is the farthest of the places noted. -/
structure Contained {Ctx : Type} (es : List (Entry C T Ctx)) (b e : C) (vs : List (Visit C))
    (o : Outcome C) : Prop where
  cursor_between : ∀ v ∈ vs, Between b e v.cursor
  cursors_ascend : vs.Pairwise fun v w => Precedes v.cursor w.cursor
  position_between : Between b e o.position
  noted : o.accepted = true → ∃ v ∈ vs, v.notes es = true ∧ v.outcome.position = o.position
  farthest : o.accepted = true → ∀ v ∈ vs, v.notes es = true →
    Precedes v.outcome.position o.position

end

variable {C T Ctx : Type} [Cursor C T]

theorem Matcher.CallbackFree.confined {m : Matcher C T Ctx} (h : m.CallbackFree) (ctx : Ctx) :
    m.Confined ctx := by
  induction m with
  | func f => cases h
  | nested link matcher start ih => exact fun i => ih i (h i)
  | _ => trivial

theorem Contained.of_precedes {es : List (Entry C T Ctx)} {b c e : C} {vs : List (Visit C)}
    {o : Outcome C} (h : Contained es c e vs o) (hb : Precedes b c) : Contained es b e vs o :=
  { h with
    cursor_between := fun v hv => ⟨hb.trans (h.cursor_between v hv).1, (h.cursor_between v hv).2⟩
    position_between := ⟨hb.trans h.position_between.1, h.position_between.2⟩ }

theorem Outcome.Fits.between [LawfulCursor C] {bound c : C} {o : Outcome Mark}
    (h : o.Fits (Cursor.span bound c).length) (hc : Precedes c bound) :
    Between c bound (o.place bound c).position := by
  obtain ⟨accepted, position⟩ := o
  cases position with
  | ahead k => exact ⟨⟨k, rfl⟩, hc.advanced_of_le h⟩
  | bound => exact ⟨hc, .refl _⟩

theorem Outcome.between_move {bound c : C} {o : Outcome C} (h : Between c bound o.position) :
    Between c bound (o.move c) := by
  cases ha : o.accepted with
  | true => simpa [move, ha] using h
  | false =>
    have hc : Between c bound c := ⟨.refl c, h.1.trans h.2⟩
    simpa [move, ha] using hc

namespace Trail

variable {es : List (Entry C T Ctx)} {tries : Matcher C T Ctx → C → Outcome C → Prop} {s s' : Target}
  {bound c d : C} {vs : List (Visit C)}

theorem ascends
    (hstep : ∀ e ∈ es, ∀ c o, tries e.matcher c o → Precedes c bound → Between c bound o.position)
    (h : Trail es tries s c vs s' d) (hc : Precedes c bound) :
    (∀ v ∈ vs, Between c bound v.cursor ∧ Between v.cursor bound v.outcome.position) ∧
      vs.Pairwise fun v w => Precedes (v.outcome.move v.cursor) w.cursor := by
  induction h with
  | stay => simp
  | @visit i e c d o vs s he ho _ ih =>
    have hb := hstep e (List.mem_of_getElem? he) c o ho hc
    obtain ⟨hm, hmb⟩ := Outcome.between_move hb
    obtain ⟨hvs, hp⟩ := ih hmb
    constructor
    · intro v hv
      rcases List.mem_cons.mp hv with rfl | hv
      · exact ⟨⟨.refl c, hc⟩, hb⟩
      · obtain ⟨⟨hl, hr⟩, ho⟩ := hvs v hv
        exact ⟨⟨hm.trans hl, hr⟩, ho⟩
    · exact List.pairwise_cons.mpr ⟨fun w hw => (hvs w hw).1.1, hp⟩

theorem noted_ascend
    (hstep : ∀ e ∈ es, ∀ c o, tries e.matcher c o → Precedes c bound → Between c bound o.position)
    (h : Trail es tries s c vs s' d) (hc : Precedes c bound) :
    (vs.filter (Visit.notes es)).Pairwise
      fun v w => Precedes v.outcome.position w.outcome.position := by
  obtain ⟨hvs, hp⟩ := h.ascends hstep hc
  refine (hp.sublist List.filter_sublist).imp_of_mem fun {v w} hv hw hvw => ?_
  have hacc : v.outcome.accepted = true := (Bool.and_eq_true_iff.mp (List.mem_filter.mp hv).2).1
  have hpos : Precedes w.cursor w.outcome.position := (hvs w (List.mem_filter.mp hw).1).2.1
  simpa [Outcome.move, hacc] using hvw.trans hpos

theorem contained
    (hstep : ∀ e ∈ es, ∀ c o, tries e.matcher c o → Precedes c bound → Between c bound o.position)
    (h : Trail es tries s c vs s' d) (hc : Precedes c bound) :
    Contained es c bound vs (verdict es bound vs) := by
  obtain ⟨hvs, hp⟩ := h.ascends hstep hc
  have hcur : vs.Pairwise fun v w => Precedes v.cursor w.cursor :=
    hp.imp_of_mem fun {v w} hv _ hvw => (Outcome.between_move (hvs v hv).2).1.trans hvw
  have hpos : ∀ v ∈ vs, Between c bound v.outcome.position := by
    intro v hv
    obtain ⟨⟨hl, _⟩, hl', hr⟩ := hvs v hv
    exact ⟨hl.trans hl', hr⟩
  rcases verdict_cases es bound vs with ⟨z, hz, hver⟩ | ⟨hnone, ⟨z, hz, hrej, hver⟩ | hver⟩
  · have hmem := List.mem_filter.mp (List.mem_of_getLast? hz)
    have hfar : ∀ v ∈ vs.filter (Visit.notes es), Precedes v.outcome.position z.outcome.position := by
      intro v hv
      have hne := List.ne_nil_of_mem hv
      have hlast := Option.some.inj ((List.getLast?_eq_some_getLast hne).symm.trans hz)
      have hle := (h.noted_ascend hstep hc).rel_getLast_of_rel_getLast_getLast hv (.refl _)
      rwa [hlast] at hle
    rw [hver]
    exact
      { cursor_between := fun v hv => (hvs v hv).1
        cursors_ascend := hcur
        position_between := hpos z hmem.1
        noted := fun _ => ⟨z, hmem.1, hmem.2, rfl⟩
        farthest := fun _ v hv hn => hfar v (List.mem_filter.mpr ⟨hv, hn⟩) }
  · rw [hver]
    exact
      { cursor_between := fun v hv => (hvs v hv).1
        cursors_ascend := hcur
        position_between := hpos z hz
        noted := by simp [hrej]
        farthest := by simp [hrej] }
  · rw [hver]
    exact
      { cursor_between := fun v hv => (hvs v hv).1
        cursors_ascend := hcur
        position_between := ⟨hc, .refl _⟩
        noted := nofun
        farthest := nofun }

end Trail

variable [LawfulCursor C] [BEq T] [LE T] [DecidableLE T]

theorem Matcher.Yields.between {m : Matcher C T Ctx} {ctx : Ctx} {bound c : C} {o : Outcome C}
    (h : m.Yields ctx bound c o) (hm : m.Confined ctx) (hc : Precedes c bound) :
    Between c bound o.position := by
  induction m using Matcher.induction generalizing c o with
  | single m read hr =>
    rw [(Matcher.yields_of_reading? hr).mp h]
    exact (Matcher.fits_of_reading? hr _).between hc
  | func f =>
    rw [(Matcher.yields_iff_of_pure fun _ => rfl).mp h]
    exact hm c bound hc
  | table t start ih =>
    obtain ⟨vs, ⟨d, hvs⟩, rfl⟩ := Table.yields_iff_path.mp h
    refine (hvs.contained (fun e he c o ho hc => ?_) hc).position_between
    obtain ⟨i, rfl⟩ := Table.mem_entries.mp he
    exact ih i ho (hm i) hc

theorem Table.Confined.trail {t : Table C T Ctx} {ctx : Ctx} (ht : t.Confined ctx) {bound : C} :
    ∀ e ∈ t.entries, ∀ c o, e.matcher.Yields ctx bound c o → Precedes c bound →
      Between c bound o.position := by
  intro e he c o ho hc
  obtain ⟨i, rfl⟩ := Table.mem_entries.mp he
  exact Matcher.Yields.between ho (ht i) hc

theorem Level.Path.contained {l : Level C T Ctx} {ctx : Ctx} {bound : C} {vs : List (Visit C)}
    (h : l.Path ctx bound vs) (ht : l.table.Confined ctx) (hc : Precedes l.cursor bound) :
    Contained l.table.entries l.cursor bound vs (verdict l.table.entries bound vs) := by
  obtain ⟨d, hvs⟩ := h
  exact hvs.contained ht.trail hc

theorem Level.Within.begins {top l : Level C T Ctx} {ctx : Ctx} {bound : C} {o : Outcome C}
    (h : Level.Within ctx bound top l) (ho : top.Yields ctx bound o)
    (ht : top.table.Confined ctx) (hc : Precedes top.cursor bound) :
    l.table.Confined ctx ∧ Between top.cursor bound l.cursor := by
  induction h with
  | top => exact ⟨ht, .refl _, hc⟩
  | @nested l i c t s hl hi hm ih =>
    obtain ⟨hconf, hb⟩ := ih
    obtain ⟨o', ho'⟩ := hl.exists_yields ho
    obtain ⟨vs, hvs, -⟩ := Level.yields_iff.mp ho'
    obtain ⟨v, hv, rfl, -⟩ := hvs.exists_visit hi
    obtain ⟨hl, hr⟩ := (hvs.contained hconf hb.2).cursor_between v hv
    have hnested : (t.toMatcher s).Confined ctx := hm ▸ hconf i
    exact ⟨hnested, hb.1.trans hl, hr⟩

/-- In a run that ends, no level tries an entry outside the run's begin and bound, no level goes
back, and each level's accepted outcome is the farthest place that it notes. -/
theorem levels_contained {t : Table C T Ctx} {start : Fin t.size} {ctx : Ctx}
    (ht : t.Confined ctx) {b e : C} (hbe : Precedes b e) {o : Outcome C}
    (ho : Level.Yields ctx e ⟨t, start, b⟩ o) :
    (∃ vs, Level.Path ctx e ⟨t, start, b⟩ vs ∧ Contained t.entries b e vs o) ∧
      ∀ l, Level.Within ctx e ⟨t, start, b⟩ l →
        ∃ vs r, l.Path ctx e vs ∧ l.Yields ctx e r ∧ Contained l.table.entries b e vs r := by
  constructor
  · obtain ⟨vs, hvs, rfl⟩ := Level.yields_iff.mp ho
    exact ⟨vs, hvs, hvs.contained ht hbe⟩
  · intro l hl
    obtain ⟨hconf, hb, he⟩ := hl.begins ho ht hbe
    obtain ⟨r, hr⟩ := hl.exists_yields ho
    obtain ⟨vs, hvs, rfl⟩ := Level.yields_iff.mp hr
    exact ⟨vs, _, hvs, hr, (hvs.contained hconf he).of_precedes hb⟩

def digitThenRest : Table (ArrayCursor Char) Char Unit :=
  .ofEntries
    [.pass (.index 1) .terminal Abnf.digit.toStep,
     .accept .terminal .terminal (.func Match.skipAll)] (List.cons_ne_nil _ _)

theorem digitThenRest_confined : digitThenRest.Confined () := by
  rintro ⟨i, hi⟩
  match i, hi with
  | 0, _ =>
    have h : (Abnf.digit.toStep : Matcher (ArrayCursor Char) Char Unit).CallbackFree := by decide
    exact h.confined ()
  | 1, _ => exact fun c bound h => ⟨h, .refl bound⟩

theorem levels_contained_digitThenRest :
    digitThenRest.Confined () ∧
      Precedes (ArrayCursor.start 0 #['7', 'a', 'b']) (.stop 0 #['7', 'a', 'b']) ∧
      Level.Yields () (.stop 0 #['7', 'a', 'b'])
        ⟨digitThenRest, digitThenRest.first, .start 0 #['7', 'a', 'b']⟩
        (.accept (.stop 0 #['7', 'a', 'b'])) ∧
      ∃ vs, Level.Path () (.stop 0 #['7', 'a', 'b'])
          ⟨digitThenRest, digitThenRest.first, .start 0 #['7', 'a', 'b']⟩ vs ∧
        Contained digitThenRest.entries (.start 0 #['7', 'a', 'b']) (.stop 0 #['7', 'a', 'b']) vs
          (.accept (.stop 0 #['7', 'a', 'b'])) :=
  ⟨digitThenRest_confined, ⟨3, rfl⟩, ⟨4, rfl⟩,
    (levels_contained digitThenRest_confined ⟨3, rfl⟩ ⟨4, rfl⟩).1⟩

end TableAutomata
