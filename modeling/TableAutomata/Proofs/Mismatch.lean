import TableAutomata.Proofs.Level
import TableAutomata.Proofs.Reading
import TableAutomata.Proofs.RejectedPlaces

/-! Where a run rejects: at its bound, unless at one of its levels a single token was asked for, and
another token stood there. A rejection is handed up from level to level as it is. -/

namespace TableAutomata

open Cursor (peek? nextBefore?_eq_some_iff span span_eq_cons_iff)
open Recording (Ends)

/-- No entry, at any depth, asks for a single token. -/
def Matcher.EqualsFree {C T Ctx : Type} : Matcher C T Ctx → Prop
  | .equals _ => False
  | .nested _ matcher _ => ∀ i, (matcher i).EqualsFree
  | _ => True

def Table.EqualsFree {C T Ctx : Type} (t : Table C T Ctx) : Prop :=
  ∀ i, (t.matcher i).EqualsFree

variable {C T Ctx : Type} [Cursor C T] [BEq T] [LE T] [DecidableLE T]

namespace Level

/-- At `c` an entry asked for a single token, and before the bound there was another one. -/
def Mismatches (ctx : Ctx) (bound : C) (l : Level C T Ctx) (c : C) : Prop :=
  ∃ i token x, l.Tries ctx bound i c ∧ l.table.matcher i = .equals token ∧
    (c == bound) = false ∧ peek? c = some x ∧ (x == token) = false

variable {ctx : Ctx} {bound c : C} {top l : Level C T Ctx} {o : Outcome C}

theorem Within.equalsFree (h : Within ctx bound top l) (ht : top.table.EqualsFree) :
    l.table.EqualsFree := by
  refine h.hands_down (fun t t' i s hm ht => ?_) ht
  have hnested : (t'.toMatcher s).EqualsFree := hm ▸ ht i
  exact hnested

theorem Yields.rejected_by_visit (h : l.Yields ctx bound o) (hrej : o.accepted = false) :
    o.position = bound ∨
      ∃ i d, l.Tries ctx bound i d ∧ (l.table.matcher i).Yields ctx bound d o := by
  obtain ⟨vs, ⟨d, hvs⟩, rfl⟩ := yields_iff.mp h
  rcases verdict_cases l.table.entries bound vs with ⟨v, -, hver⟩ | ⟨-, ⟨v, hv, -, hver⟩ | hver⟩
  · rw [hver] at hrej
    cases hrej
  · obtain ⟨before, -, e, -, hbefore, he, ho, -⟩ := hvs.split_of_mem hv
    obtain ⟨hi, rfl⟩ := Table.getElem?_entries.mp he
    exact .inr ⟨⟨v.entry, hi⟩, v.cursor, ⟨before, hbefore⟩, hver ▸ ho⟩
  · exact .inl (by rw [hver]; rfl)

variable [LawfulCursor C]

theorem Within.rejected_at_mismatch {m : Matcher C T Ctx} (hm : m.CallbackFree)
    (hl : Within ctx bound top l) {i : Fin l.table.size} (hi : l.Tries ctx bound i c)
    (he : l.table.matcher i = m) (ho : m.Yields ctx bound c o) (hrej : o.accepted = false) :
    o.position = bound ∨ ∃ l', Within ctx bound top l' ∧ l'.Mismatches ctx bound o.position := by
  induction m using Matcher.induction generalizing l i c with
  | single m read hr =>
    rw [Matcher.yields_of_reading? hr] at ho
    subst ho
    rcases Matcher.rejected_of_reading? hr hrej with hp | ⟨token, x, r, rfl, hs, hx, hp⟩
    · exact .inl (congrArg (Mark.place bound c) hp)
    · obtain ⟨d, hn, -⟩ := span_eq_cons_iff.mp hs
      obtain ⟨hne, hnext⟩ := nextBefore?_eq_some_iff.mp hn
      have hc : ((read (span bound c)).place bound c).position = c :=
        congrArg (Mark.place bound c) hp
      have hpeek : peek? c = some x := by rw [peek?, hnext, Option.map_some]
      rw [hc]
      exact .inr ⟨l, hl, i, token, x, hi, he, hne, hpeek, hx⟩
  | func f => cases hm
  | table t start ih =>
    have hinner : Within ctx bound top ⟨t, start, c⟩ := .nested hl hi he
    have hyields : Yields ctx bound ⟨t, start, c⟩ o := ho
    rcases hyields.rejected_by_visit hrej with hp | ⟨j, d, hj, hd⟩
    · exact .inl hp
    · exact ih j (hm j) hinner hj rfl hd

end Level

variable [LawfulCursor C]

/-- A rejection is put at the bound or at a mismatch at one of the run's levels. So a table that never
asks for a single token rejects at the bound. -/
theorem rejected_at_bound_or_mismatch {t : Table C T Ctx} (ht : t.CallbackFree)
    {start : Fin t.size} {ctx : Ctx} {bound c : C} {o : Outcome C}
    (ho : Ends (fun visits => t.run start visits ctx bound c) o) (hrej : o.accepted = false) :
    (o.position = bound ∨ ∃ l, Level.Within ctx bound ⟨t, start, c⟩ l ∧
        l.Mismatches ctx bound o.position) ∧
      (t.EqualsFree → o.position = bound) := by
  have htop : Level.Within ctx bound ⟨t, start, c⟩ (⟨t, start, c⟩ : Level C T Ctx) := .top
  have hyields : Level.Yields ctx bound ⟨t, start, c⟩ o := ho
  have hplace : o.position = bound ∨ ∃ l, Level.Within ctx bound ⟨t, start, c⟩ l ∧
      l.Mismatches ctx bound o.position := by
    rcases hyields.rejected_by_visit hrej with hp | ⟨i, d, hi, hd⟩
    · exact .inl hp
    · exact htop.rejected_at_mismatch (ht i) hi rfl hd hrej
  refine ⟨hplace, fun hfree => ?_⟩
  rcases hplace with hp | ⟨l, hl, i, token, x, -, hm, -⟩
  · exact hp
  · have hentry := hl.equalsFree hfree i
    rw [hm] at hentry
    exact hentry.elim

theorem rejected_at_bound_or_mismatch_fraction :
    Ends (fun visits => (fractionWithin (.equals '.')).run ⟨0, by decide⟩ visits ()
        (ArrayCursor.stop 0 #['x']) (.start 0 #['x'])) (.reject (.start 0 #['x'])) ∧
      (∃ l, Level.Within () (.stop 0 #['x'])
          ⟨fractionWithin (.equals '.'), ⟨0, by decide⟩, .start 0 #['x']⟩ l ∧
        l.Mismatches () (.stop 0 #['x']) (.start 0 #['x'])) ∧
      (fractionWithin (.seq ['.'])).EqualsFree ∧
      ∃ o, Ends (fun visits => (fractionWithin (.seq ['.'])).run ⟨0, by decide⟩ visits ()
          (ArrayCursor.stop 0 #['x']) (.start 0 #['x'])) o ∧
        o.accepted = false ∧ o.position = .stop 0 #['x'] := by
  have hequals : Ends (fun visits => (fractionWithin (.equals '.')).run ⟨0, by decide⟩ visits ()
      (ArrayCursor.stop 0 #['x']) (.start 0 #['x'])) (.reject (.start 0 #['x'])) := ⟨2, rfl⟩
  have hseq : Ends (fun visits => (fractionWithin (.seq ['.'])).run ⟨0, by decide⟩ visits ()
      (ArrayCursor.stop 0 #['x']) (.start 0 #['x'])) (.reject (.stop 0 #['x'])) := ⟨2, rfl⟩
  have hne : ArrayCursor.start 0 #['x'] ≠ .stop 0 #['x'] := fun h =>
    absurd (congrArg ArrayCursor.index h) (by decide)
  have hfree : (fractionWithin (.seq ['.'])).EqualsFree := by
    intro (0 : Fin 1) (j : Fin 2)
    match j with
    | 0 => trivial
    | 1 =>
      intro (0 : Fin 1)
      trivial
  obtain ⟨hplace, -⟩ := rejected_at_bound_or_mismatch (by decide) hequals rfl
  obtain ⟨-, hbound⟩ := rejected_at_bound_or_mismatch (by decide) hseq rfl
  exact ⟨hequals, hplace.resolve_left hne, hfree, _, hseq, rfl, hbound hfree⟩

end TableAutomata
