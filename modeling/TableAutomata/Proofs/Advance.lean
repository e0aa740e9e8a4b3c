import TableAutomata.Proofs.Level
import TableAutomata.Proofs.Reading

/-! What a run accepts lies ahead of its cursor, and between them lie only tokens of its span. The
bound may lie anywhere: one that is never met leaves all remaining tokens in the span. So the tokens
left in the span tell the places of a run apart, and there are never more of them than at its begin. -/

namespace TableAutomata

open Cursor (advanced span)

namespace Cursor

variable {C T : Type} [Cursor C T]

/-- Going forward from `c` leads to `d`, over tokens of the span only. -/
def Reach (bound c d : C) : Prop :=
  ∃ k ≤ (span bound c).length, advanced k c = d

namespace Reach

variable {bound a c d : C}

theorem refl (bound c : C) : Reach bound c c :=
  ⟨0, Nat.zero_le _, rfl⟩

variable [LawfulCursor C]

theorem exists_length (h : Reach bound c d) :
    ∃ k, advanced k c = d ∧ k + (span bound d).length = (span bound c).length := by
  obtain ⟨k, hk, rfl⟩ := h
  refine ⟨k, rfl, ?_⟩
  rw [span_advanced hk, List.length_drop]
  omega

theorem trans (h : Reach bound a c) (h' : Reach bound c d) : Reach bound a d := by
  obtain ⟨j, rfl, hj⟩ := h.exists_length
  obtain ⟨k, rfl, hk⟩ := h'.exists_length
  exact ⟨j + k, by omega, advanced_add j k a⟩

theorem length_le (h : Reach bound c d) : (span bound d).length ≤ (span bound c).length := by
  obtain ⟨k, -, hk⟩ := h.exists_length
  omega

theorem eq_of_length_eq (h : Reach bound a c) (h' : Reach bound a d)
    (hl : (span bound c).length = (span bound d).length) : c = d := by
  obtain ⟨j, rfl, hj⟩ := h.exists_length
  obtain ⟨k, rfl, hk⟩ := h'.exists_length
  have hjk : j = k := by omega
  rw [hjk]

end Reach

end Cursor

open Cursor (Reach)

variable {C T Ctx : Type} [Cursor C T]

theorem Outcome.Fits.reach {bound c : C} {o : Outcome Mark} (h : o.Fits (span bound c).length)
    (ha : o.accepted = true) : Reach bound c (o.place bound c).position := by
  obtain ⟨accepted, position⟩ := o
  cases position with
  | ahead k => exact ⟨k, h, rfl⟩
  | bound =>
    have hrej : accepted = false := h
    cases ha.symm.trans hrej

variable [LawfulCursor C]

namespace Trail

variable {es : List (Entry C T Ctx)} {tries : Matcher C T Ctx → C → Outcome C → Prop} {s s' : Target}
  {bound c d : C} {vs : List (Visit C)}

theorem reach
    (hstep : ∀ e ∈ es, ∀ c o, tries e.matcher c o → o.accepted = true → Reach bound c o.position)
    (h : Trail es tries s c vs s' d) : Reach bound c d := by
  induction h with
  | stay => exact .refl _ _
  | @visit i e c d o vs s he ho _ ih =>
    have hmove : Reach bound c (o.move c) := by
      cases ha : o.accepted with
      | true => simpa [Outcome.move, ha] using hstep e (List.mem_of_getElem? he) c o ho ha
      | false => simpa [Outcome.move, ha] using Reach.refl bound c
    exact hmove.trans ih

theorem reach_of_mem
    (hstep : ∀ e ∈ es, ∀ c o, tries e.matcher c o → o.accepted = true → Reach bound c o.position)
    (h : Trail es tries s c vs s' d) {v : Visit C} (hv : v ∈ vs) : Reach bound c v.cursor := by
  obtain ⟨as, bs, e, -, has, -⟩ := h.split_of_mem hv
  exact has.reach hstep

end Trail

variable [BEq T] [LE T] [DecidableLE T]

theorem Matcher.Yields.reach {m : Matcher C T Ctx} {ctx : Ctx} {bound c : C} {o : Outcome C}
    (h : m.Yields ctx bound c o) (hm : m.CallbackFree) (ha : o.accepted = true) :
    Reach bound c o.position := by
  induction m using Matcher.induction generalizing c o with
  | single m read hr =>
    obtain rfl := (Matcher.yields_of_reading? hr).mp h
    exact (Matcher.fits_of_reading? hr _).reach ha
  | func f => cases hm
  | table t start ih =>
    obtain ⟨vs, ⟨d, hvs⟩, rfl⟩ := Table.yields_iff_path.mp h
    have hstep : ∀ e ∈ t.entries, ∀ c o, e.matcher.Yields ctx bound c o → o.accepted = true →
        Reach bound c o.position := by
      intro e he c o ho ha
      obtain ⟨i, rfl⟩ := Table.mem_entries.mp he
      exact ih i ho (hm i) ha
    obtain ⟨v, hv, hacc, -, hpos⟩ := exists_noted_of_verdict_accepted ha
    obtain ⟨as, bs, e, -, has, he, hv, -⟩ := hvs.split_of_mem hv
    rw [hpos]
    exact (has.reach hstep).trans (hstep e (List.mem_of_getElem? he) _ _ hv hacc)

theorem Table.CallbackFree.reach {t : Table C T Ctx} (ht : t.CallbackFree) {ctx : Ctx} {bound : C} :
    ∀ e ∈ t.entries, ∀ c o, e.matcher.Yields ctx bound c o → o.accepted = true →
      Reach bound c o.position := by
  intro e he c o ho ha
  obtain ⟨i, rfl⟩ := Table.mem_entries.mp he
  exact ho.reach (ht i) ha

end TableAutomata
