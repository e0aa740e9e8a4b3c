import TableAutomata.Proofs.Reading
import TableAutomata.Proofs.Simulation

/-! A run without callers' functions sees the tokens between its begin and its bound and nothing else.
What stands before the begin or behind the bound, and which input it is, makes no difference. -/

namespace TableAutomata

open Cursor (Precedes advanced span)
open Recording (Ends)

variable {C D T Ctx Ctx' : Type}

/-- Equally far behind `b` and `b'`, and at most `n` tokens. -/
def Abreast [Cursor C T] [Cursor D T] (b : C) (b' : D) (n : Nat) (c : C) (d : D) : Prop :=
  ∃ k ≤ n, c = advanced k b ∧ d = advanced k b'

def Matcher.ReadAlike [BEq T] [LE T] [DecidableLE T] (m : Matcher C T Ctx) (n : Matcher D T Ctx') :
    Prop :=
  ∃ read, m.reading? = some read ∧ n.reading? = some read

theorem Matcher.CallbackFree.alike [BEq T] [LE T] [DecidableLE T] {m : Matcher C T Ctx}
    (h : m.CallbackFree) : Alike ReadAlike m m := by
  induction m using Matcher.induction with
  | single m read hr => exact .leaf ⟨read, hr, hr⟩
  | func f => cases h
  | table t start ih => exact .table t t.matcher start fun i => ih i (h i)

theorem Abreast.begin [Cursor C T] [Cursor D T] (b : C) (b' : D) (n : Nat) : Abreast b b' n b b' :=
  ⟨0, Nat.zero_le n, rfl, rfl⟩

variable [Cursor C T] [LawfulCursor C] [Cursor D T] [LawfulCursor D] {b e : C} {b' e' : D}

theorem Abreast.place (hbe : Precedes b e) (hbe' : Precedes b' e') (hs : span e b = span e' b')
    {k : Nat} (hk : k ≤ (span e b).length) {r : Outcome Mark}
    (hr : r.Fits ((span e b).length - k)) :
    Abreast b b' (span e b).length (r.place e (advanced k b)).position
      (r.place e' (advanced k b')).position := by
  obtain ⟨accepted, position⟩ := r
  cases position with
  | ahead j =>
    have hj : j ≤ (span e b).length - k := hr
    exact ⟨k + j, by omega, (Cursor.advanced_add k j b).symm, (Cursor.advanced_add k j b').symm⟩
  | bound => exact ⟨_, Nat.le_refl _, hbe.advanced_span.symm, hs ▸ hbe'.advanced_span.symm⟩

variable [BEq T] [LE T] [DecidableLE T]

theorem Matcher.ReadAlike.simulated (hbe : Precedes b e) (hbe' : Precedes b' e')
    (hs : span e b = span e' b') (ctx : Ctx) (ctx' : Ctx') {m : Matcher C T Ctx}
    {n : Matcher D T Ctx'} (h : m.ReadAlike n) :
    Simulated (Abreast b b' (span e b).length) (Abreast b b' (span e b).length)
      (m.Yields ctx e) (n.Yields ctx' e') := by
  obtain ⟨read, hm, hn⟩ := h
  intro c d hcd o ho
  obtain ⟨k, hk, rfl, rfl⟩ := hcd
  have hc : span e (advanced k b) = (span e b).drop k := Cursor.span_advanced hk
  have hd : span e' (advanced k b') = (span e b).drop k := by
    rw [Cursor.span_advanced (hs ▸ hk), hs]
  have hfits := Matcher.fits_of_reading? hm ((span e b).drop k)
  rw [List.length_drop] at hfits
  have hplace := Abreast.place hbe hbe' hs hk hfits
  rw [Matcher.yields_of_reading? hm, hc] at ho
  subst ho
  refine ⟨_, (Matcher.yields_of_reading? hn).mpr rfl, ?_⟩
  rw [hd]
  exact ⟨rfl, fun _ => hplace, fun _ => hplace⟩

theorem Matcher.CallbackFree.abreast {b' e' : C} (hbe : Precedes b e) (hbe' : Precedes b' e')
    (hs : span e b = span e' b') (ctx ctx' : Ctx) {m : Matcher C T Ctx} (h : m.CallbackFree)
    {o : Outcome C} (ho : m.Yields ctx e b o) :
    ∃ o', m.Yields ctx' e' b' o' ∧
      o.Agree (Abreast b b' (span e b).length) (Abreast b b' (span e b).length) o' := by
  have hend : Abreast b b' (span e b).length e e' :=
    ⟨_, Nat.le_refl _, hbe.advanced_span.symm, hs ▸ hbe'.advanced_span.symm⟩
  exact h.alike.simulated (fun _ _ hmn => hmn.simulated hbe hbe' hs ctx ctx') hend b b'
    (.begin b b' _) o ho

/-- Runs of one table over equal spans, be they in one input or in two, end together. Then both accept
or both reject, at places equally far behind their begins. -/
theorem run_local {t : Table C T Ctx} (ht : t.CallbackFree) (start : Fin t.size) (ctx ctx' : Ctx)
    {b e b' e' : C} (hbe : Precedes b e) (hbe' : Precedes b' e') (hs : span e b = span e' b') :
    ((∃ o, Ends (fun visits => t.run start visits ctx e b) o) ↔
        ∃ o', Ends (fun visits => t.run start visits ctx' e' b') o') ∧
      ∀ o o', Ends (fun visits => t.run start visits ctx e b) o →
        Ends (fun visits => t.run start visits ctx' e' b') o' →
          o.accepted = o'.accepted ∧
            ∃ k ≤ (span e b).length, o.position = advanced k b ∧ o'.position = advanced k b' := by
  have hm : (t.toMatcher start).CallbackFree := ht
  constructor
  · constructor
    · intro ⟨o, ho⟩
      obtain ⟨o', ho', -⟩ := hm.abreast hbe hbe' hs ctx ctx' ho
      exact ⟨o', ho'⟩
    · intro ⟨o', ho'⟩
      obtain ⟨o, ho, -⟩ := hm.abreast hbe' hbe hs.symm ctx' ctx ho'
      exact ⟨o, ho⟩
  · intro o o' ho ho'
    obtain ⟨p, hp, hop⟩ := hm.abreast hbe hbe' hs ctx ctx' ho
    obtain rfl := Matcher.Yields.unique hp ho'
    refine ⟨hop.accepted_eq, ?_⟩
    cases ha : o.accepted with
    | true => exact hop.accepted ha
    | false => exact hop.rejected ha

def amid (n : Nat) : ArrayCursor Char :=
  advanced n (.start 0 #['7', '4', '2', '9'])

theorem run_local_amid :
    digitsTable.CallbackFree ∧ Precedes (amid 1) (amid 3) ∧
      span (amid 3) (amid 1) = span (ArrayCursor.stop 1 #['4', '2']) (.start 1 #['4', '2']) ∧
      ∀ o o', Ends (fun visits => digitsTable.run digitsTable.first visits () (amid 3) (amid 1)) o →
        Ends (fun visits => digitsTable.run digitsTable.first visits ()
          (ArrayCursor.stop 1 #['4', '2']) (.start 1 #['4', '2'])) o' →
          o.accepted = o'.accepted ∧ ∃ k ≤ (span (amid 3) (amid 1)).length,
            o.position = advanced k (amid 1) ∧ o'.position = advanced k (.start 1 #['4', '2']) := by
  have ht : digitsTable.CallbackFree := by decide
  have hbe : Precedes (amid 1) (amid 3) := ⟨2, rfl⟩
  have hbe' : Precedes (ArrayCursor.start 1 #['4', '2']) (.stop 1 #['4', '2']) := ⟨2, rfl⟩
  have hs : span (amid 3) (amid 1) =
      span (ArrayCursor.stop 1 #['4', '2']) (.start 1 #['4', '2']) := rfl
  exact ⟨ht, hbe, hs, (run_local ht digitsTable.first () () hbe hbe' hs).2⟩

end TableAutomata
