import TableAutomata.Input.ArrayCursor
import TableAutomata.Input.TextCursor
import TableAutomata.Proofs.Advance
import TableAutomata.Proofs.Mirror
import TableAutomata.Proofs.Resumption

/-! Bounds that are never met. A cursor meets its bound by being equal to it, so a bound in another
sequence, or one that lies behind the begin, stops nothing. Runs and scans under such a bound go on
until the tokens end, as they do under a bound there, but what fails for want of tokens fails at the
bound that was given. -/

namespace TableAutomata

/-- Cursors with an order, as far as they have one. Going forward from a cursor never leads into
another sequence, and never back to what lies behind it. -/
class OrderedCursor (C : Type) {T : outParam Type} [Cursor C T] where
  compare? : C → C → Option Ordering
  compare?_of_beq {a b : C} : (a == b) = true → compare? a b = some .eq
  compare?_of_next? {a c d : C} {t : T} : Cursor.next? c = some (t, d) →
    (compare? a c = none → compare? a d = none) ∧
      (compare? a c = some .lt → compare? a d = some .lt)

theorem compare_forward {alike : Bool} {m n n' : Nat} (h : n < n') :
    ((if alike then some (compare m n) else none) = none →
        (if alike then some (compare m n') else none) = none) ∧
      ((if alike then some (compare m n) else none) = some .lt →
        (if alike then some (compare m n') else none) = some .lt) := by
  cases alike with
  | false => simp
  | true =>
    simp only [if_true, reduceCtorEq, false_implies, Option.some.injEq, true_and,
      Nat.compare_eq_lt]
    omega

namespace TextCursor

instance : OrderedCursor TextCursor where
  compare?
  compare?_of_beq h := by
    simp only [BEq.beq, Bool.and_eq_true, decide_eq_true_eq] at h
    rw [compare?, h.1, h.2, beq_self_eq_true, if_pos rfl, Nat.compare_eq_eq.mpr rfl]
  compare?_of_next? {a c d t} hn := by
    obtain ⟨-, -, -, hsource⟩ := eq_of_next? hn
    rw [compare?, compare?, hsource]
    exact compare_forward (offset_lt_of_next? hn)

end TextCursor

namespace ArrayCursor

variable {α : Type}

instance : OrderedCursor (ArrayCursor α) where
  compare?
  compare?_of_beq h := by
    simp only [BEq.beq, Bool.and_eq_true, decide_eq_true_eq] at h
    rw [compare?, h.1, h.2, beq_self_eq_true, if_pos rfl, Nat.compare_eq_eq.mpr rfl]
  compare?_of_next? {a c d t} hn := by
    obtain ⟨hsource, -, hindex⟩ := eq_of_next? hn
    rw [compare?, compare?, hsource]
    exact compare_forward (by omega)

end ArrayCursor

open Cursor (Precedes advanced span remaining finish)
open OrderedCursor (compare?)
open Recording (Ends)

variable {C T Ctx K : Type} [Cursor C T]

namespace Cursor

/-- Going forward from `c`, one never comes to `far`. -/
def Unmet (far c : C) : Prop :=
  ∀ n, (advanced n c == far) = false

/-- Going forward from `b`, one is not stopped by `e` before the tokens end. -/
def OpenEnded (e b : C) : Prop :=
  ∀ c, Precedes b c → span e c = remaining c

variable {far b c e : C}

theorem Unmet.of_precedes (h : Unmet far b) (hc : Precedes b c) : Unmet far c := by
  obtain ⟨n, rfl⟩ := hc
  intro k
  rw [← advanced_add]
  exact h (n + k)

theorem Unmet.nextBefore?_eq (h : Unmet far c) : nextBefore? far c = next? c :=
  if_neg (Bool.eq_false_iff.mp (h 0))

variable [LawfulCursor C]

theorem unmet_of_compare? [OrderedCursor C]
    (h : compare? far b = none ∨ compare? far b = some .lt) : Unmet far b := by
  intro n
  have hn : compare? far (advanced n b) = none ∨ compare? far (advanced n b) = some .lt := by
    induction n generalizing b with
    | zero => exact h
    | succ n ih =>
      cases hb : next? b with
      | none => rwa [advanced_of_none hb]
      | some td =>
        rw [advanced_succ_of_some hb]
        have hstep := OrderedCursor.compare?_of_next? (a := far) hb
        exact ih (h.imp hstep.1 hstep.2)
  rw [Bool.eq_false_iff]
  intro he
  rw [OrderedCursor.compare?_of_beq (LawfulCursor.beq_symm he)] at hn
  rcases hn with hn | hn <;> cases hn

theorem Unmet.span_eq (h : Unmet far c) : span far c = remaining c := by
  generalize hr : remaining c = ts
  induction ts generalizing c with
  | nil =>
    refine span_of_none ?_
    rw [h.nextBefore?_eq, next?_eq_head?, hr]
    rfl
  | cons t ts ih =>
    have hn : next? c = some (t, advanced 1 c) := by
      rw [next?_eq_head?, hr]
      rfl
    rw [remaining_of_some hn, List.cons.injEq] at hr
    rw [span_of_some (h.nextBefore?_eq.trans hn), ih (h.of_precedes ⟨1, rfl⟩) hr.2]

theorem Unmet.openEnded (h : Unmet far b) : OpenEnded far b :=
  fun _ hc => (h.of_precedes hc).span_eq

theorem remaining_finish (c : C) : remaining (finish c) = [] := by
  rw [finish, remaining_advanced, List.drop_length]

theorem Precedes.finish (h : Precedes b c) : Precedes c (finish b) := by
  obtain ⟨n, rfl⟩ := h
  rw [← advanced_min]
  exact precedes_advanced_of_le (Nat.min_le_right _ _) b

theorem openEnded_finish (b : C) : OpenEnded (finish b) b := by
  intro c hc
  have happend := hc.finish.span_append_remaining
  rwa [remaining_finish, List.append_nil] at happend

end Cursor

def SameFrom (b c d : C) : Prop :=
  c = d ∧ Precedes b c

/-- Where two runs from `b` reject: at the one's bound and at the other's, or at one place that has
a token. -/
def RejectedAlike (b e e' c d : C) : Prop :=
  c = e ∧ d = e' ∨ SameFrom b c d ∧ remaining c ≠ []

open Cursor (OpenEnded Unmet)

variable [LawfulCursor C] {b c d e e' far : C}

theorem RejectedAlike.places (h : RejectedAlike b far (finish b) c d) (hfar : Unmet far b) :
    c = far ∧ d = finish b ∨ c = d ∧ (c == far) = false ∧ (d == finish b) = false := by
  rcases h with hat | ⟨⟨rfl, hle⟩, hne⟩
  · exact .inl hat
  · refine .inr ⟨rfl, hfar.of_precedes hle 0, Bool.eq_false_iff.mpr fun hmet => hne ?_⟩
    rw [hle.finish.beq_iff.mp hmet, Cursor.remaining_finish]

variable [BEq T] [LE T] [DecidableLE T] {ctx : Ctx}

theorem Matcher.ReadAlike.openEnded (he : OpenEnded e b) (he' : OpenEnded e' b)
    {m n : Matcher C T Ctx} (h : m.ReadAlike n) :
    Simulated (SameFrom b) (RejectedAlike b e e') (m.Yields ctx e) (n.Yields ctx e') := by
  obtain ⟨read, hm, hn⟩ := h
  rintro c _ ⟨rfl, hc⟩ o ho
  rw [Matcher.yields_of_reading? hm, he c hc] at ho
  subst ho
  refine ⟨_, (Matcher.yields_of_reading? hn).mpr rfl, ?_⟩
  rw [he' c hc]
  refine ⟨rfl, fun hacc => ?_, fun hrej => ?_⟩
  · have hfits := Matcher.fits_of_reading? hm (remaining c)
    cases hp : (read (remaining c)).position with
    | ahead k =>
      simp only [Outcome.place, Mark.place, hp]
      exact ⟨rfl, hc.trans ⟨k, rfl⟩⟩
    | bound =>
      simp only [Outcome.Fits, hp] at hfits
      cases hfits.symm.trans hacc
  · rcases Matcher.rejected_of_reading? hm hrej with hp | ⟨t, x, r, -, hr, -, hp⟩
    · simp only [Outcome.place, Mark.place, hp]
      exact .inl ⟨rfl, rfl⟩
    · simp only [Outcome.place, Mark.place, hp, Cursor.advanced_zero]
      exact .inr ⟨⟨rfl, hc⟩, by rw [hr]; exact List.cons_ne_nil x r⟩

theorem Matcher.CallbackFree.openEnded (he : OpenEnded e b) (he' : OpenEnded e' b)
    {m : Matcher C T Ctx} (h : m.CallbackFree) :
    Simulated (SameFrom b) (RejectedAlike b e e') (m.Yields ctx e) (m.Yields ctx e') :=
  h.alike.simulated (fun _ _ hmn => hmn.openEnded he he') (.inl ⟨rfl, rfl⟩)

theorem Matcher.CallbackFree.together_of_openEnded {m : Matcher C T Ctx} (h : m.CallbackFree)
    (ctx : Ctx) (he : OpenEnded e b) (he' : OpenEnded e' b) (hc : Precedes b c) :
    ((∃ o, m.Yields ctx e c o) ↔ ∃ p, m.Yields ctx e' c p) ∧
      ∀ o p, m.Yields ctx e c o → m.Yields ctx e' c p →
        o.Agree (SameFrom b) (RejectedAlike b e e') p :=
  (h.openEnded he he').together (h.openEnded he' he) (fun _ _ _ hp hp' => hp.unique hp')
    ⟨rfl, hc⟩ ⟨rfl, hc⟩

namespace Scanner

variable {rules : List (Rule C T Ctx K)} {l : Option (Lexeme C K)}

theorem FirstMatch.openEnded (h : FirstMatch ctx e c rules l) (he : OpenEnded e b)
    (he' : OpenEnded e' b) (hrules : ∀ r ∈ rules, r.recognizer.table.CallbackFree)
    (hc : Precedes b c) : FirstMatch ctx e' c rules l := by
  have hmeet : MeetTogether (SameFrom b) := by
    rintro _ _ _ _ ⟨rfl, -⟩ ⟨rfl, -⟩
    rfl
  have hpaired : ∀ r ∈ rules,
      r.Paired (SameFrom b) (RejectedAlike b e e') ctx ctx e e' r := by
    intro r hr
    have hm : (r.recognizer.table.toMatcher r.recognizer.start).CallbackFree := hrules r hr
    exact ⟨rfl, rfl, hm.openEnded he he'⟩
  obtain ⟨l', hl', hll⟩ := h.simulate hmeet (List.forall₂_same.mpr hpaired) ⟨rfl, hc⟩
  cases hll with
  | none => exact hl'
  | @some x y hxy =>
    obtain ⟨hkind, ⟨hstart, -⟩, hstop, -⟩ := hxy
    rwa [Lexeme.ext hkind hstart hstop]

theorem FirstMatch.none_of_span_eq_nil (hrules : ∀ r ∈ rules, r.recognizer.table.CallbackFree)
    (hends : ∀ r ∈ rules, ∃ o, r.recognizer.Yields ctx e c o) (hs : span e c = []) :
    FirstMatch ctx e c rules none := by
  obtain ⟨l, hl⟩ := FirstMatch.exists_of_yields hends
  cases l with
  | none => exact hl
  | some l =>
    obtain ⟨-, r, hr, o, ho, ht, -⟩ := hl.taken_of_some
    obtain ⟨hacc, hmoved⟩ := Bool.and_eq_true_iff.mp ht
    have hm : (r.recognizer.table.toMatcher r.recognizer.start).CallbackFree := hrules r hr
    obtain ⟨k, hk, hpos⟩ := Matcher.Yields.reach ho hm hacc
    rw [hs, List.length_nil, Nat.le_zero] at hk
    rw [← hpos, hk, Cursor.advanced_zero, LawfulCursor.beq_refl] at hmoved
    cases hmoved

theorem Produces.unmet {s last : Scanner C T Ctx K}
    {xs : List (Except (ScanError C) (Lexeme C K))} (h : s.Produces xs last)
    (hfar : Unmet far b) (he : OpenEnded s.bound b) (hs : s.stuck = false)
    (hc : Between b s.bound s.cursor) (hrules : ∀ r ∈ s.rules, r.recognizer.table.CallbackFree)
    (hnone : FirstMatch s.ctx s.bound s.bound s.rules none) :
    ∃ (ls : List (Lexeme C K)) (z : C) (last' : Scanner C T Ctx K),
      ({ s with bound := far } : Scanner C T Ctx K).Produces
        (ls.map .ok ++ [.error (.noMatch z)]) last' ∧
      (z = s.bound ∧ xs = ls.map .ok ∨
        z ≠ s.bound ∧ xs = ls.map .ok ++ [.error (.noMatch z)]) := by
  have hopen := hfar.openEnded
  have hgoes : ∀ c, Precedes b c →
      ({ s with bound := far, cursor := c } : Scanner C T Ctx K).done = false := fun c hbc => by
    rw [Scanner.done, hs, Bool.false_or]
    exact hfar.of_precedes hbc 0
  induction h with
  | @done s hd =>
    have hat := (done_iff_of_precedes hs hc.2).mp hd
    have hl := hnone.openEnded he hopen hrules (hat ▸ hc.1)
    rw [← hat] at hl
    exact ⟨[], s.cursor, _, .turn (hgoes _ hc.1) hl (.done rfl), .inl ⟨hat, rfl⟩⟩
  | @turn s last l xs hd hl hrest ih =>
    have hl' := hl.openEnded he hopen hrules hc.1
    cases l with
    | none =>
      obtain ⟨rfl, -⟩ := hrest.of_stuck rfl
      have hat : s.cursor ≠ s.bound := fun hat => by
        rw [(done_iff_of_precedes hs hc.2).mpr hat] at hd
        cases hd
      exact ⟨[], s.cursor, _, .turn (hgoes _ hc.1) hl' (.done rfl), .inr ⟨hat, rfl⟩⟩
    | some l =>
      have hconf : ∀ r ∈ s.rules, r.recognizer.table.Confined s.ctx :=
        fun r hr i => (hrules r hr i).confined s.ctx
      obtain ⟨hstart, hle, -, hb⟩ := hl.advances hconf hc.2
      obtain ⟨ls, z, last', hp, hz⟩ := ih he hs ⟨hc.1.trans (hstart ▸ hle), hb⟩ hrules hnone hgoes
      refine ⟨l :: ls, z, last', .turn (hgoes _ hc.1) hl' hp, ?_⟩
      rcases hz with ⟨hat, rfl⟩ | ⟨hat, rfl⟩
      · exact .inl ⟨hat, rfl⟩
      · exact .inr ⟨hat, rfl⟩

theorem exists_produces_unmet (hfar : Unmet far b)
    (hrules : ∀ r ∈ rules, r.recognizer.table.CallbackFree)
    (hends : ∀ r ∈ rules, ∀ c, Precedes b c → ∃ o, r.recognizer.Yields ctx far c o) :
    ∃ (ls : List (Lexeme C K)) (z : C) (xs : List (Except (ScanError C) (Lexeme C K)))
      (last last' : Scanner C T Ctx K),
      (ofRules rules ctx far b).Produces (ls.map .ok ++ [.error (.noMatch z)]) last ∧
        (ofRules rules ctx (finish b) b).Produces xs last' ∧
        (z = finish b ∧ xs = ls.map .ok ∨
          z ≠ finish b ∧ xs = ls.map .ok ++ [.error (.noMatch z)]) := by
  let s := ofRules rules ctx (finish b) b
  have hbe : Precedes b (finish b) := (Precedes.refl b).finish
  have hmem : ∀ r ∈ s.rules, r ∈ rules := fun r hr => Rule.mem_byPriority.mp hr
  have hrules' : ∀ r ∈ s.rules, r.recognizer.table.CallbackFree :=
    fun r hr => hrules r (hmem r hr)
  have hends' : ∀ r ∈ s.rules, ∀ c, Precedes b c →
      ∃ o, r.recognizer.Yields ctx (finish b) c o := by
    intro r hr c hc
    have hm : (r.recognizer.table.toMatcher r.recognizer.start).CallbackFree := hrules' r hr
    have htogether := hm.together_of_openEnded ctx hfar.openEnded
      (Cursor.openEnded_finish b) hc
    exact htogether.1.mp (hends r (hmem r hr) c hc)
  have hnone : FirstMatch ctx (finish b) (finish b) s.rules none := by
    refine .none_of_span_eq_nil hrules' (fun r hr => hends' r hr _ hbe) ?_
    exact (Precedes.refl (finish b)).span_eq_nil_iff_eq.mpr rfl
  obtain ⟨-, -, xs, last', hp, -⟩ := exists_produces_tiles (s := s) _ (Nat.lt_succ_self _) rfl hbe
    (fun r hr i => (hrules' r hr i).confined ctx) fun r hr c hc => hends' r hr c hc.1
  obtain ⟨ls, z, last, hp', hz⟩ :=
    hp.unmet hfar (Cursor.openEnded_finish b) rfl ⟨.refl b, hbe⟩ hrules' hnone
  exact ⟨ls, z, xs, last, last', hp', hp, hz⟩

/-- A bound in another sequence, or behind the begin, is like the end of the input. Runs end under
both together and accept the same. They reject at one place, or the one at its bound and the other
at its bound. A scan yields the same lexemes under both, and under the bound that is never met
always one error then, at the end of the input if the scan up to there comes through. -/
theorem unmet_bound_like_end [OrderedCursor C]
    (hfar : compare? far b = none ∨ compare? far b = some .lt) (ctx : Ctx) :
    (∀ (t : Table C T Ctx) (start : Fin t.size), t.CallbackFree →
      ((∃ o, Ends (fun visits => t.run start visits ctx far b) o) ↔
          ∃ p, Ends (fun visits => t.run start visits ctx (finish b) b) p) ∧
        ∀ o p, Ends (fun visits => t.run start visits ctx far b) o →
          Ends (fun visits => t.run start visits ctx (finish b) b) p →
          o.accepted = p.accepted ∧ (o.accepted = true → o.position = p.position) ∧
            (o.accepted = false →
              o.position = far ∧ p.position = finish b ∨
                o.position = p.position ∧ (o.position == far) = false ∧
                  (p.position == finish b) = false)) ∧
    ∀ rules : List (Rule C T Ctx K), (∀ r ∈ rules, r.recognizer.table.CallbackFree) →
      (∀ r ∈ rules, ∀ c, Precedes b c → ∃ o, r.recognizer.Yields ctx far c o) →
      ∃ (ls : List (Lexeme C K)) (z : C) (xs : List (Except (ScanError C) (Lexeme C K)))
        (last last' : Scanner C T Ctx K),
        (∀ r, Ends (ofRules rules ctx far b).items r ↔
          r = (ls.map .ok ++ [.error (.noMatch z)], last)) ∧
        (∀ visits, last.next? visits = pure (none, last)) ∧
        (∀ r, Ends (ofRules rules ctx far b).tokenize r ↔ r = (.error (.noMatch z), last)) ∧
        (∀ r, Ends (ofRules rules ctx (finish b) b).items r ↔ r = (xs, last')) ∧
        (z = finish b ∧ xs = ls.map .ok ∨
          z ≠ finish b ∧ xs = ls.map .ok ++ [.error (.noMatch z)]) := by
  have hunmet := Cursor.unmet_of_compare? hfar
  constructor
  · intro t start ht
    have hm : (t.toMatcher start).CallbackFree := ht
    obtain ⟨hends, hagree⟩ := hm.together_of_openEnded ctx hunmet.openEnded
      (Cursor.openEnded_finish b) (.refl b)
    refine ⟨hends, fun o p ho hp => ?_⟩
    have hop := hagree o p ho hp
    exact ⟨hop.accepted_eq, fun hacc => (hop.accepted hacc).1,
      fun hrej => (hop.rejected hrej).places hunmet⟩
  · intro rules hrules hends
    obtain ⟨ls, z, xs, last, last', hp, hp', hz⟩ := exists_produces_unmet hunmet hrules hends
    have htokens := hp.tokenize_iff
    rw [mapM_map_ok_append_error] at htokens
    exact ⟨ls, z, xs, last, last', hp.items_iff, next?_of_done hp.done_last, htokens,
      hp'.items_iff, hz⟩

theorem unmet_bound_like_end_behind :
    compare? (amid 0) (amid 1) = some .lt ∧ digitsTable.CallbackFree ∧
      (∃ p, Ends (fun visits =>
          digitsTable.run digitsTable.first visits () (finish (amid 1)) (amid 1)) p ∧
        p.accepted = true ∧ p.position = finish (amid 1)) ∧
      ∃ l last, Ends (ofRules [numberRule] () (amid 0) (amid 1)).items
        ([.ok l, .error (.noMatch (finish (amid 1)))], last) := by
  have hfar : compare? (amid 0) (amid 1) = some .lt := rfl
  have ht : digitsTable.CallbackFree := by decide
  have hrules : ∀ r ∈ [numberRule], r.recognizer.table.CallbackFree :=
    List.forall_mem_singleton.mpr ht
  have hends : ∀ r ∈ [numberRule], ∀ c, Precedes (amid 1) c →
      ∃ o, r.recognizer.Yields () (amid 0) c o := by
    intro r hr c hc
    obtain rfl := List.mem_singleton.mp hr
    obtain ⟨n, hn, rfl⟩ := hc.exists_le
    match n, hn with
    | 0, _ => exact ⟨_, 4, rfl⟩
    | 1, _ => exact ⟨_, 3, rfl⟩
    | 2, _ => exact ⟨_, 2, rfl⟩
    | 3, _ => exact ⟨_, 1, rfl⟩
  obtain ⟨hrun, hscan⟩ := unmet_bound_like_end (K := Unit) (.inr hfar) ()
  obtain ⟨hend, hagree⟩ := hrun digitsTable digitsTable.first ht
  have ho : Ends (fun visits => digitsTable.run digitsTable.first visits () (amid 0) (amid 1))
      (.accept (amid 4)) := ⟨4, rfl⟩
  obtain ⟨p, hp⟩ := hend.mp ⟨_, ho⟩
  obtain ⟨hacc, hpos, -⟩ := hagree _ p ho hp
  obtain ⟨ls, z, xs, last, last', hitems, -, -, hitems', hz⟩ := hscan [numberRule] hrules hends
  have hone : Ends (ofRules [numberRule] () (finish (amid 1)) (amid 1)).items
      ([.ok ⟨(), amid 1, amid 4⟩], ofRules [numberRule] () (finish (amid 1)) (amid 4)) := ⟨4, rfl⟩
  obtain ⟨rfl, -⟩ := Prod.mk.inj ((hitems' _).mp hone)
  refine ⟨hfar, ht, ⟨p, hp, hacc.symm, (hpos rfl).symm⟩, ⟨(), amid 1, amid 4⟩, last, ?_⟩
  rcases hz with ⟨rfl, hls⟩ | ⟨-, hls⟩
  · refine (hitems _).mpr ?_
    rw [← hls]
    rfl
  · have hlen := congrArg List.length hls
    have hlast := congrArg List.getLast? hls
    simp at hlast

end Scanner

end TableAutomata
