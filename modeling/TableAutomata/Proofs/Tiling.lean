import TableAutomata.Proofs.Containment
import TableAutomata.Proofs.ScanStep

/-! A scanner whose runs end and stay in bounds covers its input with lexemes, end to end, until it
reaches the bound or a place where no rule takes anything. -/

namespace TableAutomata

open Cursor (Precedes span)
open Recording (Ends)

variable {C T Ctx K : Type} [Cursor C T]

/-- Lexemes that lie end to end from `c` to `z`, and each of them holds a token. -/
inductive Tiles : C → List (Lexeme C K) → C → Prop where
  | nil {c : C} : Tiles c [] c
  | cons {l : Lexeme C K} {ls : List (Lexeme C K)} {z : C} :
      Precedes l.start l.stop → span l.stop l.start ≠ [] → Tiles l.stop ls z →
      Tiles l.start (l :: ls) z

namespace Tiles

variable {c z : C} {ls : List (Lexeme C K)}

theorem precedes (h : Tiles c ls z) : Precedes c z := by
  induction h with
  | nil => exact .refl _
  | cons hl _ _ ih => exact hl.trans ih

theorem of_cons {l : Lexeme C K} (h : Tiles c (l :: ls) z) :
    l.start = c ∧ Precedes l.start l.stop ∧ Tiles l.stop ls z := by
  cases h with
  | cons hl _ hr => exact ⟨rfl, hl, hr⟩

theorem stop_precedes (h : Tiles c ls z) : ∀ l ∈ ls, Precedes l.stop z := by
  induction h with
  | nil => simp
  | cons _ _ hr ih =>
    intro l hl
    rcases List.mem_cons.mp hl with rfl | hl
    · exact hr.precedes
    · exact ih l hl

variable [LawfulCursor C]

theorem flatMap_span (h : Tiles c ls z) : ls.flatMap (fun l => span l.stop l.start) = span z c := by
  induction h with
  | nil => exact ((Precedes.refl _).span_eq_nil_iff_eq.mpr rfl).symm
  | cons hl _ hr ih => rw [List.flatMap_cons, ih, hl.span_append hr.precedes]

theorem length_le (h : Tiles c ls z) : ls.length ≤ (span z c).length := by
  induction h with
  | nil => exact Nat.zero_le _
  | cons hl hne hr ih =>
    have hpos := List.length_pos_iff.mpr hne
    rw [← hl.span_append hr.precedes, List.length_cons, List.length_append]
    omega

end Tiles

variable [LawfulCursor C] [BEq T] [LE T] [DecidableLE T]

theorem Recognizer.Yields.between {r : Recognizer C T Ctx} {ctx : Ctx} {bound c : C} {o : Outcome C}
    (h : r.Yields ctx bound c o) (hr : r.table.Confined ctx) (hc : Precedes c bound) :
    Between c bound o.position := by
  have hm : (r.table.toMatcher r.start).Confined ctx := hr
  exact Matcher.Yields.between h hm hc

namespace Scanner

variable {ctx : Ctx} {bound c : C} {rules : List (Rule C T Ctx K)}

theorem FirstMatch.advances {l : Lexeme C K} (h : FirstMatch ctx bound c rules (some l))
    (hconf : ∀ r ∈ rules, r.recognizer.table.Confined ctx) (hc : Precedes c bound) :
    l.start = c ∧ Precedes l.start l.stop ∧ span l.stop l.start ≠ [] ∧ Precedes l.stop bound := by
  obtain ⟨hstart, r, hr, o, ho, ht, -, hstop⟩ := h.taken_of_some
  obtain ⟨hl, hb⟩ := ho.between (hconf r hr) hc
  have hne : (o.position == c) = false := by
    simpa using (Bool.and_eq_true_iff.mp ht).2
  rw [hstart, hstop]
  refine ⟨rfl, hl, ?_, hb⟩
  intro hs
  rw [← hl.span_eq_nil_iff_eq.mp hs, LawfulCursor.beq_refl] at hne
  cases hne

theorem FirstMatch.stays (h : FirstMatch ctx bound c rules none)
    (hconf : ∀ r ∈ rules, r.recognizer.table.Confined ctx) (hc : Precedes c bound) :
    ∀ r ∈ rules, ∃ o, r.recognizer.Yields ctx bound c o ∧ (o.accepted = true → o.position = c) := by
  intro r hr
  obtain ⟨o, ho, hpass⟩ := h.passed_of_none r hr
  refine ⟨o, ho, ?_⟩
  intro hacc
  have hle := (ho.between (hconf r hr) hc).1
  have heq : (o.position == c) = true := by
    simpa [Outcome.takes, hacc] using hpass
  exact (hle.beq_iff.mp (LawfulCursor.beq_symm heq)).symm

omit [BEq T] [LE T] [DecidableLE T] in
theorem done_iff_of_precedes {s : Scanner C T Ctx K} (hs : s.stuck = false)
    (hc : Precedes s.cursor s.bound) : s.done = true ↔ s.cursor = s.bound := by
  rw [done, hs, Bool.false_or, hc.beq_iff]

theorem exists_produces_tiles (n : Nat) {s : Scanner C T Ctx K}
    (hn : (span s.bound s.cursor).length < n) (hs : s.stuck = false)
    (hc : Precedes s.cursor s.bound)
    (hconf : ∀ r ∈ s.rules, r.recognizer.table.Confined s.ctx)
    (hends : ∀ r ∈ s.rules, ∀ c, Between s.cursor s.bound c →
      ∃ o, r.recognizer.Yields s.ctx s.bound c o) :
    ∃ ls z xs last, s.Produces xs last ∧ Tiles s.cursor ls z ∧ Precedes z s.bound ∧
      (z = s.bound ∧ xs = ls.map .ok ∨
        z ≠ s.bound ∧ xs = ls.map .ok ++ [.error (.noMatch z)] ∧
          FirstMatch s.ctx s.bound z s.rules none) := by
  induction n generalizing s with
  | zero => omega
  | succ n ih =>
    by_cases hat : s.cursor = s.bound
    · have hd : s.done = true := (done_iff_of_precedes hs hc).mpr hat
      exact ⟨[], s.cursor, [], s, .done hd, .nil, hc, .inl ⟨hat, rfl⟩⟩
    · have hd : s.done = false := by
        rw [Bool.eq_false_iff]
        intro hd
        exact hat ((done_iff_of_precedes hs hc).mp hd)
      obtain ⟨l, hl⟩ := FirstMatch.exists_of_yields fun r hr => hends r hr _ ⟨.refl _, hc⟩
      cases l with
      | none =>
        exact ⟨[], s.cursor, _, _, .turn hd hl (.done rfl), .nil, hc, .inr ⟨hat, rfl, hl⟩⟩
      | some l =>
        obtain ⟨hstart, hlt, hne, hlb⟩ := hl.advances hconf hc
        have hshort : (span s.bound l.stop).length < n := by
          have hpos := List.length_pos_iff.mpr hne
          rw [← hstart, ← hlt.span_append hlb, List.length_append] at hn
          omega
        have hcl : Precedes s.cursor l.stop := hstart ▸ hlt
        obtain ⟨ls, z, xs, last, hp, ht, hz, hxs⟩ := ih (s := (s.turn (some l)).2) hshort hs hlb
          hconf fun r hr c hb => hends r hr c ⟨hcl.trans hb.1, hb.2⟩
        have htiles : Tiles s.cursor (l :: ls) z := hstart ▸ .cons hlt hne ht
        refine ⟨l :: ls, z, _, last, .turn hd hl hp, htiles, hz, ?_⟩
        rcases hxs with ⟨he, rfl⟩ | ⟨he, rfl, hnone⟩
        · exact .inl ⟨he, rfl⟩
        · exact .inr ⟨he, rfl, hnone⟩

theorem Produces.length_le {s last : Scanner C T Ctx K}
    {xs : List (Except (ScanError C) (Lexeme C K))} (h : s.Produces xs last)
    (hc : Precedes s.cursor s.bound)
    (hconf : ∀ r ∈ s.rules, r.recognizer.table.Confined s.ctx) :
    xs.length ≤ (span s.bound s.cursor).length + 1 := by
  induction h with
  | done => exact Nat.zero_le _
  | @turn s last l xs hd hl hrest ih =>
    cases l with
    | none =>
      cases hrest with
      | done => exact Nat.le_add_left 1 _
      | turn hd' => cases hd'
    | some l =>
      obtain ⟨hstart, hle, hne, hb⟩ := hl.advances hconf hc
      have hrest : xs.length ≤ (span s.bound l.stop).length + 1 := ih hb hconf
      have hpos := List.length_pos_iff.mpr hne
      rw [← hstart, ← hle.span_append hb, List.length_append, List.length_cons]
      omega

/-- A scan yields lexemes that lie end to end from its begin to some place `z`, and these hold all
tokens up to there. If that is not the bound, one error follows, and no rule takes anything at `z`.
Then nothing comes any more. -/
theorem items_tile {rules : List (Rule C T Ctx K)} {ctx : Ctx} {b e : C} (hbe : Precedes b e)
    (hconf : ∀ r ∈ rules, r.recognizer.table.Confined ctx)
    (hends : ∀ r ∈ rules, ∀ c, Between b e c → ∃ o, r.recognizer.Yields ctx e c o) :
    ∃ ls z xs last,
      (∀ r, Ends (ofRules rules ctx e b).items r ↔ r = (xs, last)) ∧
        (∀ visits, last.next? visits = pure (none, last)) ∧
        Tiles b ls z ∧ (∀ l ∈ ls, Precedes l.stop e) ∧
        ls.flatMap (fun l => span l.stop l.start) = span z b ∧
        ls.length ≤ (span e b).length ∧
        (z = e ∧ xs = ls.map .ok ∨
          z ≠ e ∧ xs = ls.map .ok ++ [.error (.noMatch z)] ∧
            ∀ r ∈ rules, ∃ o, r.recognizer.Yields ctx e z o ∧
              (o.accepted = true → o.position = z)) := by
  let s := ofRules rules ctx e b
  have hmem : ∀ r, r ∈ s.rules ↔ r ∈ rules := fun r => Rule.mem_byPriority
  have hconf' : ∀ r ∈ s.rules, r.recognizer.table.Confined ctx :=
    fun r hr => hconf r ((hmem r).mp hr)
  obtain ⟨ls, z, xs, last, hp, ht, hz, hxs⟩ := exists_produces_tiles (s := s) _ (Nat.lt_succ_self _)
    rfl hbe hconf' fun r hr => hends r ((hmem r).mp hr)
  change Tiles b ls z at ht
  change Precedes z e at hz
  have hlen : ls.length ≤ (span e b).length := by
    have hle := ht.length_le
    rw [← ht.precedes.span_append hz, List.length_append]
    omega
  refine ⟨ls, z, xs, last, hp.items_iff, next?_of_done hp.done_last, ht,
    fun l hl => (ht.stop_precedes l hl).trans hz, ht.flatMap_span, hlen, ?_⟩
  rcases hxs with hxs | ⟨hne, hxs, hnone⟩
  · exact .inl hxs
  · have hstays := hnone.stays hconf' hz
    exact .inr ⟨hne, hxs, fun r hr => hstays r ((hmem r).mpr hr)⟩

def numberRule : Rule (ArrayCursor Char) Char Unit Unit :=
  ⟨(), .ofTable ⟨0, digitsTable⟩, 0⟩

theorem numberRule_confined : ∀ r ∈ [numberRule], r.recognizer.table.Confined () := by
  intro r hr
  obtain rfl := List.mem_singleton.mp hr
  have h : numberRule.recognizer.table.CallbackFree := by decide
  exact fun i => (h i).confined ()

theorem numberRule_ends : ∀ r ∈ [numberRule], ∀ c,
    Between (ArrayCursor.start 0 #['4', '2', 'x']) (.stop 0 #['4', '2', 'x']) c →
      ∃ o, r.recognizer.Yields () (.stop 0 #['4', '2', 'x']) c o := by
  intro r hr c hc
  obtain rfl := List.mem_singleton.mp hr
  obtain ⟨n, hn, rfl⟩ := hc.1.exists_le
  match n, hn with
  | 0, _ => exact ⟨_, 3, rfl⟩
  | 1, _ => exact ⟨_, 2, rfl⟩
  | 2, _ => exact ⟨_, 1, rfl⟩
  | 3, _ => exact ⟨_, 1, rfl⟩

theorem items_tile_number :
    Precedes (ArrayCursor.start 0 #['4', '2', 'x']) (.stop 0 #['4', '2', 'x']) ∧
      ∃ ls z xs last,
        Ends (ofRules [numberRule] () (ArrayCursor.stop 0 #['4', '2', 'x'])
          (.start 0 #['4', '2', 'x'])).items (xs, last) ∧
        Tiles (ArrayCursor.start 0 #['4', '2', 'x']) ls z ∧
        (z = .stop 0 #['4', '2', 'x'] ∧ xs = ls.map .ok ∨
          z ≠ .stop 0 #['4', '2', 'x'] ∧ xs = ls.map .ok ++ [.error (.noMatch z)]) := by
  have hbe : Precedes (ArrayCursor.start 0 #['4', '2', 'x']) (.stop 0 #['4', '2', 'x']) := ⟨3, rfl⟩
  obtain ⟨ls, z, xs, last, hitems, -, ht, -, -, -, hz⟩ :=
    items_tile hbe numberRule_confined numberRule_ends
  exact ⟨hbe, ls, z, xs, last, (hitems _).mpr rfl, ht, hz.imp_right fun h => ⟨h.1, h.2.1⟩⟩

end Scanner

end TableAutomata
