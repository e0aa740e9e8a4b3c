import TableAutomata.Proofs.Chain
import TableAutomata.Proofs.Repetition

/-! Repetition by tables. A table that tries one matcher again and again takes what iterating the
matcher takes, and a repetition of a pattern can be unrolled into such a table. -/

namespace TableAutomata

open Cursor (advanced span)
open Recording (Ends)

variable {C T Ctx : Type}

def atLeast (n : Nat) (m : Matcher C T Ctx) : List (Entry C T Ctx) :=
  chain n (.index (n - 1)) (List.replicate n m)

def anyTimes (m : Matcher C T Ctx) : List (Entry C T Ctx) :=
  [.accept (.index 0) (.index 1) m, .accept .terminal .terminal .always]

def unrolled (lo hi : Nat) (m : Matcher C T Ctx) : List (Entry C T Ctx) :=
  chain lo .terminal (List.replicate hi m)

theorem replicate_ne_nil {n : Nat} (hn : 1 ≤ n) (m : Matcher C T Ctx) : List.replicate n m ≠ [] := by
  simp only [ne_eq, List.replicate_eq_nil_iff]
  omega

theorem exists_table_atLeast {n : Nat} (hn : 1 ≤ n) (m : Matcher C T Ctx) :
    ∃ t, Table.ofEntries? (atLeast n m) = .ok t := by
  refine exists_table_chain (replicate_ne_nil hn m) ?_
  have hlt : n - 1 < n := by omega
  simp [Target.dangling?, hlt]

theorem exists_table_unrolled {hi : Nat} (hhi : 1 ≤ hi) (lo : Nat) (m : Matcher C T Ctx) :
    ∃ t, Table.ofEntries? (unrolled lo hi m) = .ok t :=
  exists_table_chain (replicate_ne_nil hhi m) rfl

variable [Cursor C T] [BEq T] [LE T] [DecidableLE T]

/-- Tried again and again, each time at the place reached before, the matcher accepts `k` times, the
last time at `d`, and then it rejects with `r`. -/
structure Matcher.StopsAfter (ctx : Ctx) (bound : C) (m : Matcher C T Ctx) (c : C) (k : Nat) (d : C)
    (r : Outcome C) : Prop where
  inTurn : InTurn ctx bound (List.replicate k m) c d
  yields : m.Yields ctx bound d r
  rejected : r.accepted = false

variable {ctx : Ctx} {bound c d : C} {k n lo hi : Nat} {m : Matcher C T Ctx} {r : Outcome C}

namespace Matcher.StopsAfter

theorem comes_of_lt (h : m.StopsAfter ctx bound c k d r) (hlo : 1 ≤ lo) (hk : k < n)
    (last : Target) :
    Comes (chain lo last (List.replicate n m)) ctx bound (.index 0) c (.reject bound)
      (shown lo k d r) := by
  have hsplit : List.replicate n m = List.replicate k m ++ m :: List.replicate (n - k - 1) m := by
    rw [← List.replicate_succ, List.replicate_append_replicate]
    congr 1
    omega
  have hcomes : Comes (chain lo last (List.replicate n m)) ctx bound (.index 0) c (.reject bound)
      (shown lo (List.replicate k m).length d r) :=
    .of_refused hsplit hlo h.inTurn h.yields h.rejected
  rwa [List.length_replicate] at hcomes

theorem comes_atLeast (h : m.StopsAfter ctx bound c k d r) (hn : 1 ≤ n) :
    Comes (atLeast n m) ctx bound (.index 0) c (.reject bound)
      (if n ≤ k then .accept d else r) := by
  by_cases hk : n ≤ k
  · have hturn := h.inTurn
    have hsplit : List.replicate k m = List.replicate n m ++ List.replicate (k - n) m := by
      rw [List.replicate_append_replicate, Nat.add_sub_cancel' hk]
    rw [hsplit] at hturn
    obtain ⟨e, hclimb, hcircle⟩ := hturn.exists_between
    rw [if_pos hk]
    refine Comes.of_inTurn (replicate_ne_nil hn m) hn (by simp) hclimb ?_
    refine Comes.circle ?_ ?_ (by simp) hcircle h.yields h.rejected
    · rw [List.getElem?_replicate_of_lt (by omega)]
    · rw [List.length_replicate]
      omega
  · have hcomes := h.comes_of_lt hn (Nat.lt_of_not_le hk) (.index (n - 1))
    rw [if_neg hk]
    rwa [shown, if_neg hk] at hcomes

theorem comes_anyTimes (h : m.StopsAfter ctx bound c k d r) (w : Outcome C) :
    Comes (anyTimes m) ctx bound (.index 0) c w (.accept d) := by
  induction k generalizing c w with
  | zero =>
    obtain ⟨hturn, hy, hr⟩ := h
    cases hturn
    have hnext : (Entry.accept (.index 0) (.index 1) m).next r.accepted = .index 1 := by rw [hr]; rfl
    have hmove : r.move d = d := by simp [Outcome.move, hr]
    refine .visit rfl hy ?_
    rw [hnext, hmove]
    exact .visit rfl ⟨0, rfl⟩ .leave
  | succ k ih =>
    obtain ⟨hturn, hy, hr⟩ := h
    cases hturn with
    | cons hm hturn => exact .visit rfl hm (ih ⟨hturn, hy, hr⟩ _)

end Matcher.StopsAfter

/-- For a matcher that, tried again and again, accepts `k` times and then rejects: the table that asks
for it `n` times or more accepts where it has accepted last, or passes on its rejection if it has
accepted less often. The table that asks for it any number of times always accepts, where the matcher
has accepted last. -/
theorem self_loop_iterates (m : Matcher C T Ctx) {n : Nat} (hn : 1 ≤ n) :
    ∃ t s, Table.ofEntries? (atLeast n m) = .ok t ∧ Table.ofEntries? (anyTimes m) = .ok s ∧
      ∀ ctx bound c k d r, m.StopsAfter ctx bound c k d r →
        (∀ o, Ends (fun visits => t.run t.first visits ctx bound c) o ↔
          o = if n ≤ k then .accept d else r) ∧
        ∀ o, Ends (fun visits => s.run s.first visits ctx bound c) o ↔ o = .accept d := by
  obtain ⟨t, ht⟩ := exists_table_atLeast hn m
  obtain ⟨s, hs⟩ : ∃ s, Table.ofEntries? (anyTimes m) = .ok s := ⟨_, rfl⟩
  refine ⟨t, s, ht, hs, fun ctx bound c k d r h => ⟨?_, ?_⟩⟩
  · exact (h.comes_atLeast hn).ends_iff_eq ht
  · exact (h.comes_anyTimes (.reject bound)).ends_iff_eq hs

theorem self_loop_iterates_digits :
    let m : Matcher (ArrayCursor Char) Char Unit := Abnf.digit.toStep
    let c := ArrayCursor.start 0 #['1', '9', 'x']
    let bound := ArrayCursor.stop 0 #['1', '9', 'x']
    ∃ t s, Table.ofEntries? (atLeast 2 m) = .ok t ∧ Table.ofEntries? (anyTimes m) = .ok s ∧
      m.StopsAfter () bound c 2 (advanced 2 c) (.reject bound) ∧
      Ends (fun visits => t.run t.first visits () bound c) (.accept (advanced 2 c)) ∧
      Ends (fun visits => s.run s.first visits () bound c) (.accept (advanced 2 c)) := by
  intro m c bound
  have hstops : m.StopsAfter () bound c 2 (advanced 2 c) (.reject bound) :=
    ⟨.cons ⟨1, rfl⟩ (.cons ⟨1, rfl⟩ .nil), ⟨1, rfl⟩, rfl⟩
  obtain ⟨t, s, ht, hs, hruns⟩ := self_loop_iterates m (by decide : 1 ≤ 2)
  obtain ⟨hrun, hrun'⟩ := hruns () bound c _ _ _ hstops
  exact ⟨t, s, ht, hs, hstops, (hrun _).mpr rfl, (hrun' _).mpr rfl⟩

theorem Match.copies_inTurn (ctx : Ctx) (pattern : List T) (bound : C) (hi : Nat) (c : C) :
    InTurn ctx bound (List.replicate (copies pattern bound hi c).1 (.seq pattern)) c
        (copies pattern bound hi c).2 ∧
      (copies pattern bound hi c).1 ≤ hi ∧
      ((copies pattern bound hi c).1 < hi →
        Match.seq pattern bound (copies pattern bound hi c).2 = .reject bound) := by
  induction hi generalizing c with
  | zero => exact ⟨.nil, Nat.le_refl _, fun h => absurd h (Nat.lt_irrefl _)⟩
  | succ hi ih =>
    cases hb : behind? bound pattern c with
    | none =>
      have hcopies : copies pattern bound (hi + 1) c = (0, c) := by simp [copies, hb]
      rw [hcopies]
      exact ⟨.nil, Nat.zero_le _, fun _ => by rw [seq, hb]; rfl⟩
    | some d =>
      obtain ⟨hturn, hle, hstop⟩ := ih d
      have hcopies : copies pattern bound (hi + 1) c =
          ((copies pattern bound hi d).1 + 1, (copies pattern bound hi d).2) := by
        simp [copies, hb]
      have hseq : (Matcher.seq pattern : Matcher C T Ctx).Yields ctx bound c (.accept d) :=
        ⟨0, congrArg some (by rw [seq, hb]; rfl)⟩
      rw [hcopies]
      exact ⟨.cons hseq hturn, Nat.succ_le_succ hle, fun h => hstop (Nat.lt_of_succ_lt_succ h)⟩

omit [LE T] [DecidableLE T] in
theorem Match.repeatSeq_eq_shown {pattern : List T} (hne : pattern ≠ []) (lo hi : Nat)
    (bound c : C) :
    repeatSeq pattern lo hi bound c =
      shown lo (copies pattern bound hi c).1 (copies pattern bound hi c).2 (.reject bound) := by
  have hemp : ¬ pattern.isEmpty = true := by simpa using hne
  rw [repeatSeq, if_neg hemp]
  rfl

theorem comes_unrolled {pattern : List T} (hne : pattern ≠ []) (hlo : 1 ≤ lo) (hhi : lo ≤ hi)
    (ctx : Ctx) (bound c : C) :
    Comes (unrolled lo hi (.seq pattern)) ctx bound (.index 0) c (.reject bound)
      (Match.repeatSeq pattern lo hi bound c) := by
  obtain ⟨hturn, hle, hstop⟩ := Match.copies_inTurn ctx pattern bound hi c
  rw [Match.repeatSeq_eq_shown hne]
  generalize Match.copies pattern bound hi c = kd at hturn hle hstop
  obtain ⟨k, d⟩ := kd
  rcases Nat.lt_or_eq_of_le hle with hk | rfl
  · have hseq : (Matcher.seq pattern : Matcher C T Ctx).Yields ctx bound d (.reject bound) :=
      ⟨0, congrArg some (hstop hk)⟩
    have hafter : (Matcher.seq pattern).StopsAfter ctx bound c k d (.reject bound) :=
      ⟨hturn, hseq, rfl⟩
    exact hafter.comes_of_lt hlo hk .terminal
  · rw [shown, if_pos hhi]
    exact .of_inTurn (replicate_ne_nil (hlo.trans hhi) _) hlo (by simpa using hhi) hturn .leave

theorem Match.copies_stopsAfter [LawfulCursor C] {pattern : List T} (hne : pattern ≠ [])
    (h : (span bound c).length ≤ hi) (ctx : Ctx) :
    (Matcher.seq pattern).StopsAfter ctx bound c (copies pattern bound hi c).1
      (copies pattern bound hi c).2 (.reject bound) := by
  have hmore : copies pattern bound (hi + 1) c = copies pattern bound hi c := by
    rw [copies_eq, copies_eq, Reading.copies_of_length_le hne h,
      Reading.copies_of_length_le hne (h.trans (Nat.le_succ hi))]
  have hle := (copies_inTurn ctx pattern bound hi c).2.1
  obtain ⟨hturn, -, hstop⟩ := copies_inTurn ctx pattern bound (hi + 1) c
  rw [hmore] at hturn hstop
  exact ⟨hturn, ⟨0, congrArg some (hstop (Nat.lt_succ_of_le hle))⟩, rfl⟩

/-- A repetition of a pattern, between `lo` and `hi` times, does the same as the table of `hi` entries
in a row that each ask for the pattern and accept from the entry with number `lo - 1` on. If there are
no more tokens than the repetition may take copies, so does the table of `lo` entries whose last entry
leads back to itself. -/
theorem repeatSeq_unrolls [LawfulCursor C] {pattern : List T} (hne : pattern ≠ []) {lo hi : Nat}
    (hlo : 1 ≤ lo) (hhi : lo ≤ hi) :
    ∃ (m : Matcher C T Ctx) (t s : Table C T Ctx), Matcher.repeatSeq? pattern lo hi = .ok m ∧
      Table.ofEntries? (unrolled lo hi (.seq pattern)) = .ok t ∧
      Table.ofEntries? (atLeast lo (.seq pattern)) = .ok s ∧
      ∀ ctx bound c, ∃ o, (∀ visits, (m.apply visits ctx bound c).value? = some o) ∧
        (∀ o', Ends (fun visits => t.run t.first visits ctx bound c) o' ↔ o' = o) ∧
        ((span bound c).length ≤ hi →
          ∀ o', Ends (fun visits => s.run s.first visits ctx bound c) o' ↔ o' = o) := by
  let one : Matcher C T Ctx := .seq pattern
  obtain ⟨t, ht⟩ := exists_table_unrolled (hlo.trans hhi) lo one
  obtain ⟨s, hs⟩ := exists_table_atLeast hlo one
  refine ⟨.repeatSeq pattern lo hi hhi, t, s, by simp [Matcher.repeatSeq?, hhi], ht, hs, ?_⟩
  intro ctx bound c
  refine ⟨Match.repeatSeq pattern lo hi bound c, fun _ => rfl, ?_, fun hroom => ?_⟩
  · exact (comes_unrolled hne hlo hhi ctx bound c).ends_iff_eq ht
  · rw [Match.repeatSeq_eq_shown hne]
    exact ((Match.copies_stopsAfter hne hroom ctx).comes_atLeast hlo).ends_iff_eq hs

theorem repeatSeq_unrolls_partial :
    let c := ArrayCursor.start 0 #['a', 'b', 'a', 'b', 'a']
    let bound := ArrayCursor.stop 0 #['a', 'b', 'a', 'b', 'a']
    ∃ t s : Table (ArrayCursor Char) Char Unit,
      Table.ofEntries? (unrolled 2 5 (.seq ['a', 'b'])) = .ok t ∧
      Table.ofEntries? (atLeast 2 (.seq ['a', 'b'])) = .ok s ∧ (span bound c).length ≤ 5 ∧
      Ends (fun visits => t.run t.first visits () bound c) (.accept (advanced 4 c)) ∧
      Ends (fun visits => s.run s.first visits () bound c) (.accept (advanced 4 c)) := by
  intro c bound
  have hroom : (span bound c).length ≤ 5 := by decide
  obtain ⟨m, t, s, hm, ht, hs, hruns⟩ := repeatSeq_unrolls (C := ArrayCursor Char)
    (by decide : ['a', 'b'] ≠ []) (by decide : 1 ≤ 2) (by decide : 2 ≤ 5)
  obtain ⟨o, ho, hrun, hrun'⟩ := hruns () bound c
  have hout : o = .accept (advanced 4 c) := by
    cases hm
    exact (Option.some.inj (ho 0)).symm
  exact ⟨t, s, ht, hs, hroom, (hrun _).mpr hout.symm, (hrun' hroom _).mpr hout.symm⟩

end TableAutomata
