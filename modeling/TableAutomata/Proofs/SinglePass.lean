import TableAutomata.Proofs.Locality
import TableAutomata.Proofs.Repetition

/-! What the steps that pass once over their tokens accept, and where they reject. A step has the
tokens up to its bound, or up to the end of the sequence if going forward never meets the bound. -/

namespace TableAutomata

namespace Cursor

variable {C T : Type} [Cursor C T]

/-- The tokens from `c` on of which none stands at the bound. Behind the last of them is the bound, or
the end of the sequence. -/
structure IsSpan (bound c : C) (toks : List T) : Prop where
  begins : toks <+: remaining c
  before : ∀ k < toks.length, (advanced k c == bound) = false
  ends : (advanced toks.length c == bound) = true ∨ toks = remaining c

variable [LawfulCursor C] {bound c : C} {t : T} {toks : List T}

theorem IsSpan.nil_iff : IsSpan bound c [] ↔ nextBefore? bound c = none := by
  constructor
  · rintro ⟨-, -, hmet | hend⟩
    · exact if_pos hmet
    · cases hn : next? c with
      | none => simp [nextBefore?, hn]
      | some td => simp [remaining_of_some hn] at hend
  · intro hn
    refine ⟨List.nil_prefix, fun k hk => absurd hk (Nat.not_lt_zero k), ?_⟩
    cases hmet : c == bound with
    | true => exact .inl hmet
    | false =>
      rw [nextBefore?, hmet] at hn
      exact .inr (remaining_of_none (by simpa using hn)).symm

theorem IsSpan.cons_iff : IsSpan bound c (t :: toks) ↔
    ∃ d, nextBefore? bound c = some (t, d) ∧ IsSpan bound d toks := by
  constructor
  · rintro ⟨hbegins, hbefore, hends⟩
    cases hn : next? c with
    | none => simp [remaining_of_none hn] at hbegins
    | some ud =>
      obtain ⟨u, d⟩ := ud
      rw [remaining_of_some hn] at hbegins hends
      obtain ⟨rfl, hrest⟩ := List.cons_prefix_cons.mp hbegins
      have hfirst : (c == bound) = false := hbefore 0 (Nat.zero_lt_succ _)
      refine ⟨d, nextBefore?_eq_some_iff.mpr ⟨hfirst, hn⟩, hrest, fun k hk => ?_, ?_⟩
      · have hlater := hbefore (k + 1) (Nat.succ_lt_succ hk)
        rwa [advanced_succ_of_some hn] at hlater
      · rw [List.length_cons, advanced_succ_of_some hn] at hends
        exact hends.imp_right fun he => (List.cons.inj he).2
  · rintro ⟨d, hd, hrest, hbefore, hends⟩
    obtain ⟨hfirst, hn⟩ := nextBefore?_eq_some_iff.mp hd
    refine ⟨?_, fun k hk => ?_, ?_⟩
    · rw [remaining_of_some hn]
      exact List.cons_prefix_cons.mpr ⟨rfl, hrest⟩
    · cases k with
      | zero => exact hfirst
      | succ k =>
        rw [advanced_succ_of_some hn]
        exact hbefore k (Nat.lt_of_succ_lt_succ hk)
    · rw [List.length_cons, advanced_succ_of_some hn, remaining_of_some hn]
      exact hends.imp_right fun he => by rw [he]

theorem isSpan_iff : IsSpan bound c toks ↔ toks = span bound c := by
  rw [eq_comm]
  induction toks generalizing c with
  | nil => rw [IsSpan.nil_iff, span_eq_nil_iff]
  | cons t toks ih => rw [IsSpan.cons_iff, span_eq_cons_iff]; simp only [ih]

end Cursor

open Cursor (IsSpan advanced span)

namespace Outcome

variable {C T : Type} {o : Outcome C} {p q : Prop} {d r : C}

/-- Accepts at `d` if `p` holds, and rejects at `r` if it does not. -/
structure AcceptsIff (o : Outcome C) (p : Prop) (d r : C) : Prop where
  accepts : p → o = accept d
  rejects : ¬ p → o = reject r

theorem acceptsIff_ite [Decidable p] (d r : C) :
    (if p then accept d else reject r).AcceptsIff p d r :=
  ⟨fun h => if_pos h, fun h => if_neg h⟩

namespace AcceptsIff

theorem accepted_iff (h : o.AcceptsIff p d r) : o.accepted = true ↔ p := by
  by_cases hp : p
  · simp [h.accepts hp, accept, hp]
  · simp [h.rejects hp, reject, hp]

theorem congr (h : o.AcceptsIff p d r) (hpq : p ↔ q) : o.AcceptsIff q d r :=
  ⟨fun hq => h.accepts (hpq.mpr hq), fun hq => h.rejects (mt hpq.mp hq)⟩

theorem place [Cursor C T] {o : Outcome Mark} {m n : Mark} (h : o.AcceptsIff p m n) (bound c : C) :
    (o.place bound c).AcceptsIff p (m.place bound c) (n.place bound c) := by
  refine ⟨fun hp => ?_, fun hp => ?_⟩
  · rw [h.accepts hp]
    rfl
  · rw [h.rejects hp]
    rfl

end AcceptsIff

end Outcome

theorem Begins.singleton_iff {T : Type} [BEq T] {t : T} {s : List T} :
    Begins [t] s ↔ ∃ x ∈ s.head?, (x == t) = true := by
  cases s with
  | nil => simp [Begins]
  | cons x s =>
    have hnil : Begins [] s := ⟨[], List.nil_prefix, .nil⟩
    simp [Begins.cons_iff, hnil]

namespace Reading

variable {T : Type}

theorem seq_acceptsIff [BEq T] (pattern s : List T) :
    (seq pattern s).AcceptsIff (Begins pattern s) (.ahead pattern.length) .bound :=
  (Outcome.acceptsIff_ite _ _).congr startsWith_iff_begins

theorem equals_acceptsIff [BEq T] (t : T) (s : List T) :
    (equals t s).AcceptsIff (∃ x ∈ s.head?, (x == t) = true) (.ahead 1)
      (if s = [] then .bound else .ahead 0) := by
  cases s with
  | nil => exact ⟨nofun, fun _ => rfl⟩
  | cons x r => exact (Outcome.acceptsIff_ite _ _).congr (by simp)

theorem range_acceptsIff [LE T] [DecidableLE T] (lo hi : T) (s : List T) :
    (range lo hi s).AcceptsIff (∃ x ∈ s.head?, lo ≤ x ∧ x ≤ hi) (.ahead 1) .bound := by
  cases s with
  | nil => exact ⟨nofun, fun _ => rfl⟩
  | cons x r => exact (Outcome.acceptsIff_ite _ _).congr (by simp)

theorem oneOf_acceptsIff [BEq T] {set : List T} (h : set ≠ []) (s : List T) :
    (oneOf set s).AcceptsIff (∃ x ∈ s.head?, ∃ t ∈ set, (x == t) = true) (.ahead 1) .bound := by
  cases s with
  | nil => exact ⟨nofun, fun _ => if_neg (by simpa using h)⟩
  | cons x r =>
    exact (Outcome.acceptsIff_ite _ _).congr (by simp [List.contains_iff_exists_mem_beq])

theorem oneOf_nil_acceptsIff [BEq T] (s : List T) :
    (oneOf [] s).AcceptsIff (s = []) (.ahead 0) .bound := by
  cases s with
  | nil => exact ⟨fun _ => rfl, fun h => absurd rfl h⟩
  | cons x r => exact ⟨nofun, fun _ => rfl⟩

end Reading

namespace Match

variable {C T : Type} [Cursor C T] [LawfulCursor C] [BEq T] [LE T] [DecidableLE T]

/-- What the single-pass steps make of the tokens up to the bound. All of them reject at the bound, but
for the comparison with one token, which rejects another token where it stands. To ask for one token,
for a pattern of one token or for one of a single token is all the same to what is accepted. -/
theorem single_pass_steps (bound c : C) :
    ∃ toks : List T, (∀ s, IsSpan bound c s ↔ s = toks) ∧
      (∀ n, (length n bound c).AcceptsIff (n ≤ toks.length) (advanced n c) bound) ∧
      (∀ pattern, (seq pattern bound c).AcceptsIff (Begins pattern toks)
        (advanced pattern.length c) bound) ∧
      (∀ t, (equals t bound c).AcceptsIff (∃ x ∈ toks.head?, (x == t) = true) (advanced 1 c)
        (if toks = [] then bound else c)) ∧
      (∀ lo hi, (range lo hi bound c).AcceptsIff (∃ x ∈ toks.head?, lo ≤ x ∧ x ≤ hi)
        (advanced 1 c) bound) ∧
      (∀ set, set ≠ [] → (oneOf set bound c).AcceptsIff
        (∃ x ∈ toks.head?, ∃ t ∈ set, (x == t) = true) (advanced 1 c) bound) ∧
      (oneOf [] bound c).AcceptsIff (toks = []) c bound ∧
      ∀ t, (seq [t] bound c).accepted = (equals t bound c).accepted ∧
        (oneOf [t] bound c).accepted = (equals t bound c).accepted := by
  have hseq : ∀ pattern, (seq pattern bound c).AcceptsIff (Begins pattern (span bound c))
      (advanced pattern.length c) bound := by
    intro pattern
    rw [seq_eq_reading]
    exact (Reading.seq_acceptsIff pattern _).place bound c
  have hequals : ∀ t, (equals t bound c).AcceptsIff (∃ x ∈ (span bound c).head?, (x == t) = true)
      (advanced 1 c) (if span bound c = [] then bound else c) := by
    intro t
    have hread := (Reading.equals_acceptsIff t (span bound c)).place bound c
    rw [apply_ite (Mark.place bound c)] at hread
    rw [equals_eq_reading]
    exact hread
  have honeOf : ∀ set, set ≠ [] → (oneOf set bound c).AcceptsIff
      (∃ x ∈ (span bound c).head?, ∃ t ∈ set, (x == t) = true) (advanced 1 c) bound := by
    intro set hset
    rw [oneOf_eq_reading]
    exact (Reading.oneOf_acceptsIff hset _).place bound c
  refine ⟨span bound c, fun s => Cursor.isSpan_iff, fun n => ?_, hseq, hequals, fun lo hi => ?_,
    honeOf, ?_, fun t => ⟨?_, ?_⟩⟩
  · rw [length_eq_reading]
    exact (Outcome.acceptsIff_ite _ _).place bound c
  · rw [range_eq_reading]
    exact (Reading.range_acceptsIff lo hi _).place bound c
  · rw [oneOf_eq_reading]
    exact (Reading.oneOf_nil_acceptsIff _).place bound c
  · rw [Bool.eq_iff_iff, (hseq [t]).accepted_iff, (hequals t).accepted_iff]
    exact Begins.singleton_iff
  · rw [Bool.eq_iff_iff, (honeOf [t] (List.cons_ne_nil t [])).accepted_iff, (hequals t).accepted_iff]
    simp only [List.mem_singleton, exists_eq_left]

theorem single_pass_steps_behind :
    IsSpan (amid 0) (amid 1) ['4', '2', '9'] ∧ ['8', '4'] ≠ [] ∧
      oneOf ['8', '4'] (amid 0) (amid 1) = .accept (amid 2) ∧
      seq ['4', '2', '9', '9'] (amid 0) (amid 1) = .reject (amid 0) ∧
      equals '7' (amid 0) (amid 1) = .reject (amid 1) := by
  obtain ⟨toks, hspan, -, hseq, hequals, -, honeOf, -⟩ := single_pass_steps (amid 0) (amid 1)
  have htoks : ['4', '2', '9'] = toks := by
    rw [← (hspan (span (amid 0) (amid 1))).mp (Cursor.isSpan_iff.mpr rfl)]
    rfl
  subst htoks
  have hset : ['8', '4'] ≠ [] := by decide
  refine ⟨(hspan _).mpr rfl, hset, (honeOf _ hset).accepts ⟨'4', rfl, '4', by decide, rfl⟩, ?_, ?_⟩
  · refine (hseq _).rejects ?_
    rw [← Reading.startsWith_iff_begins]
    decide
  · exact (hequals '7').rejects (by simp)

end Match

end TableAutomata
