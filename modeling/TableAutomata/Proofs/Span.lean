import TableAutomata.Input.Cursor

/-! The order of cursors in one sequence, and the span of tokens from a cursor to a bound. A bound
that is never met leaves all remaining tokens in the span. -/

namespace TableAutomata.Cursor

variable {C T : Type} [Cursor C T]

/-- Going forward from `c` leads to `d`, or `c` is already there. -/
def Precedes (c d : C) : Prop :=
  ∃ n, advanced n c = d

def spanWithin (bound : C) : Nat → C → List T
  | 0, _ => []
  | n + 1, c =>
    match nextBefore? bound c with
    | none => []
    | some (t, d) => t :: spanWithin bound n d

/-- The tokens from `c` up to `bound`, or up to the end of the sequence if `bound` is not met. -/
def span (bound c : C) : List T :=
  spanWithin bound (remaining c).length c

theorem advanced_add (m n : Nat) (c : C) : advanced (m + n) c = advanced n (advanced m c) := by
  induction m generalizing c with
  | zero => rw [Nat.zero_add, advanced_zero]
  | succ m ih =>
    cases h : next? c with
    | none => simp [advanced_of_none h]
    | some td => rw [Nat.succ_add, advanced_succ_of_some h, advanced_succ_of_some h, ih]

theorem nextBefore?_eq_some_iff {bound c d : C} {t : T} :
    nextBefore? bound c = some (t, d) ↔ (c == bound) = false ∧ next? c = some (t, d) := by
  cases h : c == bound <;> simp [nextBefore?, h]

theorem advanced_one_of_nextBefore? {bound c d : C} {t : T}
    (h : nextBefore? bound c = some (t, d)) : advanced 1 c = d :=
  advanced_succ_of_some (nextBefore?_eq_some_iff.mp h).2

theorem span_of_none {bound c : C} (h : nextBefore? bound c = none) : span bound c = [] := by
  cases hn : (remaining c).length <;> simp [span, spanWithin, hn, h]

namespace Precedes

theorem refl (c : C) : Precedes c c :=
  ⟨0, rfl⟩

theorem trans {a b c : C} (h : Precedes a b) (h' : Precedes b c) : Precedes a c := by
  obtain ⟨m, rfl⟩ := h
  obtain ⟨n, rfl⟩ := h'
  exact ⟨m + n, advanced_add m n a⟩

theorem total {a b c : C} (h : Precedes a b) (h' : Precedes a c) : Precedes b c ∨ Precedes c b := by
  obtain ⟨m, rfl⟩ := h
  obtain ⟨n, rfl⟩ := h'
  rcases Nat.le_total m n with hle | hle
  · exact .inl ⟨n - m, by rw [← advanced_add, Nat.add_sub_cancel' hle]⟩
  · exact .inr ⟨m - n, by rw [← advanced_add, Nat.add_sub_cancel' hle]⟩

end Precedes

variable [LawfulCursor C]

theorem remaining_of_none {c : C} (h : next? c = none) : remaining c = [] := by
  rw [LawfulCursor.remaining_eq c, h]

theorem remaining_of_some {c d : C} {t : T} (h : next? c = some (t, d)) :
    remaining c = t :: remaining d := by
  rw [LawfulCursor.remaining_eq c, h]

theorem remaining_advanced (n : Nat) (c : C) : remaining (advanced n c) = (remaining c).drop n := by
  induction n generalizing c with
  | zero => rfl
  | succ n ih =>
    cases h : next? c with
    | none => simp [advanced_of_none h, remaining_of_none h]
    | some td => rw [advanced_succ_of_some h, remaining_of_some h, ih, List.drop_succ_cons]

theorem span_of_some {bound c d : C} {t : T} (h : nextBefore? bound c = some (t, d)) :
    span bound c = t :: span bound d := by
  have hr := remaining_of_some (nextBefore?_eq_some_iff.mp h).2
  simp [span, hr, spanWithin, h]

theorem span_eq_nil_iff {bound c : C} : span bound c = [] ↔ nextBefore? bound c = none := by
  cases h : nextBefore? bound c with
  | none => simp [span_of_none h]
  | some td => simp [span_of_some h]

theorem span_eq_cons_iff {bound c : C} {t : T} {ts : List T} :
    span bound c = t :: ts ↔ ∃ d, nextBefore? bound c = some (t, d) ∧ span bound d = ts := by
  cases h : nextBefore? bound c with
  | none => simp [span_of_none h]
  | some td =>
    obtain ⟨u, d⟩ := td
    simp only [span_of_some h, List.cons.injEq, Option.some.injEq, Prod.mk.injEq]
    constructor
    · rintro ⟨rfl, rfl⟩
      exact ⟨d, ⟨rfl, rfl⟩, rfl⟩
    · rintro ⟨_, ⟨rfl, rfl⟩, rfl⟩
      exact ⟨rfl, rfl⟩

theorem span_advanced {bound c : C} {k : Nat} (hk : k ≤ (span bound c).length) :
    span bound (advanced k c) = (span bound c).drop k := by
  induction k generalizing c with
  | zero => rfl
  | succ k ih =>
    cases hs : span bound c with
    | nil => simp [hs] at hk
    | cons t ts =>
      obtain ⟨d, hd, rfl⟩ := span_eq_cons_iff.mp hs
      rw [hs, List.length_cons] at hk
      rw [advanced_succ_of_some (nextBefore?_eq_some_iff.mp hd).2, ih (by omega),
        List.drop_succ_cons]

theorem span_advanced_one {bound c : C} {t : T} {ts : List T} (h : span bound c = t :: ts) :
    span bound (advanced 1 c) = ts := by
  rw [span_advanced (by simp [h]), h, List.drop_one, List.tail_cons]

namespace Precedes

theorem length_le {c d : C} (h : Precedes c d) : (remaining d).length ≤ (remaining c).length := by
  obtain ⟨n, rfl⟩ := h
  simp [remaining_advanced]

theorem eq_of_length_le {c d : C} (h : Precedes c d)
    (hl : (remaining c).length ≤ (remaining d).length) : c = d := by
  obtain ⟨n, rfl⟩ := h
  cases hn : next? c with
  | none => rw [advanced_of_none hn]
  | some td =>
    have hr := remaining_of_some hn
    have hz : n = 0 := by
      simp only [remaining_advanced, List.length_drop, hr, List.length_cons] at hl
      omega
    rw [hz, advanced_zero]

theorem antisymm {c d : C} (h : Precedes c d) (h' : Precedes d c) : c = d :=
  h.eq_of_length_le h'.length_le

theorem exists_le {c d : C} (h : Precedes c d) :
    ∃ n, n ≤ (remaining c).length ∧ advanced n c = d := by
  obtain ⟨n, rfl⟩ := h
  have hn : min n (remaining c).length + (n - (remaining c).length) = n := by omega
  refine ⟨min n (remaining c).length, Nat.min_le_right _ _,
    eq_of_length_le ⟨n - (remaining c).length, ?_⟩ ?_⟩
  · rw [← advanced_add, hn]
  · simp only [remaining_advanced, List.length_drop]
    omega

theorem beq_iff {c d : C} (h : Precedes c d) : (c == d) = true ↔ c = d := by
  constructor
  · intro he
    obtain ⟨n, hn, rfl⟩ := h.exists_le
    cases n with
    | zero => rfl
    | succ n =>
      have hne := LawfulCursor.ahead_ne (Nat.lt_of_succ_le hn)
      rw [LawfulCursor.beq_symm he] at hne
      cases hne
  · rintro rfl
    exact LawfulCursor.beq_refl c

theorem eq_of_nextBefore?_eq_none {c d : C} (h : Precedes c d) (hn : nextBefore? d c = none) :
    c = d := by
  cases he : c == d with
  | true => exact h.beq_iff.mp he
  | false =>
    obtain ⟨n, rfl⟩ := h
    rw [nextBefore?, he] at hn
    exact (advanced_of_none (by simpa using hn)).symm

theorem of_nextBefore? {c c' d : C} {t : T} (h : Precedes c d)
    (hn : nextBefore? d c = some (t, c')) : Precedes c' d := by
  obtain ⟨he, hc⟩ := nextBefore?_eq_some_iff.mp hn
  obtain ⟨n, rfl⟩ := h
  cases n with
  | zero =>
    rw [advanced_zero, LawfulCursor.beq_refl] at he
    cases he
  | succ n => exact ⟨n, (advanced_succ_of_some hc).symm⟩

theorem advanced_span {c d : C} (h : Precedes c d) : advanced (span d c).length c = d := by
  generalize hs : span d c = ts
  induction ts generalizing c with
  | nil => exact h.eq_of_nextBefore?_eq_none (span_eq_nil_iff.mp hs)
  | cons t ts ih =>
    obtain ⟨c', hn, hs⟩ := span_eq_cons_iff.mp hs
    rw [List.length_cons, advanced_succ_of_some (nextBefore?_eq_some_iff.mp hn).2]
    exact ih (h.of_nextBefore? hn) hs

theorem span_append_remaining {c d : C} (h : Precedes c d) :
    span d c ++ remaining d = remaining c := by
  generalize hs : span d c = ts
  induction ts generalizing c with
  | nil => rw [h.eq_of_nextBefore?_eq_none (span_eq_nil_iff.mp hs), List.nil_append]
  | cons t ts ih =>
    obtain ⟨c', hn, hs⟩ := span_eq_cons_iff.mp hs
    rw [remaining_of_some (nextBefore?_eq_some_iff.mp hn).2, List.cons_append,
      ih (h.of_nextBefore? hn) hs]

theorem span_append {a b c : C} (h : Precedes a b) (h' : Precedes b c) :
    span b a ++ span c b = span c a := by
  have hr : span b a ++ span c b ++ remaining c = span c a ++ remaining c := by
    rw [List.append_assoc, h'.span_append_remaining, h.span_append_remaining,
      (h.trans h').span_append_remaining]
  exact List.append_cancel_right hr

theorem span_eq_nil_iff_eq {c d : C} (h : Precedes c d) : span d c = [] ↔ c = d := by
  constructor
  · intro hs
    exact h.eq_of_nextBefore?_eq_none (span_eq_nil_iff.mp hs)
  · rintro rfl
    rw [span_eq_nil_iff, nextBefore?, LawfulCursor.beq_refl]
    rfl

theorem advanced_of_le {c d : C} (h : Precedes c d) {k : Nat} (hk : k ≤ (span d c).length) :
    Precedes (advanced k c) d := by
  refine ⟨(span d c).length - k, ?_⟩
  rw [← advanced_add, Nat.add_sub_cancel' hk, h.advanced_span]

theorem length_span_le {c d : C} (h : Precedes c d) :
    (span d c).length ≤ (remaining c).length := by
  rw [← h.span_append_remaining, List.length_append]
  exact Nat.le_add_right _ _

theorem le_length_span {c d : C} (h : Precedes c d) {k : Nat} (hk : k ≤ (remaining c).length)
    (hkd : Precedes (advanced k c) d) : k ≤ (span d c).length := by
  have hsum := congrArg List.length h.span_append_remaining
  have hle := hkd.length_le
  rw [remaining_advanced, List.length_drop] at hle
  rw [List.length_append] at hsum
  omega

end Precedes

end TableAutomata.Cursor
