import Mathlib.Data.List.Forall2
import Mathlib.Order.Bounds.Basic
import TableAutomata.Input.ArrayCursor
import TableAutomata.Proofs.Reading

/-! How many copies of a pattern a repetition takes: as many as the tokens ahead begin with, but no
more than it may. -/

namespace TableAutomata

open Cursor (advanced span span_advanced)

variable {T : Type} [BEq T]

def Begins (w s : List T) : Prop :=
  ∃ u, u <+: s ∧ List.Forall₂ (fun t x => (x == t) = true) w u

theorem Begins.cons_iff {t x : T} {w s : List T} :
    Begins (t :: w) (x :: s) ↔ (x == t) = true ∧ Begins w s := by
  constructor
  · rintro ⟨u, hu, hall⟩
    cases hall with
    | @cons _ y _ v hy hv =>
      obtain ⟨rfl, hpre⟩ := List.cons_prefix_cons.mp hu
      exact ⟨hy, v, hpre, hv⟩
  · rintro ⟨hx, v, hpre, hv⟩
    exact ⟨x :: v, List.cons_prefix_cons.mpr ⟨rfl, hpre⟩, .cons hx hv⟩

theorem Begins.exists_beq {w s : List T} (h : Begins w s) {t : T} (ht : t ∈ w) :
    ∃ x ∈ s, (x == t) = true := by
  obtain ⟨u, hu, hall⟩ := h
  have hmem : ∃ x ∈ u, (x == t) = true := by
    clear hu
    induction hall with
    | nil => cases ht
    | cons hx _ ih =>
      rcases List.mem_cons.mp ht with rfl | ht
      · exact ⟨_, List.mem_cons_self, hx⟩
      · obtain ⟨y, hy, he⟩ := ih ht
        exact ⟨y, List.mem_cons_of_mem _ hy, he⟩
  obtain ⟨x, hx, he⟩ := hmem
  exact ⟨x, hu.subset hx, he⟩

namespace Reading

theorem startsWith_iff_begins {w s : List T} : startsWith w s = true ↔ Begins w s := by
  induction w generalizing s with
  | nil => exact iff_of_true rfl ⟨[], List.nil_prefix, .nil⟩
  | cons t w ih =>
    cases s with
    | nil =>
      refine iff_of_false Bool.false_ne_true ?_
      rintro ⟨u, hu, hall⟩
      rw [List.prefix_nil.mp hu] at hall
      cases hall
    | cons x s => rw [Begins.cons_iff, ← ih, startsWith, Bool.and_eq_true]

theorem startsWith_append (v w s : List T) :
    startsWith (v ++ w) s = (startsWith v s && startsWith w (s.drop v.length)) := by
  induction v generalizing s with
  | nil => rfl
  | cons t v ih =>
    cases s with
    | nil => rfl
    | cons x s =>
      simp only [List.cons_append, startsWith, ih, List.length_cons, List.drop_succ_cons,
        Bool.and_assoc]

variable {pattern : List T}

omit [BEq T] in
theorem length_flatten_replicate (n : Nat) (pattern : List T) :
    (List.replicate n pattern).flatten.length = n * pattern.length := by
  simp [List.length_flatten]

theorem startsWith_replicate_succ {n : Nat} {s : List T} :
    startsWith (List.replicate (n + 1) pattern).flatten s = true ↔
      startsWith pattern s = true ∧
        startsWith (List.replicate n pattern).flatten (s.drop pattern.length) = true := by
  rw [List.replicate_succ, List.flatten_cons, startsWith_append, Bool.and_eq_true]

theorem le_copies_iff {n hi : Nat} {s : List T} :
    n ≤ copies pattern hi s ↔
      n ≤ hi ∧ startsWith (List.replicate n pattern).flatten s = true := by
  induction hi generalizing n s with
  | zero =>
    cases n with
    | zero => exact iff_of_true (Nat.zero_le _) ⟨Nat.le_refl _, rfl⟩
    | succ n => simp [copies]
  | succ hi ih =>
    cases n with
    | zero => exact iff_of_true (Nat.zero_le _) ⟨Nat.zero_le _, rfl⟩
    | succ n =>
      rw [startsWith_replicate_succ]
      by_cases h : startsWith pattern s = true
      · simp [copies, h, ih]
      · simp [copies, h]

theorem isGreatest_copies (hne : pattern ≠ []) (s : List T) :
    IsGreatest {n | Begins (List.replicate n pattern).flatten s} (copies pattern s.length s) := by
  constructor
  · exact startsWith_iff_begins.mp (le_copies_iff.mp (Nat.le_refl _)).2
  · intro n hn
    have hstart := startsWith_iff_begins.mpr hn
    have hlen := length_le_of_startsWith hstart
    rw [length_flatten_replicate] at hlen
    have hpos := List.length_pos_iff.mpr hne
    have hle : n ≤ s.length := (Nat.le_mul_of_pos_right n hpos).trans hlen
    exact le_copies_iff.mpr ⟨hle, hstart⟩

theorem copies_eq_min {g : Nat} {s : List T}
    (hg : IsGreatest {n | Begins (List.replicate n pattern).flatten s} g) (hi : Nat) :
    copies pattern hi s = min hi g := by
  apply Nat.le_antisymm
  · obtain ⟨hle, hstart⟩ := le_copies_iff.mp (Nat.le_refl (copies pattern hi s))
    exact Nat.le_min.mpr ⟨hle, hg.2 (startsWith_iff_begins.mp hstart)⟩
  · refine le_copies_iff.mpr ⟨Nat.min_le_left _ _, ?_⟩
    have hcopies := le_copies_iff.mpr ⟨Nat.le_refl g, startsWith_iff_begins.mpr hg.1⟩
    exact (le_copies_iff.mp ((Nat.min_le_right hi g).trans hcopies)).2

theorem copies_le (hi : Nat) (s : List T) : copies pattern hi s ≤ hi :=
  (le_copies_iff.mp (Nat.le_refl (copies pattern hi s))).1

theorem copies_of_length_le (hne : pattern ≠ []) {hi : Nat} {s : List T} (h : s.length ≤ hi) :
    copies pattern hi s = copies pattern s.length s := by
  rw [copies_eq_min (isGreatest_copies hne s) hi]
  exact Nat.min_eq_right ((copies_le s.length s).trans h)

theorem not_startsWith_drop_copies {hi : Nat} {s : List T} (h : copies pattern hi s < hi) :
    ¬ startsWith pattern (s.drop (copies pattern hi s * pattern.length)) = true := by
  intro hmore
  have hstart := (le_copies_iff.mp (Nat.le_refl (copies pattern hi s))).2
  have hnext : copies pattern hi s + 1 ≤ copies pattern hi s := by
    refine le_copies_iff.mpr ⟨h, ?_⟩
    rw [List.replicate_succ', List.flatten_append, startsWith_append, hstart,
      length_flatten_replicate]
    simpa using hmore
  omega

end Reading

namespace Match

variable {C : Type} [Cursor C T] [LawfulCursor C]

/-- A repetition of a pattern takes the greatest number of copies that the tokens ahead begin with,
or `hi` copies if there are more. It stands behind whole copies, it leaves no copy that it might take,
and if that makes fewer than `lo`, it rejects at the bound. No `hi` as great as the number of tokens
makes a difference, and no copy is found where some token of the pattern equals no token ahead. -/
theorem repeatSeq_takes_most (pattern : List T) (lo hi : Nat) (bound c : C) :
    (pattern = [] → repeatSeq pattern lo hi bound c = .accept c) ∧
    (pattern ≠ [] → ∃ g k,
      IsGreatest {n | Begins (List.replicate n pattern).flatten (span bound c)} g ∧ k = min hi g ∧
      repeatSeq pattern lo hi bound c =
        (if lo ≤ k then .accept (advanced (k * pattern.length) c) else .reject bound) ∧
      (k < hi → ¬ Begins pattern (span bound (advanced (k * pattern.length) c))) ∧
      ((span bound c).length ≤ hi → k = g) ∧
      ((∃ t ∈ pattern, ∀ x ∈ span bound c, (x == t) = false) → g = 0)) := by
  refine ⟨fun he => by rw [he]; rfl, fun hne => ?_⟩
  have hg := Reading.isGreatest_copies hne (span bound c)
  refine ⟨_, _, hg, Reading.copies_eq_min hg hi, ?_, ?_, Reading.copies_of_length_le hne, ?_⟩
  · have hemp : ¬ pattern.isEmpty = true := by simpa using hne
    rw [repeatSeq_eq_reading, Reading.repeatSeq, if_neg hemp]
    split <;> rfl
  · intro hlt hmore
    rw [span_advanced (Reading.copies_mul_le pattern hi (span bound c))] at hmore
    exact Reading.not_startsWith_drop_copies hlt (Reading.startsWith_iff_begins.mpr hmore)
  · rintro ⟨t, ht, hno⟩
    by_contra hpos
    have hone := Reading.le_copies_iff.mp (Nat.one_le_iff_ne_zero.mpr hpos)
    obtain ⟨x, hx, he⟩ := (Reading.startsWith_iff_begins.mp hone.2).exists_beq
      (by simpa using ht : t ∈ (List.replicate 1 pattern).flatten)
    rw [hno x hx] at he
    cases he

theorem repeatSeq_takes_most_partial :
    let c := ArrayCursor.start 0 #['a', 'b', 'a', 'b', 'a']
    let bound := ArrayCursor.stop 0 #['a', 'b', 'a', 'b', 'a']
    (span bound c).length ≤ UInt64.size - 1 ∧
      repeatSeq ['a', 'b'] 1 (UInt64.size - 1) bound c = .accept (advanced 4 c) ∧
      repeatSeq [] 3 1 bound c = .accept c := by
  intro c bound
  have hlen : (span bound c).length ≤ UInt64.size - 1 := by decide
  obtain ⟨g, k, hg, -, hrep, -, hall, -⟩ :=
    (repeatSeq_takes_most ['a', 'b'] 1 (UInt64.size - 1) bound c).2 (by decide)
  have hg2 : g = 2 := hg.unique (Reading.isGreatest_copies (by decide) (span bound c))
  refine ⟨hlen, ?_, (repeatSeq_takes_most [] 3 1 bound c).1 rfl⟩
  rw [hrep, hall hlen, hg2]
  rfl

end Match

end TableAutomata
