import TableAutomata.Proofs.Locality

/-! Two kinds of cursors over the same tokens. A relation that keeps step with both kinds leaves
neither a match step nor a whole run any way to tell them apart, wherever the bound lies. -/

namespace TableAutomata

variable {C D T Ctx Ctx' : Type}

namespace Cursor

/-- Related cursors stand at the same token, step forward together and meet related bounds
together. -/
structure Mirrors [Cursor C T] [Cursor D T] (R : C → D → Prop) : Prop where
  step {c : C} {d : D} : R c d →
    Option.Rel (fun x y => x.1 = y.1 ∧ R x.2 y.2) (next? c) (next? d)
  beq_eq {c c' : C} {d d' : D} : R c d → R c' d' → (c == c') = (d == d')

theorem exists_of_rel_some {α β : Type} {r : α → β → Prop} {a : α} {b? : Option β}
    (h : Option.Rel r (some a) b?) : ∃ b, b? = some b ∧ r a b := by
  cases h with
  | some hab => exact ⟨_, rfl, hab⟩

theorem eq_none_of_rel_none {α β : Type} {r : α → β → Prop} {b? : Option β}
    (h : Option.Rel r none b?) : b? = none := by
  cases h
  rfl

section

variable [Cursor C T]

theorem precedes_advanced_of_le {j k : Nat} (h : j ≤ k) (c : C) :
    Precedes (advanced j c) (advanced k c) :=
  ⟨k - j, by rw [← advanced_add, Nat.add_sub_cancel' h]⟩

variable [LawfulCursor C]

theorem next?_eq_head? (c : C) : next? c = (remaining c).head?.map fun t => (t, advanced 1 c) := by
  cases h : next? c with
  | none => simp [remaining_of_none h]
  | some td =>
    obtain ⟨t, d⟩ := td
    simp [remaining_of_some h, advanced_succ_of_some h]

theorem advanced_min (k : Nat) (c : C) : advanced (min k (remaining c).length) c = advanced k c := by
  refine Precedes.eq_of_length_le (precedes_advanced_of_le (Nat.min_le_left _ _) c) ?_
  simp only [remaining_advanced, List.length_drop]
  omega

theorem advanced_inj {c : C} {j k : Nat} (hj : j ≤ (remaining c).length)
    (hk : k ≤ (remaining c).length) (h : advanced j c = advanced k c) : j = k := by
  have hl := congrArg (fun d => (remaining d).length) h
  simp only [remaining_advanced, List.length_drop] at hl
  omega

theorem advanced_beq_iff {c : C} {j k : Nat} (hj : j ≤ (remaining c).length)
    (hk : k ≤ (remaining c).length) : (advanced j c == advanced k c) = true ↔ j = k := by
  constructor
  · intro h
    apply advanced_inj hj hk
    rcases Nat.le_total j k with hle | hle
    · exact (precedes_advanced_of_le hle c).beq_iff.mp h
    · exact ((precedes_advanced_of_le hle c).beq_iff.mp (LawfulCursor.beq_symm h)).symm
  · rintro rfl
    exact LawfulCursor.beq_refl _

end

namespace Mirrors

variable [Cursor C T] [Cursor D T] {R : C → D → Prop} {b c : C} {b' d : D}

theorem nextBefore? (h : Mirrors R) (hb : R b b') (hc : R c d) :
    Option.Rel (fun x y => x.1 = y.1 ∧ R x.2 y.2) (nextBefore? b c) (nextBefore? b' d) := by
  have he := h.beq_eq hc hb
  cases hd : d == b' with
  | true =>
    simp only [Cursor.nextBefore?, he, hd, if_true]
    exact .none
  | false =>
    simp only [Cursor.nextBefore?, he, hd, Bool.false_eq_true, if_false]
    exact h.step hc

theorem advanced (h : Mirrors R) (k : Nat) (hc : R c d) :
    R (advanced k c) (advanced k d) := by
  induction k generalizing c d with
  | zero => exact hc
  | succ k ih =>
    have hs := h.step hc
    cases hn : next? c with
    | none =>
      rw [hn] at hs
      rw [advanced_of_none hn, advanced_of_none (eq_none_of_rel_none hs)]
      exact hc
    | some x =>
      rw [hn] at hs
      obtain ⟨y, hn', hxy⟩ := exists_of_rel_some hs
      rw [advanced_succ_of_some hn, advanced_succ_of_some hn']
      exact ih hxy.2

theorem span_eq [LawfulCursor C] [LawfulCursor D] (h : Mirrors R) (hb : R b b') (hc : R c d) :
    span b c = span b' d := by
  generalize hs : span b c = ts
  induction ts generalizing c d with
  | nil =>
    have hn := h.nextBefore? hb hc
    rw [span_eq_nil_iff.mp hs] at hn
    exact (span_of_none (eq_none_of_rel_none hn)).symm
  | cons t ts ih =>
    obtain ⟨c', hc', hs'⟩ := span_eq_cons_iff.mp hs
    have hn := h.nextBefore? hb hc
    rw [hc'] at hn
    obtain ⟨y, hd, hxy⟩ := exists_of_rel_some hn
    have hty : t = y.1 := hxy.1
    rw [span_of_some hd, ← ih hxy.2 hs', hty]

end Mirrors

end Cursor

open Cursor (Mirrors remaining advanced span)

theorem Abreast.mirrors [Cursor C T] [LawfulCursor C] [Cursor D T] [LawfulCursor D] {b : C} {b' : D}
    (h : remaining b = remaining b') : Mirrors (Abreast b b' (remaining b).length) where
  step := by
    rintro _ _ ⟨k, hk, rfl, rfl⟩
    rw [Cursor.next?_eq_head?, Cursor.next?_eq_head?, Cursor.remaining_advanced,
      Cursor.remaining_advanced, ← h]
    cases hd : (remaining b).drop k with
    | nil => exact .none
    | cons t ts =>
      have hlt : k < (remaining b).length := by
        by_contra hle
        rw [List.drop_eq_nil_of_le (by omega)] at hd
        cases hd
      exact .some ⟨rfl, k + 1, hlt, (Cursor.advanced_add k 1 b).symm,
        (Cursor.advanced_add k 1 b').symm⟩
  beq_eq := by
    rintro _ _ _ _ ⟨j, hj, rfl, rfl⟩ ⟨k, hk, rfl, rfl⟩
    rw [Bool.eq_iff_iff, Cursor.advanced_beq_iff hj hk,
      Cursor.advanced_beq_iff (h ▸ hj) (h ▸ hk)]

theorem abreast_advanced [Cursor C T] [LawfulCursor C] [Cursor D T] [LawfulCursor D] {b : C} {b' : D}
    (h : remaining b = remaining b') (k : Nat) :
    Abreast b b' (remaining b).length (advanced k b) (advanced k b') := by
  refine ⟨min k (remaining b).length, Nat.min_le_right _ _, (Cursor.advanced_min k b).symm, ?_⟩
  rw [h]
  exact (Cursor.advanced_min k b').symm

variable [Cursor C T] [LawfulCursor C] [Cursor D T] [LawfulCursor D] [BEq T] [LE T] [DecidableLE T]
  {R : C → D → Prop} {e : C} {e' : D}

omit [Cursor C T] [LawfulCursor C] [Cursor D T] [LawfulCursor D] in
theorem Matcher.ReadAlike.symm {m : Matcher C T Ctx} {n : Matcher D T Ctx'} (h : m.ReadAlike n) :
    n.ReadAlike m := by
  obtain ⟨read, hm, hn⟩ := h
  exact ⟨read, hn, hm⟩

theorem Matcher.ReadAlike.mirrored (hR : Mirrors R) (he : R e e') (ctx : Ctx) (ctx' : Ctx')
    {m : Matcher C T Ctx} {n : Matcher D T Ctx'} (h : m.ReadAlike n) :
    Simulated R R (m.Yields ctx e) (n.Yields ctx' e') := by
  obtain ⟨read, hm, hn⟩ := h
  intro c d hcd o ho
  rw [Matcher.yields_of_reading? hm] at ho
  subst ho
  refine ⟨_, (Matcher.yields_of_reading? hn).mpr rfl, ?_⟩
  rw [← hR.span_eq he hcd]
  have hplace : R ((read (span e c)).place e c).position ((read (span e c)).place e' d).position := by
    cases hp : (read (span e c)).position with
    | ahead k => simpa only [Outcome.place, Mark.place, hp] using hR.advanced k hcd
    | bound => simpa only [Outcome.place, Mark.place, hp] using he
  exact ⟨rfl, fun _ => hplace, fun _ => hplace⟩

theorem Matcher.Alike.mirrored (hR : Mirrors R) (he : R e e') (ctx : Ctx) (ctx' : Ctx')
    {m : Matcher C T Ctx} {n : Matcher D T Ctx'} (h : Alike ReadAlike m n) :
    Simulated R R (m.Yields ctx e) (n.Yields ctx' e') :=
  h.simulated (fun _ _ hmn => hmn.mirrored hR he ctx ctx') he

end TableAutomata
