import TableAutomata.Proofs.Containment
import TableAutomata.Proofs.SinglePass
import TableAutomata.Proofs.TableReading

/-! An accepted part of the input matches itself. Under a nearer bound a single step still rejects what
it rejected, and still accepts what it accepted up to that bound. So a run that is stopped where another
one accepted goes along with it to that place, and from there on it can note no other place. -/

namespace TableAutomata

open Cursor (Precedes advanced span)
open Recording (Ends)

theorem Begins.prefix_iff {T : Type} [BEq T] {w u s : List T} (h : u <+: s) :
    Begins w u ↔ Begins w s ∧ w.length ≤ u.length := by
  constructor
  · rintro ⟨v, hv, hall⟩
    exact ⟨⟨v, hv.trans h, hall⟩, hall.length_eq ▸ hv.length_le⟩
  · rintro ⟨⟨v, hv, hall⟩, hl⟩
    exact ⟨v, List.prefix_of_prefix_length_le hv h (hall.length_eq ▸ hl), hall⟩

namespace Reading

variable {T : Type} {read : List T → Outcome Mark} {u s : List T}

/-- With fewer tokens ahead, what was rejected is rejected, and what was accepted is accepted if it is
still there. -/
structure Narrows (read : List T → Outcome Mark) : Prop where
  rejected {u s : List T} : u <+: s → (read s).accepted = false → (read u).accepted = false
  accepted {u s : List T} {k : Nat} : u <+: s → k ≤ u.length → read s = .accept (.ahead k) →
    read u = .accept (.ahead k)

theorem Narrows.of_acceptsIff {p : List T → Prop} {n : Nat} {place : List T → Mark}
    (hread : ∀ s, (read s).AcceptsIff (p s) (.ahead n) (place s))
    (hp : ∀ {u s}, u <+: s → (p u ↔ p s ∧ n ≤ u.length)) : Narrows read where
  rejected {u s} h hrej := by
    have hs : ¬ p s := by
      rw [← (hread s).accepted_iff, hrej]
      exact Bool.false_ne_true
    rw [(hread u).rejects fun hu => hs ((hp h).mp hu).1]
    rfl
  accepted {u s k} h hk hacc := by
    have hs : p s := (hread s).accepted_iff.mp (by rw [hacc]; rfl)
    rw [(hread s).accepts hs] at hacc
    cases hacc
    exact (hread u).accepts ((hp h).mpr ⟨hs, hk⟩)

theorem exists_head?_prefix_iff {p : T → Prop} (h : u <+: s) :
    (∃ x ∈ u.head?, p x) ↔ (∃ x ∈ s.head?, p x) ∧ 1 ≤ u.length := by
  obtain ⟨r, rfl⟩ := h
  cases u with
  | nil => simp
  | cons x u => simp

theorem le_copies_prefix_iff [BEq T] {pattern : List T} {n max : Nat} (h : u <+: s) :
    n ≤ copies pattern max u ↔ n ≤ copies pattern max s ∧ n * pattern.length ≤ u.length := by
  rw [le_copies_iff, le_copies_iff, startsWith_iff_begins, startsWith_iff_begins,
    Begins.prefix_iff h, length_flatten_replicate, and_assoc]

theorem narrows_repeatSeq [BEq T] (pattern : List T) (min max : Nat) :
    Narrows (repeatSeq pattern min max) where
  rejected {u s} h hrej := by
    unfold repeatSeq at hrej ⊢
    by_cases he : pattern.isEmpty = true
    · rw [if_pos he] at hrej
      cases hrej
    · rw [if_neg he] at hrej ⊢
      by_cases hs : min ≤ copies pattern max s
      · rw [if_pos hs] at hrej
        cases hrej
      · rw [if_neg fun hu => hs ((le_copies_prefix_iff h).mp hu).1]
        rfl
  accepted {u s k} h hk hacc := by
    unfold repeatSeq at hacc ⊢
    by_cases he : pattern.isEmpty = true
    · rwa [if_pos he] at hacc ⊢
    · rw [if_neg he] at hacc ⊢
      by_cases hs : min ≤ copies pattern max s
      · rw [if_pos hs] at hacc
        cases hacc
        have hle : copies pattern max u ≤ copies pattern max s :=
          ((le_copies_prefix_iff h).mp (Nat.le_refl _)).1
        have hge : copies pattern max s ≤ copies pattern max u :=
          (le_copies_prefix_iff h).mpr ⟨Nat.le_refl _, hk⟩
        rw [Nat.le_antisymm hle hge, if_pos hs]
      · rw [if_neg hs] at hacc
        cases hacc

end Reading

/-- A step of its own: no function, no table, and no choice among no tokens at all. -/
def Matcher.IsPlain {C T Ctx : Type} : Matcher C T Ctx → Prop
  | .oneOf set => set ≠ []
  | .func _ => False
  | .nested .. => False
  | _ => True

def Table.IsPlain {C T Ctx : Type} (t : Table C T Ctx) : Prop :=
  ∀ i, (t.matcher i).IsPlain

variable {C T Ctx : Type}

theorem Matcher.IsPlain.callbackFree {m : Matcher C T Ctx} (h : m.IsPlain) : m.CallbackFree := by
  cases m with
  | func f => cases h
  | nested link matcher start => cases h
  | _ => trivial

variable [BEq T] [LE T] [DecidableLE T]

theorem Matcher.IsPlain.exists_narrows {m : Matcher C T Ctx} (h : m.IsPlain) :
    ∃ read, m.reading? = some read ∧ Reading.Narrows read := by
  cases m with
  | length n =>
    refine ⟨_, rfl, .of_acceptsIff (fun s => Outcome.acceptsIff_ite _ _) fun hu => ?_⟩
    exact ⟨fun hn => ⟨hn.trans hu.length_le, hn⟩, And.right⟩
  | equals t =>
    exact ⟨_, rfl, .of_acceptsIff (Reading.equals_acceptsIff t) Reading.exists_head?_prefix_iff⟩
  | oneOf set =>
    exact ⟨_, rfl, .of_acceptsIff (Reading.oneOf_acceptsIff h) Reading.exists_head?_prefix_iff⟩
  | seq pattern =>
    exact ⟨_, rfl, .of_acceptsIff (Reading.seq_acceptsIff pattern) Begins.prefix_iff⟩
  | range lo hi =>
    exact ⟨_, rfl, .of_acceptsIff (Reading.range_acceptsIff lo hi) Reading.exists_head?_prefix_iff⟩
  | always => exact ⟨_, rfl, fun _ h => h, fun _ _ h => h⟩
  | func f => cases h
  | nested link matcher start => cases h
  | repeatSeq pattern min max _ => exact ⟨_, rfl, Reading.narrows_repeatSeq pattern min max⟩

variable [Cursor C T] [LawfulCursor C] {ctx ctx' : Ctx} {c q e : C} {o p : Outcome C}

theorem Matcher.IsPlain.agree {m : Matcher C T Ctx} (hm : m.IsPlain) (hcq : Precedes c q)
    (hqe : Precedes q e) (ho : m.Yields ctx e c o) (hmove : Precedes (o.move c) q)
    (hp : m.Yields ctx' q c p) : p.accepted = o.accepted ∧ p.move c = o.move c := by
  obtain ⟨read, hr, hread⟩ := hm.exists_narrows
  rw [Matcher.yields_of_reading? hr] at ho hp
  have hpre : span q c <+: span e c := ⟨span e q, hcq.span_append hqe⟩
  have hfits := Matcher.fits_of_reading? hr (span e c)
  generalize hs : read (span e c) = r at ho hfits
  obtain ⟨accepted, mark⟩ := r
  cases accepted with
  | false =>
    have hrej : (read (span q c)).accepted = false := hread.rejected hpre (by rw [hs])
    have hpacc : p.accepted = false := by rw [hp]; exact hrej
    rw [ho]
    simp [Outcome.move, hpacc, Outcome.place]
  | true =>
    cases mark with
    | bound => cases hfits
    | ahead k =>
      have hk : k ≤ (span q c).length := by
        subst ho
        exact hcq.le_length_span (hfits.trans (hcq.trans hqe).length_span_le) hmove
      rw [ho, hp, hread.accepted hpre hk hs]
      exact ⟨rfl, rfl⟩

theorem Outcome.amend_eq_accept {w : Outcome C} {accepting : Bool}
    (h : w.amend accepting o = .accept q) : w = .accept q ∨ accepting = true ∧ o = .accept q := by
  cases ha : o.accepted with
  | true =>
    cases accepting with
    | true => exact .inr ⟨rfl, by simpa [amend, ha] using h⟩
    | false => exact .inl (by simpa [amend, ha] using h)
  | false =>
    cases hw : w.accepted with
    | true => exact .inl (by simpa [amend, ha, hw] using h)
    | false =>
      have ho : o = .accept q := by simpa [amend, ha, hw] using h
      rw [ho] at ha
      cases ha

namespace Comes

variable {es : List (Entry C T Ctx)} {s : Target} {w : Outcome C}

theorem eq_of_at_bound (hes : ∀ x ∈ es, x.matcher.CallbackFree)
    (h : Comes es ctx q s c w o) (hc : c = q) (hw : w = .accept q) : o = .accept q := by
  induction h with
  | leave => exact hw
  | @visit i x c w o o' he ho _ ih =>
    subst hc hw
    have hx := hes x (List.mem_of_getElem? he)
    obtain ⟨hl, hr⟩ := ho.between (hx.confined ctx) (.refl c)
    have hplace : o.position = c := hr.antisymm hl
    refine ih ?_ ?_
    · simp [Outcome.move, hplace]
    · obtain ⟨accepted, position⟩ := o
      obtain rfl : position = c := hplace
      cases accepted <;> cases x.accepting <;> rfl

theorem index_under_nearer {i : Nat} {x : Entry C T Ctx} (he : es[i]? = some x)
    (hx : x.matcher.IsPlain) (hcq : Precedes c q) (hqe : Precedes q e)
    (hy : x.matcher.Yields ctx e c p) (hmove : Precedes (p.move c) q)
    (h : Comes es ctx' q (.index i) c w o) :
    ∃ r, r.accepted = p.accepted ∧ r.move c = p.move c ∧
      Comes es ctx' q (x.next p.accepted) (p.move c) (w.amend x.accepting r) o := by
  obtain ⟨r, hr, hrest⟩ := (index_iff he).mp h
  obtain ⟨hacc, hgo⟩ := hx.agree hcq hqe hy hmove hr
  exact ⟨r, hacc, hgo, hacc ▸ hgo ▸ hrest⟩

/-- If a run is to end with `q` noted, then either it has noted `q` already, or it is not past `q`; in
the second case a run under the bound `q` that stands where this one does, whatever it has to show so
far, ends with `q` noted as well. -/
theorem accepts_under_nearer (hes : ∀ x ∈ es, x.matcher.IsPlain) (hqe : Precedes q e)
    (h : Comes es ctx e s c w o) (ho : o = .accept q) (hce : Precedes c e) :
    w = .accept q ∨
      Precedes c q ∧ ∀ w' o', Comes es ctx' q s c w' o' → o' = .accept q := by
  induction h with
  | leave => exact .inl ho
  | @visit i x c w o o' he hyields _ ih =>
    have hx := hes x (List.mem_of_getElem? he)
    obtain ⟨hforward, hmoved⟩ :=
      Outcome.between_move (hyields.between (hx.callbackFree.confined ctx) hce)
    rcases ih ho hmoved with hnoted | ⟨hmove, hrest⟩
    · rcases Outcome.amend_eq_accept hnoted with hw | ⟨haccepting, rfl⟩
      · exact .inl hw
      · have hmove : Precedes ((Outcome.accept q).move c) q := .refl q
        refine .inr ⟨hforward.trans hmove, fun w' r hr => ?_⟩
        obtain ⟨⟨accepted, position⟩, hacc, hgo, hrest⟩ :=
          hr.index_under_nearer he hx (hforward.trans hmove) hqe hyields hmove
        obtain rfl : accepted = true := hacc
        obtain rfl : position = q := hgo
        rw [haccepting] at hrest
        exact hrest.eq_of_at_bound (fun y hy => (hes y hy).callbackFree) rfl rfl
    · refine .inr ⟨hforward.trans hmove, fun w' r hr => ?_⟩
      obtain ⟨p, -, -, hp⟩ := hr.index_under_nearer he hx (hforward.trans hmove) hqe hyields hmove
      exact hrest _ r hp

end Comes

/-- Where a run accepts, it accepts as well if it is stopped there, provided that it ends. -/
theorem accepted_start_matches_itself {t : Table C T Ctx} (ht : t.IsPlain) {start : Fin t.size}
    {b : C} (hbe : Precedes b e)
    (hq : Ends (fun visits => t.run start visits ctx e b) (.accept q))
    (ho : Ends (fun visits => t.run start visits ctx' q b) o) : o = .accept q := by
  have hplain : ∀ x ∈ t.entries, x.matcher.IsPlain := by
    intro x hx
    obtain ⟨i, rfl⟩ := Table.mem_entries.mp hx
    exact ht i
  have hyields : (t.toMatcher start).Yields ctx e b (.accept q) := hq
  have hconf : (t.toMatcher start).Confined ctx := fun i => (ht i).callbackFree.confined ctx
  obtain ⟨-, hqe⟩ := hyields.between hconf hbe
  rcases (Comes.iff_yields.mpr hyields).accepts_under_nearer hplain hqe rfl hbe with hw | ⟨-, hall⟩
  · cases hw
  · exact hall _ o (Comes.iff_yields.mpr ho)

def digitsAndFraction : Table (ArrayCursor Char) Char Unit :=
  .ofEntries
    [.accept (.index 0) (.index 1) (.range '0' '9'),
     .pass (.index 2) .terminal (.equals '.'),
     .accept (.index 2) .terminal (.range '0' '9')] (List.cons_ne_nil _ _)

theorem accepted_start_matches_itself_digits :
    digitsAndFraction.IsPlain ∧
      Precedes (ArrayCursor.start 0 #['1', '2', '.', 'x']) (.stop 0 #['1', '2', '.', 'x']) ∧
      Ends (fun visits => digitsAndFraction.run digitsAndFraction.first visits ()
          (.stop 0 #['1', '2', '.', 'x']) (.start 0 #['1', '2', '.', 'x']))
        (.accept (advanced 2 (.start 0 #['1', '2', '.', 'x']))) ∧
      ∃ o, Ends (fun visits => digitsAndFraction.run digitsAndFraction.first visits ()
          (advanced 2 (.start 0 #['1', '2', '.', 'x'])) (.start 0 #['1', '2', '.', 'x'])) o ∧
        o = .accept (advanced 2 (.start 0 #['1', '2', '.', 'x'])) := by
  have ht : digitsAndFraction.IsPlain := by
    intro (i : Fin 3)
    match i with
    | 0 => trivial
    | 1 => trivial
    | 2 => trivial
  have hbe : Precedes (ArrayCursor.start 0 #['1', '2', '.', 'x']) (.stop 0 #['1', '2', '.', 'x']) :=
    ⟨4, rfl⟩
  have hq : Ends (fun visits => digitsAndFraction.run digitsAndFraction.first visits ()
      (.stop 0 #['1', '2', '.', 'x']) (.start 0 #['1', '2', '.', 'x']))
      (.accept (advanced 2 (.start 0 #['1', '2', '.', 'x']))) := ⟨2, rfl⟩
  have hstopped : ∃ o, Ends (fun visits => digitsAndFraction.run digitsAndFraction.first visits ()
      (advanced 2 (.start 0 #['1', '2', '.', 'x'])) (.start 0 #['1', '2', '.', 'x'])) o :=
    ⟨_, 2, rfl⟩
  obtain ⟨o, ho⟩ := hstopped
  exact ⟨ht, hbe, hq, o, ho, accepted_start_matches_itself ht hbe hq ho⟩

end TableAutomata
