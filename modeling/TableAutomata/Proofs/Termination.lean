import Mathlib.Logic.Relation
import TableAutomata.Grammar.Calculator
import TableAutomata.Proofs.Recurrence

/-! A criterion, read off a table alone, for runs that end. An entry is consuming if it never accepts
without taking a token. If no cycle of links, at any depth, avoids the success links of consuming
entries, then a run never comes back to an entry without having taken a token in between. -/

namespace TableAutomata

open Cursor (advanced span)
open Recording (Ends)
open Relation (TransGen)

namespace Matcher

variable {C T Ctx : Type}

/-- What the matcher accepts is at least one token long, to judge by its shape. -/
def Consuming : Matcher C T Ctx → Prop
  | .length n => 0 < n
  | .equals _ | .range _ _ => True
  | .oneOf set => set ≠ []
  | .seq pattern => pattern ≠ []
  | .always | .func _ => False
  | .nested link matcher _ => ∀ i, (link i).accepting = true → (matcher i).Consuming
  | .repeatSeq pattern min _ _ => pattern ≠ [] ∧ 0 < min

def decideConsuming : (m : Matcher C T Ctx) → Decidable m.Consuming
  | .length n => inferInstanceAs (Decidable (0 < n))
  | .equals _ | .range _ _ => isTrue trivial
  | .oneOf [] | .seq [] => isFalse fun h => h rfl
  | .oneOf (_ :: _) | .seq (_ :: _) => isTrue (List.cons_ne_nil _ _)
  | .always | .func _ => isFalse id
  | .nested link matcher _ =>
    have := fun i => (matcher i).decideConsuming
    inferInstanceAs (Decidable (∀ i, (link i).accepting = true → (matcher i).Consuming))
  | .repeatSeq [] _ _ _ => isFalse fun h => h.1 rfl
  | .repeatSeq (_ :: _) min _ _ => decidable_of_iff (0 < min) ⟨fun h => ⟨List.cons_ne_nil _ _, h⟩, (·.2)⟩

instance : DecidablePred (Consuming : Matcher C T Ctx → Prop) :=
  decideConsuming

end Matcher

/-- A link from `i` to `j` that can be taken without taking a token: a failure link, or the success
link of an entry that is not consuming. -/
def Idle {n : Nat} (link : Fin n → Link n) (consuming : Fin n → Prop) (i j : Fin n) : Prop :=
  ∃ accepted, (link i).next accepted = some j ∧ ¬ (accepted = true ∧ consuming i)

/-- In every table nested in the matcher, each cycle of links contains the success link of a consuming
entry: there is no cycle of idle links. -/
def Matcher.Grounded {C T Ctx : Type} : Matcher C T Ctx → Prop
  | .nested link matcher _ =>
    (∀ i, ¬ TransGen (Idle link fun j => (matcher j).Consuming) i i) ∧ ∀ i, (matcher i).Grounded
  | _ => True

namespace Table

variable {C T Ctx : Type} {t : Table C T Ctx}

def Idle (t : Table C T Ctx) : Fin t.size → Fin t.size → Prop :=
  TableAutomata.Idle t.link fun i => (t.matcher i).Consuming

def Grounded (t : Table C T Ctx) : Prop :=
  (∀ i, ¬ TransGen t.Idle i i) ∧ ∀ i, (t.matcher i).Grounded

theorem matcher_ofEntries {P : Matcher C T Ctx → Prop} {es : List (Entry C T Ctx)} {hne : es ≠ []}
    (h : ∀ e ∈ es, P e.matcher) (i : Fin es.length) : P ((ofEntries es hne).matcher i) :=
  h es[i] (List.getElem_mem i.isLt)

theorem grounded_of_rank (rank : Fin t.size → Nat)
    (hrank : ∀ i accepted j, (t.link i).next accepted = some j →
      rank j < rank i ∨ (accepted = true ∧ (t.matcher i).Consuming))
    (hm : ∀ i, (t.matcher i).Grounded) : t.Grounded := by
  have hidle : ∀ i j, t.Idle i j → rank j < rank i := by
    rintro i j ⟨accepted, hnext, hno⟩
    exact (hrank i accepted j hnext).resolve_right hno
  have htrans : ∀ i j, TransGen t.Idle i j → rank j < rank i := by
    intro i j h
    induction h with
    | single h => exact hidle _ _ h
    | tail _ h ih => exact Nat.lt_trans (hidle _ _ h) ih
  exact ⟨fun i hi => Nat.lt_irrefl _ (htrans i i hi), hm⟩

end Table

variable {C T Ctx : Type} [BEq T] [LE T] [DecidableLE T]

theorem Matcher.Consuming.exists_ahead {m : Matcher C T Ctx} {read : List T → Outcome Mark}
    (hm : m.Consuming) (hr : m.reading? = some read) {s : List T} (ha : (read s).accepted = true) :
    ∃ k, 0 < k ∧ (read s).position = .ahead k := by
  cases m with
  | length n =>
    cases hr
    by_cases hn : n ≤ s.length
    · exact ⟨n, hm, by simp [Reading.length, hn, Outcome.accept]⟩
    · simp [Reading.length, hn, Outcome.reject] at ha
  | equals t =>
    cases hr
    cases s with
    | nil => cases ha
    | cons x s =>
      by_cases hx : (x == t) = true
      · exact ⟨1, Nat.one_pos, by simp [Reading.equals, hx, Outcome.accept]⟩
      · simp [Reading.equals, hx, Outcome.reject] at ha
  | oneOf set =>
    cases hr
    cases s with
    | nil =>
      have hset : set ≠ [] := hm
      simp [Reading.oneOf, hset, Outcome.reject] at ha
    | cons x s =>
      by_cases hx : set.contains x = true
      · exact ⟨1, Nat.one_pos, by simp only [Reading.oneOf, if_pos hx, Outcome.accept]⟩
      · simp only [Reading.oneOf, if_neg hx, Outcome.reject, Bool.false_eq_true] at ha
  | seq pattern =>
    cases hr
    by_cases hs : Reading.startsWith pattern s = true
    · exact ⟨_, List.length_pos_iff.mpr hm, by simp only [Reading.seq, if_pos hs, Outcome.accept]⟩
    · simp only [Reading.seq, if_neg hs, Outcome.reject, Bool.false_eq_true] at ha
  | range lo hi =>
    cases hr
    cases s with
    | nil => cases ha
    | cons x s =>
      by_cases hx : lo ≤ x ∧ x ≤ hi
      · exact ⟨1, Nat.one_pos, by simp only [Reading.range, if_pos hx, Outcome.accept]⟩
      · simp only [Reading.range, if_neg hx, Outcome.reject, Bool.false_eq_true] at ha
  | always => cases hm
  | func f => cases hr
  | nested link matcher start => cases hr
  | repeatSeq pattern min max _ =>
    cases hr
    obtain ⟨hp, hmin⟩ := hm
    have hne : ¬ pattern.isEmpty = true := by simpa using hp
    by_cases hk : min ≤ Reading.copies pattern max s
    · refine ⟨_, Nat.mul_pos (Nat.lt_of_lt_of_le hmin hk) (List.length_pos_iff.mpr hp), ?_⟩
      simp only [Reading.repeatSeq, if_neg hne, if_pos hk, Outcome.accept]
    · simp only [Reading.repeatSeq, if_neg hne, if_neg hk, Outcome.reject, Bool.false_eq_true] at ha

variable [Cursor C T] [LawfulCursor C] {ctx : Ctx} {bound c : C}

theorem Matcher.Yields.span_lt {m : Matcher C T Ctx} {o : Outcome C} (h : m.Yields ctx bound c o)
    (hcb : m.CallbackFree) (hm : m.Consuming) (ha : o.accepted = true) :
    (span bound o.position).length < (span bound c).length := by
  induction m using Matcher.induction generalizing c o with
  | single m read hr =>
    obtain rfl := (Matcher.yields_of_reading? hr).mp h
    obtain ⟨k, hk, hpos⟩ := hm.exists_ahead hr ha
    have hfits := Matcher.fits_of_reading? hr (span bound c)
    rw [Outcome.Fits, hpos] at hfits
    have hfits : k ≤ (span bound c).length := hfits
    have hplace : ((read (span bound c)).place bound c).position = advanced k c := by
      rw [Outcome.place, hpos, Mark.place]
    rw [hplace, Cursor.span_advanced hfits, List.length_drop]
    omega
  | func f => cases hcb
  | table t start ih =>
    have ht : t.CallbackFree := hcb
    have hconsuming : ∀ i, (t.link i).accepting = true → (t.matcher i).Consuming := hm
    obtain ⟨vs, ⟨d, hvs⟩, rfl⟩ := Table.yields_iff_path.mp h
    obtain ⟨v, hv, hacc, hes, hpos⟩ := exists_noted_of_verdict_accepted ha
    obtain ⟨as, bs, e, -, has, he, htry, -⟩ := hvs.split_of_mem hv
    obtain ⟨hi, rfl⟩ := Table.getElem?_entries.mp he
    rw [← Fin.val_mk hi, Table.accepts_entries] at hes
    have hlt := ih _ htry (ht _) (hconsuming _ hes) hacc
    have hle := (has.reach ht.reach).length_le
    rw [hpos]
    omega

namespace Table

variable {t : Table C T Ctx} {x y : C}

theorem CallbackFree.idle_of_yields (ht : t.CallbackFree) {i j : Fin t.size} {o : Outcome C}
    (ho : (t.matcher i).Yields ctx bound x o) (hnext : (t.link i).next o.accepted = some j)
    (hlen : (span bound x).length ≤ (span bound (o.move x)).length) : t.Idle i j := by
  refine ⟨o.accepted, hnext, ?_⟩
  rintro ⟨ha, hconsuming⟩
  have hlt := ho.span_lt (ht i) hconsuming ha
  simp only [Outcome.move, ha, if_true] at hlen
  omega

theorem CallbackFree.idle_of_trail (ht : t.CallbackFree) {i j : Fin t.size} {vs : List (Visit C)}
    (h : Trail t.entries (Matcher.Yields ctx bound) (.index i) x vs (.index j) y) (hne : vs ≠ [])
    (hlen : (span bound x).length ≤ (span bound y).length) : TransGen t.Idle i j := by
  induction vs generalizing i x with
  | nil => exact absurd rfl hne
  | cons v vs ih =>
    cases h with
    | @visit _ e _ _ o _ _ he ho hr =>
      cases (getElem?_entries_fin i).symm.trans he
      rw [next_entry] at hr
      have hone : Trail t.entries (Matcher.Yields ctx bound) (.index i) x [⟨i, x, o⟩] _ (o.move x) :=
        .visit he ho .stay
      have hfirst := (hone.reach ht.reach).length_le
      have hrest := (hr.reach ht.reach).length_le
      cases hnext : (t.link i).next o.accepted with
      | none =>
        rw [hnext] at hr
        cases hr
      | some k =>
        rw [hnext] at hr
        have hidle : t.Idle i k := ht.idle_of_yields ho hnext (by omega)
        cases vs with
        | nil =>
          have hkj : k = j := Fin.ext (Target.index.inj hr.target_eq_of_nil)
          exact .single (hkj ▸ hidle)
        | cons w ws => exact .head hidle (ih hr (List.cons_ne_nil _ _) (by omega))

end Table

namespace Level

variable {top l : Level C T Ctx}

omit [LawfulCursor C] in
theorem Within.grounded (h : Within ctx bound top l) (ht : top.table.Grounded) :
    l.table.Grounded := by
  refine h.hands_down (fun t t' i s hm ht => ?_) ht
  have hnested : (t'.toMatcher s).Grounded := hm ▸ ht.2 i
  exact hnested

theorem not_repeats_of_grounded (hcb : l.table.CallbackFree) (hg : l.table.Grounded) :
    ¬ l.Repeats ctx bound := by
  rintro ⟨as, i, x, bs, has, hne, hbs⟩
  have hi : i < l.table.size := by
    cases hbs with
    | stay => exact absurd rfl hne
    | visit he _ _ => exact (Table.getElem?_entries.mp he).1
  exact hg.1 ⟨i, hi⟩ (hcb.idle_of_trail hbs hne (Nat.le_refl _))

end Level

/-- If every cycle of links, in the table and in all tables nested in it, contains the success link of
a consuming entry, then every run ends, wherever its bound is, and tries at most as many entries as
the table has for each place from its begin on. -/
theorem run_ends_of_grounded {t : Table C T Ctx} (ht : t.CallbackFree) (hg : t.Grounded)
    (start : Fin t.size) (ctx : Ctx) (bound c : C) :
    ∃ vs, Path t.entries ctx bound start c vs ∧
      vs.length ≤ t.size * ((span bound c).length + 1) ∧
      Ends (fun visits => t.run start visits ctx bound c) (verdict t.entries bound vs) := by
  let top : Level C T Ctx := ⟨t, start, c⟩
  have hno : ∀ l, Level.Within ctx bound top l → ¬ l.Repeats ctx bound := fun l hl =>
    Level.not_repeats_of_grounded (hl.callbackFree ht) (hl.grounded hg)
  obtain ⟨o, ho⟩ := (Level.yields_iff_no_repeats (l := top) ht).mpr hno
  obtain ⟨vs, hvs, rfl⟩ := Level.yields_iff.mp ho
  exact ⟨vs, hvs, hvs.length_le_room ht, ho⟩

theorem run_ends_of_grounded_number :
    (Calculator.number : Table (ArrayCursor Char) Char Unit).Grounded ∧
      ∃ o, Ends (fun visits => Calculator.number.run ⟨0, by decide⟩ visits ()
        (ArrayCursor.stop 0 #['4', '.']) (.start 0 #['4', '.'])) o := by
  have hdigit : (Abnf.digit : Table (ArrayCursor Char) Char Unit).Grounded :=
    Table.grounded_of_rank (fun _ => 0) (by decide)
      (Table.matcher_ofEntries (List.forall_mem_singleton.mpr trivial))
  have hg : (Calculator.number : Table (ArrayCursor Char) Char Unit).Grounded := by
    refine Table.grounded_of_rank (fun i => 3 - i) (by decide) (Table.matcher_ofEntries ?_)
    simp only [Calculator.numberEntries, List.forall_mem_cons]
    exact ⟨hdigit, trivial, hdigit, List.forall_mem_nil _⟩
  obtain ⟨vs, -, -, hends⟩ := run_ends_of_grounded (by decide) hg ⟨0, by decide⟩ ()
    (.stop 0 #['4', '.']) (.start 0 #['4', '.'])
  exact ⟨hg, _, hends⟩

end TableAutomata
