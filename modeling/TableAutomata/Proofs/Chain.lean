import Mathlib.Logic.Relation
import TableAutomata.Proofs.TableReading

/-! Chains of entries: a success leads from each entry to the next, and a failure leads out of the
table. What a run over a chain has to show is known by the number of entries that have accepted. -/

namespace TableAutomata

variable {C T Ctx : Type}

/-- Where the entry with number `i` of `n` entries in a row stands, and `last` behind them. -/
def stage (n : Nat) (last : Target) (i : Nat) : Target :=
  if i < n then .index i else last

/-- The matchers in a row. Each success leads to the next entry, that of the last entry to `last`, and
each failure out of the table. The entry with number `i` is accepting if `lo ≤ i + 1`. -/
def chain (lo : Nat) (last : Target) (ms : List (Matcher C T Ctx)) : List (Entry C T Ctx) :=
  ms.mapIdx fun i m => ⟨stage ms.length last (i + 1), .terminal, m, decide (lo ≤ i + 1), 0, 0⟩

theorem drop_eq_cons {α : Type} {l rest : List α} {i : Nat} {x : α} (h : l.drop i = x :: rest) :
    l[i]? = some x ∧ l.drop (i + 1) = rest ∧ i + 1 + rest.length = l.length := by
  refine ⟨by rw [← List.head?_drop, h]; rfl, by rw [← List.drop_drop, h]; rfl, ?_⟩
  have hlen := congrArg List.length h
  simp only [List.length_drop, List.length_cons] at hlen
  omega

theorem eq_of_eqvGen {α β : Type} {r : α → α → Prop} {f : α → β} {a b : α}
    (hr : ∀ a b, r a b → f a = f b) (h : Relation.EqvGen r a b) : f a = f b :=
  (eq_equivalence.comap f).eqvGen_iff.mp (h.mono hr)

theorem stage_of_lt {n i : Nat} (h : i < n) (last : Target) : stage n last i = .index i :=
  if_pos h

@[simp] theorem stage_self (n : Nat) (last : Target) : stage n last n = last :=
  if_neg (Nat.lt_irrefl n)

theorem stage_terminal_cases (n i : Nat) :
    stage n .terminal i = .terminal ∨ stage n .terminal i = .index i := by
  by_cases h : i < n
  · exact .inr (stage_of_lt h .terminal)
  · exact .inl (if_neg h)

theorem stage_dangling? {n : Nat} {last : Target} (h : last.dangling? n = none) (i : Nat) :
    (stage n last i).dangling? n = none := by
  by_cases hi : i < n
  · simp [stage, hi, Target.dangling?]
  · simpa [stage, hi] using h

theorem Trail.entries_in_row {es : List (Entry C T Ctx)}
    {tries : Matcher C T Ctx → C → Outcome C → Prop} {i : Nat} {s : Target} {c d : C}
    {vs : List (Visit C)}
    (hrow : ∀ j (e : Entry C T Ctx), es[j]? = some e → ∀ a,
      e.next a = .terminal ∨ e.next a = .index (j + 1))
    (h : Trail es tries (.index i) c vs s d) : vs.map (·.entry) = List.range' i vs.length := by
  generalize hi : Target.index i = s' at h
  induction h generalizing i with
  | stay => rfl
  | @visit j e c d o vs s he _ hrest ih =>
    cases hi
    rcases hrow j e he o.accepted with hend | hgo
    · rw [hend] at hrest
      simp [hrest.eq_nil_of_terminal]
    · simpa [List.range'_succ] using ih hgo.symm

section

variable {lo : Nat} {last : Target} {ms : List (Matcher C T Ctx)}

theorem getElem?_chain {i : Nat} {m : Matcher C T Ctx} (h : ms[i]? = some m) :
    (chain lo last ms)[i]? =
      some ⟨stage ms.length last (i + 1), .terminal, m, decide (lo ≤ i + 1), 0, 0⟩ := by
  simp [chain, List.getElem?_mapIdx, h]

theorem exists_table_chain (hne : ms ≠ []) (h : last.dangling? ms.length = none) :
    ∃ t, Table.ofEntries? (chain lo last ms) = .ok t := by
  refine Table.exists_ofEntries?_mapIdx _ hne fun i m => ?_
  exact Entry.dangling?_eq_none_iff.mpr ⟨stage_dangling? h (i + 1), rfl⟩

end

/-- What a run over a chain has to show at `c` when `i` entries have accepted, if it had `w` to show
at its begin. -/
def shown (lo i : Nat) (c : C) (w : Outcome C) : Outcome C :=
  if lo ≤ i then .accept c else w

variable [Cursor C T] [BEq T] [LE T] [DecidableLE T]

/-- The matchers accept one behind the other: the first of them at `c`, each other at the place that
the one before it has reached, and the last of them reaches `d`. -/
inductive InTurn (ctx : Ctx) (bound : C) : List (Matcher C T Ctx) → C → C → Prop where
  | nil {c : C} : InTurn ctx bound [] c c
  | cons {m : Matcher C T Ctx} {ms : List (Matcher C T Ctx)} {c d e : C} :
      m.Yields ctx bound c (.accept d) → InTurn ctx bound ms d e → InTurn ctx bound (m :: ms) c e

theorem InTurn.exists_between {ctx : Ctx} {bound c e : C} {ms ns : List (Matcher C T Ctx)}
    (h : InTurn ctx bound (ms ++ ns) c e) :
    ∃ d, InTurn ctx bound ms c d ∧ InTurn ctx bound ns d e := by
  induction ms generalizing c with
  | nil => exact ⟨c, .nil, h⟩
  | cons m ms ih =>
    cases h with
    | cons hm h =>
      obtain ⟨d, hms, hns⟩ := ih h
      exact ⟨d, .cons hm hms, hns⟩

namespace Comes

variable {ctx : Ctx} {bound c d : C} {lo i : Nat} {last : Target} {ms : List (Matcher C T Ctx)}
  {m : Matcher C T Ctx} {w o r : Outcome C}

theorem chain_taken (hm : ms[i]? = some m) (hy : m.Yields ctx bound c (.accept d))
    (h : Comes (chain lo last ms) ctx bound (stage ms.length last (i + 1)) d
      (shown lo (i + 1) d w) o) :
    Comes (chain lo last ms) ctx bound (.index i) c (shown lo i c w) o := by
  have hshown : (shown lo i c w).amend (decide (lo ≤ i + 1)) (.accept d) = shown lo (i + 1) d w := by
    by_cases hlo : lo ≤ i + 1
    · simp [shown, Outcome.amend, Outcome.accept, hlo]
    · have hlo' : ¬ lo ≤ i := by omega
      simp [shown, Outcome.amend, Outcome.accept, hlo, hlo']
  refine .visit (getElem?_chain hm) hy ?_
  rw [hshown]
  exact h

theorem chain_refused (hm : ms[i]? = some m) (hy : m.Yields ctx bound c r)
    (hr : r.accepted = false) (hw : w.accepted = false) :
    Comes (chain lo last ms) ctx bound (.index i) c (shown lo i c w) (shown lo i c r) := by
  have hshown : (shown lo i c w).amend (decide (lo ≤ i + 1)) r = shown lo i c r := by
    by_cases hlo : lo ≤ i
    · simp [shown, Outcome.amend, hr, hlo, Outcome.accept]
    · simp [shown, Outcome.amend, hr, hlo, hw]
  refine .visit (getElem?_chain hm) hy ?_
  rw [hshown, hr]
  exact .leave

theorem climb (before : List (Matcher C T Ctx)) {mid after : List (Matcher C T Ctx)}
    (hms : ms = before ++ mid ++ after) (hmid : InTurn ctx bound mid c d)
    (h : Comes (chain lo last ms) ctx bound (stage ms.length last (before.length + mid.length)) d
      (shown lo (before.length + mid.length) d w) o) :
    Comes (chain lo last ms) ctx bound (stage ms.length last before.length) c
      (shown lo before.length c w) o := by
  induction hmid generalizing before with
  | nil => exact h
  | @cons m mid c d e hy _ ih =>
    have hm : ms[before.length]? = some m := by simp [hms]
    have hlt : before.length < ms.length := (List.getElem?_eq_some_iff.mp hm).1
    have hlen : (before ++ [m]).length + mid.length = before.length + (m :: mid).length := by
      simp only [List.length_append, List.length_cons, List.length_nil]
      omega
    rw [← hlen] at h
    have hrest := ih (before ++ [m]) (by simp [hms]) h
    rw [stage_of_lt hlt]
    exact chain_taken hm hy (by simpa using hrest)

theorem of_refused {before after : List (Matcher C T Ctx)} (hms : ms = before ++ m :: after)
    (hlo : 1 ≤ lo) (hturn : InTurn ctx bound before c d) (hy : m.Yields ctx bound d r)
    (hr : r.accepted = false) :
    Comes (chain lo last ms) ctx bound (.index 0) c (.reject bound)
      (shown lo before.length d r) := by
  have hm : ms[before.length]? = some m := by simp [hms]
  have hlt : before.length < ms.length := (List.getElem?_eq_some_iff.mp hm).1
  have hstop : Comes (chain lo last ms) ctx bound (stage ms.length last before.length) d
      (shown lo before.length d (.reject bound)) (shown lo before.length d r) := by
    rw [stage_of_lt hlt]
    exact chain_refused hm hy hr rfl
  have hclimb := climb [] hms hturn (by simpa using hstop)
  rw [List.length_nil, stage_of_lt (by omega), shown, if_neg (by omega)] at hclimb
  exact hclimb

theorem of_inTurn (hne : ms ≠ []) (hlo : 1 ≤ lo) (hle : lo ≤ ms.length)
    (hturn : InTurn ctx bound ms c d)
    (h : Comes (chain lo last ms) ctx bound last d (.accept d) o) :
    Comes (chain lo last ms) ctx bound (.index 0) c (.reject bound) o := by
  have hend : Comes (chain lo last ms) ctx bound (stage ms.length last (0 + ms.length)) d
      (shown lo (0 + ms.length) d (.reject bound)) o := by
    simpa [shown, hle] using h
  have hclimb := climb [] (List.append_nil ms).symm hturn hend
  rw [List.length_nil, stage_of_lt (List.length_pos_iff.mpr hne), shown, if_neg (by omega)] at hclimb
  exact hclimb

theorem circle {k : Nat} (hm : ms[i]? = some m) (hi : i + 1 = ms.length) (hlo : lo ≤ ms.length)
    (hk : InTurn ctx bound (List.replicate k m) c d) (hr : m.Yields ctx bound d r)
    (hrej : r.accepted = false) :
    Comes (chain lo (.index i) ms) ctx bound (.index i) c (.accept c) (.accept d) := by
  induction k generalizing c with
  | zero =>
    cases hk
    refine .visit (getElem?_chain hm) hr ?_
    have hkeep : (Outcome.accept d).amend (decide (lo ≤ i + 1)) r = .accept d := by
      simp [Outcome.amend, hrej, Outcome.accept]
    rw [hkeep, hrej]
    exact .leave
  | succ k ih =>
    cases hk with
    | @cons _ _ c c' _ hy hk =>
      refine .visit (getElem?_chain hm) hy ?_
      have hnote : (Outcome.accept c).amend (decide (lo ≤ i + 1)) (.accept c') = .accept c' := by
        simp [Outcome.amend, Outcome.accept, hi, hlo]
      have hback : stage ms.length (.index i) (i + 1) = .index i := by rw [hi, stage_self]
      rw [hnote]
      simpa [Entry.next, Outcome.accept, Outcome.move, hback] using ih hk

end Comes

end TableAutomata
