import TableAutomata.Proofs.Execution
import TableAutomata.Proofs.Reading
import TableAutomata.Proofs.Words

/-! Whole tables as readers of their span. To know what a table makes of the tokens ahead, a run is
followed from entry to entry; only what it has to show so far is kept of the visits made. -/

namespace TableAutomata

open Cursor (advanced advanced_add span span_advanced span_advanced_one)
open Recording (Ends)

variable {C T Ctx : Type}

/-- What a run has to show when it had `w` before and another entry comes to `o`. -/
def Outcome.amend (w : Outcome C) (accepting : Bool) (o : Outcome C) : Outcome C :=
  if o.accepted then if accepting then o else w
  else if w.accepted then w else o

theorem Outcome.keep_eq {w : Outcome C} {bound : C} (h : w.accepted = true ∨ w = .reject bound) :
    (if w.accepted then w else .reject bound) = w := by
  rcases h with h | rfl
  · rw [if_pos h]
  · rfl

theorem Outcome.amend_of_rejected {w : Outcome C} (h : w.accepted = false) (o : Outcome C) :
    w.amend true o = o := by
  simp [amend, h]

theorem Progress.outcome_after (p : Progress C) (accepting : Bool) (o : Outcome C) (bound : C) :
    (p.after accepting o).outcome bound = (p.outcome bound).amend accepting o := by
  obtain ⟨c, noted, failed⟩ := p
  obtain ⟨accepted, position⟩ := o
  cases accepted <;> cases accepting <;> cases noted <;> rfl

def between [LE T] [DecidableLE T] (lo hi x : T) : Bool :=
  decide (lo ≤ x ∧ x ≤ hi)

namespace Reading

def found (place : Mark) : Option (List T) → Outcome Mark
  | some w => .accept (.ahead w.length)
  | none => .reject place

def finding (find : List T → Option (List T)) (place : List T → Mark) (s : List T) : Outcome Mark :=
  found (place s) (find s)

def beside [BEq T] (t : T) : List T → Mark
  | [] => .bound
  | x :: _ => if x == t then .bound else .ahead 0

variable {find : List T → Option (List T)} {place : List T → Mark} {s w : List T}

theorem finding_of_some (h : find s = some w) : finding find place s = .accept (.ahead w.length) := by
  rw [finding, h]
  rfl

theorem finding_of_none (h : find s = none) : finding find place s = .reject (place s) := by
  rw [finding, h]
  rfl

theorem range_eq_finding [LE T] [DecidableLE T] (lo hi : T) :
    range lo hi = finding (findOne (between lo hi)) fun _ => .bound := by
  funext s
  cases s with
  | nil => rfl
  | cons x r =>
    by_cases h : lo ≤ x ∧ x ≤ hi <;> simp [range, finding, findOne, findAfter, between, h, found]

theorem oneOf_eq_finding [BEq T] {set : List T} (h : set ≠ []) :
    oneOf set = finding (findOne set.contains) fun _ => .bound := by
  funext s
  cases s with
  | nil => simp [oneOf, finding, findOne, findAfter, found, h]
  | cons x r =>
    cases hx : set.contains x <;> simp only [oneOf, finding, findOne, findAfter, hx] <;> rfl

theorem equals_eq_finding [BEq T] (t : T) :
    equals t = finding (findOne (· == t)) (beside t) := by
  funext s
  cases s with
  | nil => rfl
  | cons x r => cases hx : x == t <;> simp [equals, finding, findOne, findAfter, beside, hx, found]

end Reading

variable [Cursor C T] [BEq T] [LE T] [DecidableLE T]

namespace Matcher

/-- Wherever the matcher is tried, it makes this of the tokens up to the bound. -/
def Reads (m : Matcher C T Ctx) (read : List T → Outcome Mark) : Prop :=
  ∀ ctx bound c, m.Yields ctx bound c ((read (span bound c)).place bound c)

/-- Wherever the matcher is tried, it takes what is found in the tokens up to the bound, and it
rejects at the bound if nothing is. -/
def Takes (m : Matcher C T Ctx) (find : List T → Option (List T)) : Prop :=
  m.Reads (Reading.finding find fun _ => .bound)

variable [LawfulCursor C]

theorem reads_of_reading? {m : Matcher C T Ctx} {read : List T → Outcome Mark}
    (h : m.reading? = some read) : m.Reads read :=
  fun _ _ _ => (yields_of_reading? h).mpr rfl

theorem takes_range (lo hi : T) :
    (range lo hi : Matcher C T Ctx).Takes (findOne (between lo hi)) :=
  reads_of_reading? (congrArg some (Reading.range_eq_finding lo hi))

theorem takes_oneOf {set : List T} (h : set ≠ []) :
    (oneOf set : Matcher C T Ctx).Takes (findOne set.contains) :=
  reads_of_reading? (congrArg some (Reading.oneOf_eq_finding h))

theorem reads_equals (t : T) :
    (equals t : Matcher C T Ctx).Reads (Reading.finding (findOne (· == t)) (Reading.beside t)) :=
  reads_of_reading? (congrArg some (Reading.equals_eq_finding t))

end Matcher

/-- Having come to `s` and to `c` with `w` to show so far, a run over `es` ends with `o`. -/
inductive Comes (es : List (Entry C T Ctx)) (ctx : Ctx) (bound : C) :
    Target → C → Outcome C → Outcome C → Prop where
  | leave {c : C} {w : Outcome C} : Comes es ctx bound .terminal c w w
  | visit {i : Nat} {e : Entry C T Ctx} {c : C} {w o o' : Outcome C} :
      es[i]? = some e → e.matcher.Yields ctx bound c o →
      Comes es ctx bound (e.next o.accepted) (o.move c) (w.amend e.accepting o) o' →
      Comes es ctx bound (.index i) c w o'

namespace Comes

variable {es : List (Entry C T Ctx)} {ctx : Ctx} {bound c : C} {s : Target} {w o : Outcome C}

theorem exists_trail (h : Comes es ctx bound s c w o) {p : Progress C} (hc : p.cursor = c)
    (hw : p.outcome bound = w) :
    ∃ vs d, Trail es (Matcher.Yields ctx bound) s c vs .terminal d ∧
      (p.afterAll es vs).outcome bound = o := by
  induction h generalizing p with
  | leave => exact ⟨[], _, .stay, hw⟩
  | @visit i e c w o o' he ho _ ih =>
    obtain ⟨vs, d, hvs, hout⟩ := ih (p := p.after e.accepting o)
      (by rw [Progress.cursor_after, hc]) (by rw [Progress.outcome_after, hw])
    refine ⟨_, d, .visit he ho hvs, ?_⟩
    have haccepts : accepts es i = e.accepting := by simp [accepts, he]
    simpa only [Progress.afterAll, List.foldl_cons, haccepts] using hout

theorem yields {t : Table C T Ctx} {start : Fin t.size}
    (h : Comes t.entries ctx bound (.index start) c (.reject bound) o) :
    (t.toMatcher start).Yields ctx bound c o := by
  obtain ⟨vs, d, hvs, rfl⟩ := h.exists_trail (p := .start c) rfl rfl
  rw [Progress.outcome_afterAll_start]
  exact Table.yields_iff_path.mpr ⟨vs, ⟨d, hvs⟩, rfl⟩

theorem terminal_iff : Comes es ctx bound .terminal c w o ↔ o = w := by
  constructor
  · intro h
    cases h
    rfl
  · rintro rfl
    exact .leave

theorem index_iff {i : Nat} {e : Entry C T Ctx} (he : es[i]? = some e) :
    Comes es ctx bound (.index i) c w o ↔ ∃ r, e.matcher.Yields ctx bound c r ∧
      Comes es ctx bound (e.next r.accepted) (r.move c) (w.amend e.accepting r) o := by
  constructor
  · intro h
    cases h with
    | visit he' hy h =>
      cases he.symm.trans he'
      exact ⟨_, hy, h⟩
  · rintro ⟨r, hy, h⟩
    exact .visit he hy h

theorem of_trail {d : C} {vs : List (Visit C)}
    (h : Trail es (Matcher.Yields ctx bound) s c vs .terminal d) {p : Progress C}
    (hc : p.cursor = c) :
    Comes es ctx bound s c (p.outcome bound) ((p.afterAll es vs).outcome bound) := by
  generalize hs : Target.terminal = s' at h
  induction h generalizing p with
  | stay =>
    subst hs
    exact .leave
  | @visit i e c d o vs s he ho _ ih =>
    have haccepts : accepts es i = e.accepting := by simp [accepts, he]
    have hrest := ih (p := p.after e.accepting o) (by rw [Progress.cursor_after, hc]) hs
    rw [Progress.outcome_after] at hrest
    refine .visit he ho ?_
    simpa only [Progress.afterAll, List.foldl_cons, haccepts] using hrest

theorem iff_yields {t : Table C T Ctx} {start : Fin t.size} :
    Comes t.entries ctx bound (.index start) c (.reject bound) o ↔
      (t.toMatcher start).Yields ctx bound c o := by
  refine ⟨yields, fun h => ?_⟩
  obtain ⟨vs, ⟨d, hvs⟩, rfl⟩ := Table.yields_iff_path.mp h
  rw [← Progress.outcome_afterAll_start t.entries bound c vs]
  exact of_trail (p := .start c) hvs rfl

theorem iff_ends {t : Table C T Ctx} (ht : Table.ofEntries? es = .ok t) :
    Comes es ctx bound (.index 0) c (.reject bound) o ↔
      Ends (fun visits => t.run t.first visits ctx bound c) o := by
  have hfirst : Comes t.entries ctx bound (.index t.first) c (.reject bound) o ↔
      (t.toMatcher t.first).Yields ctx bound c o := iff_yields
  rw [Table.entries_eq_of_ofEntries? ht] at hfirst
  exact hfirst

theorem ends_iff_eq {t : Table C T Ctx} (ht : Table.ofEntries? es = .ok t)
    (h : Comes es ctx bound (.index 0) c (.reject bound) o) (o' : Outcome C) :
    Ends (fun visits => t.run t.first visits ctx bound c) o' ↔ o' = o :=
  Matcher.Yields.iff_eq ((iff_ends ht).mp h) o'

variable {i : Nat} {e : Entry C T Ctx} {read : List T → Outcome Mark}

theorem taken {n : Nat} (he : es[i]? = some e) (hm : e.matcher.Reads read)
    (hr : read (span bound c) = .accept (.ahead n))
    (h : Comes es ctx bound e.onSuccess (advanced n c)
      (if e.accepting then .accept (advanced n c) else w) o) :
    Comes es ctx bound (.index i) c w o := by
  have hy := hm ctx bound c
  rw [hr, Outcome.place_accept_ahead] at hy
  exact .visit he hy h

theorem refused {m : Mark} (he : es[i]? = some e) (hm : e.matcher.Reads read)
    (hr : read (span bound c) = .reject m)
    (h : Comes es ctx bound e.onFailure c
      (if w.accepted then w else .reject (m.place bound c)) o) :
    Comes es ctx bound (.index i) c w o := by
  have hy := hm ctx bound c
  rw [hr] at hy
  exact .visit he hy h

end Comes

/-- A run that comes to `i` and has its place noted goes on to `j` with a token of the sort, noting
the place behind it, and to `s` without one. -/
def Branches (es : List (Entry C T Ctx)) (p : T → Bool) (i j s : Target) : Prop :=
  ∀ ctx bound c o,
    (∀ x r, span bound c = x :: r → p x = true →
      Comes es ctx bound j (advanced 1 c) (.accept (advanced 1 c)) o) →
    ((∀ x ∈ (span bound c).head?, p x = false) → Comes es ctx bound s c (.accept c) o) →
    Comes es ctx bound i c (.accept c) o

namespace Branches

variable {es : List (Entry C T Ctx)} {i : Nat} {j s t : Target} {m : Matcher C T Ctx}
  {p q : T → Bool} {place : List T → Mark}

theorem one (he : es[i]? = some (.accept j s m))
    (hm : m.Reads (Reading.finding (findOne p) place)) : Branches es p (.index i) j s := by
  intro ctx bound c o hyes hno
  rcases head_cases p (span bound c) with hx | ⟨x, r, hs, hx⟩
  · exact .refused he hm (Reading.finding_of_none (findAfter_of_head _ hx)) (hno hx)
  · have hfind : findOne p (span bound c) = some [x] := by rw [hs, findOne_of_true hx]
    exact .taken he hm (Reading.finding_of_some hfind) (hyes x r hs hx)

theorem or (he : es[i]? = some (.accept j s m))
    (hm : m.Reads (Reading.finding (findOne p) place)) (h : Branches es q s j t) :
    Branches es (fun x => p x || q x) (.index i) j t := by
  intro ctx bound c o hyes hno
  refine one he hm ctx bound c o (fun x r hs hx => hyes x r hs (by simp [hx])) fun hp => ?_
  refine h ctx bound c o (fun x r hs hx => hyes x r hs (by simp [hx])) fun hq => hno fun x hx => ?_
  simp [hp x hx, hq x hx]

theorem loop [LawfulCursor C] {i : Target} (h : Branches es p i i s) (ctx : Ctx) (bound c : C)
    (o : Outcome C)
    (hs : Comes es ctx bound s (advanced ((span bound c).takeWhile p).length c)
      (.accept (advanced ((span bound c).takeWhile p).length c)) o) :
    Comes es ctx bound i c (.accept c) o := by
  generalize hspan : span bound c = ts at hs
  induction ts generalizing c with
  | nil => exact h ctx bound c o (by simp [hspan]) fun _ => hs
  | cons x r ih =>
    refine h ctx bound c o (fun y r' hy hp => ?_) fun hno => ?_
    · obtain ⟨rfl, rfl⟩ := List.cons.inj (hspan.symm.trans hy)
      rw [List.takeWhile_cons_of_pos hp, List.length_cons, Nat.add_comm, advanced_add] at hs
      exact ih _ (span_advanced_one hspan) hs
    · have hx : p x = false := hno x (by simp [hspan])
      rw [List.takeWhile_cons_of_neg (by simp [hx])] at hs
      exact hs

end Branches

/-- Whatever a run has to show when it comes to `s`, it takes what is found at its place. If nothing
is, it keeps what it had, or rejects at `place`. -/
def Offers (es : List (Entry C T Ctx)) (s : Target) (find : List T → Option (List T))
    (place : List T → Mark) : Prop :=
  ∀ ctx bound c w, w.accepted = true ∨ w = .reject bound →
    Comes es ctx bound s c w (w.amend true ((Reading.finding find place (span bound c)).place bound c))

namespace Offers

variable {es : List (Entry C T Ctx)} {i : Nat} {s : Target} {m : Matcher C T Ctx}
  {find find' : List T → Option (List T)} {p q : T → Bool} {place : List T → Mark}

theorem reads {t : Table C T Ctx} {start : Fin t.size}
    (h : Offers t.entries (.index start) find place) :
    (t.toMatcher start).Reads (Reading.finding find place) := by
  intro ctx bound c
  have hcomes := h ctx bound c (.reject bound) (.inr rfl)
  rw [Outcome.amend_of_rejected rfl] at hcomes
  exact hcomes.yields

theorem last (he : es[i]? = some (.accept .terminal .terminal m))
    (hm : m.Reads (Reading.finding find place)) : Offers es (.index i) find place := by
  intro ctx bound c w _
  have hnext : ∀ b, (Entry.accept .terminal .terminal m).next b = .terminal := by
    intro b
    cases b <;> rfl
  refine .visit he (hm ctx bound c) ?_
  rw [hnext]
  exact .leave

theorem or (he : es[i]? = some (.accept .terminal s m)) (hm : m.Takes find)
    (h : Offers es s find' place) : Offers es (.index i) (fun r => (find r).or (find' r)) place := by
  intro ctx bound c w hw
  cases hf : find (span bound c) with
  | none =>
    have hrest := h ctx bound c w hw
    refine .refused he hm (Reading.finding_of_none hf) ?_
    simp only [Mark.place, Outcome.keep_eq hw]
    simp only [Reading.finding, hf, Option.none_or]
    exact hrest
  | some v =>
    refine .taken he hm (Reading.finding_of_some hf) ?_
    simp only [Reading.finding, hf, Option.some_or]
    exact .leave

theorem comes_accept (h : Offers es s find place) (ctx : Ctx) (bound c : C) :
    Comes es ctx bound s c (.accept c)
      (.accept (advanced ((find (span bound c)).getD []).length c)) := by
  have hcomes := h ctx bound c (.accept c) (.inl rfl)
  cases hf : find (span bound c) with
  | none =>
    rw [Reading.finding_of_none hf] at hcomes
    exact hcomes
  | some v =>
    rw [Reading.finding_of_some hf] at hcomes
    exact hcomes

variable [LawfulCursor C]

theorem after (he : es[i]? = some (.pass s .terminal m))
    (hm : m.Reads (Reading.finding (findOne p) place))
    (hplace : ∀ x r, p x = true → place (x :: r) = .bound)
    (h : Offers es s find fun _ => .bound) : Offers es (.index i) (findAfter p find) place := by
  intro ctx bound c w hw
  rcases head_cases p (span bound c) with hx | ⟨x, r, hs, hx⟩
  · rw [Reading.finding_of_none (findAfter_of_head find hx)]
    exact .refused he hm (Reading.finding_of_none (findAfter_of_head _ hx)) .leave
  · have hone : findOne p (span bound c) = some [x] := by rw [hs, findOne_of_true hx]
    refine .taken he hm (Reading.finding_of_some hone) ?_
    have hrest := h ctx bound (advanced 1 c) w hw
    rw [span_advanced_one hs] at hrest
    rw [hs]
    cases hf : find r with
    | none =>
      have hnone : findAfter p find (x :: r) = none := by rw [findAfter_of_true _ hx, hf]; rfl
      rw [Reading.finding_of_none hf] at hrest
      rw [Reading.finding_of_none hnone, hplace x r hx]
      exact hrest
    | some v =>
      have hsome : findAfter p find (x :: r) = some (x :: v) := by
        rw [findAfter_of_true _ hx, hf]
        rfl
      rw [Reading.finding_of_some hf, Outcome.place_accept_ahead, ← advanced_add,
        Nat.add_comm] at hrest
      rw [Reading.finding_of_some hsome]
      exact hrest

theorem word (he : es[i]? = some (.accept s .terminal m)) (hm : m.Takes (findOne p))
    (hloop : Branches es q s s .terminal) : Offers es (.index i) (findWord p q) fun _ => .bound := by
  intro ctx bound c w hw
  rcases head_cases p (span bound c) with hx | ⟨x, r, hs, hx⟩
  · have hnone : findWord p q (span bound c) = none := findAfter_of_head _ hx
    rw [Reading.finding_of_none hnone]
    exact .refused he hm (Reading.finding_of_none (findAfter_of_head _ hx)) .leave
  · have hone : findOne p (span bound c) = some [x] := by rw [hs, findOne_of_true hx]
    refine .taken he hm (Reading.finding_of_some hone) ?_
    refine hloop.loop ctx bound (advanced 1 c) _ ?_
    rw [span_advanced_one hs, hs, Reading.finding_of_some (findWord_of_true q hx),
      Outcome.place_accept_ahead, List.length_cons, Nat.add_comm, advanced_add]
    exact .leave

theorem run (he : es[i]? = some (.accept (.index i) s m)) (hm : m.Takes (findOne p))
    (h : Offers es s find place) :
    Offers es (.index i) (fun r => (findRun p find r).or (find r)) place := by
  intro ctx bound c w hw
  rcases head_cases p (span bound c) with hx | ⟨x, r, hs, hx⟩
  · have hrest := h ctx bound c w hw
    have hnone : findRun p find (span bound c) = none := findAfter_of_head _ hx
    refine .refused he hm (Reading.finding_of_none (findAfter_of_head _ hx)) ?_
    simp only [Mark.place, Outcome.keep_eq hw, Reading.finding, hnone, Option.none_or]
    exact hrest
  · have hr := span_advanced_one hs
    have hle : (r.takeWhile p).length ≤ (span bound (advanced 1 c)).length := by
      rw [hr]
      exact (List.takeWhile_prefix p).length_le
    have hrest := h.comes_accept ctx bound (advanced (r.takeWhile p).length (advanced 1 c))
    rw [span_advanced hle, hr, drop_length_takeWhile, ← advanced_add, ← advanced_add] at hrest
    have hone : findOne p (span bound c) = some [x] := by rw [hs, findOne_of_true hx]
    refine .taken he hm (Reading.finding_of_some hone) ?_
    refine (Branches.one he hm).loop ctx bound (advanced 1 c) _ ?_
    have hfind : (findRun p find (span bound c)).or (find (span bound c)) =
        some (x :: (r.takeWhile p ++ (find (r.dropWhile p)).getD [])) := by
      rw [hs, findRun_of_true find hx, Option.some_or]
    have hlen : (x :: (r.takeWhile p ++ (find (r.dropWhile p)).getD [])).length =
        1 + (r.takeWhile p).length + ((find (r.dropWhile p)).getD []).length := by
      rw [List.length_cons, List.length_append]
      omega
    rw [Reading.finding_of_some hfind, Outcome.place_accept_ahead, hlen, hr, ← advanced_add]
    exact hrest

end Offers

end TableAutomata
