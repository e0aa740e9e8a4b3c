import Mathlib.Data.List.Forall2
import TableAutomata.Proofs.Execution

/-! Two runs side by side. The runs may be over different tables and different kinds of cursors; if
corresponding entries try matchers that agree at related cursors, the runs agree. -/

namespace TableAutomata

variable {C D T U Ctx Ctx' : Type}

/-- Both accept, and the places are related by `R`, or both reject, and the places are related by
`Q`. -/
structure Outcome.Agree (R Q : C → D → Prop) (o : Outcome C) (p : Outcome D) : Prop where
  accepted_eq : o.accepted = p.accepted
  accepted : o.accepted = true → R o.position p.position
  rejected : o.accepted = false → Q o.position p.position

/-- Whatever comes of the first at a cursor, something that agrees comes of the second at each related
cursor. -/
def Simulated (R Q : C → D → Prop) (X : C → Outcome C → Prop) (Y : D → Outcome D → Prop) : Prop :=
  ∀ c d, R c d → ∀ o, X c o → ∃ p, Y d p ∧ o.Agree R Q p

theorem Outcome.Agree.eq {o p : Outcome C} (h : o.Agree Eq Eq p) : o = p := by
  obtain ⟨accepted, position⟩ := o
  obtain ⟨accepted', position'⟩ := p
  obtain rfl : accepted = accepted' := h.accepted_eq
  cases accepted with
  | true => rw [show position = position' from h.accepted rfl]
  | false => rw [show position = position' from h.rejected rfl]

theorem Simulated.imp_of_eq {X Y : C → Outcome C → Prop} (h : Simulated Eq Eq X Y) {c : C}
    {o : Outcome C} (ho : X c o) : Y c o := by
  obtain ⟨p, hp, hop⟩ := h c c rfl o ho
  rwa [hop.eq]

inductive Target.Alike (S : Nat → Nat → Prop) : Target → Target → Prop where
  | terminal : Alike S .terminal .terminal
  | index {i j : Nat} : S i j → Alike S (.index i) (.index j)

theorem Target.Alike.refl (s : Target) : s.Alike Eq s := by
  cases s with
  | terminal => exact .terminal
  | index i => exact .index rfl

theorem Target.Alike.flip {S : Nat → Nat → Prop} {s u : Target} (h : s.Alike S u) :
    u.Alike (fun j i => S i j) s := by
  cases h with
  | terminal => exact .terminal
  | index hij => exact .index hij

structure Entry.Corresponds (S : Nat → Nat → Prop) (M : Matcher C T Ctx → Matcher D U Ctx' → Prop)
    (e : Entry C T Ctx) (f : Entry D U Ctx') : Prop where
  next : ∀ accepted, (e.next accepted).Alike S (f.next accepted)
  accepting : e.accepting = f.accepting
  matcher : M e.matcher f.matcher

/-- Entries whose numbers are related by `S` correspond, or neither of them exists. -/
def Corresponding (S : Nat → Nat → Prop) (M : Matcher C T Ctx → Matcher D U Ctx' → Prop)
    (es : List (Entry C T Ctx)) (fs : List (Entry D U Ctx')) : Prop :=
  ∀ i j, S i j → Option.Rel (Entry.Corresponds S M) es[i]? fs[j]?

structure Visit.Agree (S : Nat → Nat → Prop) (R Q : C → D → Prop) (v : Visit C) (w : Visit D) :
    Prop where
  entry : S v.entry w.entry
  cursor : R v.cursor w.cursor
  outcome : v.outcome.Agree R Q w.outcome

section

variable {S : Nat → Nat → Prop} {R Q : C → D → Prop}
  {M : Matcher C T Ctx → Matcher D U Ctx' → Prop}
  {es : List (Entry C T Ctx)} {fs : List (Entry D U Ctx')}

theorem Outcome.Agree.move {o : Outcome C} {p : Outcome D} {c : C} {d : D} (h : o.Agree R Q p)
    (hc : R c d) : R (o.move c) (p.move d) := by
  have he := h.accepted_eq
  cases ha : o.accepted with
  | true => simpa [Outcome.move, ha, ← he] using h.accepted ha
  | false => simpa [Outcome.move, ha, ← he] using hc

theorem Corresponding.flip (h : Corresponding S M es fs) :
    Corresponding (fun j i => S i j) (fun n m => M m n) fs es := by
  intro j i hij
  have hrel := h i j hij
  generalize es[i]? = e? at hrel
  generalize fs[j]? = f? at hrel
  cases hrel with
  | none => exact .none
  | some hef => exact .some ⟨fun a => (hef.next a).flip, hef.accepting.symm, hef.matcher⟩

theorem Corresponding.imp {M' : Matcher C T Ctx → Matcher D U Ctx' → Prop}
    (hM : ∀ m n, M m n → M' m n) (h : Corresponding S M es fs) : Corresponding S M' es fs := by
  intro i j hij
  have hrel := h i j hij
  generalize es[i]? = e? at hrel
  generalize fs[j]? = f? at hrel
  cases hrel with
  | none => exact .none
  | some hef => exact .some ⟨hef.next, hef.accepting, hM _ _ hef.matcher⟩

theorem Corresponding.exists_entry (h : Corresponding S M es fs) {i j : Nat} (hij : S i j)
    {e : Entry C T Ctx} (he : es[i]? = some e) : ∃ f, fs[j]? = some f ∧ e.Corresponds S M f := by
  have hrel := h i j hij
  rw [he] at hrel
  generalize hf : fs[j]? = f? at hrel
  cases hrel with
  | some hef => exact ⟨_, rfl, hef⟩

theorem Corresponding.accepts_eq (h : Corresponding S M es fs) {i j : Nat} (hij : S i j) :
    accepts es i = accepts fs j := by
  have hrel := h i j hij
  unfold accepts
  generalize es[i]? = e? at hrel
  generalize fs[j]? = f? at hrel
  cases hrel with
  | none => rfl
  | some hef => exact hef.accepting

theorem Trail.simulate {tries : Matcher C T Ctx → C → Outcome C → Prop}
    {tries' : Matcher D U Ctx' → D → Outcome D → Prop} (hes : Corresponding S M es fs)
    (hM : ∀ m n, M m n → Simulated R Q (tries m) (tries' n)) {s s' u : Target} {c c' : C} {d : D}
    {vs : List (Visit C)} (h : Trail es tries s c vs s' c') (hs : s.Alike S u) (hc : R c d) :
    ∃ ws u' d', Trail fs tries' u d ws u' d' ∧ s'.Alike S u' ∧ R c' d' ∧
      List.Forall₂ (Visit.Agree S R Q) vs ws := by
  induction h generalizing u d with
  | stay => exact ⟨[], u, d, .stay, hs, hc, .nil⟩
  | visit he ho _ ih =>
    cases hs with
    | index hij =>
      obtain ⟨f, hf, hef⟩ := hes.exists_entry hij he
      obtain ⟨p, hp, hop⟩ := hM _ _ hef.matcher _ _ hc _ ho
      have hnext := hef.next p.accepted
      rw [← hop.accepted_eq] at hnext
      obtain ⟨ws, u', d', hws, hu', hd', hall⟩ := ih hnext (hop.move hc)
      rw [hop.accepted_eq] at hws
      exact ⟨_, u', d', .visit hf hp hws, hu', hd', .cons ⟨hij, hc, hop⟩ hall⟩

theorem getLast?_of_forall₂ {α β : Type} {P : α → β → Prop} {xs : List α} {ys : List β}
    (h : List.Forall₂ P xs ys) :
    (∃ x y, xs.getLast? = some x ∧ ys.getLast? = some y ∧ P x y) ∨
      xs.getLast? = none ∧ ys.getLast? = none := by
  have hr := List.forall₂_reverse_iff.mpr h
  rw [← List.head?_reverse, ← List.head?_reverse]
  generalize xs.reverse = xs' at hr
  generalize ys.reverse = ys' at hr
  cases hr with
  | nil => exact .inr ⟨rfl, rfl⟩
  | cons hxy _ => exact .inl ⟨_, _, rfl, rfl, hxy⟩

theorem verdict_agree (hes : Corresponding S M es fs) {bound : C} {bound' : D} (hb : Q bound bound')
    {vs : List (Visit C)} {ws : List (Visit D)} (h : List.Forall₂ (Visit.Agree S R Q) vs ws) :
    (verdict es bound vs).Agree R Q (verdict fs bound' ws) := by
  have hnotes : List.Forall₂ (Visit.Agree S R Q) (vs.filter (Visit.notes es))
      (ws.filter (Visit.notes fs)) := by
    refine List.rel_filter (fun v w hvw => ?_) h
    have he : v.notes es = w.notes fs := by
      simp only [Visit.notes, hvw.outcome.accepted_eq, hes.accepts_eq hvw.entry]
    exact Bool.eq_iff_iff.mp he
  have hfails : List.Forall₂ (Visit.Agree S R Q) (vs.filter fun v => !v.outcome.accepted)
      (ws.filter fun w => !w.outcome.accepted) := by
    refine List.rel_filter (fun v w hvw => ?_) h
    have he : (!v.outcome.accepted) = !w.outcome.accepted := by rw [hvw.outcome.accepted_eq]
    exact Bool.eq_iff_iff.mp he
  rcases getLast?_of_forall₂ hnotes with ⟨v, w, hv, hw, hvw⟩ | ⟨hv, hw⟩
  · have hmem := List.mem_filter.mp (List.mem_of_getLast? hv)
    have hacc : v.outcome.accepted = true := (Bool.and_eq_true_iff.mp hmem.2).1
    rw [verdict, verdict, hv, hw]
    exact ⟨rfl, fun _ => hvw.outcome.accepted hacc, by simp [Outcome.accept]⟩
  · rw [verdict, verdict, hv, hw]
    rcases getLast?_of_forall₂ hfails with ⟨v, w, hv, hw, hvw⟩ | ⟨hv, hw⟩
    · rw [hv, hw]
      exact hvw.outcome
    · rw [hv, hw]
      exact ⟨rfl, by simp [Outcome.reject], fun _ => hb⟩

end

def Table.withMatchers (t : Table C T Ctx) (m : Fin t.size → Matcher D U Ctx') : Table D U Ctx' :=
  ⟨t.size, t.size_pos, t.link, m⟩

/-- Matchers of one shape: tables nest alike, with the same links, and what is no table is related by
`leaf`. -/
inductive Matcher.Alike (leaf : Matcher C T Ctx → Matcher D U Ctx' → Prop) :
    Matcher C T Ctx → Matcher D U Ctx' → Prop where
  | leaf {m : Matcher C T Ctx} {n : Matcher D U Ctx'} : leaf m n → Alike leaf m n
  | table (t : Table C T Ctx) (m : Fin t.size → Matcher D U Ctx') (start : Fin t.size) :
      (∀ i, Alike leaf (t.matcher i) (m i)) →
      Alike leaf (t.toMatcher start) ((t.withMatchers m).toMatcher start)

theorem Table.corresponding_withMatchers {M : Matcher C T Ctx → Matcher D U Ctx' → Prop}
    {t : Table C T Ctx} {m : Fin t.size → Matcher D U Ctx'} (h : ∀ i, M (t.matcher i) (m i)) :
    Corresponding Eq M t.entries (t.withMatchers m).entries := by
  rintro i _ rfl
  by_cases hi : i < t.size
  · have hl : t.entries[i]? = some (t.entry ⟨i, hi⟩) := getElem?_entries_fin ⟨i, hi⟩
    have hr : (t.withMatchers m).entries[i]? = some ((t.withMatchers m).entry ⟨i, hi⟩) :=
      getElem?_entries_fin (t := t.withMatchers m) ⟨i, hi⟩
    rw [hl, hr]
    refine .some ⟨fun accepted => ?_, rfl, h ⟨i, hi⟩⟩
    exact Target.Alike.refl _
  · have hl : t.entries[i]? = none := by simp [entries, hi]
    have hr : (t.withMatchers m).entries[i]? = none := by simp [entries, withMatchers, hi]
    rw [hl, hr]
    exact .none

theorem Matcher.Alike.symm {leaf : Matcher C T Ctx → Matcher D U Ctx' → Prop}
    {leaf' : Matcher D U Ctx' → Matcher C T Ctx → Prop} (hleaf : ∀ m n, leaf m n → leaf' n m)
    {m : Matcher C T Ctx} {n : Matcher D U Ctx'} (h : Alike leaf m n) : Alike leaf' n m := by
  induction h with
  | leaf h => exact .leaf (hleaf _ _ h)
  | table t m start _ ih => exact .table (t.withMatchers m) t.matcher start ih

theorem Simulated.together {R Q : C → D → Prop} {R' Q' : D → C → Prop} {X : C → Outcome C → Prop}
    {Y : D → Outcome D → Prop} (hXY : Simulated R Q X Y) (hYX : Simulated R' Q' Y X)
    (hY : ∀ d p p', Y d p → Y d p' → p = p') {c : C} {d : D} (hc : R c d) (hd : R' d c) :
    ((∃ o, X c o) ↔ ∃ p, Y d p) ∧ ∀ o p, X c o → Y d p → o.Agree R Q p := by
  refine ⟨⟨?_, ?_⟩, ?_⟩
  · rintro ⟨o, ho⟩
    obtain ⟨p, hp, -⟩ := hXY c d hc o ho
    exact ⟨p, hp⟩
  · rintro ⟨p, hp⟩
    obtain ⟨o, ho, -⟩ := hYX d c hd p hp
    exact ⟨o, ho⟩
  · intro o p ho hp
    obtain ⟨p', hp', hop⟩ := hXY c d hc o ho
    obtain rfl := hY d p' p hp' hp
    exact hop

variable [Cursor C T] [BEq T] [LE T] [DecidableLE T] [Cursor D U] [BEq U] [LE U] [DecidableLE U]
  {R Q : C → D → Prop} {ctx : Ctx} {ctx' : Ctx'} {bound : C} {bound' : D}

theorem Table.simulated_of_corresponding {S : Nat → Nat → Prop}
    {M : Matcher C T Ctx → Matcher D U Ctx' → Prop} {t : Table C T Ctx} {t' : Table D U Ctx'}
    (hM : ∀ m n, M m n → Simulated R Q (m.Yields ctx bound) (n.Yields ctx' bound'))
    (hb : Q bound bound') (h : Corresponding S M t.entries t'.entries) {start : Fin t.size}
    {start' : Fin t'.size} (hs : S start start') :
    Simulated R Q ((t.toMatcher start).Yields ctx bound)
      ((t'.toMatcher start').Yields ctx' bound') := by
  intro c d hc o ho
  obtain ⟨vs, ⟨c', hvs⟩, rfl⟩ := yields_iff_path.mp ho
  obtain ⟨ws, u', d', hws, hu', -, hall⟩ := hvs.simulate h hM (.index hs) hc
  cases hu'
  exact ⟨_, yields_iff_path.mpr ⟨ws, ⟨d', hws⟩, rfl⟩, verdict_agree h hb hall⟩

theorem Matcher.Alike.simulated {leaf : Matcher C T Ctx → Matcher D U Ctx' → Prop}
    (hleaf : ∀ m n, leaf m n → Simulated R Q (m.Yields ctx bound) (n.Yields ctx' bound'))
    (hb : Q bound bound') {m : Matcher C T Ctx} {n : Matcher D U Ctx'} (h : Alike leaf m n) :
    Simulated R Q (m.Yields ctx bound) (n.Yields ctx' bound') := by
  induction h with
  | leaf h => exact hleaf _ _ h
  | table t m start _ ih =>
    exact Table.simulated_of_corresponding (fun _ _ h => h) hb
      (Table.corresponding_withMatchers ih) rfl

end TableAutomata
