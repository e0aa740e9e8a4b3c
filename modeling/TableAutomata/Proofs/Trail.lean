import Mathlib.Data.List.Induction
import TableAutomata.Automaton.Recognizer
import TableAutomata.Proofs.Budget
import TableAutomata.Proofs.Validation

/-! Runs told by the visits they make. A run has a value exactly if following the links from visit to
visit leads out of the table, and what it makes of the visits can be read off their history: the last
place noted, else the last failure, else a rejection at the bound. -/

namespace TableAutomata

variable {C T Ctx : Type}

structure Visit (C : Type) where
  entry : Nat
  cursor : C
  outcome : Outcome C

def Entry.next (e : Entry C T Ctx) (accepted : Bool) : Target :=
  if accepted then e.onSuccess else e.onFailure

def Outcome.move (o : Outcome C) (c : C) : C :=
  if o.accepted then o.position else c

/-- From visit to visit along the links of the entries `es`, each entry's outcome being one that
`tries` allows. -/
inductive Trail (es : List (Entry C T Ctx)) (tries : Matcher C T Ctx → C → Outcome C → Prop) :
    Target → C → List (Visit C) → Target → C → Prop where
  | stay {s : Target} {c : C} : Trail es tries s c [] s c
  | visit {i : Nat} {e : Entry C T Ctx} {c d : C} {o : Outcome C} {vs : List (Visit C)} {s : Target} :
      es[i]? = some e → tries e.matcher c o →
      Trail es tries (e.next o.accepted) (o.move c) vs s d →
      Trail es tries (.index i) c (⟨i, c, o⟩ :: vs) s d

def accepts (es : List (Entry C T Ctx)) (i : Nat) : Bool :=
  es[i]?.any (·.accepting)

def Visit.notes (es : List (Entry C T Ctx)) (v : Visit C) : Bool :=
  v.outcome.accepted && accepts es v.entry

/-- What a history of visits comes to. -/
def verdict (es : List (Entry C T Ctx)) (bound : C) (vs : List (Visit C)) : Outcome C :=
  match (vs.filter (Visit.notes es)).getLast? with
  | some v => .accept v.outcome.position
  | none =>
    match (vs.filter fun v => !v.outcome.accepted).getLast? with
    | some v => v.outcome
    | none => .reject bound

theorem verdict_cases (es : List (Entry C T Ctx)) (bound : C) (vs : List (Visit C)) :
    (∃ v, (vs.filter (Visit.notes es)).getLast? = some v ∧
        verdict es bound vs = .accept v.outcome.position) ∨
      (vs.filter (Visit.notes es) = [] ∧
        ((∃ v ∈ vs, v.outcome.accepted = false ∧ verdict es bound vs = v.outcome) ∨
          verdict es bound vs = .reject bound)) := by
  cases hn : (vs.filter (Visit.notes es)).getLast? with
  | some v => exact .inl ⟨v, rfl, by simp [verdict, hn]⟩
  | none =>
    refine .inr ⟨List.getLast?_eq_none_iff.mp hn, ?_⟩
    cases hf : (vs.filter fun v => !v.outcome.accepted).getLast? with
    | some v =>
      have hv := List.mem_filter.mp (List.mem_of_getLast? hf)
      exact .inl ⟨v, hv.1, by simpa using hv.2, by simp [verdict, hn, hf]⟩
    | none => exact .inr (by simp [verdict, hn, hf])

theorem exists_noted_of_verdict_accepted {es : List (Entry C T Ctx)} {bound : C} {vs : List (Visit C)}
    (ha : (verdict es bound vs).accepted = true) :
    ∃ v ∈ vs, v.outcome.accepted = true ∧ accepts es v.entry = true ∧
      (verdict es bound vs).position = v.outcome.position := by
  rcases verdict_cases es bound vs with ⟨v, hv, hver⟩ | ⟨-, ⟨v, -, hrej, hver⟩ | hver⟩
  · obtain ⟨hmem, hnotes⟩ := List.mem_filter.mp (List.mem_of_getLast? hv)
    obtain ⟨hacc, hes⟩ := Bool.and_eq_true_iff.mp hnotes
    exact ⟨v, hmem, hacc, hes, by rw [hver]; rfl⟩
  · rw [hver, hrej] at ha
    cases ha
  · rw [hver] at ha
    cases ha

namespace Trail

variable {es : List (Entry C T Ctx)} {tries tries' : Matcher C T Ctx → C → Outcome C → Prop}
  {s s' s'' : Target} {c c' c'' : C} {vs ws : List (Visit C)}

theorem mono_of_mem (h : Trail es tries s c vs s' c')
    (hm : ∀ e ∈ es, ∀ v ∈ vs, tries e.matcher v.cursor v.outcome →
      tries' e.matcher v.cursor v.outcome) : Trail es tries' s c vs s' c' := by
  induction h with
  | stay => exact .stay
  | visit he ho _ ih =>
    refine .visit he (hm _ (List.mem_of_getElem? he) _ List.mem_cons_self ho) (ih ?_)
    exact fun e hmem v hv => hm e hmem v (List.mem_cons_of_mem _ hv)

theorem mono (hm : ∀ m d o, tries m d o → tries' m d o) (h : Trail es tries s c vs s' c') :
    Trail es tries' s c vs s' c' :=
  h.mono_of_mem fun e _ v _ => hm e.matcher v.cursor v.outcome

theorem prefix_of_terminal (hdet : ∀ m d o o', tries m d o → tries m d o' → o = o')
    (h : Trail es tries s c vs s' c') (h' : Trail es tries s c ws .terminal c'') :
    ∃ rest, ws = vs ++ rest ∧ Trail es tries s' c' rest .terminal c'' := by
  induction h generalizing ws with
  | stay => exact ⟨ws, rfl, h'⟩
  | visit he ho _ ih =>
    cases h' with
    | visit he' ho' hr' =>
      cases he.symm.trans he'
      cases hdet _ _ _ _ ho ho'
      obtain ⟨rest, rfl, hr⟩ := ih hr'
      exact ⟨rest, rfl, hr⟩

theorem append (h : Trail es tries s c vs s' c') (h' : Trail es tries s' c' ws s'' c'') :
    Trail es tries s c (vs ++ ws) s'' c'' := by
  induction h with
  | stay => exact h'
  | visit he ho _ ih => exact .visit he ho (ih h')

theorem split_of_mem (h : Trail es tries s c vs s' c') {v : Visit C} (hv : v ∈ vs) :
    ∃ as bs e, vs = as ++ v :: bs ∧ Trail es tries s c as (.index v.entry) v.cursor ∧
      es[v.entry]? = some e ∧ tries e.matcher v.cursor v.outcome ∧
      Trail es tries (e.next v.outcome.accepted) (v.outcome.move v.cursor) bs s' c' := by
  induction h with
  | stay => cases hv
  | @visit i e c d o vs s he ho hr ih =>
    rcases List.mem_cons.mp hv with rfl | hv
    · exact ⟨[], vs, e, rfl, .stay, he, ho, hr⟩
    · obtain ⟨as, bs, f, hvs, has, hrest⟩ := ih hv
      exact ⟨⟨i, c, o⟩ :: as, bs, f, congrArg (_ :: ·) hvs, .visit he ho has, hrest⟩

theorem target_eq_of_nil (h : Trail es tries s c [] s' c') : s = s' := by
  cases h
  rfl

theorem eq_nil_of_terminal (h : Trail es tries .terminal c vs s c') : vs = [] := by
  cases h
  rfl

theorem terminal_unique (hdet : ∀ m d o o', tries m d o → tries m d o' → o = o')
    (h : Trail es tries s c vs .terminal c') (h' : Trail es tries s c ws .terminal c'') : vs = ws := by
  obtain ⟨rest, rfl, hr⟩ := h.prefix_of_terminal hdet h'
  rw [hr.eq_nil_of_terminal, List.append_nil]

end Trail

namespace Progress

def afterAll (es : List (Entry C T Ctx)) (p : Progress C) (vs : List (Visit C)) : Progress C :=
  vs.foldl (fun q v => q.after (accepts es v.entry) v.outcome) p

@[simp] theorem cursor_after (p : Progress C) (accepting : Bool) (o : Outcome C) :
    (p.after accepting o).cursor = o.move p.cursor := by
  cases h : o.accepted <;> simp [after, Outcome.move, h]

@[simp] theorem afterAll_append_singleton (es : List (Entry C T Ctx)) (p : Progress C)
    (vs : List (Visit C)) (v : Visit C) :
    p.afterAll es (vs ++ [v]) = (p.afterAll es vs).after (accepts es v.entry) v.outcome := by
  simp [afterAll]

theorem notes_afterAll_start (es : List (Entry C T Ctx)) (c : C) (vs : List (Visit C)) :
    ((start c).afterAll es vs).noted =
        (vs.filter (Visit.notes es)).getLast?.map (·.outcome.position) ∧
      ((start c).afterAll es vs).failed =
        (vs.filter fun v => !v.outcome.accepted).getLast?.map (·.outcome.position) := by
  induction vs using List.reverseRecOn with
  | nil => exact ⟨rfl, rfl⟩
  | append_singleton vs v ih =>
    obtain ⟨hn, hf⟩ := ih
    rw [afterAll_append_singleton]
    cases ha : v.outcome.accepted <;> cases hv : accepts es v.entry <;>
      simp [after, ha, hv, Visit.notes, hn, hf]

theorem outcome_afterAll_start (es : List (Entry C T Ctx)) (bound c : C) (vs : List (Visit C)) :
    ((start c).afterAll es vs).outcome bound = verdict es bound vs := by
  obtain ⟨hn, hf⟩ := notes_afterAll_start es c vs
  simp only [outcome, hn, hf, verdict]
  cases (vs.filter (Visit.notes es)).getLast? with
  | some v => rfl
  | none =>
    cases hl : (vs.filter fun v => !v.outcome.accepted).getLast? with
    | none => rfl
    | some v =>
      have hv := (List.mem_filter.mp (List.mem_of_getLast? hl)).2
      obtain ⟨i, d, ⟨accepted, position⟩⟩ := v
      cases accepted with
      | false => rfl
      | true => simp at hv

end Progress

end TableAutomata
