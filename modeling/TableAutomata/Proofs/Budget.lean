import TableAutomata.Automaton.Run

/-! A larger budget changes nothing about a run that a smaller one suffices for. So what a matcher
yields can be told without naming a budget. -/

namespace TableAutomata

variable {C T Ctx α β : Type}

namespace Recording

@[simp] theorem value?_pure (a : α) : (pure a : Recording C T Ctx α).value? = some a := rfl

@[simp] theorem value?_outOfBudget : (outOfBudget : Recording C T Ctx α).value? = none := rfl

@[simp] theorem value?_note (r : Record C T Ctx) : (note r).value? = some () := rfl

theorem bind_eq_some_iff {x : Recording C T Ctx α} {f : α → Recording C T Ctx β} {b : β}
    {log : List (Record C T Ctx)} :
    x >>= f = some (b, log) ↔
      ∃ a before after, x = some (a, before) ∧ f a = some (b, after) ∧ log = before ++ after := by
  constructor
  · intro h
    rcases x with _ | ⟨a, before⟩
    · cases h
    · cases hf : f a with
      | none =>
        simp only [bind, hf] at h
        cases h
      | some r =>
        simp only [bind, hf] at h
        cases h
        exact ⟨a, before, r.2, rfl, hf, rfl⟩
  · rintro ⟨a, before, after, rfl, hf, rfl⟩
    simp only [bind, hf]
    rfl

@[simp] theorem value?_bind (x : Recording C T Ctx α) (f : α → Recording C T Ctx β) :
    (x >>= f).value? = x.value?.bind fun a => (f a).value? := by
  rcases x with _ | ⟨a, before⟩
  · rfl
  · cases hf : f a <;> simp [bind, value?, hf]

@[simp] theorem value?_map (x : Recording C T Ctx α) (f : α → β) :
    (f <$> x).value? = x.value?.map f := by
  change (x >>= fun a => pure (f a)).value? = x.value?.map f
  rw [value?_bind]
  cases x.value? <;> rfl

/-- `y` has the value and the records of `x`, if `x` has a value. -/
def Below (x y : Recording C T Ctx α) : Prop :=
  ∀ r, x = some r → y = some r

theorem Below.refl (x : Recording C T Ctx α) : Below x x :=
  fun _ h => h

theorem Below.bind {x y : Recording C T Ctx α} {f g : α → Recording C T Ctx β} (hx : Below x y)
    (hf : ∀ a, Below (f a) (g a)) : Below (x >>= f) (y >>= g) := by
  rintro ⟨b, log⟩ hr
  obtain ⟨a, before, after, ha, hb, rfl⟩ := bind_eq_some_iff.mp hr
  exact bind_eq_some_iff.mpr ⟨a, before, after, hx _ ha, hf a _ hb, rfl⟩

theorem Below.value? {x y : Recording C T Ctx α} {a : α} (h : Below x y)
    (ha : x.value? = some a) : y.value? = some a := by
  obtain ⟨r, hr, rfl⟩ := Option.map_eq_some_iff.mp ha
  rw [h r hr]
  rfl

/-- More budget only helps. -/
def Steady (x : Nat → Recording C T Ctx α) : Prop :=
  ∀ v w, v ≤ w → Below (x v) (x w)

/-- With some budget the computation has this value. -/
def Ends (x : Nat → Recording C T Ctx α) (a : α) : Prop :=
  ∃ visits, (x visits).value? = some a

theorem Steady.const (x : Recording C T Ctx α) : Steady fun _ => x :=
  fun _ _ _ => .refl x

theorem Steady.ite {x y : Nat → Recording C T Ctx α} (p : Bool) (hx : Steady x) (hy : Steady y) :
    Steady fun visits => if p then x visits else y visits := by
  cases p
  · exact hy
  · exact hx

theorem Steady.bind {x : Nat → Recording C T Ctx α} {f : Nat → α → Recording C T Ctx β}
    (hx : Steady x) (hf : ∀ a, Steady (f · a)) : Steady fun visits => x visits >>= f visits :=
  fun v w h => (hx v w h).bind fun a => hf a v w h

theorem Ends.eventually {x : Nat → Recording C T Ctx α} (hx : Steady x) {a : α} (h : Ends x a) :
    ∃ visits, ∀ w, visits ≤ w → (x w).value? = some a := by
  obtain ⟨visits, hv⟩ := h
  exact ⟨visits, fun w hw => (hx visits w hw).value? hv⟩

theorem Ends.unique {x : Nat → Recording C T Ctx α} (hx : Steady x) {a a' : α} (h : Ends x a)
    (h' : Ends x a') : a = a' := by
  obtain ⟨v, hv⟩ := h.eventually hx
  obtain ⟨w, hw⟩ := h'.eventually hx
  have hav := hv (max v w) (Nat.le_max_left v w)
  have haw := hw (max v w) (Nat.le_max_right v w)
  exact Option.some.inj (hav.symm.trans haw)

theorem ends_const_iff {x : Recording C T Ctx α} {a : α} :
    Ends (fun _ => x) a ↔ x.value? = some a :=
  exists_const Nat

theorem ends_bind_iff {x : Nat → Recording C T Ctx α} {f : Nat → α → Recording C T Ctx β}
    (hx : Steady x) (hf : ∀ a, Steady (f · a)) {b : β} :
    Ends (fun visits => x visits >>= f visits) b ↔ ∃ a, Ends x a ∧ Ends (f · a) b := by
  simp only [Ends, value?_bind, Option.bind_eq_some_iff]
  constructor
  · rintro ⟨visits, a, ha, hb⟩
    exact ⟨a, ⟨visits, ha⟩, visits, hb⟩
  · rintro ⟨a, ha, hb⟩
    obtain ⟨v, hv⟩ := Ends.eventually hx ha
    obtain ⟨w, hw⟩ := Ends.eventually (hf a) hb
    exact ⟨max v w, a, hv _ (Nat.le_max_left v w), hw _ (Nat.le_max_right v w)⟩

end Recording

open Recording (Below Steady Ends)

@[simp] theorem follow_none {n : Nat} (link : Fin n → Link n)
    (attempt : Fin n → C → Recording C T Ctx (Outcome C)) (budget : Nat) (p : Progress C) :
    follow link attempt budget none p = pure p := by
  cases budget <;> rfl

theorem follow_below {n : Nat} {link : Fin n → Link n}
    {attempt attempt' : Fin n → C → Recording C T Ctx (Outcome C)}
    (h : ∀ i d, Below (attempt i d) (attempt' i d)) {budget budget' : Nat}
    (hb : budget ≤ budget') (s : Option (Fin n)) (p : Progress C) :
    Below (follow link attempt budget s p) (follow link attempt' budget' s p) := by
  induction budget generalizing budget' s p with
  | zero =>
    cases s with
    | none =>
      rw [follow_none, follow_none]
      exact .refl _
    | some i =>
      intro r hr
      cases hr
  | succ budget ih =>
    obtain ⟨b, rfl⟩ : ∃ b, budget' = b + 1 := ⟨budget' - 1, by omega⟩
    cases s with
    | none => exact .refl _
    | some i => exact (h i p.cursor).bind fun o => ih (by omega) _ _

variable [Cursor C T] [BEq T] [LE T] [DecidableLE T]

namespace Table

def attempt (t : Table C T Ctx) (visits : Nat) (ctx : Ctx) (bound : C) (i : Fin t.size) (c : C) :
    Recording C T Ctx (Outcome C) := do
  let o ← (t.matcher i).apply visits ctx bound c
  Recording.note (.entry i (t.matcher i) c o)
  pure o

theorem run_eq_follow (t : Table C T Ctx) (start : Fin t.size) (visits : Nat) (ctx : Ctx)
    (bound c : C) :
    t.run start visits ctx bound c =
      (follow t.link (t.attempt visits ctx bound) (t.size * visits) (some start) (.start c) >>=
        fun p => Recording.note (.run t.size start (p.outcome bound)) >>=
          fun _ => pure (p.outcome bound)) := rfl

@[simp] theorem value?_attempt (t : Table C T Ctx) (visits : Nat) (ctx : Ctx) (bound : C)
    (i : Fin t.size) (c : C) :
    (t.attempt visits ctx bound i c).value? = ((t.matcher i).apply visits ctx bound c).value? := by
  simp only [attempt, Recording.value?_bind, Recording.value?_note, Recording.value?_pure]
  cases ((t.matcher i).apply visits ctx bound c).value? <;> rfl

theorem value?_run (t : Table C T Ctx) (start : Fin t.size) (visits : Nat) (ctx : Ctx)
    (bound c : C) :
    (t.run start visits ctx bound c).value? =
      (follow t.link (t.attempt visits ctx bound) (t.size * visits) (some start)
        (.start c)).value?.map (·.outcome bound) := by
  simp only [run_eq_follow, Recording.value?_bind, Recording.value?_note, Recording.value?_pure]
  cases (follow t.link (t.attempt visits ctx bound) (t.size * visits) (some start)
    (.start c)).value? <;> rfl

end Table

namespace Matcher

variable {ctx : Ctx} {bound c : C}

theorem apply_steady (m : Matcher C T Ctx) (c : C) :
    Steady fun visits => m.apply visits ctx bound c := by
  intro v w h
  induction m generalizing c with
  | nested link matcher start ih =>
    refine Below.bind (follow_below ?_ (Nat.mul_le_mul_left _ h) _ _) fun _ => .refl _
    exact fun i d => (ih i d).bind fun _ => .refl _
  | _ => exact .refl _

def Yields (ctx : Ctx) (bound : C) (m : Matcher C T Ctx) (c : C) (o : Outcome C) : Prop :=
  Ends (fun visits => m.apply visits ctx bound c) o

theorem Yields.unique {m : Matcher C T Ctx} {o o' : Outcome C} (h : Yields ctx bound m c o)
    (h' : Yields ctx bound m c o') : o = o' :=
  Ends.unique (apply_steady m c) h h'

theorem Yields.iff_eq {m : Matcher C T Ctx} {o : Outcome C} (h : Yields ctx bound m c o)
    (o' : Outcome C) : Yields ctx bound m c o' ↔ o' = o := by
  constructor
  · intro h'
    exact h'.unique h
  · rintro rfl
    exact h

theorem yields_iff_of_pure {m : Matcher C T Ctx} {o o' : Outcome C}
    (h : ∀ visits, m.apply visits ctx bound c = pure o') : Yields ctx bound m c o ↔ o = o' := by
  simp only [Yields, h, Recording.ends_const_iff, Recording.value?_pure, Option.some.injEq]
  exact eq_comm

def IsStep : Matcher C T Ctx → Prop
  | .nested .. => False
  | _ => True

theorem IsStep.exists_yields {m : Matcher C T Ctx} (h : m.IsStep) (ctx : Ctx) (bound c : C) :
    ∃ o, m.Yields ctx bound c o := by
  cases m with
  | nested link matcher start => cases h
  | _ => exact ⟨_, 0, rfl⟩

end Matcher

end TableAutomata
