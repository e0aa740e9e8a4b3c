import Mathlib.Computability.Language

/-! The longest word of a language that a text begins with. Where a language is put together from
single characters, what is longest at a text can be read off the characters one after the other. -/

namespace TableAutomata

open Computability

variable {α : Type}

def one (p : α → Bool) : Language α :=
  {w | ∃ x, p x = true ∧ w = [x]}

/-- All characters of the words of a language are of one sort. -/
def Over (p : α → Bool) (L : Language α) : Prop :=
  ∀ w ∈ L, ∀ x ∈ w, p x = true

structure Longest (L : Language α) (s w : List α) : Prop where
  begins : w <+: s
  mem : w ∈ L
  length_le : ∀ u, u <+: s → u ∈ L → u.length ≤ w.length

/-- Whether this is the longest word of the language that the text begins with, or that there is no
such word. -/
def Finds (L : Language α) (s : List α) : Option (List α) → Prop
  | some w => Longest L s w
  | none => ∀ w, w <+: s → w ∉ L

def findAfter (p : α → Bool) (find : List α → Option (List α)) : List α → Option (List α)
  | [] => none
  | x :: r => if p x then (find r).map (x :: ·) else none

def findOne (p : α → Bool) : List α → Option (List α) :=
  findAfter p fun _ => some []

def findWord (p q : α → Bool) : List α → Option (List α) :=
  findAfter p fun r => some (r.takeWhile q)

/-- A run of a sort, and what is found behind it if anything is. -/
def findRun (p : α → Bool) (find : List α → Option (List α)) : List α → Option (List α) :=
  findAfter p fun r => some (r.takeWhile p ++ (find (r.dropWhile p)).getD [])

variable {L M : Language α} {p q : α → Bool} {s r w u : List α} {x : α}
  {found found' : Option (List α)} {find : List α → Option (List α)}

theorem mem_one : w ∈ one p ↔ ∃ x, p x = true ∧ w = [x] := Iff.rfl

theorem singleton_eq_one [BEq α] [LawfulBEq α] (a : α) : ({[a]} : Language α) = one (· == a) := by
  ext w
  simp only [mem_one, beq_iff_eq, exists_eq_left]
  exact Iff.rfl

theorem one_add_one (p q : α → Bool) : one p + one q = one fun x => p x || q x := by
  ext w
  simp only [Language.mem_add, mem_one, Bool.or_eq_true]
  constructor
  · rintro (⟨x, hx, rfl⟩ | ⟨x, hx, rfl⟩)
    · exact ⟨x, .inl hx, rfl⟩
    · exact ⟨x, .inr hx, rfl⟩
  · rintro ⟨x, hx | hx, rfl⟩
    · exact .inl ⟨x, hx, rfl⟩
    · exact .inr ⟨x, hx, rfl⟩

theorem mem_one_mul : w ∈ one p * L ↔ ∃ x r, p x = true ∧ r ∈ L ∧ w = x :: r := by
  rw [Language.mem_mul]
  constructor
  · rintro ⟨_, ⟨x, hx, rfl⟩, r, hr, rfl⟩
    exact ⟨x, r, hx, hr, rfl⟩
  · rintro ⟨x, r, hx, hr, rfl⟩
    exact ⟨[x], ⟨x, hx, rfl⟩, r, hr, rfl⟩

theorem of_cons_mem_one_mul (h : x :: w ∈ one p * L) : p x = true := by
  obtain ⟨y, r, hy, -, heq⟩ := mem_one_mul.mp h
  rwa [(List.cons.inj heq).1]

theorem mem_kstar_one : w ∈ (one p)∗ ↔ ∀ x ∈ w, p x = true := by
  rw [Language.mem_kstar]
  constructor
  · rintro ⟨ws, rfl, hws⟩ x hx
    obtain ⟨v, hv, hxv⟩ := List.mem_flatten.mp hx
    obtain ⟨y, hy, rfl⟩ := hws v hv
    rwa [List.mem_singleton.mp hxv]
  · intro h
    refine ⟨w.map ([·]), by simp [← List.flatMap_def], fun v hv => ?_⟩
    obtain ⟨x, hx, rfl⟩ := List.mem_map.mp hv
    exact ⟨x, h x hx, rfl⟩

namespace Over

theorem one (h : ∀ x, q x = true → p x = true) : Over p (one q) := by
  rintro _ ⟨x, hx, rfl⟩ y hy
  rw [List.mem_singleton.mp hy]
  exact h x hx

theorem singleton {a : α} (h : p a = true) : Over p {[a]} := by
  rintro _ rfl x hx
  rwa [List.mem_singleton.mp hx]

theorem empty : Over p 1 := by
  rintro _ rfl x hx
  cases hx

theorem add (h : Over p L) (h' : Over p M) : Over p (L + M) :=
  fun w hw => hw.elim (h w) (h' w)

theorem mul (h : Over p L) (h' : Over p M) : Over p (L * M) := by
  intro w hw x hx
  obtain ⟨u, hu, v, hv, rfl⟩ := Language.mem_mul.mp hw
  rcases List.mem_append.mp hx with hx | hx
  · exact h u hu x hx
  · exact h' v hv x hx

theorem kstar (h : Over p L) : Over p L∗ := by
  intro w hw x hx
  obtain ⟨us, rfl, hus⟩ := Language.mem_kstar.mp hw
  obtain ⟨u, hu, hxu⟩ := List.mem_flatten.mp hx
  exact h u (hus u hu) x hxu

end Over

theorem eq_of_begin (hw : w <+: s) (hu : u <+: s) (hle : w.length ≤ u.length)
    (hge : u.length ≤ w.length) : w = u :=
  (List.prefix_of_prefix_length_le hw hu hle).eq_of_length (Nat.le_antisymm hle hge)

theorem Longest.unique (h : Longest L s w) (h' : Longest L s u) : w = u :=
  eq_of_begin h.begins h'.begins (h'.length_le w h.begins h.mem) (h.length_le u h'.begins h'.mem)

namespace Finds

theorem unique (h : Finds L s found) (h' : Finds L s found') : found = found' := by
  cases found with
  | none =>
    cases found' with
    | none => rfl
    | some u => exact absurd h'.mem (h u h'.begins)
  | some w =>
    cases found' with
    | none => exact absurd h.mem (h' w h.begins)
    | some u => exact congrArg some (h.unique h')

theorem eq_some_iff (h : Finds L s found) : found = some w ↔ Longest L s w :=
  ⟨fun hf => by rwa [hf] at h, fun hw => h.unique hw⟩

theorem eq_none_iff (h : Finds L s found) : found = none ↔ ∀ w, w <+: s → w ∉ L :=
  ⟨fun hf => by rwa [hf] at h, fun hw => h.unique hw⟩

end Finds

theorem findAfter_of_true (find : List α → Option (List α)) (hx : p x = true) :
    findAfter p find (x :: r) = (find r).map (x :: ·) := by
  rw [findAfter, if_pos hx]

theorem findAfter_of_false (find : List α → Option (List α)) (hx : p x = false) :
    findAfter p find (x :: r) = none := by
  rw [findAfter, hx, if_neg Bool.false_ne_true]

theorem findAfter_of_head (find : List α → Option (List α)) (h : ∀ x ∈ s.head?, p x = false) :
    findAfter p find s = none := by
  cases s with
  | nil => rfl
  | cons x r => exact findAfter_of_false find (h x rfl)

theorem head_cases (p : α → Bool) (s : List α) :
    (∀ x ∈ s.head?, p x = false) ∨ ∃ x r, s = x :: r ∧ p x = true := by
  cases s with
  | nil => exact .inl nofun
  | cons x r =>
    cases hx : p x with
    | false => exact .inl fun y hy => Option.some.inj hy ▸ hx
    | true => exact .inr ⟨x, r, rfl, hx⟩

theorem findOne_of_true (hx : p x = true) : findOne p (x :: r) = some [x] :=
  findAfter_of_true _ hx

theorem findWord_of_true (q : α → Bool) (hx : p x = true) :
    findWord p q (x :: r) = some (x :: r.takeWhile q) :=
  findAfter_of_true _ hx

theorem findRun_of_true (find : List α → Option (List α)) (hx : p x = true) :
    findRun p find (x :: r) = some (x :: (r.takeWhile p ++ (find (r.dropWhile p)).getD [])) :=
  findAfter_of_true _ hx

theorem drop_length_takeWhile (p : α → Bool) (s : List α) :
    s.drop (s.takeWhile p).length = s.dropWhile p := by
  have h : (s.takeWhile p ++ s.dropWhile p).drop (s.takeWhile p).length = s.dropWhile p :=
    List.drop_left
  rwa [List.takeWhile_append_dropWhile] at h

theorem findOne_or (p q : α → Bool) (s : List α) :
    (findOne p s).or (findOne q s) = findOne (fun x => p x || q x) s := by
  cases s with
  | nil => rfl
  | cons x r => cases hp : p x <;> cases hq : q x <;> simp [findOne, findAfter, hp, hq]

theorem finds_nil : Finds 1 s (some []) :=
  ⟨⟨s, rfl⟩, rfl, fun u _ hu => by rw [(Language.mem_one u).mp hu]⟩

theorem finds_after (h : ∀ r, Finds L r (find r)) (s : List α) :
    Finds (one p * L) s (findAfter p find s) := by
  cases s with
  | nil =>
    intro w hw hmem
    obtain ⟨x, r, -, -, rfl⟩ := mem_one_mul.mp hmem
    cases List.prefix_nil.mp hw
  | cons x r =>
    have hfind := h r
    cases hx : p x with
    | false =>
      rw [findAfter_of_false find hx]
      intro w hw hmem
      obtain ⟨y, t, hy, -, rfl⟩ := mem_one_mul.mp hmem
      obtain ⟨rfl, -⟩ := List.cons_prefix_cons.mp hw
      cases hx.symm.trans hy
    | true =>
      rw [findAfter_of_true find hx]
      cases hr : find r with
      | none =>
        rw [hr] at hfind
        intro w hw hmem
        obtain ⟨y, t, -, ht, rfl⟩ := mem_one_mul.mp hmem
        exact hfind t (List.cons_prefix_cons.mp hw).2 ht
      | some w =>
        rw [hr] at hfind
        refine ⟨List.cons_prefix_cons.mpr ⟨rfl, hfind.begins⟩,
          mem_one_mul.mpr ⟨x, w, hx, hfind.mem, rfl⟩, fun u hu hmem => ?_⟩
        obtain ⟨y, t, -, ht, rfl⟩ := mem_one_mul.mp hmem
        exact Nat.succ_le_succ (hfind.length_le t (List.cons_prefix_cons.mp hu).2 ht)

theorem finds_one (p : α → Bool) (s : List α) : Finds (one p) s (findOne p s) := by
  have h := finds_after (p := p) (fun _ => finds_nil) s
  rwa [mul_one] at h

theorem finds_singleton [BEq α] [LawfulBEq α] (a : α) (s : List α) :
    Finds {[a]} s (findOne (· == a) s) := by
  rw [singleton_eq_one]
  exact finds_one _ s

theorem finds_run_append (hM : ∀ x w, x :: w ∈ M → p x = false)
    (h : Finds M (s.dropWhile p) (some w)) :
    Finds ((one p)∗ * M) s (some (s.takeWhile p ++ w)) := by
  have hall : ∀ x ∈ s.takeWhile p, p x = true := List.all_eq_true.mp List.all_takeWhile
  have hs : s.takeWhile p ++ s.dropWhile p = s := List.takeWhile_append_dropWhile
  refine ⟨?_, Language.append_mem_mul (mem_kstar_one.mpr hall) h.mem, fun u hu hmem => ?_⟩
  · have hb := (List.prefix_append_right_inj (s.takeWhile p)).mpr h.begins
    rwa [hs] at hb
  · obtain ⟨a, ha, b, hb, rfl⟩ := Language.mem_mul.mp hmem
    obtain ⟨t, rfl⟩ := hu
    have ha : ∀ x ∈ a, p x = true := mem_kstar_one.mp ha
    rw [List.append_assoc, List.takeWhile_append_of_pos ha]
    cases b with
    | nil =>
      simp only [List.nil_append, List.append_nil, List.length_append]
      omega
    | cons x b =>
      have hx : ¬ p x = true := by simp [hM x b hb]
      rw [List.append_assoc, List.dropWhile_append_of_pos ha, List.cons_append,
        List.dropWhile_cons_of_neg hx] at h
      have hlen := h.length_le (x :: b) (List.prefix_append _ t) hb
      simp only [List.length_append]
      omega

theorem finds_run (p : α → Bool) (s : List α) :
    Finds (one p)∗ s (some (s.takeWhile p)) := by
  have h := finds_run_append (p := p) (M := 1) (s := s) (fun x w hw => by cases hw) finds_nil
  rwa [mul_one, List.append_nil] at h

theorem finds_word (p q : α → Bool) (s : List α) :
    Finds (one p * (one q)∗) s (findWord p q s) :=
  finds_after (finds_run q) s

namespace Finds

theorem optional (h : Finds L s found) : Finds (1 + L) s (some (found.getD [])) := by
  cases found with
  | none =>
    refine ⟨⟨s, rfl⟩, .inl rfl, fun u hu hmem => ?_⟩
    rcases (Language.mem_add _ _ u).mp hmem with h1 | hL
    · rw [(Language.mem_one u).mp h1]
      exact Nat.le_refl _
    · exact absurd hL (h u hu)
  | some w =>
    refine ⟨h.begins, .inr h.mem, fun u hu hmem => ?_⟩
    rcases (Language.mem_add _ _ u).mp hmem with h1 | hL
    · rw [(Language.mem_one u).mp h1]
      exact Nat.zero_le _
    · exact h.length_le u hu hL

theorem or (h : Finds L s found) (h' : Finds M s found') (hone : found = none ∨ found' = none) :
    Finds (L + M) s (found.or found') := by
  rcases hone with rfl | rfl
  · cases found' with
    | none => exact fun u hu hmem => (hmem.elim (h u hu) (h' u hu))
    | some w =>
      refine ⟨h'.begins, .inr h'.mem, fun u hu hmem => ?_⟩
      exact h'.length_le u hu (hmem.resolve_left (h u hu))
  · rw [Option.or_none]
    cases found with
    | none => exact fun u hu hmem => (hmem.elim (h u hu) (h' u hu))
    | some w =>
      refine ⟨h.begins, .inl h.mem, fun u hu hmem => ?_⟩
      exact h.length_le u hu (hmem.resolve_right (h' u hu))

end Finds

end TableAutomata
