import TableAutomata.Grammar.Abnf
import TableAutomata.Input.ArrayCursor
import TableAutomata.Proofs.Budget
import TableAutomata.Proofs.Validation

/-! What is wrong with a list of entries that makes no table. Of all links that lead nowhere the
first one is reported, by the order of the entries, and in one entry success before failure. -/

namespace TableAutomata

variable {C T Ctx : Type}

def Target.InRange (len : Nat) (s : Target) : Prop :=
  ∀ n, s = .index n → n < len

def Entry.InRange (len : Nat) (e : Entry C T Ctx) : Prop :=
  e.onSuccess.InRange len ∧ e.onFailure.InRange len

/-- There is no entry `n`, and the entry asks for it by its success link, or by its failure link if
the success link is in range. -/
def Entry.Misses (len : Nat) (e : Entry C T Ctx) (n : Nat) : Prop :=
  len ≤ n ∧ (e.onSuccess = .index n ∨ e.onSuccess.InRange len ∧ e.onFailure = .index n)

/-- Entry `i` asks for `n`, which is missing, and no entry before it asks for a missing one. -/
structure FirstFault (es : List (Entry C T Ctx)) (i n : Nat) : Prop where
  misses : ∃ e, es[i]? = some e ∧ e.Misses es.length n
  least : ∀ j < i, ∀ e, es[j]? = some e → e.InRange es.length

theorem Target.dangling?_eq_none_iff {len : Nat} {s : Target} :
    s.dangling? len = none ↔ s.InRange len := by
  cases s <;> simp [dangling?, InRange]

theorem Target.dangling?_eq_some_iff {len n : Nat} {s : Target} :
    s.dangling? len = some n ↔ len ≤ n ∧ s = .index n := by
  cases s with
  | terminal => simp [dangling?]
  | index m =>
    by_cases hm : m < len
    · simp only [dangling?, if_pos hm, reduceCtorEq, false_iff, index.injEq]
      omega
    · simp only [dangling?, if_neg hm, Option.some.injEq, index.injEq]
      omega

namespace Entry

variable {len n n' : Nat} {e : Entry C T Ctx}

theorem dangling?_eq_none_iff_inRange : e.dangling? len = none ↔ e.InRange len := by
  rw [dangling?_eq_none_iff, Target.dangling?_eq_none_iff, Target.dangling?_eq_none_iff, InRange]

theorem dangling?_eq_some_iff : e.dangling? len = some n ↔ e.Misses len n := by
  have hs : e.onSuccess.dangling? len = some n ↔ _ := Target.dangling?_eq_some_iff
  have hf : e.onFailure.dangling? len = some n ↔ _ := Target.dangling?_eq_some_iff
  rw [Misses, and_or_left, ← hs, and_left_comm, ← hf, ← Target.dangling?_eq_none_iff]
  cases h : e.onSuccess.dangling? len <;> simp [dangling?, h]

theorem Misses.not_inRange (h : e.Misses len n) : ¬ e.InRange len := by
  rw [← dangling?_eq_none_iff_inRange, dangling?_eq_some_iff.mpr h]
  exact Option.some_ne_none n

theorem Misses.unique (h : e.Misses len n) (h' : e.Misses len n') : n = n' :=
  Option.some.inj ((dangling?_eq_some_iff.mpr h).symm.trans (dangling?_eq_some_iff.mpr h'))

end Entry

namespace FirstFault

variable {es : List (Entry C T Ctx)} {i i' n n' : Nat}

theorem not_lt (h : FirstFault es i n) (h' : FirstFault es i' n') : ¬ i < i' := by
  intro hlt
  obtain ⟨e, he, hm⟩ := h.misses
  exact hm.not_inRange (h'.least i hlt e he)

theorem unique (h : FirstFault es i n) (h' : FirstFault es i' n') : i = i' ∧ n = n' := by
  have hle := h.not_lt h'
  have hge := h'.not_lt h
  obtain rfl : i = i' := by omega
  obtain ⟨e, he, hm⟩ := h.misses
  obtain ⟨e', he', hm'⟩ := h'.misses
  cases he.symm.trans he'
  exact ⟨rfl, hm.unique hm'⟩

end FirstFault

namespace Table

theorem exists_misses_of_firstDangling? {len i : Nat} {es : List (Entry C T Ctx)} {x : TableError}
    (h : firstDangling? len i es = some x) :
    ∃ j n, x = .danglingTarget (i + j) n len ∧ (∃ e, es[j]? = some e ∧ e.Misses len n) ∧
      ∀ k < j, ∀ e, es[k]? = some e → e.InRange len := by
  induction es generalizing i with
  | nil => cases h
  | cons e rest ih =>
    cases he : e.dangling? len with
    | some n =>
      simp only [firstDangling?, he, Option.some.injEq] at h
      have hmisses := Entry.dangling?_eq_some_iff.mp he
      exact ⟨0, n, h.symm, ⟨e, rfl, hmisses⟩, fun k hk => absurd hk (Nat.not_lt_zero k)⟩
    | none =>
      simp only [firstDangling?, he] at h
      obtain ⟨j, n, rfl, hmisses, hleast⟩ := ih h
      refine ⟨j + 1, n, by rw [Nat.add_assoc, Nat.add_comm 1 j], hmisses, fun k hk f hf => ?_⟩
      cases k with
      | zero =>
        cases hf
        exact Entry.dangling?_eq_none_iff_inRange.mp he
      | succ k => exact hleast k (Nat.lt_of_succ_lt_succ hk) f hf

theorem ofEntries?_cases (es : List (Entry C T Ctx)) :
    es = [] ∧ ofEntries? es = .error .emptyTable ∨
      es ≠ [] ∧ (∀ e ∈ es, e.InRange es.length) ∧ (∃ t, ofEntries? es = .ok t) ∨
      ∃ i n, FirstFault es i n ∧ ofEntries? es = .error (.danglingTarget i n es.length) := by
  by_cases hne : es = []
  · exact .inl ⟨hne, dif_pos hne⟩
  · right
    cases hd : firstDangling? es.length 0 es with
    | none =>
      have hall := firstDangling?_eq_none_iff.mp hd
      exact .inl ⟨hne, fun e he => Entry.dangling?_eq_none_iff_inRange.mp (hall e he),
        exists_ofEntries? hne hall⟩
    | some x =>
      obtain ⟨i, n, rfl, hmisses, hleast⟩ := exists_misses_of_firstDangling? hd
      refine .inr ⟨i, n, ⟨hmisses, hleast⟩, ?_⟩
      simp only [ofEntries?, dif_neg hne, hd, Nat.zero_add]

variable {es : List (Entry C T Ctx)}

theorem exists_ofEntries?_iff :
    (∃ t, ofEntries? es = .ok t) ↔ es ≠ [] ∧ ∀ e ∈ es, e.InRange es.length := by
  constructor
  · rintro ⟨t, ht⟩
    rcases ofEntries?_cases es with ⟨-, h⟩ | ⟨hne, hall, -⟩ | ⟨i, n, -, h⟩
    · cases ht.symm.trans h
    · exact ⟨hne, hall⟩
    · cases ht.symm.trans h
  · rintro ⟨hne, hall⟩
    exact exists_ofEntries? hne fun e he => Entry.dangling?_eq_none_iff_inRange.mpr (hall e he)

theorem ofEntries?_eq_emptyTable_iff : ofEntries? es = .error .emptyTable ↔ es = [] := by
  constructor
  · intro hempty
    rcases ofEntries?_cases es with ⟨hnil, -⟩ | ⟨-, -, t, h⟩ | ⟨i, n, -, h⟩
    · exact hnil
    · cases hempty.symm.trans h
    · cases hempty.symm.trans h
  · rintro rfl
    rfl

theorem ofEntries?_eq_danglingTarget_iff {i n len : Nat} :
    ofEntries? es = .error (.danglingTarget i n len) ↔ len = es.length ∧ FirstFault es i n := by
  constructor
  · intro hdangling
    rcases ofEntries?_cases es with ⟨-, h⟩ | ⟨-, -, t, h⟩ | ⟨j, m, hfault, h⟩
    · cases hdangling.symm.trans h
    · cases hdangling.symm.trans h
    · cases hdangling.symm.trans h
      exact ⟨rfl, hfault⟩
  · rintro ⟨rfl, hfault⟩
    obtain ⟨e, he, hm⟩ := hfault.misses
    rcases ofEntries?_cases es with ⟨rfl, -⟩ | ⟨-, hall, -⟩ | ⟨j, m, hfault', h⟩
    · cases he
    · exact absurd (hall e (List.mem_of_getElem? he)) hm.not_inRange
    · obtain ⟨rfl, rfl⟩ := hfault.unique hfault'
      exact h

theorem value?_build (es : List (Entry C T Ctx)) : (build es).value? = some (ofEntries? es) := by
  cases h : ofEntries? es with
  | ok t => simp [build, h]
  | error x => cases x <;> simp [build, h, Record.ofError?]

/-- A list makes a table exactly if it is not empty and all its links are in range, and the table
lists the entries it was made of. The empty list is turned down as such, and any other list for its
first fault. -/
theorem validation_reports_first_fault (es : List (Entry C T Ctx)) :
    (build es).value? = some (ofEntries? es) ∧
      ((∃ t, ofEntries? es = .ok t) ↔ es ≠ [] ∧ ∀ e ∈ es, e.InRange es.length) ∧
      (∀ t, ofEntries? es = .ok t → t.entries = es) ∧
      (ofEntries? es = .error .emptyTable ↔ es = []) ∧
      (∀ i n len, ofEntries? es = .error (.danglingTarget i n len) ↔
        len = es.length ∧ FirstFault es i n) ∧
      (es ≠ [] → (∃ e ∈ es, ¬ e.InRange es.length) →
        ∃ i n, ofEntries? es = .error (.danglingTarget i n es.length)) := by
  refine ⟨value?_build es, exists_ofEntries?_iff, fun t => entries_eq_of_ofEntries?,
    ofEntries?_eq_emptyTable_iff, fun i n len => ofEntries?_eq_danglingTarget_iff, ?_⟩
  rintro hne ⟨e, he, hout⟩
  rcases ofEntries?_cases es with ⟨hnil, -⟩ | ⟨-, hall, -⟩ | ⟨i, n, -, h⟩
  · exact absurd hnil hne
  · exact absurd (hall e he) hout
  · exact ⟨i, n, h⟩

def misled : List (Entry (ArrayCursor Char) Char Unit) :=
  [.pass (.index 1) .terminal .always, .accept (.index 2) (.index 5) .always,
   .pass (.index 7) (.index 8) .always]

theorem validation_reports_first_fault_misled :
    FirstFault misled 1 5 ∧ ofEntries? misled = .error (.danglingTarget 1 5 3) ∧
      (∃ i n, ofEntries? misled = .error (.danglingTarget i n misled.length)) ∧
      ∃ t : Table (ArrayCursor Char) Char Unit,
        ofEntries? Abnf.alphaEntries = .ok t ∧ t.entries = Abnf.alphaEntries := by
  have hfault : FirstFault misled 1 5 := by
    refine ⟨⟨_, rfl, by decide, .inr ⟨?_, rfl⟩⟩, fun j hj e he => ?_⟩
    · rintro n ⟨⟩
      decide
    · obtain rfl : j = 0 := by omega
      cases he
      exact ⟨by rintro n ⟨⟩; decide, nofun⟩
  obtain ⟨-, -, -, -, hdangling, hother⟩ := validation_reports_first_fault misled
  have hout : ∃ e ∈ misled, ¬ e.InRange misled.length := by
    obtain ⟨e, he, hm⟩ := hfault.misses
    exact ⟨e, List.mem_of_getElem? he, hm.not_inRange⟩
  let letters : List (Entry (ArrayCursor Char) Char Unit) := Abnf.alphaEntries
  obtain ⟨-, -, hentries, -⟩ := validation_reports_first_fault letters
  exact ⟨hfault, (hdangling 1 5 3).mpr ⟨rfl, hfault⟩, hother (List.cons_ne_nil _ _) hout,
    Abnf.alpha, rfl, hentries _ rfl⟩

end Table

end TableAutomata
