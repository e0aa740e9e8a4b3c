import Mathlib.Logic.Relation
import TableAutomata.Proofs.Simulation

/-! Tables with one behaviour. A run is settled by the entries it can reach and by how they are
linked. The numbers of the entries, entries out of reach, copies of entries and the auxiliary numbers
make no difference. -/

namespace TableAutomata

open Recording (Ends)

variable {C T Ctx : Type}

namespace Link

variable {m n : Nat}

def map (f : Fin m → Fin n) (l : Link m) : Link n :=
  ⟨l.onSuccess.map f, l.onFailure.map f, l.accepting, l.auxA, l.auxB⟩

@[simp] theorem next_map (f : Fin m → Fin n) (l : Link m) (accepted : Bool) :
    (l.map f).next accepted = (l.next accepted).map f := by
  cases accepted <;> rfl

end Link

namespace Table

def Leads (t : Table C T Ctx) (i j : Fin t.size) : Prop :=
  ∃ accepted, (t.link i).next accepted = some j

def Reachable (t : Table C T Ctx) : Fin t.size → Fin t.size → Prop :=
  Relation.ReflTransGen t.Leads

/-- The table of `n` entries whose entry `k` is entry `pick k` of this one, with the links renamed. -/
def renumber (t : Table C T Ctx) {n : Nat} (f : Fin t.size → Fin n) (pick : Fin n → Fin t.size) :
    Table C T Ctx where
  size := n
  size_pos := (f t.first).pos
  link k := (t.link (pick k)).map f
  matcher k := t.matcher (pick k)

/-- Entry `j` says what entry `i` says, if entries are told apart only by their new numbers. -/
structure Copies (t : Table C T Ctx) {n : Nat} (f : Fin t.size → Fin n) (i j : Fin t.size) :
    Prop where
  matcher : t.matcher i = t.matcher j
  accepting : (t.link i).accepting = (t.link j).accepting
  next : ∀ accepted, ((t.link i).next accepted).map f = ((t.link j).next accepted).map f

end Table

inductive Matcher.SameButAux : Matcher C T Ctx → Matcher C T Ctx → Prop where
  | refl (m : Matcher C T Ctx) : SameButAux m m
  | table {size : Nat} {link : Fin size → Link size} {matcher matcher' : Fin size → Matcher C T Ctx}
      (start : Fin size) (auxA auxB : Fin size → Nat) :
      (∀ i, SameButAux (matcher i) (matcher' i)) →
      SameButAux (.nested link matcher start)
        (.nested (fun i => { link i with auxA := auxA i, auxB := auxB i }) matcher' start)

variable [Cursor C T] [BEq T] [LE T] [DecidableLE T]

/-- Whatever the place, the bound and the context, the two yield the same or nothing. -/
def Matcher.Interchangeable (m n : Matcher C T Ctx) : Prop :=
  ∀ ctx bound c o, m.Yields ctx bound c o ↔ n.Yields ctx bound c o

namespace Table

/-- Runs of the one table and of the other end together, with the same outcome. -/
def RunsAlike (t : Table C T Ctx) (s : Fin t.size) (t' : Table C T Ctx) (s' : Fin t'.size) : Prop :=
  ∀ ctx bound c o, Ends (fun visits => t.run s visits ctx bound c) o ↔
    Ends (fun visits => t'.run s' visits ctx bound c) o

/-- Along `f` the entries in reach of `s` become entries with the same matcher, or one that does as
well, that are accepting alike and have corresponding links. -/
structure Relabels (t t' : Table C T Ctx) (s : Fin t.size) (f : Fin t.size → Fin t'.size) :
    Prop where
  matcher : ∀ i, t.Reachable s i → (t.matcher i).Interchangeable (t'.matcher (f i))
  accepting : ∀ i, t.Reachable s i → (t.link i).accepting = (t'.link (f i)).accepting
  next : ∀ i, t.Reachable s i → ∀ accepted,
    (t'.link (f i)).next accepted = ((t.link i).next accepted).map f

end Table

namespace Matcher.Interchangeable

variable {m n : Matcher C T Ctx}

theorem refl (m : Matcher C T Ctx) : Interchangeable m m :=
  fun _ _ _ _ => Iff.rfl

theorem symm (h : m.Interchangeable n) : n.Interchangeable m :=
  fun ctx bound c o => (h ctx bound c o).symm

theorem simulated (h : m.Interchangeable n) (ctx : Ctx) (bound : C) :
    Simulated Eq Eq (m.Yields ctx bound) (n.Yields ctx bound) := by
  rintro c _ rfl o ho
  exact ⟨o, (h ctx bound c o).mp ho, rfl, fun _ => rfl, fun _ => rfl⟩

end Matcher.Interchangeable

namespace Table

variable {t t' : Table C T Ctx} {s : Fin t.size} {f : Fin t.size → Fin t'.size}

theorem Relabels.corresponding (h : t.Relabels t' s f) :
    Corresponding (fun i j => ∃ k, t.Reachable s k ∧ k.val = i ∧ (f k).val = j)
      Matcher.Interchangeable t.entries t'.entries := by
  rintro _ _ ⟨k, hk, rfl, rfl⟩
  rw [getElem?_entries_fin, getElem?_entries_fin]
  refine .some ⟨fun accepted => ?_, h.accepting k hk, h.matcher k hk⟩
  rw [next_entry, next_entry, h.next k hk accepted]
  cases hn : (t.link k).next accepted with
  | none => exact .terminal
  | some k' => exact .index ⟨k', hk.tail ⟨accepted, hn⟩, rfl, rfl⟩

theorem Relabels.interchangeable (h : t.Relabels t' s f) :
    (t.toMatcher s).Interchangeable (t'.toMatcher (f s)) := by
  intro ctx bound c o
  have hes := h.corresponding
  have hs : ∃ k, t.Reachable s k ∧ k.val = s.val ∧ (f k).val = (f s).val := ⟨s, .refl, rfl, rfl⟩
  have hto : Simulated Eq Eq ((t.toMatcher s).Yields ctx bound)
      ((t'.toMatcher (f s)).Yields ctx bound) :=
    simulated_of_corresponding (fun _ _ hmn => hmn.simulated ctx bound) rfl hes hs
  have hfrom : Simulated Eq Eq ((t'.toMatcher (f s)).Yields ctx bound)
      ((t.toMatcher s).Yields ctx bound) :=
    simulated_of_corresponding (fun _ _ hmn => hmn.symm.simulated ctx bound) rfl hes.flip hs
  exact ⟨hto.imp_of_eq, hfrom.imp_of_eq⟩

theorem relabels_renumber {n : Nat} {g : Fin t.size → Fin n} {pick : Fin n → Fin t.size}
    (h : ∀ i, t.Reachable s i → t.Copies g i (pick (g i))) : t.Relabels (t.renumber g pick) s g where
  matcher i hi := by
    have hm : t.matcher i = (t.renumber g pick).matcher (g i) := (h i hi).matcher
    rw [hm]
    exact .refl _
  accepting i hi := (h i hi).accepting
  next i hi accepted :=
    (Link.next_map g (t.link (pick (g i))) accepted).trans ((h i hi).next accepted).symm

theorem relabels_of_entries {s' : Fin t'.size} (hs : s.val = s'.val)
    (h : ∀ i, t.Reachable s i → t'.entries[i.val]? = t.entries[i.val]?) :
    ∃ f, t.Relabels t' s f ∧ f s = s' := by
  have hlt : ∀ i, t.Reachable s i → i.val < t'.size := by
    intro i hi
    have he := h i hi
    rw [getElem?_entries_fin] at he
    exact (getElem?_entries.mp he).1
  let f (i : Fin t.size) : Fin t'.size := if hi : i.val < t'.size then ⟨i, hi⟩ else s'
  have hf : ∀ i, t.Reachable s i → (f i).val = i.val := by
    intro i hi
    simp [f, hlt i hi]
  have hentry : ∀ i, t.Reachable s i → t.entry i = t'.entry (f i) := by
    intro i hi
    have he := h i hi
    rw [← hf i hi, getElem?_entries_fin, hf i hi, getElem?_entries_fin] at he
    exact (Option.some.inj he).symm
  refine ⟨f, ⟨fun i hi => ?_, fun i hi => ?_, fun i hi accepted => ?_⟩, ?_⟩
  · have hm : t.matcher i = t'.matcher (f i) := congrArg Entry.matcher (hentry i hi)
    rw [hm]
    exact .refl _
  · exact congrArg Entry.accepting (hentry i hi)
  · have hn := congrArg (fun e => Entry.next e accepted) (hentry i hi)
    simp only [next_entry] at hn
    cases hl : (t.link i).next accepted with
    | none =>
      rw [hl] at hn
      exact Target.ofLink_injective hn.symm
    | some k =>
      have hk : (f k).val = k.val := hf k (hi.tail ⟨accepted, hl⟩)
      have hsame : Target.ofLink (some (f k)) = Target.ofLink (some k) := congrArg Target.index hk
      rw [hl, ← hsame] at hn
      exact Target.ofLink_injective hn.symm
  · exact Fin.ext ((hf s .refl).trans hs)

end Table

theorem Matcher.SameButAux.interchangeable {m n : Matcher C T Ctx} (h : m.SameButAux n) :
    m.Interchangeable n := by
  induction h with
  | refl m => exact .refl m
  | @table size link matcher matcher' start auxA auxB _ ih =>
    let t : Table C T Ctx := ⟨size, start.pos, link, matcher⟩
    let t' : Table C T Ctx :=
      ⟨size, start.pos, fun i => { link i with auxA := auxA i, auxB := auxB i }, matcher'⟩
    have hid : t.Relabels t' start id :=
      { matcher := fun i _ => ih i
        accepting := fun _ _ => rfl
        next := fun i _ accepted => by cases accepted <;> simp [t, t', Link.next] }
    exact hid.interchangeable

/-- Tables that correspond along a map of the entries in reach run alike. So entries may be permuted
together with their links, entries out of reach may be added, taken away or changed, copies may be
merged into one entry, and auxiliary numbers may be changed at any depth. -/
theorem relabelled_tables_run_alike :
    (∀ (t t' : Table C T Ctx) (s : Fin t.size) (f : Fin t.size → Fin t'.size),
      t.Relabels t' s f → t.RunsAlike s t' (f s)) ∧
    (∀ (t : Table C T Ctx) (σ : Fin t.size ≃ Fin t.size) (s : Fin t.size),
      t.RunsAlike s (t.renumber σ σ.symm) (σ s)) ∧
    (∀ (t t' : Table C T Ctx) (s : Fin t.size) (s' : Fin t'.size), s.val = s'.val →
      (∀ i, t.Reachable s i → t'.entries[i.val]? = t.entries[i.val]?) → t.RunsAlike s t' s') ∧
    (∀ (t : Table C T Ctx) (n : Nat) (f : Fin t.size → Fin n) (pick : Fin n → Fin t.size)
      (s : Fin t.size), (∀ i, t.Reachable s i → t.Copies f i (pick (f i))) →
      t.RunsAlike s (t.renumber f pick) (f s)) ∧
    ∀ (t t' : Table C T Ctx) (s : Fin t.size) (s' : Fin t'.size),
      (t.toMatcher s).SameButAux (t'.toMatcher s') → t.RunsAlike s t' s' := by
  refine ⟨fun t t' s f h => h.interchangeable, fun t σ s => ?_, fun t t' s s' hs h => ?_,
    fun t n f pick s h => ?_, fun t t' s s' h => h.interchangeable⟩
  · have hcopies : ∀ i, t.Reachable s i → t.Copies σ i (σ.symm (σ i)) := by
      intro i _
      rw [Equiv.symm_apply_apply]
      exact ⟨rfl, rfl, fun _ => rfl⟩
    exact (Table.relabels_renumber hcopies).interchangeable
  · obtain ⟨f, hf, rfl⟩ := Table.relabels_of_entries hs h
    exact hf.interchangeable
  · exact (Table.relabels_renumber h).interchangeable

def unrolledDigits : Table (ArrayCursor Char) Char Unit :=
  .ofEntries
    [.accept (.index 1) .terminal Abnf.digit.toStep,
     .accept (.index 2) .terminal Abnf.digit.toStep,
     .accept (.index 1) .terminal Abnf.digit.toStep,
     .pass (.index 3) (.index 0) .always] (List.cons_ne_nil _ _)

theorem relabelled_tables_run_alike_digits :
    unrolledDigits.Relabels digitsTable unrolledDigits.first (fun _ => digitsTable.first) ∧
      Ends (fun visits => unrolledDigits.run unrolledDigits.first visits ()
        (ArrayCursor.stop 0 #['1', '9', 'x']) (.start 0 #['1', '9', 'x']))
        (.accept (Cursor.advanced 2 (ArrayCursor.start 0 #['1', '9', 'x']))) := by
  have hstep : ∀ i j : Fin unrolledDigits.size, i.val < 3 → ∀ accepted,
      (unrolledDigits.link i).next accepted = some j → j.val < 3 := by decide
  have hreach : ∀ i, unrolledDigits.Reachable unrolledDigits.first i → i.val < 3 := by
    intro i hi
    induction hi with
    | refl => decide
    | tail _ hlead ih =>
      obtain ⟨accepted, hn⟩ := hlead
      exact hstep _ _ ih accepted hn
  have hlink : ∀ i : Fin unrolledDigits.size, i.val < 3 → (unrolledDigits.link i).accepting = true ∧
      ∀ accepted, (digitsTable.link digitsTable.first).next accepted =
        ((unrolledDigits.link i).next accepted).map fun _ => digitsTable.first := by decide
  have hmatcher : ∀ i : Fin 4, i.val < 3 →
      unrolledDigits.matcher i = digitsTable.matcher digitsTable.first := by
    intro i hi
    obtain rfl | rfl | rfl : i = 0 ∨ i = 1 ∨ i = 2 := by omega
    all_goals rfl
  have hrel : unrolledDigits.Relabels digitsTable unrolledDigits.first
      fun _ => digitsTable.first := by
    refine ⟨fun i hi => ?_, fun i hi => (hlink i (hreach i hi)).1,
      fun i hi => (hlink i (hreach i hi)).2⟩
    rw [hmatcher i (hreach i hi)]
    exact .refl _
  exact ⟨hrel, (relabelled_tables_run_alike.1 _ _ _ _ hrel _ _ _ _).mpr ⟨3, rfl⟩⟩

end TableAutomata
