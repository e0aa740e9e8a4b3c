import TableAutomata.Proofs.Level
import TableAutomata.Proofs.ScanSimulation

/-! Where a failing step puts its rejection steers nothing. Two hierarchies of tables of one shape,
whose steps accept alike, try the same entries at the same places, at every depth, and accept alike.
Only the places of their rejections may differ. -/

namespace TableAutomata

open Recording (Ends)

variable {C T Ctx K : Type}

structure Link.SameWays {n : Nat} (l l' : Link n) : Prop where
  next : ∀ accepted, l.next accepted = l'.next accepted
  accepting : l.accepting = l'.accepting

/-- Both accept, at one place, or both reject, wherever that is. -/
abbrev Outcome.AcceptAlike (o p : Outcome C) : Prop :=
  o.Agree Eq (fun _ _ => True) p

abbrev VisitsAlike (vs ws : List (Visit C)) : Prop :=
  List.Forall₂ (Visit.Agree Eq Eq fun _ _ => True) vs ws

section

variable [Cursor C T] [BEq T] [LE T] [DecidableLE T]

structure Matcher.AcceptAlike (m n : Matcher C T Ctx) : Prop where
  left : m.IsStep
  right : n.IsStep
  outcome : ∀ (ctx : Ctx) (bound c : C) (o p : Outcome C), m.Yields ctx bound c o →
    n.Yields ctx bound c p → o.AcceptAlike p

/-- Tables nest alike, with links that lead the same ways, and the steps in them accept alike. -/
inductive Matcher.SameShape : Matcher C T Ctx → Matcher C T Ctx → Prop where
  | step {m n : Matcher C T Ctx} : m.AcceptAlike n → SameShape m n
  | table {size : Nat} {link link' : Fin size → Link size}
      {matcher matcher' : Fin size → Matcher C T Ctx} (start : Fin size) :
      (∀ i, (link i).SameWays (link' i)) → (∀ i, SameShape (matcher i) (matcher' i)) →
      SameShape (.nested link matcher start) (.nested link' matcher' start)

def Table.SameShape (t t' : Table C T Ctx) : Prop :=
  Corresponding Eq Matcher.SameShape t.entries t'.entries

structure Rule.SameShape (r r' : Rule C T Ctx K) : Prop where
  kind : r.kind = r'.kind
  priority : r.priority = r'.priority
  table : r.recognizer.table.SameShape r'.recognizer.table
  start : r.recognizer.start.val = r'.recognizer.start.val

variable {m n : Matcher C T Ctx} {t t' : Table C T Ctx}

theorem Matcher.acceptAlike_equals_seq (token : T) :
    AcceptAlike (.equals token : Matcher C T Ctx) (.seq [token]) where
  left := trivial
  right := trivial
  outcome ctx bound c o p ho hp := by
    obtain rfl := (yields_iff_of_pure fun _ => rfl).mp ho
    obtain rfl := (yields_iff_of_pure fun _ => rfl).mp hp
    cases hn : Cursor.nextBefore? bound c with
    | none =>
      simp only [Match.equals, Match.seq, Match.behind?, hn]
      exact ⟨rfl, nofun, fun _ => trivial⟩
    | some xd =>
      obtain ⟨x, d⟩ := xd
      cases hx : x == token with
      | true =>
        simp only [Match.equals, Match.seq, Match.behind?, hn, hx]
        exact ⟨rfl, fun _ => rfl, fun _ => trivial⟩
      | false =>
        simp only [Match.equals, Match.seq, Match.behind?, hn, hx]
        exact ⟨rfl, nofun, fun _ => trivial⟩

theorem Matcher.AcceptAlike.symm (h : m.AcceptAlike n) : n.AcceptAlike m where
  left := h.right
  right := h.left
  outcome ctx bound c o p ho hp := by
    have hpo := h.outcome ctx bound c p o hp ho
    have he := hpo.accepted_eq
    exact ⟨he.symm, fun ha => (hpo.accepted (he.trans ha)).symm, fun _ => trivial⟩

theorem Matcher.SameShape.refl (m : Matcher C T Ctx) : m.SameShape m := by
  induction m with
  | nested link matcher start ih => exact .table start (fun _ => ⟨fun _ => rfl, rfl⟩) ih
  | _ =>
    refine .step ⟨trivial, trivial, fun ctx bound c o p ho hp => ?_⟩
    obtain rfl := ho.unique hp
    exact ⟨rfl, fun _ => rfl, fun _ => trivial⟩

theorem Matcher.SameShape.symm (h : m.SameShape n) : n.SameShape m := by
  induction h with
  | step h => exact .step h.symm
  | table start hlink _ ih =>
    exact .table start (fun i => ⟨fun a => ((hlink i).next a).symm, (hlink i).accepting.symm⟩) ih

omit [Cursor C T] [BEq T] [LE T] [DecidableLE T] in
theorem Table.corresponding_of_sameWays {M : Matcher C T Ctx → Matcher C T Ctx → Prop} {size : Nat}
    {size_pos size_pos' : 0 < size} {link link' : Fin size → Link size}
    {matcher matcher' : Fin size → Matcher C T Ctx} (hlink : ∀ i, (link i).SameWays (link' i))
    (hm : ∀ i, M (matcher i) (matcher' i)) :
    Corresponding Eq M (entries ⟨size, size_pos, link, matcher⟩)
      (entries ⟨size, size_pos', link', matcher'⟩) := by
  rintro i _ rfl
  by_cases hi : i < size
  · have hl := getElem?_entries_fin (t := ⟨size, size_pos, link, matcher⟩) ⟨i, hi⟩
    have hr := getElem?_entries_fin (t := ⟨size, size_pos', link', matcher'⟩) ⟨i, hi⟩
    rw [hl, hr]
    refine .some ⟨fun accepted => ?_, (hlink ⟨i, hi⟩).accepting, hm ⟨i, hi⟩⟩
    rw [next_entry, next_entry, (hlink ⟨i, hi⟩).next accepted]
    exact Target.Alike.refl _
  · simp [entries, hi]

theorem Table.SameShape.symm (h : t.SameShape t') : t'.SameShape t := by
  have hflip := (Corresponding.flip h).imp fun _ _ hmn => hmn.symm
  have hEq : (fun j i : Nat => i = j) = Eq := by
    funext j i
    exact propext eq_comm
  rwa [hEq] at hflip

theorem Matcher.SameShape.exists_table {start : Fin t.size} (h : (t.toMatcher start).SameShape n) :
    ∃ (t' : Table C T Ctx) (start' : Fin t'.size), n = t'.toMatcher start' ∧ t.SameShape t' ∧
      start.val = start'.val := by
  obtain ⟨size, size_pos, link, matcher⟩ := t
  cases h with
  | step h => exact h.left.elim
  | @table _ _ link' _ matcher' _ hlink hm =>
    exact ⟨⟨size, size_pos, link', matcher'⟩, start, rfl,
      Table.corresponding_of_sameWays hlink hm, rfl⟩

variable {ctx : Ctx} {bound c : C}

theorem Matcher.SameShape.simulated (h : m.SameShape n) :
    Simulated Eq (fun _ _ => True) (m.Yields ctx bound) (n.Yields ctx bound) := by
  induction h with
  | step h =>
    rintro c _ rfl o ho
    obtain ⟨p, hp⟩ := h.right.exists_yields ctx bound c
    exact ⟨p, hp, h.outcome ctx bound c o p ho hp⟩
  | @table size link link' matcher matcher' start hlink _ ih =>
    let M (m n : Matcher C T Ctx) : Prop :=
      Simulated Eq (fun _ _ => True) (m.Yields ctx bound) (n.Yields ctx bound)
    have hes : Corresponding Eq M (Table.entries ⟨size, start.pos, link, matcher⟩)
        (Table.entries ⟨size, start.pos, link', matcher'⟩) :=
      Table.corresponding_of_sameWays hlink ih
    exact Table.simulated_of_corresponding (fun _ _ h => h) trivial hes rfl

theorem Table.SameShape.simulated (h : t.SameShape t') {start : Fin t.size} {start' : Fin t'.size}
    (hs : start.val = start'.val) :
    Simulated Eq (fun _ _ => True) ((t.toMatcher start).Yields ctx bound)
      ((t'.toMatcher start').Yields ctx bound) :=
  Table.simulated_of_corresponding (fun _ _ h => h.simulated) trivial h hs

namespace Level

/-- Levels of two runs that lie equally deep, entered from entries of one number at one place. -/
inductive Beside (ctx : Ctx) (bound : C) (top top' : Level C T Ctx) :
    Level C T Ctx → Level C T Ctx → Prop where
  | top : Beside ctx bound top top' top top'
  | nested {l l' : Level C T Ctx} {i : Fin l.table.size} {i' : Fin l'.table.size} {c : C}
      {t t' : Table C T Ctx} {s : Fin t.size} {s' : Fin t'.size} :
      Beside ctx bound top top' l l' → i.val = i'.val →
      l.Tries ctx bound i c → l.table.matcher i = t.toMatcher s →
      l'.Tries ctx bound i' c → l'.table.matcher i' = t'.toMatcher s' →
      Beside ctx bound top top' ⟨t, s, c⟩ ⟨t', s', c⟩

structure SameShape (l l' : Level C T Ctx) : Prop where
  table : l.table.SameShape l'.table
  start : l.start.val = l'.start.val
  cursor : l.cursor = l'.cursor

/-- Whatever visits the one makes, ended or not, the other makes the same, and is then at the same
entry and place. -/
def Follows (ctx : Ctx) (bound : C) (l l' : Level C T Ctx) : Prop :=
  ∀ vs s d, Trail l.table.entries (Matcher.Yields ctx bound) (.index l.start) l.cursor vs s d →
    ∃ ws, Trail l'.table.entries (Matcher.Yields ctx bound) (.index l'.start) l'.cursor ws s d ∧
      VisitsAlike vs ws

variable {top top' l l' : Level C T Ctx}

theorem SameShape.symm (h : l.SameShape l') : l'.SameShape l :=
  ⟨h.table.symm, h.start.symm, h.cursor.symm⟩

theorem SameShape.follows (h : l.SameShape l') : l.Follows ctx bound l' := by
  intro vs s d hvs
  obtain ⟨ws, u, d', hws, hu, rfl, hall⟩ :=
    hvs.simulate h.table (fun _ _ h => h.simulated) (.index h.start) h.cursor
  cases hu with
  | terminal => exact ⟨ws, hws, hall⟩
  | index hij =>
    subst hij
    exact ⟨ws, hws, hall⟩

theorem SameShape.exists_nested (h : l.SameShape l') {i : Fin l.table.size} {c : C}
    (hi : l.Tries ctx bound i c) {t : Table C T Ctx} {s : Fin t.size}
    (hm : l.table.matcher i = t.toMatcher s) :
    ∃ (i' : Fin l'.table.size) (t' : Table C T Ctx) (s' : Fin t'.size), i.val = i'.val ∧
      l'.Tries ctx bound i' c ∧ l'.table.matcher i' = t'.toMatcher s' ∧ t.SameShape t' ∧
      s.val = s'.val := by
  obtain ⟨vs, hvs⟩ := hi
  obtain ⟨ws, hws, -⟩ := h.follows vs _ _ hvs
  obtain ⟨f, hf, hef⟩ := h.table.exists_entry rfl (Table.getElem?_entries_fin i)
  obtain ⟨hlt, rfl⟩ := Table.getElem?_entries.mp hf
  have hshape : (t.toMatcher s).SameShape (l'.table.matcher ⟨i, hlt⟩) := hm ▸ hef.matcher
  obtain ⟨t', s', hm', ht, hs⟩ := hshape.exists_table
  exact ⟨⟨i, hlt⟩, t', s', rfl, ⟨ws, hws⟩, hm', ht, hs⟩

theorem Within.exists_beside (h : Within ctx bound top l) (ht : top.SameShape top') :
    ∃ l', Beside ctx bound top top' l l' ∧ l.SameShape l' := by
  induction h with
  | top => exact ⟨top', .top, ht⟩
  | nested _ hi hm ih =>
    obtain ⟨l', hl, hshape⟩ := ih
    obtain ⟨i', t', s', he, hi', hm', ht', hs'⟩ := hshape.exists_nested hi hm
    exact ⟨⟨t', s', _⟩, .nested hl he hi hm hi' hm', ht', hs', rfl⟩

theorem Beside.symm (h : Beside ctx bound top top' l l') : Beside ctx bound top' top l' l := by
  induction h with
  | top => exact .top
  | nested _ he hi hm hi' hm' ih => exact .nested ih he.symm hi' hm' hi hm

theorem Beside.sameShape (h : Beside ctx bound top top' l l') (ht : top.SameShape top') :
    l.SameShape l' := by
  induction h with
  | top => exact ht
  | @nested l l' i i' c t t' s s' _ he _ hm _ hm' ih =>
    obtain ⟨f, hf, hef⟩ := ih.table.exists_entry he (Table.getElem?_entries_fin i)
    obtain rfl := Option.some.inj ((Table.getElem?_entries_fin i').symm.trans hf)
    have hshape : (l.table.matcher i).SameShape (l'.table.matcher i') := hef.matcher
    rw [hm, hm'] at hshape
    obtain ⟨t₂, s₂, heq, ht₂, hs₂⟩ := hshape.exists_table
    have hsame := eq_of_toMatcher_eq heq c
    cases hsame
    exact ⟨ht₂, hs₂, rfl⟩

end Level

theorem Scanner.paired_of_sameShape {rules rules' : List (Rule C T Ctx K)}
    (h : List.Forall₂ Rule.SameShape rules rules') (ctx : Ctx) (bound c : C) :
    (ofRules rules ctx bound c).Paired Eq (fun _ _ => True) (ofRules rules' ctx bound c) where
  rules := by
    refine Rule.Paired.byPriority (h.imp fun r r' hr => ?_)
    exact ⟨hr.kind, hr.priority, hr.table.simulated hr.start⟩
  bound := rfl
  cursor := rfl
  stuck := rfl

/-- Runs over two tables of one shape end together, accept alike, and at one place if they accept.
Every level of the one lies beside a level of the other, and levels side by side try the same entries
at the same places, be it that they end or not. And scanners with rules of one shape answer every
sequence of calls alike. -/
theorem rejected_places_steer_nothing (ctx : Ctx) (bound c : C) :
    (∀ (t t' : Table C T Ctx) (start : Fin t.size) (start' : Fin t'.size), t.SameShape t' →
      start.val = start'.val →
      let top : Level C T Ctx := ⟨t, start, c⟩
      let top' : Level C T Ctx := ⟨t', start', c⟩
      ((∃ o, Ends (fun visits => t.run start visits ctx bound c) o) ↔
          ∃ o, Ends (fun visits => t'.run start' visits ctx bound c) o) ∧
        (∀ o o', Ends (fun visits => t.run start visits ctx bound c) o →
          Ends (fun visits => t'.run start' visits ctx bound c) o' →
            o.accepted = o'.accepted ∧ (o.accepted = true → o.position = o'.position)) ∧
        (∀ l, Level.Within ctx bound top l → ∃ l', Level.Beside ctx bound top top' l l') ∧
        (∀ l', Level.Within ctx bound top' l' → ∃ l, Level.Beside ctx bound top top' l l') ∧
        ∀ l l', Level.Beside ctx bound top top' l l' →
          l.start.val = l'.start.val ∧ l.cursor = l'.cursor ∧
            l.Follows ctx bound l' ∧ l'.Follows ctx bound l) ∧
    ∀ rules rules' : List (Rule C T Ctx K), List.Forall₂ Rule.SameShape rules rules' →
      ∀ xs, (∃ last, (Scanner.ofRules rules ctx bound c).Calls xs last) ↔
        ∃ last, (Scanner.ofRules rules' ctx bound c).Calls xs last := by
  constructor
  · intro t t' start start' ht hs top top'
    have hshape : top.SameShape top' := ⟨ht, hs, rfl⟩
    have hsim : Simulated Eq (fun _ _ => True) ((t.toMatcher start).Yields ctx bound)
        ((t'.toMatcher start').Yields ctx bound) := ht.simulated hs
    have hsim' : Simulated Eq (fun _ _ => True) ((t'.toMatcher start').Yields ctx bound)
        ((t.toMatcher start).Yields ctx bound) := ht.symm.simulated hs.symm
    obtain ⟨hends, hagree⟩ :=
      hsim.together hsim' (fun _ _ _ hp hp' => hp.unique hp') (c := c) rfl rfl
    refine ⟨hends, fun o o' ho ho' => ?_, fun l hl => ?_, fun l' hl' => ?_, fun l l' hl => ?_⟩
    · have hoo := hagree o o' ho ho'
      exact ⟨hoo.accepted_eq, hoo.accepted⟩
    · obtain ⟨l', hl', -⟩ := hl.exists_beside hshape
      exact ⟨l', hl'⟩
    · obtain ⟨l, hl, -⟩ := hl'.exists_beside hshape.symm
      exact ⟨l, hl.symm⟩
    · have hll := hl.sameShape hshape
      exact ⟨hll.start, hll.cursor, hll.follows, hll.symm.follows⟩
  · intro rules rules' h xs
    have hs := Scanner.paired_of_sameShape h ctx bound c
    have h' : List.Forall₂ Rule.SameShape rules' rules := h.flip.imp fun r r' hr =>
      ⟨hr.kind.symm, hr.priority.symm, hr.table.symm, hr.start.symm⟩
    have hs' := Scanner.paired_of_sameShape h' ctx bound c
    constructor
    · rintro ⟨last, hxs⟩
      exact hs.calls_eq hxs
    · rintro ⟨last, hxs⟩
      exact hs'.calls_eq hxs

end

def fractionWithin (point : Matcher (ArrayCursor Char) Char Unit) :
    Table (ArrayCursor Char) Char Unit :=
  let fraction : Table (ArrayCursor Char) Char Unit :=
    .ofEntries
      [.pass (.index 1) .terminal point,
       .accept .terminal .terminal Abnf.digit.toStep] (List.cons_ne_nil _ _)
  .ofEntries [.accept .terminal .terminal fraction.toStep] (List.cons_ne_nil _ _)

theorem fractionWithin_sameShape {p q : Matcher (ArrayCursor Char) Char Unit} (h : p.AcceptAlike q) :
    (fractionWithin p).SameShape (fractionWithin q) := by
  have hfraction : ∀ i : Fin 1, ((fractionWithin p).matcher i).SameShape
      ((fractionWithin q).matcher i) := by
    intro i
    match i with
    | 0 =>
      refine .table ⟨0, Nat.two_pos⟩ (fun i => ?_) fun i => ?_
      · match i with
        | 0 => exact ⟨fun _ => rfl, rfl⟩
        | 1 => exact ⟨fun _ => rfl, rfl⟩
      · match i with
        | 0 => exact .step h
        | 1 => exact .refl _
  have hlink : ∀ i : Fin 1, ((fractionWithin p).link i).SameWays ((fractionWithin q).link i) := by
    intro i
    match i with
    | 0 => exact ⟨fun _ => rfl, rfl⟩
  exact Table.corresponding_of_sameWays hlink hfraction

theorem rejected_places_steer_nothing_fraction :
    (fractionWithin (.equals '.')).SameShape (fractionWithin (.seq ['.'])) ∧
      Ends (fun visits => (fractionWithin (.equals '.')).run ⟨0, by decide⟩ visits ()
        (ArrayCursor.stop 0 #['x']) (.start 0 #['x'])) (.reject (.start 0 #['x'])) ∧
      (∃ o, Ends (fun visits => (fractionWithin (.seq ['.'])).run ⟨0, by decide⟩ visits ()
        (ArrayCursor.stop 0 #['x']) (.start 0 #['x'])) o ∧ o.accepted = false) ∧
      ∃ last, (Scanner.ofRules [⟨(), .ofTable ⟨0, fractionWithin (.seq ['.'])⟩, 0⟩] ()
        (ArrayCursor.stop 0 #['x']) (.start 0 #['x'])).Calls
          [some (.error (.noMatch (.start 0 #['x']))), none] last := by
  have hshape := fractionWithin_sameShape (Matcher.acceptAlike_equals_seq '.')
  have hequals : Ends (fun visits => (fractionWithin (.equals '.')).run ⟨0, by decide⟩ visits ()
      (ArrayCursor.stop 0 #['x']) (.start 0 #['x'])) (.reject (.start 0 #['x'])) := ⟨2, rfl⟩
  obtain ⟨hrun, hscan⟩ := rejected_places_steer_nothing (K := Unit) ()
    (ArrayCursor.stop 0 #['x']) (.start 0 #['x'])
  obtain ⟨hends, hagree, -⟩ := hrun _ _ ⟨0, by decide⟩ ⟨0, by decide⟩ hshape rfl
  obtain ⟨o, ho⟩ := hends.mp ⟨_, hequals⟩
  obtain ⟨hacc, -⟩ := hagree _ o hequals ho
  have hrules : List.Forall₂ Rule.SameShape
      [(⟨(), .ofTable ⟨0, fractionWithin (.equals '.')⟩, 0⟩ : Rule _ _ _ Unit)]
      [⟨(), .ofTable ⟨0, fractionWithin (.seq ['.'])⟩, 0⟩] := .cons ⟨rfl, rfl, hshape, rfl⟩ .nil
  have hcalls := (hscan _ _ hrules [some (.error (.noMatch (.start 0 #['x']))), none]).mp
    ⟨_, .cons ⟨2, rfl⟩ (.cons ⟨0, rfl⟩ .nil)⟩
  exact ⟨hshape, hequals, ⟨o, ho, hacc.symm⟩, hcalls⟩

end TableAutomata
