import TableAutomata.Grammar.Abnf
import TableAutomata.Input.TextCursor
import TableAutomata.Proofs.ScanSimulation

/-! Which of several rules gives the lexeme: the one of highest priority, and of those the one given
first. How far a rule matches plays no part, nor does the order of rules of different priorities. -/

namespace TableAutomata

open Recording (Ends)

variable {C T Ctx K : Type}

namespace Rule

variable {r : Rule C T Ctx K} {rules rules' : List (Rule C T Ctx K)}

def Falling (rules : List (Rule C T Ctx K)) : Prop :=
  rules.Pairwise fun r s => s.priority ≤ r.priority

/-- The rules of each priority are the same, in the same order. -/
def SameRanks (rules rules' : List (Rule C T Ctx K)) : Prop :=
  ∀ p : Int, rules.filter (·.priority = p) = rules'.filter (·.priority = p)

theorem SameRanks.symm (h : SameRanks rules rules') : SameRanks rules' rules :=
  fun p => (h p).symm

theorem SameRanks.mem (h : SameRanks rules rules') (hr : r ∈ rules) : r ∈ rules' := by
  have hf : r ∈ rules.filter (·.priority = r.priority) :=
    List.mem_filter.mpr ⟨hr, decide_eq_true rfl⟩
  rw [h r.priority] at hf
  exact (List.mem_filter.mp hf).1

theorem SameRanks.of_perm (h : rules.Perm rules') (hd : (rules.map (·.priority)).Nodup) :
    SameRanks rules rules' := by
  intro p
  have hne : rules.Pairwise fun r s => r.priority ≠ s.priority := List.pairwise_map.mp hd
  have hne' : rules'.Pairwise fun r s => r.priority ≠ s.priority :=
    List.pairwise_map.mp ((h.map _).nodup hd)
  refine List.Perm.eq_of_pairwise ?_ (hne.filter _) (hne'.filter _) (h.filter _)
  intro r s hr hs hrs
  have hrp : r.priority = p := by simpa using (List.mem_filter.mp hr).2
  have hsp : s.priority = p := by simpa using (List.mem_filter.mp hs).2
  exact absurd (hrp.trans hsp.symm) hrs

theorem insert_split (r : Rule C T Ctx K) (h : Falling rules) :
    ∃ above below, rules = above ++ below ∧ insert r rules = above ++ r :: below ∧
      (∀ s ∈ above, r.priority < s.priority) ∧ ∀ s ∈ below, s.priority ≤ r.priority := by
  induction rules with
  | nil => exact ⟨[], [], rfl, rfl, by simp, by simp⟩
  | cons s rest ih =>
    obtain ⟨hs, hrest⟩ := List.pairwise_cons.mp h
    by_cases hle : s.priority ≤ r.priority
    · refine ⟨[], s :: rest, rfl, by simp [insert, hle], by simp, fun q hq => ?_⟩
      rcases List.mem_cons.mp hq with rfl | hq
      · exact hle
      · exact (hs q hq).trans hle
    · obtain ⟨above, below, hsplit, hins, habove, hbelow⟩ := ih hrest
      refine ⟨s :: above, below, by simp [hsplit], by simp [insert, hle, hins], fun q hq => ?_,
        hbelow⟩
      rcases List.mem_cons.mp hq with rfl | hq
      · omega
      · exact habove q hq

theorem falling_insert (r : Rule C T Ctx K) (h : Falling rules) : Falling (insert r rules) := by
  obtain ⟨above, below, rfl, hins, habove, hbelow⟩ := insert_split r h
  obtain ⟨ha, hb, hab⟩ := List.pairwise_append.mp h
  rw [hins]
  refine List.pairwise_append.mpr ⟨ha, List.pairwise_cons.mpr ⟨hbelow, hb⟩, fun s hs q hq => ?_⟩
  rcases List.mem_cons.mp hq with rfl | hq
  · exact Int.le_of_lt (habove s hs)
  · exact hab s hs q hq

theorem falling_byPriority (rules : List (Rule C T Ctx K)) : Falling (byPriority rules) := by
  induction rules with
  | nil => exact .nil
  | cons r rest ih => exact falling_insert r ih

theorem sameRanks_insert (r : Rule C T Ctx K) (h : Falling rules) :
    SameRanks (insert r rules) (r :: rules) := by
  intro p
  obtain ⟨above, below, rfl, hins, habove, -⟩ := insert_split r h
  rw [hins]
  by_cases hp : r.priority = p
  · have hnil : above.filter (·.priority = p) = [] := by
      rw [List.filter_eq_nil_iff]
      intro s hs
      have hlt := habove s hs
      have hne : s.priority ≠ p := by omega
      simpa using hne
    simp [hp, hnil]
  · simp [hp]

theorem sameRanks_byPriority (rules : List (Rule C T Ctx K)) :
    SameRanks (byPriority rules) rules := by
  induction rules with
  | nil => exact fun _ => rfl
  | cons r rest ih =>
    intro p
    calc (insert r (byPriority rest)).filter (·.priority = p)
        = (r :: byPriority rest).filter (·.priority = p) :=
          sameRanks_insert r (falling_byPriority rest) p
      _ = (r :: rest).filter (·.priority = p) := by rw [List.filter_cons, List.filter_cons, ih p]

theorem SameRanks.priority_head_le {rest : List (Rule C T Ctx K)}
    (h : SameRanks rules (r :: rest)) (hr : Falling (r :: rest)) {s : Rule C T Ctx K}
    (hs : s ∈ rules) : s.priority ≤ r.priority := by
  rcases List.mem_cons.mp (h.mem hs) with rfl | hs
  · exact Int.le_refl _
  · exact (List.pairwise_cons.mp hr).1 s hs

theorem SameRanks.of_cons {rest rest' : List (Rule C T Ctx K)}
    (h : SameRanks (r :: rest) (r :: rest')) : SameRanks rest rest' := by
  intro p
  have hp := h p
  by_cases hr : r.priority = p
  · rw [List.filter_cons_of_pos (by simpa using hr), List.filter_cons_of_pos (by simpa using hr)]
      at hp
    exact (List.cons.inj hp).2
  · rwa [List.filter_cons_of_neg (by simpa using hr), List.filter_cons_of_neg (by simpa using hr)]
      at hp

theorem SameRanks.exists_split {ahead behind : List (Rule C T Ctx K)}
    (h : SameRanks (ahead ++ r :: behind) rules) :
    ∃ before after, rules = before ++ r :: after ∧
      ∀ s ∈ before, s.priority = r.priority → s ∈ ahead := by
  have hrank := h r.priority
  rw [List.filter_append, List.filter_cons_of_pos (by simp)] at hrank
  obtain ⟨first, second, rfl, hfirst, hsecond⟩ := List.filter_eq_append_iff.mp hrank.symm
  obtain ⟨between, after, rfl, hbetween, -, -⟩ := List.filter_eq_cons_iff.mp hsecond
  refine ⟨first ++ between, after, by simp, fun s hs hp => ?_⟩
  rcases List.mem_append.mp hs with hs | hs
  · have hsf : s ∈ first.filter (·.priority = r.priority) :=
      List.mem_filter.mpr ⟨hs, decide_eq_true hp⟩
    rw [hfirst] at hsf
    exact (List.mem_filter.mp hsf).1
  · exact absurd (decide_eq_true hp) (hbetween s hs)

theorem SameRanks.eq_of_falling (h : SameRanks rules rules') (hr : Falling rules)
    (hr' : Falling rules') : rules = rules' := by
  induction rules generalizing rules' with
  | nil =>
    refine (List.eq_nil_iff_forall_not_mem.mpr fun s hs => ?_).symm
    exact List.not_mem_nil (h.symm.mem hs)
  | cons r rest ih =>
    cases rules' with
    | nil => exact absurd (h.mem List.mem_cons_self) List.not_mem_nil
    | cons r' rest' =>
      have hle := h.priority_head_le hr' List.mem_cons_self
      have hle' := h.symm.priority_head_le hr List.mem_cons_self
      have hp : r'.priority = r.priority := by omega
      have hrank := h r.priority
      rw [List.filter_cons_of_pos (by simp), List.filter_cons_of_pos (by simp [hp])] at hrank
      obtain rfl := (List.cons.inj hrank).1
      have htail := ih h.of_cons (List.pairwise_cons.mp hr).2 (List.pairwise_cons.mp hr').2
      rw [htail]

theorem byPriority_eq_of_sameRanks (h : SameRanks rules rules') :
    byPriority rules = byPriority rules' := by
  refine SameRanks.eq_of_falling (fun p => ?_) (falling_byPriority _) (falling_byPriority _)
  rw [sameRanks_byPriority rules p, h p, sameRanks_byPriority rules' p]

end Rule

variable [Cursor C T] [BEq T] [LE T] [DecidableLE T]

/-- `r`, given behind `before` and in front of `after`, takes a stretch at `c`. Of the rules that take
one there, those given earlier are of lower priority and those given later of no higher one. -/
structure Rule.Prevails (ctx : Ctx) (bound c : C) (before : List (Rule C T Ctx K))
    (r : Rule C T Ctx K) (after : List (Rule C T Ctx K)) (o : Outcome C) : Prop where
  yields : r.recognizer.Yields ctx bound c o
  takes : o.takes c = true
  earlier : ∀ s ∈ before, ∀ p, s.recognizer.Yields ctx bound c p → p.takes c = true →
    s.priority < r.priority
  later : ∀ s ∈ after, ∀ p, s.recognizer.Yields ctx bound c p → p.takes c = true →
    s.priority ≤ r.priority

section

variable {ctx : Ctx} {bound c : C} {before before' after after' rules : List (Rule C T Ctx K)}
  {r r' : Rule C T Ctx K} {o o' : Outcome C}

namespace Rule.Prevails

theorem not_cross (h : Prevails ctx bound c before r after o)
    (h' : Prevails ctx bound c before' r' after' o') : ¬ (r ∈ before' ∧ r' ∈ after) := by
  rintro ⟨hr, hr'⟩
  have hlt := h'.earlier r hr o h.yields h.takes
  have hle := h.later r' hr' o' h'.yields h'.takes
  omega

theorem eq_of_append (h : Prevails ctx bound c before r after o)
    (h' : Prevails ctx bound c before' r' after' o') {w : List (Rule C T Ctx K)}
    (hb : before' = before ++ w) (ha : r :: after = w ++ r' :: after') :
    before = before' ∧ r = r' ∧ after = after' ∧ o = o' := by
  cases w with
  | nil =>
    obtain ⟨rfl, rfl⟩ := List.cons.inj ha
    exact ⟨by rw [hb, List.append_nil], rfl, rfl, h.yields.unique h'.yields⟩
  | cons q w =>
    obtain ⟨rfl, rfl⟩ := List.cons.inj ha
    exact absurd ⟨by simp [hb], by simp⟩ (h.not_cross h')

theorem unique (h : Prevails ctx bound c before r after o)
    (h' : Prevails ctx bound c before' r' after' o')
    (he : before ++ r :: after = before' ++ r' :: after') :
    before = before' ∧ r = r' ∧ after = after' ∧ o = o' := by
  rcases List.append_eq_append_iff.mp he with ⟨w, hb, ha⟩ | ⟨w, hb, ha⟩
  · exact h.eq_of_append h' hb ha
  · obtain ⟨rfl, rfl, rfl, rfl⟩ := h'.eq_of_append h hb ha
    exact ⟨rfl, rfl, rfl, rfl⟩

end Rule.Prevails

namespace Scanner

theorem FirstMatch.exists_first {x : Lexeme C K}
    (h : FirstMatch ctx bound c (Rule.byPriority rules) (some x)) :
    ∃ passed r rest o, Rule.byPriority rules = passed ++ r :: rest ∧
      r.recognizer.Yields ctx bound c o ∧ o.takes c = true ∧ x = ⟨r.kind, c, o.position⟩ ∧
      ∀ s ∈ rules, ∀ p, s.recognizer.Yields ctx bound c p → p.takes c = true →
        s ∉ passed ∧ s.priority ≤ r.priority := by
  obtain ⟨passed, r, rest, o, hsorted, hpassed, ho, ht, hx⟩ := h.split
  refine ⟨passed, r, rest, o, hsorted, ho, ht, hx, fun s hs p hp hpt => ?_⟩
  have hnot : s ∉ passed := by
    intro hsp
    obtain ⟨p', hp', hpt'⟩ := hpassed s hsp
    rw [hp.unique hp', hpt'] at hpt
    cases hpt
  have hfalling := Rule.falling_byPriority rules
  have hmem := Rule.mem_byPriority.mpr hs
  rw [hsorted] at hfalling hmem
  have hbelow := (List.pairwise_cons.mp (List.pairwise_append.mp hfalling).2.1).1
  rw [List.mem_append, List.mem_cons] at hmem
  rcases hmem with hsp | rfl | hsr
  · exact absurd hsp hnot
  · exact ⟨hnot, Int.le_refl _⟩
  · exact ⟨hnot, hbelow s hsr⟩

theorem FirstMatch.exists_prevails {x : Lexeme C K}
    (h : FirstMatch ctx bound c (Rule.byPriority rules) (some x)) :
    ∃ before r after o, rules = before ++ r :: after ∧
      Rule.Prevails ctx bound c before r after o ∧ x = ⟨r.kind, c, o.position⟩ := by
  obtain ⟨passed, r, rest, o, hsorted, ho, ht, hx, htaker⟩ := h.exists_first
  have hranks := Rule.sameRanks_byPriority rules
  rw [hsorted] at hranks
  obtain ⟨before, after, rfl, hrank⟩ := hranks.exists_split
  refine ⟨before, r, after, o, rfl, ⟨ho, ht, fun s hs p hp hpt => ?_, fun s hs p hp hpt => ?_⟩, hx⟩
  · obtain ⟨hnot, hle⟩ := htaker s (by simp [hs]) p hp hpt
    have hne : s.priority ≠ r.priority := fun hsame => hnot (hrank s hs hsame)
    omega
  · exact (htaker s (by simp [hs]) p hp hpt).2

theorem firstMatch_of_prevails (hr : Rule.Prevails ctx bound c before r after o)
    (hends : ∀ q ∈ before ++ r :: after, ∃ p, q.recognizer.Yields ctx bound c p) :
    FirstMatch ctx bound c (Rule.byPriority (before ++ r :: after))
      (some ⟨r.kind, c, o.position⟩) := by
  have hsorted : ∀ q ∈ Rule.byPriority (before ++ r :: after),
      ∃ p, q.recognizer.Yields ctx bound c p := fun q hq => hends q (Rule.mem_byPriority.mp hq)
  obtain ⟨l, hl⟩ := FirstMatch.exists_of_yields hsorted
  cases l with
  | none =>
    have hmem : r ∈ Rule.byPriority (before ++ r :: after) := Rule.mem_byPriority.mpr (by simp)
    obtain ⟨p, hp, hpt⟩ := hl.passed_of_none r hmem
    rw [hp.unique hr.yields, hr.takes] at hpt
    cases hpt
  | some x =>
    obtain ⟨before', r', after', o', he, hr', rfl⟩ := hl.exists_prevails
    obtain ⟨-, rfl, -, rfl⟩ := hr.unique hr' he
    exact hl

theorem Calls.keeps {s last : Scanner C T Ctx K}
    {xs : List (Option (Except (ScanError C) (Lexeme C K)))} (h : s.Calls xs last) :
    last.rules = s.rules ∧ last.ctx = s.ctx ∧ last.bound = s.bound := by
  induction h with
  | nil => exact ⟨rfl, rfl, rfl⟩
  | @cons s s' last x xs hx _ ih =>
    have hstep : s'.rules = s.rules ∧ s'.ctx = s.ctx ∧ s'.bound = s.bound := by
      rcases next?_ends_iff.mp hx with ⟨-, -, rfl⟩ | ⟨-, l, -, -, rfl⟩
      · exact ⟨rfl, rfl, rfl⟩
      · cases l <;> exact ⟨rfl, rfl, rfl⟩
    exact ⟨ih.1.trans hstep.1, ih.2.1.trans hstep.2.1, ih.2.2.trans hstep.2.2⟩

/-- However far a scanner has come, its next lexeme is what the prevailing rule makes of the place,
and if all rules come to an end there, the prevailing rule does give the next lexeme. Lists that hold
the same rules in the same order for each priority make for the same answers, call by call. -/
theorem highest_priority_first (rules : List (Rule C T Ctx K)) (ctx : Ctx) (bound b : C) :
    (∀ xs s l s', (ofRules rules ctx bound b).Calls xs s → Ends s.next? (some (.ok l), s') →
      ∃ before r after o, rules = before ++ r :: after ∧
        Rule.Prevails ctx bound s.cursor before r after o ∧ l = ⟨r.kind, s.cursor, o.position⟩ ∧
        ∀ before' r' after' o', rules = before' ++ r' :: after' →
          Rule.Prevails ctx bound s.cursor before' r' after' o' →
          before = before' ∧ r = r' ∧ after = after' ∧ o = o') ∧
    (∀ xs s before r after o, (ofRules rules ctx bound b).Calls xs s → s.done = false →
      (∀ q ∈ rules, ∃ p, q.recognizer.Yields ctx bound s.cursor p) →
      rules = before ++ r :: after → Rule.Prevails ctx bound s.cursor before r after o →
      Ends s.next? (some (.ok ⟨r.kind, s.cursor, o.position⟩),
        { s with cursor := o.position })) ∧
    ∀ rules', Rule.SameRanks rules rules' ∨
        rules.Perm rules' ∧ (rules.map (·.priority)).Nodup →
      ∀ xs last, (ofRules rules ctx bound b).Calls xs last ↔
        (ofRules rules' ctx bound b).Calls xs last := by
  refine ⟨fun xs s l s' hs hl => ?_, fun xs s before r after o hs hd hends he hr => ?_,
    fun rules' hrules xs last => ?_⟩
  · obtain ⟨hrules, hctx, hbound⟩ := hs.keeps
    rcases next?_ends_iff.mp hl with ⟨-, hnone, -⟩ | ⟨-, l', hl', hok, -⟩
    · cases hnone
    · cases l' with
      | none => cases hok
      | some x =>
        cases hok
        rw [hrules, hctx, hbound] at hl'
        obtain ⟨before, r, after, o, he, hr, rfl⟩ := hl'.exists_prevails
        refine ⟨before, r, after, o, he, hr, rfl, fun before' r' after' o' he' hr' => ?_⟩
        exact hr.unique hr' (he.symm.trans he')
  · obtain ⟨hrules, hctx, hbound⟩ := hs.keeps
    subst he
    have hfirst := firstMatch_of_prevails hr hends
    refine next?_ends_iff.mpr (.inr ⟨hd, some ⟨r.kind, s.cursor, o.position⟩, ?_, rfl, rfl⟩)
    rw [hrules, hctx, hbound]
    exact hfirst
  · have hranks : Rule.SameRanks rules rules' := by
      rcases hrules with h | ⟨hperm, hd⟩
      · exact h
      · exact .of_perm hperm hd
    rw [ofRules, ofRules, Rule.byPriority_eq_of_sameRanks hranks]

end Scanner

end

def hexRun : Rule TextCursor Char Unit Nat :=
  ⟨0, .ofTable ⟨0, Abnf.hexDigits⟩, -2147483648⟩

def letter : Rule TextCursor Char Unit Nat :=
  ⟨1, .ofTable ⟨1, Abnf.alpha⟩, 7⟩

def hexLetter : Rule TextCursor Char Unit Nat :=
  ⟨2, .ofTable ⟨2, Abnf.hexdig⟩, 7⟩

theorem highest_priority_first_letters :
    Rule.SameRanks [hexRun, letter, hexLetter] [letter, hexLetter, hexRun] ∧
      hexRun.recognizer.Yields () (.stop 0 "ab") (.start 0 "ab") (.accept (.stop 0 "ab")) ∧
      (∃ before r after o, [hexRun, letter, hexLetter] = before ++ r :: after ∧
        Rule.Prevails () (.stop 0 "ab") (.start 0 "ab") before r after o ∧ r.kind = 1 ∧
        o.position.offset = 1) ∧
      ∃ xs last, xs.length = 2 ∧
        (Scanner.ofRules [letter, hexLetter, hexRun] () (.stop 0 "ab") (.start 0 "ab")).Calls xs
          last := by
  have hranks : Rule.SameRanks [hexRun, letter, hexLetter] [letter, hexLetter, hexRun] := by
    intro p
    by_cases hp : p = 7
    · subst hp
      rfl
    · simp [hexRun, letter, hexLetter, List.filter_cons, Ne.symm hp]
  obtain ⟨hlexeme, -, hsame⟩ := Scanner.highest_priority_first [hexRun, letter, hexLetter] ()
    (TextCursor.stop 0 "ab") (.start 0 "ab")
  obtain ⟨before, r, after, o, he, hr, hl, -⟩ :=
    hlexeme [] _ ⟨1, .start 0 "ab", Cursor.advanced 1 (.start 0 "ab")⟩ _ .nil ⟨4, rfl⟩
  have hoffset := congrArg (fun l : Lexeme TextCursor Nat => l.stop.offset) hl
  refine ⟨hranks, ⟨4, rfl⟩, ⟨before, r, after, o, he, hr, (congrArg Lexeme.kind hl).symm,
    hoffset.symm⟩, ?_⟩
  exact ⟨_, _, rfl, (hsame _ (.inl hranks) _ _).mp (.cons ⟨4, rfl⟩ (.cons ⟨4, rfl⟩ .nil))⟩

end TableAutomata
