import TableAutomata.Proofs.ScanSimulation
import TableAutomata.Proofs.Tiling

/-! Scanners in use: asked for the next item, for a look at it, for their place and for all that is
left, in any order. A scanner that did not get stuck goes on as a new one would from its place, and
one that did stays where it is. -/

namespace TableAutomata

open Cursor (Precedes span)
open Recording (Ends)

namespace Scanner

inductive Request where
  | next
  | peek
  | cursor
  | tokenize

inductive Reply (C K : Type) where
  | item (x : Option (Except (ScanError C) (Lexeme C K)))
  | preview (l : Option (Lexeme C K))
  | place (c : C)
  | tokens (r : Except (ScanError C) (List (Lexeme C K)))

/-- The place of the error that a reply reports. -/
def Reply.deadEnd? {C K : Type} : Reply C K → Option C
  | item (some (.error (.noMatch z))) | tokens (.error (.noMatch z)) => some z
  | _ => none

variable {C T Ctx K : Type} [Cursor C T] [BEq T] [LE T] [DecidableLE T]

inductive Replies : Scanner C T Ctx K → Request → Reply C K → Scanner C T Ctx K → Prop where
  | next {s s' : Scanner C T Ctx K} {x : Option (Except (ScanError C) (Lexeme C K))} :
      Ends s.next? (x, s') → Replies s .next (.item x) s'
  | peek {s : Scanner C T Ctx K} {l : Option (Lexeme C K)} :
      Ends s.peek? l → Replies s .peek (.preview l) s
  | cursor {s : Scanner C T Ctx K} : Replies s .cursor (.place s.cursor) s
  | tokenize {s s' : Scanner C T Ctx K} {r : Except (ScanError C) (List (Lexeme C K))} :
      Ends s.tokenize (r, s') → Replies s .tokenize (.tokens r) s'

/-- The replies to requests made one after the other, and the scanner behind them. -/
inductive Session (first : Scanner C T Ctx K) : List (Reply C K) → Scanner C T Ctx K → Prop where
  | nil : Session first [] first
  | snoc {rs : List (Reply C K)} {s s' : Scanner C T Ctx K} {q : Request} {r : Reply C K} :
      Session first rs s → s.Replies q r s' → Session first (rs ++ [r]) s'

variable {s s' last : Scanner C T Ctx K} {xs : List (Except (ScanError C) (Lexeme C K))}

theorem tokenize_ends_iff {t : Except (ScanError C) (List (Lexeme C K)) × Scanner C T Ctx K} :
    Ends s.tokenize t ↔ ∃ xs, s.Produces xs t.2 ∧ t.1 = xs.mapM id := by
  obtain ⟨r, last⟩ := t
  simp only [← items_ends_iff, Ends, tokenize, Recording.value?_bind, Option.bind_eq_some_iff,
    Recording.value?_pure, Option.some.injEq, Prod.mk.injEq, Prod.exists]
  constructor
  · rintro ⟨visits, xs, last', h, rfl, rfl⟩
    exact ⟨xs, ⟨visits, h⟩, rfl⟩
  · rintro ⟨xs, ⟨visits, h⟩, rfl⟩
    exact ⟨visits, xs, last, h, rfl, rfl⟩

omit [Cursor C T] [BEq T] [LE T] [DecidableLE T] in
theorem mapM_map_ok (ls : List (Lexeme C K)) :
    (ls.map .ok : List (Except (ScanError C) (Lexeme C K))).mapM id = .ok ls := by
  rw [List.mapM_map]
  exact List.mapM_pure.trans (congrArg Except.ok (List.map_id' ls))

omit [Cursor C T] [BEq T] [LE T] [DecidableLE T] in
theorem mapM_map_ok_append_error (ls : List (Lexeme C K)) (e : ScanError C) :
    (ls.map .ok ++ [.error e] : List (Except (ScanError C) (Lexeme C K))).mapM id = .error e := by
  rw [List.mapM_append, mapM_map_ok]
  rfl

omit [BEq T] [LE T] [DecidableLE T] in
theorem done_of_stuck (hs : s.stuck = true) : s.done = true := by
  simp [done, hs]

theorem Produces.of_stuck (h : s.Produces xs last) (hs : s.stuck = true) : xs = [] ∧ last = s :=
  h.unique (.done (done_of_stuck hs))

theorem Produces.exists_lexemes (h : s.Produces xs last) (hs : s.stuck = false) :
    ∃ ls : List (Lexeme C K), (last.stuck = false ∧ xs = ls.map .ok) ∨
      (last.stuck = true ∧ xs = ls.map .ok ++ [.error (.noMatch last.cursor)]) := by
  induction h with
  | done hd => exact ⟨[], .inl ⟨hs, rfl⟩⟩
  | @turn s last l xs hd hl hrest ih =>
    cases l with
    | none =>
      obtain ⟨rfl, rfl⟩ := hrest.of_stuck rfl
      exact ⟨[], .inr ⟨rfl, rfl⟩⟩
    | some l =>
      obtain ⟨ls, h | h⟩ := ih hs
      · exact ⟨l :: ls, .inl ⟨h.1, by rw [h.2]; rfl⟩⟩
      · exact ⟨l :: ls, .inr ⟨h.1, by rw [h.2]; rfl⟩⟩

theorem Produces.exists_collected (h : s.Produces xs last) :
    ∃ ls : List (Lexeme C K), (xs = ls.map .ok ∧ xs.mapM id = .ok ls) ∨
      ∃ z, xs = ls.map .ok ++ [.error (.noMatch z)] ∧ xs.mapM id = .error (.noMatch z) := by
  cases hs : s.stuck with
  | true =>
    obtain ⟨rfl, -⟩ := h.of_stuck hs
    exact ⟨[], .inl ⟨rfl, rfl⟩⟩
  | false =>
    obtain ⟨ls, ⟨-, rfl⟩ | ⟨-, rfl⟩⟩ := h.exists_lexemes hs
    · exact ⟨ls, .inl ⟨rfl, mapM_map_ok ls⟩⟩
    · exact ⟨ls, .inr ⟨_, rfl, mapM_map_ok_append_error ls _⟩⟩

section

variable {q : Request} {r : Reply C K} {rs : List (Reply C K)} {first : Scanner C T Ctx K}

theorem Replies.of_stuck (h : s.Replies q r s') (hs : s.stuck = true) :
    r.deadEnd? = none ∧ s' = s := by
  have hd := done_of_stuck hs
  cases h with
  | next hx =>
    rcases next?_ends_iff.mp hx with ⟨-, rfl, rfl⟩ | ⟨hd', -⟩
    · exact ⟨rfl, rfl⟩
    · cases hd.symm.trans hd'
  | peek => exact ⟨rfl, rfl⟩
  | cursor => exact ⟨rfl, rfl⟩
  | tokenize ht =>
    obtain ⟨xs, hxs, rfl⟩ := tokenize_ends_iff.mp ht
    obtain ⟨rfl, rfl⟩ := hxs.of_stuck hs
    exact ⟨rfl, rfl⟩

theorem Replies.deadEnd?_eq (h : s.Replies q r s') (hs : s.stuck = false) :
    r.deadEnd? = if s'.stuck then some s'.cursor else none := by
  cases h with
  | next hx =>
    rcases next?_ends_iff.mp hx with ⟨-, rfl, rfl⟩ | ⟨-, l, -, rfl, rfl⟩
    · simp [hs, Reply.deadEnd?]
    · cases l with
      | none => rfl
      | some l => simp [turn, hs, Reply.deadEnd?]
  | peek => simp [hs, Reply.deadEnd?]
  | cursor => simp [hs, Reply.deadEnd?]
  | tokenize ht =>
    obtain ⟨xs, hxs, rfl⟩ := tokenize_ends_iff.mp ht
    obtain ⟨ls, ⟨hl, hls⟩ | ⟨hl, hls⟩⟩ := hxs.exists_lexemes hs
    · have hstuck : s'.stuck = false := hl
      rw [hls, mapM_map_ok, hstuck]
      rfl
    · have hstuck : s'.stuck = true := hl
      rw [hls, mapM_map_ok_append_error, hstuck]
      rfl

theorem Session.deadEnds_eq (h : first.Session rs s) (hfirst : first.stuck = false) :
    rs.filterMap Reply.deadEnd? = if s.stuck then [s.cursor] else [] := by
  induction h with
  | nil =>
    rw [hfirst]
    rfl
  | @snoc rs s s' q r _ hr ih =>
    rw [List.filterMap_append, ih]
    cases hs : s.stuck with
    | true =>
      obtain ⟨hno, rfl⟩ := hr.of_stuck hs
      simp [hno, hs]
    | false =>
      have hd := hr.deadEnd?_eq hs
      cases hs' : s'.stuck <;> simp [hd, hs']

theorem Session.stuck_eq_false (h : first.Session rs s) (hfirst : first.stuck = false)
    (hno : ∀ r ∈ rs, r.deadEnd? = none) : s.stuck = false := by
  have hends := h.deadEnds_eq hfirst
  rw [List.filterMap_eq_nil_iff.mpr hno] at hends
  cases hs : s.stuck with
  | false => rfl
  | true =>
    rw [hs] at hends
    cases hends

theorem Session.stuck_at (h : first.Session rs s) (hfirst : first.stuck = false) {z : C}
    (hr : r ∈ rs) (hz : r.deadEnd? = some z) : s.stuck = true ∧ s.cursor = z := by
  have hmem : z ∈ rs.filterMap Reply.deadEnd? := List.mem_filterMap.mpr ⟨r, hr, hz⟩
  rw [h.deadEnds_eq hfirst] at hmem
  cases hs : s.stuck with
  | true =>
    rw [hs] at hmem
    exact ⟨rfl, (List.mem_singleton.mp hmem).symm⟩
  | false =>
    rw [hs] at hmem
    cases hmem

end

structure InUse (rules : List (Rule C T Ctx K)) (ctx : Ctx) (b e : C) (s : Scanner C T Ctx K) :
    Prop where
  rules_eq : s.rules = Rule.byPriority rules
  ctx_eq : s.ctx = ctx
  bound_eq : s.bound = e
  between : Between b e s.cursor
  dead : s.stuck = true → FirstMatch s.ctx s.bound s.cursor s.rules none

namespace InUse

variable {rules : List (Rule C T Ctx K)} {ctx : Ctx} {b e : C}

theorem eq_ofRules (h : s.InUse rules ctx b e) (hs : s.stuck = false) :
    s = ofRules rules ctx e s.cursor := by
  obtain ⟨rules', ctx', bound, cursor, stuck⟩ := s
  obtain ⟨rfl, rfl, rfl, -, -⟩ := h
  obtain rfl : stuck = false := hs
  rfl

variable [LawfulCursor C] (hconf : ∀ r ∈ rules, r.recognizer.table.Confined ctx)

section

include hconf

theorem advances (h : s.InUse rules ctx b e) {l : Lexeme C K}
    (hl : FirstMatch s.ctx s.bound s.cursor s.rules (some l)) :
    Precedes s.cursor l.stop ∧ Between b e l.stop ∧ l.stop ≠ s.cursor := by
  obtain ⟨rules', ctx', bound, cursor, stuck⟩ := s
  obtain ⟨rfl, rfl, rfl, ⟨hb, he⟩, -⟩ := h
  have hconf' : ∀ r ∈ Rule.byPriority rules, r.recognizer.table.Confined ctx' :=
    fun r hr => hconf r (Rule.mem_byPriority.mp hr)
  obtain ⟨hstart, hle, hne, hstop⟩ := hl.advances hconf' he
  simp only at hstart
  rw [hstart] at hle hne
  refine ⟨hle, ⟨hb.trans hle, hstop⟩, fun heq => hne ?_⟩
  exact hle.span_eq_nil_iff_eq.mpr heq.symm

theorem eq_none_of_done (h : s.InUse rules ctx b e) (hd : s.done = true)
    {l : Option (Lexeme C K)} (hl : FirstMatch s.ctx s.bound s.cursor s.rules l) : l = none := by
  cases hs : s.stuck with
  | true => exact hl.unique (h.dead hs)
  | false =>
    have hc : Precedes s.cursor s.bound := h.bound_eq ▸ h.between.2
    have hat : s.cursor = e := ((done_iff_of_precedes hs hc).mp hd).trans h.bound_eq
    cases l with
    | none => rfl
    | some l =>
      obtain ⟨hle, ⟨-, hstop⟩, hne⟩ := h.advances hconf hl
      rw [hat] at hle hne
      exact absurd (hstop.antisymm hle) hne

theorem turn (h : s.InUse rules ctx b e) {l : Option (Lexeme C K)}
    (hl : FirstMatch s.ctx s.bound s.cursor s.rules l) : (s.turn l).2.InUse rules ctx b e := by
  cases l with
  | none => exact { h with dead := fun _ => hl }
  | some l =>
    refine ⟨h.rules_eq, h.ctx_eq, h.bound_eq, (h.advances hconf hl).2.1, fun hs => ?_⟩
    cases hl.unique (h.dead hs)

theorem produces (h : s.InUse rules ctx b e) (hp : s.Produces xs last) :
    last.InUse rules ctx b e := by
  induction hp with
  | done => exact h
  | turn _ hl _ ih => exact ih (h.turn hconf hl)

theorem replies (h : s.InUse rules ctx b e) {q : Request} {r : Reply C K}
    (hr : s.Replies q r s') : s'.InUse rules ctx b e := by
  cases hr with
  | next hx =>
    rcases next?_ends_iff.mp hx with ⟨-, -, rfl⟩ | ⟨-, l, hl, -, rfl⟩
    · exact h
    · exact h.turn hconf hl
  | peek => exact h
  | cursor => exact h
  | tokenize ht =>
    obtain ⟨xs, hxs, -⟩ := tokenize_ends_iff.mp ht
    exact h.produces hconf hxs

theorem peek?_ends_iff (h : s.InUse rules ctx b e) {l : Lexeme C K} :
    Ends s.peek? (some l) ↔ ∃ s', Ends s.next? (some (.ok l), s') := by
  have hpeek : Ends s.peek? (some l) ↔ FirstMatch s.ctx s.bound s.cursor s.rules (some l) :=
    firstMatch?_ends_iff
  rw [hpeek]
  constructor
  · intro hl
    cases hd : s.done with
    | true => cases h.eq_none_of_done hconf hd hl
    | false => exact ⟨_, next?_ends_iff.mpr (.inr ⟨hd, _, hl, rfl, rfl⟩)⟩
  · rintro ⟨s', hx⟩
    rcases next?_ends_iff.mp hx with ⟨-, hx, -⟩ | ⟨-, l', hl, hx, -⟩
    · cases hx
    · cases l' with
      | none => cases hx
      | some l' =>
        cases hx
        exact hl

end

section

variable (hends : ∀ r ∈ rules, ∀ c, Between b e c → ∃ o, r.recognizer.Yields ctx e c o)

include hends

omit [LawfulCursor C] in
theorem exists_firstMatch (h : s.InUse rules ctx b e) :
    ∃ l, FirstMatch s.ctx s.bound s.cursor s.rules l := by
  refine FirstMatch.exists_of_yields fun r hr => ?_
  rw [h.ctx_eq, h.bound_eq]
  rw [h.rules_eq] at hr
  exact hends r (Rule.mem_byPriority.mp hr) _ h.between

include hconf

theorem exists_produces (h : s.InUse rules ctx b e) : ∃ xs last, s.Produces xs last := by
  cases hs : s.stuck with
  | true => exact ⟨[], s, .done (done_of_stuck hs)⟩
  | false =>
    obtain ⟨rules', ctx', bound, cursor, stuck⟩ := s
    obtain ⟨rfl, rfl, rfl, ⟨hb, he⟩, -⟩ := h
    obtain ⟨-, -, xs, last, hp, -⟩ := exists_produces_tiles _ (Nat.lt_succ_self _) hs he
      (fun r hr => hconf r (Rule.mem_byPriority.mp hr))
      fun r hr c hc => hends r (Rule.mem_byPriority.mp hr) c ⟨hb.trans hc.1, hc.2⟩
    exact ⟨xs, last, hp⟩

theorem exists_replies (h : s.InUse rules ctx b e) (q : Request) : ∃ r s', s.Replies q r s' := by
  obtain ⟨l, hl⟩ := h.exists_firstMatch hends
  cases q with
  | next =>
    cases hd : s.done with
    | true => exact ⟨_, _, .next (next?_ends_iff.mpr (.inl ⟨hd, rfl, rfl⟩))⟩
    | false => exact ⟨_, _, .next (next?_ends_iff.mpr (.inr ⟨hd, l, hl, rfl, rfl⟩))⟩
  | peek => exact ⟨_, _, .peek (firstMatch?_ends_iff.mpr hl)⟩
  | cursor => exact ⟨_, _, .cursor⟩
  | tokenize =>
    obtain ⟨xs, last, hp⟩ := h.exists_produces hconf hends
    exact ⟨_, _, .tokenize (tokenize_ends_iff.mpr ⟨xs, hp, rfl⟩)⟩

end

end InUse

theorem Produces.tokenize_iff (h : s.Produces xs last)
    (t : Except (ScanError C) (List (Lexeme C K)) × Scanner C T Ctx K) :
    Ends s.tokenize t ↔ t = (xs.mapM id, last) := by
  obtain ⟨r, last'⟩ := t
  rw [tokenize_ends_iff, Prod.mk.injEq]
  constructor
  · rintro ⟨ys, hys, rfl⟩
    obtain ⟨rfl, rfl⟩ := hys.unique h
    exact ⟨rfl, rfl⟩
  · rintro ⟨rfl, rfl⟩
    exact ⟨xs, h, rfl⟩

variable [LawfulCursor C] {rules : List (Rule C T Ctx K)} {ctx : Ctx} {b e : C}
  {rs : List (Reply C K)}

theorem Session.inUse (hbe : Precedes b e)
    (hconf : ∀ r ∈ rules, r.recognizer.table.Confined ctx)
    (h : Session (ofRules rules ctx e b) rs s) : s.InUse rules ctx b e := by
  induction h with
  | nil => exact ⟨rfl, rfl, rfl, ⟨.refl b, hbe⟩, nofun⟩
  | snoc _ hr ih => exact ih.replies hconf hr

/-- However a scanner was used, every request is answered. Looking ahead and asking for the place
change nothing, and a look ahead shows a lexeme exactly if the next item is that lexeme, which then
leads to its end. As long as no error was reported, the scanner is the same as a new one from its
place. After one was, the scanner stays at the place of the error and has nothing more. Call by call it
yields what it lists, then nothing; and all that is left together is the lexemes of all these items, or
else the error among them. -/
theorem session_resumes (hbe : Precedes b e)
    (hconf : ∀ r ∈ rules, r.recognizer.table.Confined ctx)
    (hends : ∀ r ∈ rules, ∀ c, Between b e c → ∃ o, r.recognizer.Yields ctx e c o)
    (h : Session (ofRules rules ctx e b) rs s) :
    (∀ q, ∃ r s', s.Replies q r s') ∧
      (∀ q r s', s.Replies q r s' → q = .peek ∨ q = .cursor → s' = s) ∧
      (∀ l, Ends s.peek? (some l) ↔ ∃ s', Ends s.next? (some (.ok l), s')) ∧
      (∀ l s', Ends s.next? (some (.ok l), s') → s'.cursor = l.stop) ∧
      ((∀ r ∈ rs, r.deadEnd? = none) → s = ofRules rules ctx e s.cursor) ∧
      (∀ r ∈ rs, ∀ z, r.deadEnd? = some z → s.cursor = z ∧
        (∀ t, Ends s.next? t ↔ t = (none, s)) ∧ ∀ t, Ends s.tokenize t ↔ t = (.ok [], s)) ∧
      ∃ ls xs last, s.Calls (xs.map some ++ [none]) last ∧
        (∀ t, Ends last.next? t ↔ t = (none, last)) ∧ (∀ t, Ends s.items t ↔ t = (xs, last)) ∧
        (xs = ls.map .ok ∧ (∀ t, Ends s.tokenize t ↔ t = (.ok ls, last)) ∨
          ∃ z, xs = ls.map .ok ++ [.error (.noMatch z)] ∧
            ∀ t, Ends s.tokenize t ↔ t = (.error (.noMatch z), last)) := by
  have huse := h.inUse hbe hconf
  refine ⟨huse.exists_replies hconf hends, ?_, fun l => huse.peek?_ends_iff hconf, ?_,
    fun hno => huse.eq_ofRules (h.stuck_eq_false rfl hno), ?_, ?_⟩
  · rintro q r s' hr (rfl | rfl) <;> cases hr <;> rfl
  · intro l s' hx
    rcases next?_ends_iff.mp hx with ⟨-, heq, -⟩ | ⟨-, l', -, heq, rfl⟩
    · cases heq
    · cases l' with
      | none => cases heq
      | some l' =>
        cases heq
        rfl
  · intro r hr z hz
    obtain ⟨hs, hplace⟩ := h.stuck_at rfl hr hz
    have hd := done_of_stuck hs
    exact ⟨hplace, next?_iff_of_done hd, (Produces.done hd).tokenize_iff⟩
  · obtain ⟨xs, last, hp⟩ := huse.exists_produces hconf hends
    obtain ⟨ls, hls⟩ := hp.exists_collected
    have htokens := hp.tokenize_iff
    refine ⟨ls, xs, last, hp.calls, next?_iff_of_done hp.done_last, hp.items_iff, ?_⟩
    rcases hls with ⟨hxs, hls⟩ | ⟨z, hxs, hls⟩
    · rw [hls] at htokens
      exact .inl ⟨hxs, htokens⟩
    · rw [hls] at htokens
      exact .inr ⟨z, hxs, htokens⟩

theorem session_resumes_number :
    Precedes (ArrayCursor.start 0 #['4', '2', 'x']) (.stop 0 #['4', '2', 'x']) ∧
      ∃ (amid : ArrayCursor Char) (s last : Scanner (ArrayCursor Char) Char Unit Unit),
        Session (ofRules [numberRule] () (.stop 0 #['4', '2', 'x']) (.start 0 #['4', '2', 'x']))
          [.item (some (.ok ⟨(), .start 0 #['4', '2', 'x'], amid⟩))] s ∧
          s = ofRules [numberRule] () (.stop 0 #['4', '2', 'x']) amid ∧
          s.Calls [some (.error (.noMatch amid)), none] last ∧
          (∀ t, Ends s.tokenize t ↔ t = (.error (.noMatch amid), last)) ∧
          Session (ofRules [numberRule] () (.stop 0 #['4', '2', 'x']) (.start 0 #['4', '2', 'x']))
            [.item (some (.ok ⟨(), .start 0 #['4', '2', 'x'], amid⟩)),
              .tokens (.error (.noMatch amid))] last ∧
          last.cursor = amid ∧ (∀ t, Ends last.next? t ↔ t = (none, last)) ∧
          (∀ t, Ends last.tokenize t ↔ t = (.ok [], last)) ∧
          ∀ q, ∃ r s', last.Replies q r s' := by
  have hbe : Precedes (ArrayCursor.start 0 #['4', '2', 'x']) (.stop 0 #['4', '2', 'x']) := ⟨3, rfl⟩
  obtain ⟨amid, s, last, h, hs, hitems, htokens⟩ :
      ∃ (amid : ArrayCursor Char) (s last : Scanner (ArrayCursor Char) Char Unit Unit),
        Session (ofRules [numberRule] () (.stop 0 #['4', '2', 'x']) (.start 0 #['4', '2', 'x']))
          [.item (some (.ok ⟨(), .start 0 #['4', '2', 'x'], amid⟩))] s ∧ s.cursor = amid ∧
          Ends s.items ([.error (.noMatch amid)], last) ∧
          Ends s.tokenize (.error (.noMatch amid), last) :=
    ⟨_, _, _, Session.nil.snoc (.next ⟨3, rfl⟩), rfl, ⟨1, rfl⟩, ⟨1, rfl⟩⟩
  obtain ⟨hanswers, -, -, -, -, hstays, -⟩ := session_resumes hbe numberRule_confined numberRule_ends
    (h.snoc (.tokenize htokens))
  obtain ⟨hplace, hnone, hempty⟩ := hstays (.tokens (.error (.noMatch amid))) (by simp) amid rfl
  obtain ⟨-, -, -, -, hnew, -, ls, xs, last', hcalls, -, hlists, hcollects⟩ :=
    session_resumes hbe numberRule_confined numberRule_ends h
  obtain ⟨rfl, rfl⟩ := Prod.mk.inj ((hlists _).mp hitems)
  subst hs
  refine ⟨hbe, s.cursor, s, last, h, hnew (by simp [Reply.deadEnd?]), hcalls, ?_,
    h.snoc (.tokenize htokens), hplace, hnone, hempty, hanswers⟩
  rcases hcollects with ⟨-, hcollects⟩ | ⟨z, -, hcollects⟩
  · cases (hcollects _).mp htokens
  · cases (hcollects _).mp htokens
    exact hcollects

end Scanner

end TableAutomata
