import TableAutomata.Proofs.Recurrence
import TableAutomata.Proofs.TableReading
import TableAutomata.Proofs.Tiling

/-! Maximal munch. A scanner whose rules recognize the sorts of a grammar, no two of which have words
with the same first token, cuts its input into the longest words of the grammar. -/

namespace TableAutomata

open Cursor (Precedes advanced span)

variable {C T Ctx K : Type}

/-- A text is cut into words of the sorts of a grammar, each of them as long as any sort allows,
until nothing is left or a rest that no word of any sort begins. -/
inductive Munch (grammar : K → Language T) : List T → List (K × List T) → List T → Prop where
  | finish : Munch grammar [] [] []
  | stuck {s : List T} : s ≠ [] → (∀ k u, u <+: s → u ∈ grammar k → u = []) → Munch grammar s [] s
  | word {s w rest : List T} {k : K} {ts : List (K × List T)} : w ≠ [] → Longest (grammar k) s w →
      (∀ k' u, u <+: s → u ∈ grammar k' → u.length ≤ w.length) →
      Munch grammar (s.drop w.length) ts rest → Munch grammar s ((k, w) :: ts) rest

/-- The first token of a word tells its sort. -/
def Apart (grammar : K → Language T) : Prop :=
  ∀ k k' x w w', x :: w ∈ grammar k → x :: w' ∈ grammar k' → k = k'

variable {grammar : K → Language T}

theorem Apart.length_le (h : Apart grammar) {s w u : List T} {k k' : K} (hne : w ≠ [])
    (hw : Longest (grammar k) s w) (hu : u <+: s) (hmem : u ∈ grammar k') : u.length ≤ w.length := by
  cases u with
  | nil => exact Nat.zero_le _
  | cons x u =>
    obtain ⟨y, w, rfl⟩ := List.exists_cons_of_ne_nil hne
    obtain ⟨r, rfl⟩ := hw.begins
    obtain ⟨rfl, -⟩ := List.cons_prefix_cons.mp hu
    obtain rfl := h k k' x w u hw.mem hmem
    exact hw.length_le (x :: u) hu hmem

namespace Munch

variable {s rest rest' : List T} {ts us : List (K × List T)}

theorem dead (h : Munch grammar s ts rest) : ∀ k u, u <+: rest → u ∈ grammar k → u = [] := by
  induction h with
  | finish => exact fun k u hu _ => List.prefix_nil.mp hu
  | stuck _ hno => exact hno
  | word _ _ _ _ ih => exact ih

theorem restrict {smaller : K → Language T} (hle : ∀ k w, w ∈ smaller k → w ∈ grammar k)
    (h : Munch grammar s ts rest) (hts : ∀ k w, (k, w) ∈ ts → w ∈ smaller k) :
    Munch smaller s ts rest := by
  induction h with
  | finish => exact .finish
  | stuck hs hno => exact .stuck hs fun k u hu hmem => hno k u hu (hle k u hmem)
  | @word s w rest k ts hne hw hall _ ih =>
    have hmem : w ∈ smaller k := hts k w List.mem_cons_self
    refine .word hne ⟨hw.begins, hmem, fun u hu hu' => hw.length_le u hu (hle k u hu')⟩ ?_ ?_
    · exact fun k' u hu hu' => hall k' u hu (hle k' u hu')
    · exact ih fun k' u hu => hts k' u (List.mem_cons_of_mem _ hu)

theorem mem_of_mem (h : Munch grammar s ts rest) {k : K} {w : List T} (hw : (k, w) ∈ ts) :
    w ≠ [] ∧ w ∈ grammar k := by
  induction h with
  | finish => cases hw
  | stuck => cases hw
  | word hne hlongest _ _ ih =>
    rcases List.mem_cons.mp hw with heq | hw
    · cases heq
      exact ⟨hne, hlongest.mem⟩
    · exact ih hw

theorem flatMap_append (h : Munch grammar s ts rest) : ts.flatMap Prod.snd ++ rest = s := by
  induction h with
  | finish => rfl
  | stuck => rfl
  | word _ hw _ _ ih =>
    rw [List.flatMap_cons, List.append_assoc, ih]
    exact List.prefix_append_drop hw.begins |>.symm

theorem cut (h : Munch grammar s ts rest) : Munch grammar (ts.flatMap Prod.snd) ts [] := by
  induction h with
  | finish => exact .finish
  | stuck => exact .finish
  | @word s w rest k ts hne hw hall hr ih =>
    have hbegin : w ++ ts.flatMap Prod.snd <+: s := by
      refine ⟨rest, ?_⟩
      rw [List.append_assoc, hr.flatMap_append]
      exact (List.prefix_append_drop hw.begins).symm
    rw [List.flatMap_cons]
    refine .word hne ⟨⟨_, rfl⟩, hw.mem, fun u hu => hw.length_le u (hu.trans hbegin)⟩
      (fun k' u hu => hall k' u (hu.trans hbegin)) ?_
    rwa [List.drop_left]

theorem unique (hg : Apart grammar) (h : Munch grammar s ts rest) (h' : Munch grammar s us rest') :
    ts = us ∧ rest = rest' := by
  induction h generalizing us with
  | finish =>
    cases h' with
    | finish => exact ⟨rfl, rfl⟩
    | stuck hne => exact absurd rfl hne
    | word hne hw => exact absurd (List.prefix_nil.mp hw.begins) hne
  | stuck hs hno =>
    cases h' with
    | finish => exact absurd rfl hs
    | stuck => exact ⟨rfl, rfl⟩
    | word hne hw => exact absurd (hno _ _ hw.begins hw.mem) hne
  | @word s w rest k ts hne hw hall _ ih =>
    cases h' with
    | finish => exact absurd (List.prefix_nil.mp hw.begins) hne
    | stuck _ hno => exact absurd (hno _ _ hw.begins hw.mem) hne
    | @word _ w' _ k' us hne' hw' hall' hr =>
      obtain rfl : w = w' := eq_of_begin hw.begins hw'.begins (hall' k w hw.begins hw.mem)
        (hall k' w' hw'.begins hw'.mem)
      obtain ⟨x, w, rfl⟩ := List.exists_cons_of_ne_nil hne
      obtain rfl := hg k k' x w w hw.mem hw'.mem
      obtain ⟨rfl, rfl⟩ := ih hr
      exact ⟨rfl, rfl⟩

end Munch

variable [Cursor C T] [BEq T] [LE T] [DecidableLE T]

/-- Wherever the matcher is tried, it takes the longest word of the language that comes next, and it
rejects if there is none. -/
def Matcher.Recognizes (m : Matcher C T Ctx) (L : Language T) : Prop :=
  ∀ ctx bound c,
    (∃ w, Longest L (span bound c) w ∧ m.Yields ctx bound c (.accept (advanced w.length c))) ∨
      ((∀ w, w <+: span bound c → w ∉ L) ∧ ∃ d, m.Yields ctx bound c (.reject d))

theorem Matcher.Reads.recognizes {m : Matcher C T Ctx} {find : List T → Option (List T)}
    {place : List T → Mark} {L : Language T} (h : m.Reads (Reading.finding find place))
    (hL : ∀ s, Finds L s (find s)) : m.Recognizes L := by
  intro ctx bound c
  have hy := h ctx bound c
  have hf := hL (span bound c)
  cases hs : find (span bound c) with
  | some w =>
    rw [hs] at hf
    rw [Reading.finding_of_some hs] at hy
    exact .inl ⟨w, hf, hy⟩
  | none =>
    rw [hs] at hf
    rw [Reading.finding_of_none hs] at hy
    exact .inr ⟨hf, _, hy⟩

/-- The rules recognize the sorts of the grammar, each of them. -/
structure Rule.Implement (rules : List (Rule C T Ctx K)) (grammar : K → Language T) : Prop where
  recognizes : ∀ r ∈ rules,
    (r.recognizer.table.toMatcher r.recognizer.start).Recognizes (grammar r.kind)
  exists_rule : ∀ k, ∃ r ∈ rules, r.kind = k
  callbackFree : ∀ r ∈ rules, r.recognizer.table.CallbackFree
  apart : Apart grammar

variable {rules : List (Rule C T Ctx K)} {ctx : Ctx} {bound c : C}

theorem Rule.Implement.outcome_cases (hr : Rule.Implement rules grammar) {r : Rule C T Ctx K}
    (hmem : r ∈ rules) {o : Outcome C} (ho : r.recognizer.Yields ctx bound c o) :
    (∃ w, Longest (grammar r.kind) (span bound c) w ∧ o = .accept (advanced w.length c)) ∨
      ((∀ w, w <+: span bound c → w ∉ grammar r.kind) ∧ o.accepted = false) := by
  rcases hr.recognizes r hmem ctx bound c with ⟨w, hw, hy⟩ | ⟨hno, d, hy⟩
  · exact .inl ⟨w, hw, Matcher.Yields.unique ho hy⟩
  · obtain rfl := Matcher.Yields.unique ho hy
    exact .inr ⟨hno, rfl⟩

theorem Rule.Implement.byPriority (hr : Rule.Implement rules grammar) :
    Rule.Implement (Rule.byPriority rules) grammar where
  recognizes r hmem := hr.recognizes r (Rule.mem_byPriority.mp hmem)
  exists_rule k := by
    obtain ⟨r, hmem, hk⟩ := hr.exists_rule k
    exact ⟨r, Rule.mem_byPriority.mpr hmem, hk⟩
  callbackFree r hmem := hr.callbackFree r (Rule.mem_byPriority.mp hmem)
  apart := hr.apart

theorem Rule.Implement.exists_yields (hr : Rule.Implement rules grammar) {r : Rule C T Ctx K}
    (hmem : r ∈ rules) (ctx : Ctx) (bound c : C) : ∃ o, r.recognizer.Yields ctx bound c o := by
  rcases hr.recognizes r hmem ctx bound c with ⟨w, -, hy⟩ | ⟨-, d, hy⟩
  · exact ⟨_, hy⟩
  · exact ⟨_, hy⟩

variable [LawfulCursor C]

omit [BEq T] [LE T] [DecidableLE T] in
theorem Cursor.Precedes.span_advanced_prefix {w : List T} (hc : Precedes c bound)
    (hw : w <+: span bound c) :
    Precedes (advanced w.length c) bound ∧ span (advanced w.length c) c = w ∧
      span bound (advanced w.length c) = (span bound c).drop w.length := by
  have hb : Precedes (advanced w.length c) bound := hc.advanced_of_le hw.length_le
  have hdrop := Cursor.span_advanced hw.length_le
  obtain ⟨r, hr⟩ := hw
  have happend := Precedes.span_append ⟨w.length, rfl⟩ hb
  rw [hdrop, ← hr, List.drop_left] at happend
  exact ⟨hb, List.append_cancel_right happend, hdrop⟩

namespace Scanner

theorem FirstMatch.longest (hr : Rule.Implement rules grammar) {l : Lexeme C K}
    (h : FirstMatch ctx bound c rules (some l)) :
    l.start = c ∧ ∃ w, w ≠ [] ∧ Longest (grammar l.kind) (span bound c) w ∧
      l.stop = advanced w.length c := by
  obtain ⟨hstart, r, hmem, o, ho, ht, hkind, hstop⟩ := h.taken_of_some
  refine ⟨hstart, ?_⟩
  rcases hr.outcome_cases hmem ho with ⟨w, hw, rfl⟩ | ⟨-, hno⟩
  · refine ⟨w, ?_, hkind ▸ hw, hstop⟩
    rintro rfl
    rw [Outcome.takes, Outcome.accept, List.length_nil, Cursor.advanced_zero,
      LawfulCursor.beq_refl] at ht
    cases ht
  · rw [Outcome.takes, hno] at ht
    cases ht

theorem FirstMatch.eq_nil (hr : Rule.Implement rules grammar)
    (h : FirstMatch ctx bound c rules none) {k : K} {u : List T} (hu : u <+: span bound c)
    (hmem : u ∈ grammar k) : u = [] := by
  obtain ⟨r, hrule, rfl⟩ := hr.exists_rule k
  obtain ⟨o, ho, ht⟩ := h.passed_of_none r hrule
  rcases hr.outcome_cases hrule ho with ⟨w, hw, rfl⟩ | ⟨hno, -⟩
  · have heq : (advanced w.length c == c) = true := by
      simpa [Outcome.takes, Outcome.accept] using ht
    have hle : Precedes c (advanced w.length c) := ⟨_, rfl⟩
    have hstay : c = advanced w.length c := hle.beq_iff.mp (LawfulCursor.beq_symm heq)
    have hspan := Cursor.span_advanced hw.begins.length_le
    rw [← hstay] at hspan
    have hlen := congrArg List.length hspan
    have hle := hw.begins.length_le
    have hu := hw.length_le u hu hmem
    rw [List.length_drop] at hlen
    exact List.eq_nil_of_length_eq_zero (by omega)
  · exact absurd hmem (hno u hu)

end Scanner

def Lexeme.word (l : Lexeme C K) : K × List T :=
  (l.kind, span l.stop l.start)

omit [BEq T] [LE T] [DecidableLE T] in
theorem Tiles.eq_of_words {c z z' : C} {ls ls' : List (Lexeme C K)} (h : Tiles c ls z)
    (h' : Tiles c ls' z') (hw : ls.map Lexeme.word = ls'.map Lexeme.word) : ls = ls' := by
  induction ls generalizing c ls' with
  | nil => exact (List.map_eq_nil_iff.mp hw.symm).symm
  | cons l ls ih =>
    obtain ⟨l', ls', rfl, hl, hls⟩ := List.map_eq_cons_iff.mp hw.symm
    obtain ⟨hstart, hle, ht⟩ := h.of_cons
    obtain ⟨hstart', hle', ht'⟩ := h'.of_cons
    obtain ⟨hkind, hspan⟩ := Prod.mk.inj hl
    have hstop : l'.stop = l.stop := by
      rw [← hle'.advanced_span, hspan, hstart', ← hstart, hle.advanced_span]
    rw [hstop] at ht'
    rw [Lexeme.ext hkind (hstart'.trans hstart.symm) hstop, ih ht ht' hls.symm]

namespace Scanner

variable {s last : Scanner C T Ctx K} {xs : List (Except (ScanError C) (Lexeme C K))}

theorem exists_produces_of_implement (hr : Rule.Implement s.rules grammar) (hs : s.stuck = false)
    (hc : Precedes s.cursor s.bound) : ∃ xs last, s.Produces xs last := by
  have hconf : ∀ r ∈ s.rules, r.recognizer.table.Confined s.ctx :=
    fun r hmem i => (hr.callbackFree r hmem i).confined s.ctx
  obtain ⟨-, -, xs, last, hp, -⟩ := exists_produces_tiles _ (Nat.lt_succ_self _) hs hc hconf
    fun r hmem c _ => hr.exists_yields hmem s.ctx s.bound c
  exact ⟨xs, last, hp⟩

theorem Produces.munch (hr : Rule.Implement s.rules grammar) (h : s.Produces xs last)
    (hs : s.stuck = false) (hc : Precedes s.cursor s.bound) :
    ∃ ls, Tiles s.cursor ls last.cursor ∧ Precedes last.cursor s.bound ∧
      Munch grammar (span s.bound s.cursor) (ls.map Lexeme.word) (span s.bound last.cursor) ∧
      (last.cursor = s.bound ∧ xs = ls.map .ok ∨
        last.cursor ≠ s.bound ∧ xs = ls.map .ok ++ [.error (.noMatch last.cursor)]) := by
  induction h with
  | @done s hd =>
    have hat := (done_iff_of_precedes hs hc).mp hd
    refine ⟨[], .nil, hc, ?_, .inl ⟨hat, rfl⟩⟩
    rw [hc.span_eq_nil_iff_eq.mpr hat]
    exact .finish
  | @turn s last l xs hd hl hrest ih =>
    have hat : s.cursor ≠ s.bound := fun hat => by
      rw [(done_iff_of_precedes hs hc).mpr hat] at hd
      cases hd
    cases l with
    | none =>
      cases hrest with
      | done =>
        refine ⟨[], .nil, hc, .stuck ?_ ?_, .inr ⟨hat, rfl⟩⟩
        · exact fun hnil => hat (hc.span_eq_nil_iff_eq.mp hnil)
        · exact fun k u hu hmem => hl.eq_nil hr hu hmem
      | turn hd' => cases hd'
    | some l =>
      obtain ⟨hstart, w, hne, hw, hstop⟩ := hl.longest hr
      obtain ⟨hb, hword, hdrop⟩ := hc.span_advanced_prefix hw.begins
      rw [← hstop] at hb hword hdrop
      obtain ⟨ls, ht, hz, hm, hxs⟩ := ih hr hs hb
      have hle : Precedes l.start l.stop := hstart ▸ hstop ▸ ⟨_, rfl⟩
      have htiles : Tiles s.cursor (l :: ls) last.cursor := by
        rw [← hstart] at hword ⊢
        exact .cons hle (by rwa [hword]) ht
      refine ⟨l :: ls, htiles, hz, ?_, ?_⟩
      · have hl : l.word = (l.kind, w) := by rw [Lexeme.word, hstart, hword]
        rw [List.map_cons, hl]
        refine .word hne hw (fun k u hu hmem => hr.apart.length_le hne hw hu hmem) ?_
        rw [← hdrop]
        exact hm
      · rcases hxs with ⟨hat, rfl⟩ | ⟨hat, rfl⟩
        · exact .inl ⟨hat, rfl⟩
        · exact .inr ⟨hat, rfl⟩

theorem exists_produces_up_to (hr : Rule.Implement s.rules grammar) (hs : s.stuck = false)
    {ls : List (Lexeme C K)} {z : C} {rest : List T} (ht : Tiles s.cursor ls z)
    (hm : Munch grammar (span s.bound s.cursor) (ls.map Lexeme.word) rest) :
    ∃ last, ({ s with bound := z } : Scanner C T Ctx K).Produces (ls.map .ok) last := by
  let s' : Scanner C T Ctx K := { s with bound := z }
  have hr' : Rule.Implement s'.rules grammar := hr
  have hc : Precedes s'.cursor s'.bound := ht.precedes
  obtain ⟨xs, last, hp⟩ := exists_produces_of_implement hr' hs hc
  obtain ⟨ls', ht', hlast, hm', hxs⟩ := hp.munch hr' hs hc
  have hwords : (ls.map Lexeme.word).flatMap Prod.snd = span z s.cursor := by
    rw [List.flatMap_map]
    exact ht.flatMap_span
  have hcut := hm.cut
  rw [hwords] at hcut
  obtain ⟨heq, hrest⟩ := hm'.unique hr.apart hcut
  obtain rfl := ht'.eq_of_words ht heq
  rcases hxs with ⟨-, rfl⟩ | ⟨hne, -⟩
  · exact ⟨last, hp⟩
  · exact absurd (hlast.span_eq_nil_iff_eq.mp hrest) hne

theorem FirstMatch.within {l : Option (Lexeme C K)} (h : FirstMatch ctx bound c rules l)
    (hcb : ∀ r ∈ rules, r.recognizer.table.CallbackFree) {visits : Nat}
    (hv : (span bound c).length < visits) :
    (firstMatch? visits ctx bound c rules).value? = some l := by
  have hexec : ∀ {r : Rule C T Ctx K} {o : Outcome C}, r.recognizer.table.CallbackFree →
      r.recognizer.Yields ctx bound c o → (r.recognizer.exec visits ctx bound c).value? = some o :=
    fun hr ho => Matcher.Yields.within ho hr hv
  induction h with
  | exhausted => rfl
  | taken ho ht =>
    have hr := hcb _ List.mem_cons_self
    rw [firstMatch?, Recording.value?_bind, hexec hr ho, Option.bind_some, ← Outcome.takes, if_pos ht]
    rfl
  | passed ho ht _ ih =>
    have hr := hcb _ List.mem_cons_self
    rw [firstMatch?, Recording.value?_bind, hexec hr ho, Option.bind_some, ← Outcome.takes, ht,
      if_neg Bool.false_ne_true]
    exact ih fun r hr => hcb r (List.mem_cons_of_mem _ hr)

theorem Produces.within (h : s.Produces xs last)
    (hcb : ∀ r ∈ s.rules, r.recognizer.table.CallbackFree) (hc : Precedes s.cursor s.bound)
    {visits n : Nat} (hv : (span s.bound s.cursor).length < visits) (hn : xs.length ≤ n) :
    (itemsWithin visits n s).value? = some (xs, last) := by
  induction h generalizing n with
  | done hd => exact value?_itemsWithin_of_done hd visits n
  | @turn s last l xs hd hl hrest ih =>
    obtain ⟨n, rfl⟩ : ∃ m, n = m + 1 := ⟨n - 1, by simp at hn; omega⟩
    have hroom : xs.length ≤ n := by simpa using hn
    have hrest : (itemsWithin visits n (s.turn l).2).value? = some (xs, last) := by
      cases l with
      | none => exact ih hcb hc hv hroom
      | some l =>
        have hconf : ∀ r ∈ s.rules, r.recognizer.table.Confined s.ctx :=
          fun r hr i => (hcb r hr i).confined s.ctx
        obtain ⟨hstart, hle, -, hb⟩ := hl.advances hconf hc
        have hlen := hle.span_append hb
        rw [hstart] at hlen
        have hshort : (span s.bound l.stop).length ≤ (span s.bound s.cursor).length := by
          rw [← hlen, List.length_append]
          omega
        exact ih hcb hb (Nat.lt_of_le_of_lt hshort hv) hroom
    rw [value?_itemsWithin_succ hd, peek?, hl.within hcb hv, Option.bind_some, hrest]
    rfl

end Scanner

end TableAutomata
