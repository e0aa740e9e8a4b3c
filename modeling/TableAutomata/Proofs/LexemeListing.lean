import TableAutomata.Program.LexemeList
import TableAutomata.Proofs.CalculatorScan
import TableAutomata.Proofs.TextPosition

/-! What the lexer's command prints: the lexemes of an expression but its blanks, each with its
place, or the character at which the scan got stuck. -/

namespace TableAutomata

open Cursor (Precedes peek? remaining span)
open Recording (Ends)

namespace Calculator

def isPrinted (x : Char) : Bool :=
  !blanks.contains x

theorem isPrinted_of {q : Char → Bool} (hq : (blanks.all fun x => !q x) = true) (x : Char)
    (hx : q x = true) : isPrinted x = true := by
  rw [isPrinted, Bool.not_eq_true']
  cases hb : blanks.contains x with
  | false => rfl
  | true =>
    have hno := List.all_eq_true.mp hq x (List.contains_iff_mem.mp hb)
    rw [hx] at hno
    cases hno

namespace Kind

variable {k : Kind} {w : List Char}

theorem over_whitespace : Over blanks.contains whitespace.scanned :=
  (Over.one fun _ => id).mul (Over.one fun _ => id).kstar

theorem over_digits : Over isPrinted digits :=
  (Over.one (isPrinted_of (by decide))).mul (Over.one (isPrinted_of (by decide))).kstar

theorem over_printed (hk : k ≠ whitespace) : Over isPrinted k.scanned := by
  have hpoint : Over isPrinted ({['.']} * digits) := (Over.singleton rfl).mul over_digits
  have hletters : Over isPrinted letters :=
    (Over.one (isPrinted_of (by decide))).add (Over.one (isPrinted_of (by decide)))
  have hdigit : Over isPrinted (one (between '0' '9')) := Over.one (isPrinted_of (by decide))
  cases k with
  | number => exact (over_digits.mul (Over.empty.add hpoint)).add hpoint
  | ident => exact hletters.mul ((hletters.add hdigit).add (Over.singleton rfl)).kstar
  | operator => exact Over.one (isPrinted_of (by decide))
  | leftParen => exact Over.singleton rfl
  | rightParen => exact Over.singleton rfl
  | whitespace => exact absurd rfl hk

end Kind

end Calculator

namespace Program.LexemeList

open Calculator

def lineBehind (before : List Char) : Nat :=
  1 + before.count '\n'

def columnBehind (before : List Char) : Nat :=
  1 + (before.rtakeWhile (· ≠ '\n')).length

structure Listed where
  kind : Kind
  before : List Char
  text : List Char

def Listed.line (t : Listed) : String :=
  let text := String.ofList t.text
  s!"  {describe t.kind} {describe text} at {lineBehind t.before}:{columnBehind t.before}\n"

/-- Lexemes of words of their kinds stand in the text, one behind the other, and hold all of it but
its blanks. -/
structure Lists (text : List Char) (listed : List Listed) : Prop where
  words : ∀ t ∈ listed, t.text ∈ t.kind.scanned
  begins : ∀ t ∈ listed, t.before ++ t.text <+: text
  ordered : listed.Pairwise fun t u => t.before ++ t.text <+: u.before
  covers : listed.flatMap Listed.text = text.filter isPrinted

def list (l : Lexeme TextCursor Kind) : Listed :=
  ⟨l.kind, l.start.passed.reverse, span l.stop l.start⟩

def listAll (ls : List (Lexeme TextCursor Kind)) : List Listed :=
  (ls.map list).filter (·.kind ≠ .whitespace)

variable {ls : List (Lexeme TextCursor Kind)} {c z : TextCursor} {expression : String}

theorem lexemeLine_eq {l : Lexeme TextCursor Kind} (h : Precedes l.start l.stop) :
    lexemeLine l = if l.kind = .whitespace then "" else (list l).line := by
  rw [lexemeLine, TextCursor.slice?_of_precedes h, TextCursor.position_eq]
  rfl

theorem join_lexemeLine (h : Tiles c ls z) :
    String.join (ls.map lexemeLine) = String.join ((listAll ls).map Listed.line) := by
  induction h with
  | nil => rfl
  | @cons l ls z hl _ _ ih =>
    rw [List.map_cons, String.join_cons, ih, lexemeLine_eq hl]
    by_cases hk : l.kind = .whitespace
    · simp [listAll, list, hk]
    · simp [listAll, list, hk, String.join_cons]

theorem list_ordered (h : Tiles c ls z) :
    (∀ t ∈ ls.map list, c.passed.reverse <+: t.before ∧ t.before ++ t.text <+: z.passed.reverse) ∧
      (ls.map list).Pairwise fun t u => t.before ++ t.text <+: u.before := by
  induction h with
  | nil => simp
  | @cons l ls z hl _ hr ih =>
    obtain ⟨hall, hordered⟩ := ih
    have hstop : (list l).before ++ (list l).text = l.stop.passed.reverse :=
      (TextCursor.passed_of_precedes hl).symm
    have hz : l.stop.passed.reverse <+: z.passed.reverse :=
      ⟨_, (TextCursor.passed_of_precedes hr.precedes).symm⟩
    rw [List.map_cons, List.forall_mem_cons, List.pairwise_cons, hstop]
    refine ⟨⟨⟨List.prefix_rfl, hz⟩, fun t ht => ?_⟩, fun t ht => (hall t ht).1, hordered⟩
    have hbefore : l.start.passed.reverse <+: l.stop.passed.reverse := ⟨_, hstop⟩
    exact ⟨hbefore.trans (hall t ht).1, (hall t ht).2⟩

theorem flatMap_text_listAll (h : ∀ l ∈ ls, span l.stop l.start ∈ l.kind.scanned) :
    (listAll ls).flatMap Listed.text =
      (ls.flatMap fun l => span l.stop l.start).filter isPrinted := by
  induction ls with
  | nil => rfl
  | cons l ls ih =>
    obtain ⟨hl, hls⟩ := List.forall_mem_cons.mp h
    rw [List.flatMap_cons, List.filter_append, ← ih hls]
    by_cases hk : l.kind = .whitespace
    · have hnone : (span l.stop l.start).filter isPrinted = [] := by
        rw [List.filter_eq_nil_iff]
        intro x hx hprinted
        rw [isPrinted, Kind.over_whitespace _ (hk ▸ hl) x hx] at hprinted
        cases hprinted
      rw [hnone]
      simp [listAll, list, hk]
    · have hself : (span l.stop l.start).filter isPrinted = span l.stop l.start :=
        List.filter_eq_self.mpr (Kind.over_printed hk _ hl)
      rw [hself]
      simp [listAll, list, hk]

theorem lists_of_tiles (ht : Tiles (.start 0 expression) ls (.stop 0 expression))
    (hwords : ∀ l ∈ ls, span l.stop l.start ∈ l.kind.scanned) :
    Lists expression.toList (listAll ls) := by
  obtain ⟨hall, hordered⟩ := list_ordered ht
  have hpassed := TextCursor.passed_of_precedes ht.precedes
  have hspan := TextCursor.span_stop_start 0 expression
  have htext : (TextCursor.stop 0 expression).passed.reverse = expression.toList := by
    rw [hpassed, hspan]
    rfl
  rw [htext] at hall
  refine ⟨fun t hmem => ?_, fun t hmem => (hall t (List.mem_filter.mp hmem).1).2,
    hordered.filter _, ?_⟩
  · obtain ⟨l, hl, rfl⟩ := List.mem_map.mp (List.mem_filter.mp hmem).1
    exact hwords l hl
  · rw [flatMap_text_listAll hwords, ht.flatMap_span, hspan]

theorem exists_reportOn
    {found : Except (ScanError TextCursor) (List (Lexeme TextCursor Kind))}
    (h : (scan expression).value? = some found) :
    ∃ report, reportOn rules expression = some report ∧
      report.output = heading expression ++ scanLines found ++ "\n" ∧
      (report.exitCode = 0 ↔ ∃ ls, found = .ok ls) ∧
      (report.exitCode = 0 ∨ report.exitCode = 1) := by
  obtain ⟨⟨found, records⟩, hs, rfl⟩ := Option.map_eq_some_iff.mp h
  refine ⟨_, congrArg (Option.map _) hs, rfl, ?_⟩
  cases found with
  | ok ls => exact ⟨by simp, .inl rfl⟩
  | error e => exact ⟨by simp, .inr rfl⟩

theorem run_eq {arguments : List String} (h : arguments ≠ []) :
    run arguments = reportOn rules (expressionOf arguments) := by
  have hgiven : arguments.isEmpty = false := List.isEmpty_eq_false_iff.mpr h
  rw [run, rules?_eq]
  simp only [expressions, hgiven, Bool.false_eq_true, if_false, Report.ofEach]
  cases reportOn rules (expressionOf arguments) with
  | none => rfl
  | some report => exact congrArg some report.append_empty

theorem scanLines_ok (ls : List (Lexeme TextCursor Kind)) :
    scanLines (.ok ls) = "Tokens:\n" ++ String.join (ls.map lexemeLine) := rfl

theorem scanLines_noMatch (z : TextCursor) :
    scanLines (.error (.noMatch z)) =
      let char := (peek? z).getD ' '
      s!"  error: unexpected {describe char} at {z.position.line}:{z.position.column}\n" := rfl

/-- The scan gets stuck at the character `x` of the expression. Under a bound at that place it comes
through, with the lexemes it had yielded before. -/
structure StuckAt (expression : String) (before : List Char) (x : Char) : Prop where
  begins : before ++ [x] <+: expression.toList
  stuck : (scan expression).value? =
    some (.error (.noMatch (textAt 0 expression before.length)))
  comes_through : ∃ ls last last',
    Ends (scanner expression).items
        (ls.map .ok ++ [.error (.noMatch (textAt 0 expression before.length))], last) ∧
      Ends (Scanner.ofRules rules () (textAt 0 expression before.length)
        (.start 0 expression)).tokenize (.ok ls, last')

theorem exists_stuckAt {last : Scanner TextCursor Char Unit Kind}
    (ht : Tiles (.start 0 expression) ls z) (hz : Precedes z (.stop 0 expression))
    (hne : z ≠ .stop 0 expression)
    (hm : Munch Kind.scanned expression.toList (ls.map Lexeme.word) (span (.stop 0 expression) z))
    (hitems : Ends (scanner expression).items (ls.map .ok ++ [.error (.noMatch z)], last))
    (hscan : (scan expression).value? = some (.error (.noMatch z))) :
    ∃ before x, StuckAt expression before x ∧
      scanLines (.error (.noMatch z)) =
        s!"  error: unexpected {describe x} at {lineBehind before}:{columnBehind before}\n" := by
  obtain ⟨last', hp⟩ := Scanner.exists_produces_up_to (s := scanner expression)
    (scanner_implement expression) rfl ht (by rwa [span_scanner])
  have hthrough := hp.tokenize_iff (.ok ls, last')
  rw [Scanner.mapM_map_ok] at hthrough
  obtain ⟨n, hn, hat⟩ := ht.precedes.exists_le
  have hbefore : z.passed.reverse = expression.toList.take n := by
    rw [← hat, TextCursor.passed_advanced]
    rfl
  have hlength : z.passed.reverse.length = n := by
    rw [hbefore, List.length_take]
    exact Nat.min_eq_left hn
  have hplace : textAt 0 expression z.passed.reverse.length = z := by
    rw [hlength]
    exact hat
  obtain ⟨x, after, hx⟩ : ∃ x after, remaining z = x :: after := by
    cases hr : remaining z with
    | nil => exact absurd (hz.eq_of_length_le (by rw [hr]; exact Nat.zero_le _)) hne
    | cons x after => exact ⟨x, after, rfl⟩
  have hbegins : z.passed.reverse ++ [x] <+: expression.toList := by
    have hrest : remaining z = expression.toList.drop n := by
      rw [← hat, Cursor.remaining_advanced]
      rfl
    refine ⟨after, ?_⟩
    rw [List.append_assoc, List.singleton_append, ← hx, hbefore, hrest, List.take_append_drop]
  refine ⟨z.passed.reverse, x, ⟨hbegins, by rwa [hplace], ls, last, last', ?_⟩, ?_⟩
  · rw [hplace]
    exact ⟨hitems, hthrough.mpr rfl⟩
  · rw [scanLines_noMatch, TextCursor.peek?_eq_head?, hx, TextCursor.position_eq]
    rfl

/-- With arguments the grammar is built and their expression is scanned, to the end or to a place
where the scan gets stuck. In the one case the exit code is 0 and all lexemes but the blanks are
listed with their places, in the other it is 1 and only that place is said. -/
theorem run_lists (arguments : List String) (h : arguments ≠ []) :
    Calculator.rules? = .ok (rules : List (Rule TextCursor Char Unit Kind)) ∧
      ∃ report found, run arguments = some report ∧
        (scan (expressionOf arguments)).value? = some found ∧
        (report.exitCode = 0 ∨ report.exitCode = 1) ∧
        (report.exitCode = 0 ↔ ∃ ls, found = .ok ls) ∧
        (report.exitCode = 0 → ∃ listed, Lists (expressionOf arguments).toList listed ∧
          report.output = heading (expressionOf arguments) ++
            ("Tokens:\n" ++ String.join (listed.map Listed.line)) ++ "\n") ∧
        (report.exitCode = 1 → ∃ before x, StuckAt (expressionOf arguments) before x ∧
          report.output = heading (expressionOf arguments) ++
            s!"  error: unexpected {describe x} at {lineBehind before}:{columnBehind before}\n" ++
            "\n") := by
  let expression := expressionOf arguments
  have himpl := scanner_implement expression
  have hc := scanner_precedes expression
  obtain ⟨xs, last, hp⟩ := Scanner.exists_produces_of_implement himpl rfl hc
  obtain ⟨ls, ht, hz, hm, hxs⟩ := hp.munch himpl rfl hc
  rw [span_scanner] at hm
  have hscan : (scan expression).value? = some (xs.mapM id) :=
    value?_scanWith rules_implement.callbackFree hp
  obtain ⟨report, hreport, hout, hexit, hcode⟩ := exists_reportOn hscan
  refine ⟨rules?_eq, report, _, (run_eq h).trans hreport, hscan, hcode, hexit, ?_⟩
  rcases hxs with ⟨hat, rfl⟩ | ⟨hne, rfl⟩
  · rw [Scanner.mapM_map_ok] at hexit hout
    have h0 : report.exitCode = 0 := hexit.mpr ⟨ls, rfl⟩
    have hwords : ∀ l ∈ ls, span l.stop l.start ∈ l.kind.scanned := fun l hl =>
      (hm.mem_of_mem (List.mem_map_of_mem hl)).2
    rw [hat] at ht
    refine ⟨fun _ => ⟨listAll ls, lists_of_tiles ht hwords, ?_⟩, fun h1 => ?_⟩
    · rw [hout, scanLines_ok, join_lexemeLine ht]
    · omega
  · rw [Scanner.mapM_map_ok_append_error] at hexit hout hscan
    have h1 : report.exitCode ≠ 0 := fun h0 => by
      obtain ⟨_, hok⟩ := hexit.mp h0
      cases hok
    obtain ⟨before, x, hstuck, hline⟩ :=
      exists_stuckAt ht hz hne hm (Scanner.items_ends_iff.mpr hp) hscan
    exact ⟨fun h0 => absurd h0 h1, fun _ => ⟨before, x, hstuck, by rw [hout, hline]⟩⟩

theorem run_lists_stuck :
    ["1.5\n", "$"] ≠ [] ∧
      ∃ report, run ["1.5\n", "$"] = some report ∧ report.exitCode = 1 ∧
        report.output = "Expression: 1.5\n $\n  error: unexpected '$' at 2:2\n\n" := by
  obtain ⟨-, report, found, hrun, hscan, hcode, hexit, -, hstuck⟩ :=
    run_lists ["1.5\n", "$"] (List.cons_ne_nil _ _)
  have hjoin : expressionOf ["1.5\n", "$"] = "1.5\n $" := rfl
  rw [hjoin] at hscan hstuck
  have hvalue : (scan "1.5\n $").value? = some (.error (.noMatch (textAt 0 "1.5\n $" 5))) := rfl
  obtain rfl := Option.some.inj (hscan.symm.trans hvalue)
  have h1 : report.exitCode = 1 := hcode.resolve_left fun h0 => by
    obtain ⟨_, hok⟩ := hexit.mp h0
    cases hok
  obtain ⟨before, x, hat, hout⟩ := hstuck h1
  have hplace : textAt 0 "1.5\n $" before.length = textAt 0 "1.5\n $" 5 :=
    ScanError.noMatch.inj (Except.error.inj (Option.some.inj (hat.stuck.symm.trans hvalue)))
  have hle : before.length + 1 ≤ "1.5\n $".toList.length := by
    simpa using hat.begins.length_le
  have hlength : before.length = 5 :=
    Cursor.advanced_inj (c := TextCursor.start 0 "1.5\n $") (Nat.le_of_succ_le hle) (by decide)
      hplace
  have heq : before ++ [x] = ['1', '.', '5', '\n', ' '] ++ ['$'] := by
    rw [List.prefix_iff_eq_take.mp hat.begins, List.length_append, hlength]
    rfl
  obtain ⟨rfl, hx⟩ := List.append_inj' heq rfl
  cases hx
  exact ⟨List.cons_ne_nil _ _, report, hrun, h1, hout.trans rfl⟩

end Program.LexemeList

end TableAutomata
