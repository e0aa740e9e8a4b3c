import TableAutomata.Proofs.CalculatorTokens
import TableAutomata.Proofs.Resumption
import TableAutomata.Proofs.WholeText

/-! Scanning expressions. What is scanned is the maximal munch of a grammar, but of one in which a
number may begin with its point. -/

namespace TableAutomata.Calculator

open Abnf (isDigit)
open Computability
open Cursor (Precedes span)
open Recording (Ends)

variable {expression : String} {ts us : List (Kind × List Char)} {s rest rest' : List Char}

/-- Scanning the expression gives lexemes of these words, from its begin on, and then the end, or the
error of getting stuck where this rest begins. -/
def Scans (expression : String) (ts : List (Kind × List Char)) (rest : List Char) : Prop :=
  ∃ (ls : List (Lexeme TextCursor Kind)) (z : TextCursor),
    Tiles (.start 0 expression) ls z ∧ ls.map Lexeme.word = ts ∧
      span (.stop 0 expression) z = rest ∧
      (rest = [] ∧ (∃ last, Ends (scanner expression).items (ls.map .ok, last)) ∧
          (scan expression).value? = some (.ok ls) ∨
        rest ≠ [] ∧
          (∃ last, Ends (scanner expression).items (ls.map .ok ++ [.error (.noMatch z)], last)) ∧
          (scan expression).value? = some (.error (.noMatch z)))

def ScannedBy (grammar : Kind → Language Char) (expression : String) : Prop :=
  ∃ ts rest, Munch grammar expression.toList ts rest ∧ Scans expression ts rest

theorem ok_injective {ls ls' : List (Lexeme TextCursor Kind)}
    (h : (ls.map .ok : List (Except (ScanError TextCursor) _)) = ls'.map .ok) : ls = ls' :=
  List.map_injective_iff.mpr (fun _ _ => Except.ok.inj) h

theorem map_ok_ne_append_error {ls ls' : List (Lexeme TextCursor Kind)} {e : ScanError TextCursor} :
    (ls.map .ok : List (Except (ScanError TextCursor) _)) ≠ ls'.map .ok ++ [.error e] := by
  intro h
  have hmem : (.error e : Except (ScanError TextCursor) (Lexeme TextCursor Kind)) ∈ ls.map .ok := by
    rw [h]
    exact List.mem_append_right _ List.mem_cons_self
  obtain ⟨l, -, hl⟩ := List.mem_map.mp hmem
  cases hl

theorem Scans.unique (h : Scans expression ts rest) (h' : Scans expression us rest') :
    ts = us ∧ rest = rest' := by
  have hitems : ∀ {xs ys last last'}, Ends (scanner expression).items (xs, last) →
      Ends (scanner expression).items (ys, last') → xs = ys := fun hx hy =>
    ((Scanner.items_ends_iff.mp hx).unique (Scanner.items_ends_iff.mp hy)).1
  obtain ⟨ls, z, -, rfl, rfl, hls⟩ := h
  obtain ⟨ls', z', -, rfl, rfl, hls'⟩ := h'
  rcases hls with ⟨hz, ⟨_, hx⟩, -⟩ | ⟨-, ⟨_, hx⟩, -⟩ <;>
    rcases hls' with ⟨hz', ⟨_, hy⟩, -⟩ | ⟨-, ⟨_, hy⟩, -⟩
  · rw [ok_injective (hitems hx hy), hz, hz']
    exact ⟨rfl, rfl⟩
  · exact absurd (hitems hx hy) map_ok_ne_append_error
  · exact absurd (hitems hy hx) map_ok_ne_append_error
  · obtain ⟨hok, herror⟩ := List.append_inj' (hitems hx hy) rfl
    cases herror
    rw [ok_injective hok]
    exact ⟨rfl, rfl⟩

theorem scanner_implement (expression : String) :
    Rule.Implement (scanner expression).rules Kind.scanned :=
  rules_implement.byPriority

theorem scanner_precedes (expression : String) :
    Precedes (scanner expression).cursor (scanner expression).bound :=
  TextCursor.precedes_stop 0 expression

theorem span_scanner (expression : String) :
    span (scanner expression).bound (scanner expression).cursor = expression.toList :=
  TextCursor.span_stop_start 0 expression

theorem value?_scanWith {rules : List (Rule TextCursor Char Unit Kind)}
    (hrules : ∀ r ∈ rules, r.recognizer.table.CallbackFree)
    {xs : List (Except (ScanError TextCursor) (Lexeme TextCursor Kind))}
    {last : Scanner TextCursor Char Unit Kind} (h : (scannerOf rules expression).Produces xs last) :
    (scanWith rules expression).value? = some (xs.mapM id) := by
  let s := scannerOf rules expression
  have hfree : ∀ r ∈ s.rules, r.recognizer.table.CallbackFree :=
    fun r hr => hrules r (Rule.mem_byPriority.mp hr)
  have hspan : span s.bound s.cursor = expression.toList := TextCursor.span_stop_start 0 expression
  have hc : Precedes s.cursor s.bound := TextCursor.precedes_stop 0 expression
  have hlen : xs.length ≤ expression.toList.length + 1 := by
    rw [← hspan]
    exact h.length_le hc fun r hr i => (hfree r hr i).confined ()
  have hwithin := h.within hfree hc (by rw [hspan]; exact Nat.lt_succ_self _) hlen
  simp only [scanWith, Scanner.tokenize, Scanner.items, Recording.value?_bind, hwithin,
    Option.bind_some, Recording.value?_pure]

theorem scannedBy_scanned (expression : String) : ScannedBy Kind.scanned expression := by
  have himpl := scanner_implement expression
  have hc := scanner_precedes expression
  obtain ⟨xs, last, hp⟩ := Scanner.exists_produces_of_implement himpl rfl hc
  obtain ⟨ls, htiles, hlast, hmunch, hxs⟩ := hp.munch himpl rfl hc
  have hitems : Ends (scanner expression).items (xs, last) := Scanner.items_ends_iff.mpr hp
  have hscan : (scan expression).value? = some (xs.mapM id) :=
    value?_scanWith rules_implement.callbackFree hp
  rw [span_scanner] at hmunch
  refine ⟨_, _, hmunch, ls, last.cursor, htiles, rfl, rfl, ?_⟩
  rcases hxs with ⟨hat, rfl⟩ | ⟨hat, rfl⟩
  · rw [Scanner.mapM_map_ok] at hscan
    exact .inl ⟨hlast.span_eq_nil_iff_eq.mpr hat, ⟨last, hitems⟩, hscan⟩
  · rw [Scanner.mapM_map_ok_append_error] at hscan
    exact .inr ⟨fun hnil => hat (hlast.span_eq_nil_iff_eq.mp hnil), ⟨last, hitems⟩, hscan⟩

/-- A grammar gets stuck at a point with a digit behind it. -/
def StuckAtPoint (grammar : Kind → Language Char) (s : List Char) : Prop :=
  ∃ ts x r, Munch grammar s ts ('.' :: x :: r) ∧ between '0' '9' x = true

theorem point_mem_scanned {x : Char} (hx : between '0' '9' x = true) :
    ['.', x] ∈ Kind.number.scanned := by
  have hdigit : [x] ∈ digits := mem_one_mul.mpr ⟨x, [], hx, Language.nil_mem_kstar _, rfl⟩
  have hpoint : ['.'] ∈ ({['.']} : Language Char) := rfl
  exact .inr (Language.append_mem_mul hpoint hdigit)

theorem ScannedBy.not_stuckAtPoint (h : ScannedBy Kind.language expression) :
    ¬ StuckAtPoint Kind.language expression.toList := by
  rintro ⟨us, x, r, hstuck, hx⟩
  obtain ⟨ts, rest, hm, hs⟩ := h
  obtain ⟨ts', rest', hm', hs'⟩ := scannedBy_scanned expression
  obtain ⟨-, rfl⟩ := hm.unique Kind.language_apart hstuck
  obtain ⟨-, rfl⟩ := hs.unique hs'
  cases hm'.dead .number ['.', x] ⟨r, rfl⟩ (point_mem_scanned hx)

namespace Kind

variable {k : Kind} {w : List Char}

theorem stray_cases (h : w ∈ k.scanned) :
    w ∈ k.language ∨ k = number ∧ ∃ x r, w = '.' :: x :: r ∧ between '0' '9' x = true := by
  cases k with
  | number =>
    rcases (Language.mem_add _ _ _).mp h with hdigits | hpoint
    · exact .inl hdigits
    · obtain ⟨p, rfl, v, hv, rfl⟩ := Language.mem_mul.mp hpoint
      obtain ⟨x, r, hx, -, rfl⟩ := mem_one_mul.mp hv
      exact .inr ⟨rfl, x, r, rfl, hx⟩
  | _ => exact .inl h

theorem eq_nil_of_point {u r : List Char} (hu : u <+: '.' :: r) (hmem : u ∈ k.language) : u = [] := by
  cases u with
  | nil => rfl
  | cons y u =>
    obtain ⟨rfl, -⟩ := List.cons_prefix_cons.mp hu
    have hsort := sortOf_of_mem (language_le_scanned hmem)
    obtain rfl : number = k := Option.some.inj hsort
    cases digit_of_mem_number hmem

end Kind

theorem mem_language_of_not_stuckAtPoint (h : Munch Kind.scanned s ts rest)
    (hno : ¬ StuckAtPoint Kind.language s) : ∀ k w, (k, w) ∈ ts → w ∈ k.language := by
  induction h with
  | finish => simp
  | stuck => simp
  | @word s w rest k ts hne hw hall _ ih =>
    have hmem : w ∈ k.language := by
      rcases Kind.stray_cases hw.mem with hmem | ⟨-, x, r, rfl, hx⟩
      · exact hmem
      · obtain ⟨t, rfl⟩ := hw.begins
        refine absurd ⟨[], x, r ++ t, .stuck (List.cons_ne_nil _ _) ?_, hx⟩ hno
        exact fun k u hu hmem => Kind.eq_nil_of_point hu hmem
    have hrest : ¬ StuckAtPoint Kind.language (s.drop w.length) := by
      rintro ⟨us, x, r, hm, hx⟩
      refine hno ⟨(k, w) :: us, x, r, .word hne ⟨hw.begins, hmem, ?_⟩ ?_ hm, hx⟩
      · exact fun u hu hu' => hw.length_le u hu (Kind.language_le_scanned hu')
      · exact fun k' u hu hu' => hall k' u hu (Kind.language_le_scanned hu')
    intro k' u hu
    rcases List.mem_cons.mp hu with heq | hu
    · cases heq
      exact hmem
    · exact ih hrest k' u hu

theorem scannedBy_language_of_mem (h : ∀ ts rest, Scans expression ts rest →
    ∀ k w, (k, w) ∈ ts → w ∈ k.language) : ScannedBy Kind.language expression := by
  obtain ⟨ts, rest, hm, hs⟩ := scannedBy_scanned expression
  exact ⟨ts, rest, hm.restrict (fun _ _ => Kind.language_le_scanned) (h ts rest hs), hs⟩

/-- An expression is cut into the longest words of its grammar, up to its end or to the first place
where no word begins, if numbers may begin with a point. It is cut as the grammar without such numbers
says exactly if that grammar does not get stuck at a point with a digit behind it, and exactly if all
numbers found begin with a digit. -/
theorem scan_munch (expression : String) :
    ScannedBy Kind.scanned expression ∧
      (ScannedBy Kind.language expression ↔ ¬ StuckAtPoint Kind.language expression.toList) ∧
      (ScannedBy Kind.language expression ↔
        ∀ ts rest, Scans expression ts rest → ∀ w, (Kind.number, w) ∈ ts →
          ∃ x r, w = x :: r ∧ between '0' '9' x = true) := by
  obtain ⟨ts, rest, hm, hs⟩ := scannedBy_scanned expression
  refine ⟨⟨ts, rest, hm, hs⟩, ⟨ScannedBy.not_stuckAtPoint, fun hno => ?_⟩, fun h => ?_, fun h => ?_⟩
  · refine scannedBy_language_of_mem fun us rest' hs' => ?_
    obtain ⟨rfl, rfl⟩ := hs.unique hs'
    exact mem_language_of_not_stuckAtPoint hm hno
  · obtain ⟨us, rest', hm', hs'⟩ := h
    intro vs rest'' hs'' w hw
    obtain ⟨rfl, rfl⟩ := hs'.unique hs''
    obtain ⟨hne, hmem⟩ := hm'.mem_of_mem hw
    obtain ⟨x, r, rfl⟩ := List.exists_cons_of_ne_nil hne
    exact ⟨x, r, rfl, Kind.digit_of_mem_number hmem⟩
  · refine scannedBy_language_of_mem fun us rest' hs' k w hw => ?_
    obtain ⟨rfl, rfl⟩ := hs.unique hs'
    rcases Kind.stray_cases (hm.mem_of_mem hw).2 with hmem | ⟨rfl, x, r, rfl, -⟩
    · exact hmem
    · obtain ⟨y, v, heq, hy⟩ := h ts rest hs _ hw
      obtain ⟨rfl, -⟩ := List.cons.inj heq
      cases hy

theorem scan_point_five :
    (scan ".5").value? = some (.ok [⟨.number, .start 0 ".5", .stop 0 ".5"⟩]) ∧
      ¬ ScannedBy Kind.language ".5" := by
  refine ⟨rfl, fun h => h.not_stuckAtPoint ⟨[], '5', [], ?_, rfl⟩⟩
  exact .stuck (List.cons_ne_nil _ _) fun k u hu hmem => Kind.eq_nil_of_point hu hmem

end TableAutomata.Calculator
