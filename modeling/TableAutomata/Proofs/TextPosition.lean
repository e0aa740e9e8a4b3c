import Mathlib.Data.List.DropRight
import TableAutomata.Proofs.WholeText

/-! Where a text cursor stands. It counts bytes, lines and columns as it goes, and all three are
what one would find by counting anew in the text before it. -/

namespace TableAutomata

open Cursor (advanced peek? remaining)

namespace Position

variable (p : Position) (x : Char) (cs : List Char)

theorem pastAll_append_singleton : p.pastAll (cs ++ [x]) = (p.pastAll cs).past x := by
  simp [pastAll]

theorem offset_pastAll :
    (p.pastAll cs).offset = p.offset + (String.ofList cs).utf8ByteSize := by
  induction cs using List.reverseRecOn with
  | nil => simp [pastAll]
  | append_singleton cs x ih =>
    have hpast : ((p.pastAll cs).past x).offset = (p.pastAll cs).offset + x.utf8Size := by
      by_cases hx : x = '\n' <;> simp [past, hx]
    simp [pastAll_append_singleton, hpast, ih, Nat.add_assoc]

theorem line_pastAll : (p.pastAll cs).line = p.line + cs.count '\n' := by
  induction cs using List.reverseRecOn with
  | nil => simp [pastAll]
  | append_singleton cs x ih =>
    by_cases hx : x = '\n'
    · simp [pastAll_append_singleton, past, hx, ih, Nat.add_assoc]
    · have hcount : [x].count '\n' = 0 := List.count_eq_zero.mpr (by simp [Ne.symm hx])
      simp [pastAll_append_singleton, past, hx, ih, hcount]

theorem column_pastAll :
    (p.pastAll cs).column =
      if '\n' ∈ cs then 1 + (cs.rtakeWhile (· ≠ '\n')).length else p.column + cs.length := by
  induction cs using List.reverseRecOn with
  | nil => simp [pastAll]
  | append_singleton cs x ih =>
    by_cases hx : x = '\n'
    · simp [pastAll_append_singleton, past, hx]
    · have hmem : '\n' ∈ cs ++ [x] ↔ '\n' ∈ cs := by simp [Ne.symm hx]
      have hpast : ((p.pastAll cs).past x).column = (p.pastAll cs).column + 1 := by
        simp [past, hx]
      rw [pastAll_append_singleton, hpast, ih]
      by_cases hcs : '\n' ∈ cs
      · simp [hcs, hx, Nat.add_assoc]
      · simp [hmem, hcs, Nat.add_assoc]

theorem pastAll_eq :
    p.pastAll cs = ⟨p.line + cs.count '\n',
      if '\n' ∈ cs then 1 + (cs.rtakeWhile (· ≠ '\n')).length else p.column + cs.length,
      p.offset + (String.ofList cs).utf8ByteSize⟩ := by
  rw [← line_pastAll, ← column_pastAll, ← offset_pastAll]

theorem pastAll_start :
    start.pastAll cs = ⟨1 + cs.count '\n', 1 + (cs.rtakeWhile (· ≠ '\n')).length,
      (String.ofList cs).utf8ByteSize⟩ := by
  have hcolumn : (if '\n' ∈ cs then 1 + (cs.rtakeWhile (· ≠ '\n')).length
      else start.column + cs.length) = 1 + (cs.rtakeWhile (· ≠ '\n')).length := by
    by_cases hcs : '\n' ∈ cs
    · rw [if_pos hcs]
    · have hall : cs.rtakeWhile (· ≠ '\n') = cs := by
        rw [List.rtakeWhile_eq_self_iff]
        intro x hx
        have hne : x ≠ '\n' := fun h => hcs (h ▸ hx)
        simpa using hne
      rw [if_neg hcs, hall]
      rfl
  rw [pastAll_eq, hcolumn]
  simp [start]

theorem trail_eq_map_inits : p.trail cs = cs.inits.map p.pastAll := by
  induction cs generalizing p with
  | nil => rfl
  | cons x cs ih =>
    rw [trail, ih, List.inits, List.map_cons, List.map_map]
    rfl

/-- Behind a text, wherever it begins: the line has grown by the line feeds and the offset by the
bytes, and the column by the characters, or it counts from the last line feed if there is one. So line
and offset grow by what the text alone says, and behind a line feed the column forgets the start. -/
theorem position_from_any_start (s : String) :
    (∀ p : Position, p.pastAll s.toList = ⟨p.line + s.toList.count '\n',
      if '\n' ∈ s.toList then 1 + (s.toList.rtakeWhile (· ≠ '\n')).length
      else p.column + s.toList.length,
      p.offset + s.utf8ByteSize⟩) ∧
    (∀ p : Position, p.trail s.toList = s.toList.inits.map p.pastAll) ∧
    (∃ lines bytes, ∀ p : Position, (p.pastAll s.toList).line = p.line + lines ∧
      (p.pastAll s.toList).offset = p.offset + bytes) ∧
    ('\n' ∈ s.toList →
      ∀ p q : Position, (p.pastAll s.toList).column = (q.pastAll s.toList).column) := by
  have hsize : (String.ofList s.toList).utf8ByteSize = s.utf8ByteSize := by
    rw [String.ofList_toList]
  refine ⟨fun p => ?_, fun p => trail_eq_map_inits p _, ⟨_, _, fun p => ⟨line_pastAll p _,
    offset_pastAll p _⟩⟩, fun hmem p q => ?_⟩
  · rw [pastAll_eq, hsize]
  · rw [column_pastAll, column_pastAll, if_pos hmem, if_pos hmem]

theorem position_from_any_start_mid_line :
    '\n' ∈ ("é\nb" : String).toList ∧
      (⟨3, 7, 20⟩ : Position).pastAll ("é\nb" : String).toList = ⟨4, 2, 24⟩ ∧
      ((⟨3, 7, 20⟩ : Position).pastAll ("é\nb" : String).toList).column =
        (start.pastAll ("é\nb" : String).toList).column := by
  have hmem : '\n' ∈ ("é\nb" : String).toList := by decide
  obtain ⟨hclosed, -, -, hcolumn⟩ := position_from_any_start "é\nb"
  exact ⟨hmem, (hclosed ⟨3, 7, 20⟩).trans (by decide), hcolumn hmem _ _⟩

end Position

/-- The text between two byte offsets. There is none if the offsets are out of order, if one of them
lies beyond the end, or if one of them is inside a character. -/
def textBetween? (text : String) (a b : Nat) : Option String :=
  if h : a ≤ b ∧ (⟨a⟩ : String.Pos.Raw).IsValid text ∧ (⟨b⟩ : String.Pos.Raw).IsValid text then
    some (text.extract (text.pos ⟨a⟩ h.2.1) (text.pos ⟨b⟩ h.2.2))
  else none

theorem isValid_of_prefix {text : String} {before : List Char} (h : before <+: text.toList) :
    (⟨(String.ofList before).utf8ByteSize⟩ : String.Pos.Raw).IsValid text := by
  have htake : text.toList.take before.length = before := (List.prefix_iff_eq_take.mp h).symm
  rw [String.Pos.Raw.isValid_iff_exists_take_toList]
  exact ⟨before.length, by rw [htake]⟩

theorem prefix_of_size_le {s p q : List Char} (hp : p <+: s) (hq : q <+: s)
    (hle : (String.ofList p).utf8ByteSize ≤ (String.ofList q).utf8ByteSize) : p <+: q := by
  rcases List.prefix_or_prefix_of_prefix hp hq with h | ⟨w, rfl⟩
  · exact h
  · rw [String.ofList_append, String.utf8ByteSize_append] at hle
    have hw0 : (String.ofList w).utf8ByteSize = 0 := by omega
    have hnil : w = [] := by simpa using hw0
    exact ⟨[], by rw [hnil, List.append_nil, List.append_nil]⟩

theorem textBetween?_eq {text : String} {before mid after : List Char}
    (h : before ++ mid ++ after = text.toList) :
    textBetween? text (String.ofList before).utf8ByteSize
      (String.ofList (before ++ mid)).utf8ByteSize = some (String.ofList mid) := by
  have hbefore : before <+: text.toList := ⟨mid ++ after, by rw [← h, List.append_assoc]⟩
  have hmid : before ++ mid <+: text.toList := ⟨after, h⟩
  have hsize : (String.ofList (before ++ mid)).utf8ByteSize =
      (String.ofList before).utf8ByteSize + (String.ofList mid).utf8ByteSize := by
    rw [String.ofList_append, String.utf8ByteSize_append]
  have htext : text.toByteArray = (String.ofList before).toByteArray ++
      (String.ofList mid).toByteArray ++ (String.ofList after).toByteArray := by
    rw [← String.toByteArray_append, ← String.toByteArray_append, ← String.ofList_append,
      ← String.ofList_append, h, String.ofList_toList]
  have hcut : ((String.ofList before).toByteArray ++ (String.ofList mid).toByteArray).extract
      (String.ofList before).utf8ByteSize
      ((String.ofList before).utf8ByteSize + (String.ofList mid).utf8ByteSize) =
        (String.ofList mid).toByteArray := ByteArray.extract_append_eq_right rfl rfl
  rw [textBetween?, dif_pos ⟨by omega, isValid_of_prefix hbefore, isValid_of_prefix hmid⟩]
  refine congrArg some (String.toByteArray_inj.mp ?_)
  rw [String.toByteArray_extract, htext, String.offset_pos, String.offset_pos, hsize,
    ByteArray.extract_append, hcut]
  simp [-String.toByteArray_ofList]

namespace TextCursor

/-- The cursors one can get at over a text. A cursor is a value, so a copy of it is the cursor. -/
inductive Reached (source : Nat) (text : String) : TextCursor → Prop
  | start : Reached source text (.start source text)
  | stop : Reached source text (.stop source text)
  | advance {c d : TextCursor} : Reached source text c → Cursor.advance? c = some d →
      Reached source text d
  | advanceBy {c : TextCursor} (n : Nat) : Reached source text c →
      Reached source text (Cursor.advanceBy n c).2
  | advanced {c : TextCursor} (n : Nat) : Reached source text c →
      Reached source text (advanced n c)

/-- What is behind and what is ahead of the cursor make up the text. -/
structure Cuts (source : Nat) (text : String) (c : TextCursor) : Prop where
  source_eq : c.source = source
  text_eq : c.passed.reverse ++ c.rest = text.toList

variable {source : Nat} {text : String} {c d : TextCursor}

namespace Cuts

theorem start (source : Nat) (text : String) : Cuts source text (.start source text) :=
  ⟨rfl, rfl⟩

theorem next? (h : Cuts source text c) {x : Char} (hn : Cursor.next? c = some (x, d)) :
    Cuts source text d := by
  obtain ⟨hrest, hpassed, -, hsource⟩ := eq_of_next? hn
  refine ⟨hsource.trans h.source_eq, ?_⟩
  have htext := h.text_eq
  rw [hrest] at htext
  rw [hpassed, List.reverse_cons, List.append_assoc]
  exact htext

theorem advanced (n : Nat) (h : Cuts source text c) : Cuts source text (advanced n c) := by
  induction n generalizing c with
  | zero => exact h
  | succ n ih =>
    cases hn : Cursor.next? c with
    | none => rwa [Cursor.advanced_of_none hn]
    | some xd =>
      rw [Cursor.advanced_succ_of_some hn]
      exact ih (h.next? hn)

theorem size_eq (h : Cuts source text c) :
    c.offset + (String.ofList c.rest).utf8ByteSize = text.utf8ByteSize := by
  rw [c.counted, ← String.utf8ByteSize_append, ← String.ofList_append, h.text_eq,
    String.ofList_toList]

theorem prefix_of_le (hc : Cuts source text c) (hd : Cuts source text d)
    (hle : c.offset ≤ d.offset) : c.passed.reverse <+: d.passed.reverse := by
  refine prefix_of_size_le ⟨_, hc.text_eq⟩ ⟨_, hd.text_eq⟩ ?_
  rwa [← c.counted, ← d.counted]

theorem eq_passed (hc : Cuts source text c) (hd : Cuts source text d)
    (he : c.offset = d.offset) : c.passed = d.passed := by
  have h := hc.prefix_of_le hd (Nat.le_of_eq he)
  have h' := hd.prefix_of_le hc (Nat.le_of_eq he.symm)
  exact List.reverse_inj.mp (h.eq_of_length_le h'.length_le)

theorem textBetween?_start (h : Cuts source text c) :
    textBetween? text 0 c.offset = some (String.ofList c.passed.reverse) := by
  have htext : [] ++ c.passed.reverse ++ c.rest = text.toList := h.text_eq
  have hb := textBetween?_eq htext
  rwa [List.nil_append, ← c.counted] at hb

theorem textBetween?_end (h : Cuts source text c) :
    textBetween? text c.offset text.utf8ByteSize = some (String.ofList c.rest) := by
  have htext : c.passed.reverse ++ c.rest ++ [] = text.toList := by rw [List.append_nil, h.text_eq]
  have hb := textBetween?_eq htext
  rwa [h.text_eq, String.ofList_toList, ← c.counted] at hb

theorem atEnd_iff (h : Cuts source text c) : c.atEnd = true ↔ text.utf8ByteSize ≤ c.offset := by
  have hsize := h.size_eq
  constructor
  · intro ha
    rw [List.isEmpty_iff.mp ha] at hsize
    simp at hsize
    omega
  · intro hle
    have h0 : (String.ofList c.rest).utf8ByteSize = 0 := by omega
    exact List.isEmpty_iff.mpr (by simpa using h0)

theorem exists_slice (hc : Cuts source text c) (hd : Cuts source text d) :
    ∃ w, c.slice? d = some w ∧
      if d.offset < c.offset then w = []
      else textBetween? text c.offset d.offset = some (String.ofList w) := by
  by_cases hlt : d.offset < c.offset
  · refine ⟨[], ?_, by rw [if_pos hlt]⟩
    have hzero : d.offset - c.offset = 0 := by omega
    rw [slice?, hzero, takeBytes?]
  · obtain ⟨w, hw⟩ := hc.prefix_of_le hd (by omega)
    have hrest : w ++ d.rest = c.rest := by
      have htext := hc.text_eq.trans hd.text_eq.symm
      rw [← hw, List.append_assoc] at htext
      exact (List.append_cancel_left htext).symm
    have hsize : d.offset - c.offset = (String.ofList w).utf8ByteSize := by
      have hd' := d.counted
      rw [← hw, String.ofList_append, String.utf8ByteSize_append, ← c.counted] at hd'
      omega
    have hbetween : textBetween? text c.offset d.offset = some (String.ofList w) := by
      have hb := textBetween?_eq (by rw [hw, hd.text_eq])
      rwa [hw, ← c.counted, ← d.counted] at hb
    refine ⟨w, ?_, by rwa [if_neg hlt]⟩
    rw [slice?, hsize]
    exact takeBytes?_of_prefix ⟨d.rest, hrest⟩

end Cuts

theorem Reached.cuts (h : Reached source text c) : Cuts source text c := by
  induction h with
  | start => exact .start source text
  | stop => exact (Cuts.start source text).advanced _
  | @advance c d _ hd ih =>
    obtain ⟨xd, hn, rfl⟩ := Option.map_eq_some_iff.mp hd
    exact ih.next? hn
  | advanceBy n _ ih => exact ih.advanced n
  | advanced n _ ih => exact ih.advanced n

theorem position_eq (c : TextCursor) :
    c.position = ⟨1 + c.passed.reverse.count '\n',
      1 + (c.passed.reverse.rtakeWhile (· ≠ '\n')).length, c.offset⟩ := by
  rw [c.tracked, Position.pastAll_start, ← c.counted]

theorem passed_advanced (n : Nat) (c : TextCursor) :
    (advanced n c).passed.reverse = c.passed.reverse ++ (remaining c).take n := by
  induction n generalizing c with
  | zero => simp
  | succ n ih =>
    cases hn : Cursor.next? c with
    | none => simp [Cursor.advanced_of_none hn, Cursor.remaining_of_none hn]
    | some xd =>
      obtain ⟨x, d⟩ := xd
      obtain ⟨-, hpassed, -, -⟩ := eq_of_next? hn
      rw [Cursor.advanced_succ_of_some hn, ih, hpassed, Cursor.remaining_of_some hn]
      simp

theorem passed_of_precedes (h : Cursor.Precedes c d) :
    d.passed.reverse = c.passed.reverse ++ Cursor.span d c := by
  have happend := h.span_append_remaining
  have hpassed := passed_advanced (Cursor.span d c).length c
  rwa [h.advanced_span, ← happend, List.take_left] at hpassed

theorem slice?_of_precedes (h : Cursor.Precedes c d) : c.slice? d = some (Cursor.span d c) := by
  have hslice := slice?_advanced (c := c) ⟨_, h.span_append_remaining⟩
  rwa [h.advanced_span] at hslice

theorem peek?_eq_head? (c : TextCursor) : peek? c = (remaining c).head? := by
  cases hr : c.rest <;> simp [peek?, remaining, Cursor.next?, next?, hr]

theorem advanced_eq_stop {n : Nat} (h : text.toList.length ≤ n) :
    advanced n (start source text) = stop source text := by
  rw [stop, Cursor.finish, ← Cursor.advanced_min, Nat.min_eq_right]
  exact h

/-- Wherever one goes in a text, the cursor is between two characters, and its position is the line,
the column and the byte offset of the text before it. Cursors that are equal agree on all three,
cutting the text at them never fails, and what lies ahead is the text from the offset on. -/
theorem reached_positions (source : Nat) (text : String) :
    (stop source text).offset = text.utf8ByteSize ∧
    (∀ n, text.toList.length ≤ n → advanced n (start source text) = stop source text) ∧
    ∀ c, Reached source text c →
      c.offset ≤ text.utf8ByteSize ∧ (⟨c.offset⟩ : String.Pos.Raw).IsValid text ∧
      (∃ before, textBetween? text 0 c.offset = some before ∧
        c.position = ⟨1 + before.toList.count '\n',
          1 + (before.toList.rtakeWhile (· ≠ '\n')).length, c.offset⟩) ∧
      (∃ ahead, textBetween? text c.offset text.utf8ByteSize = some ahead ∧
        remaining c = ahead.toList ∧ peek? c = ahead.toList.head?) ∧
      (peek? c = none ↔ c.atEnd = true) ∧
      (c.atEnd = true ↔ text.utf8ByteSize ≤ c.offset) ∧
      (∀ d, Reached source text d → ∃ w, c.slice? d = some w ∧
        if d.offset < c.offset then w = []
        else textBetween? text c.offset d.offset = some (String.ofList w)) ∧
      ∀ source' text' d, (source = source' → text = text') → Reached source' text' d →
        (c == d) = true → c.position = d.position := by
  have hstop : Cuts source text (stop source text) := Reached.stop.cuts
  refine ⟨?_, fun n => advanced_eq_stop, fun c hc => ?_⟩
  · have hrest : remaining (stop source text) = [] := by
      rw [stop, Cursor.finish, Cursor.remaining_advanced, List.drop_length]
    have hend : (stop source text).atEnd = true := List.isEmpty_iff.mpr hrest
    have hle := hstop.atEnd_iff.mp hend
    have hsize := hstop.size_eq
    omega
  have hcuts := hc.cuts
  have hbefore : c.passed.reverse <+: text.toList := ⟨_, hcuts.text_eq⟩
  have hsize := hcuts.size_eq
  have hvalid := isValid_of_prefix hbefore
  rw [← c.counted] at hvalid
  have hpeek := peek?_eq_head? c
  refine ⟨by omega, hvalid, ⟨_, hcuts.textBetween?_start, ?_⟩, ⟨_, hcuts.textBetween?_end, ?_, ?_⟩,
    ?_, hcuts.atEnd_iff, fun d hd => hcuts.exists_slice hd.cuts, ?_⟩
  · rw [String.toList_ofList]
    exact position_eq c
  · exact String.toList_ofList.symm
  · rw [String.toList_ofList]
    exact hpeek
  · rw [hpeek, List.head?_eq_none_iff]
    exact List.isEmpty_iff.symm
  · intro source' text' d htext hd he
    simp only [BEq.beq, Bool.and_eq_true, decide_eq_true_eq] at he
    obtain ⟨hoffset, hsource⟩ := he
    have hdcuts := hd.cuts
    have hs : source = source' := hcuts.source_eq.symm.trans (hsource.trans hdcuts.source_eq)
    subst hs
    rw [← htext rfl] at hdcuts
    rw [c.tracked, d.tracked, hcuts.eq_passed hdcuts hoffset]

theorem reached_positions_two_lines :
    let c := advanced 3 (start 0 "é\nb😀")
    Reached 0 "é\nb😀" c ∧ c.position = ⟨2, 2, 4⟩ ∧
      (stop 0 "é\nb😀").offset = ("é\nb😀" : String).utf8ByteSize ∧
      (∃ before, textBetween? "é\nb😀" 0 c.offset = some before ∧
        c.position.line = 1 + before.toList.count '\n') ∧
      (peek? c = none ↔ c.atEnd = true) ∧
      ∃ w, c.slice? (stop 0 "é\nb😀") = some w ∧
        textBetween? "é\nb😀" c.offset 8 = some (String.ofList w) := by
  intro c
  have hc : Reached 0 "é\nb😀" c := .advanced 3 .start
  obtain ⟨hstop, -, hall⟩ := reached_positions 0 "é\nb😀"
  obtain ⟨-, -, ⟨before, hbefore, hposition⟩, -, hpeek, -, hslice, -⟩ := hall c hc
  obtain ⟨w, hw, hbetween⟩ := hslice _ .stop
  refine ⟨hc, rfl, hstop, ⟨before, hbefore, by rw [hposition]⟩, hpeek, w, hw, ?_⟩
  rwa [hstop] at hbetween

end TextCursor

end TableAutomata
