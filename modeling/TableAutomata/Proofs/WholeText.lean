import TableAutomata.Automaton.WholeText
import TableAutomata.Proofs.Recurrence
import TableAutomata.Proofs.ScanStep
import TableAutomata.Proofs.TextArray

/-! Runs over a whole text, from its first character to its end. -/

namespace TableAutomata

open Cursor (Precedes advanced remaining span)

namespace TextCursor

theorem precedes_stop (source : Nat) (text : String) :
    Precedes (start source text) (stop source text) :=
  ⟨_, rfl⟩

theorem span_stop_start (source : Nat) (text : String) :
    span (stop source text) (start source text) = text.toList := by
  have hstop : remaining (stop source text) = [] := by
    rw [stop, Cursor.finish, Cursor.remaining_advanced, List.drop_length]
  have h := (precedes_stop source text).span_append_remaining
  rwa [hstop, List.append_nil] at h

theorem takeBytes?_of_prefix {w s : List Char} (h : w <+: s) :
    takeBytes? (String.ofList w).utf8ByteSize s = some w := by
  induction w generalizing s with
  | nil => simp [takeBytes?]
  | cons x w ih =>
    obtain ⟨t, rfl⟩ := h
    have hpos : 0 < x.utf8Size := Char.utf8Size_pos x
    have hsize : (String.ofList (x :: w)).utf8ByteSize =
        x.utf8Size + (String.ofList w).utf8ByteSize := by simp [String.ofList_cons]
    obtain ⟨n, hn⟩ : ∃ n, (String.ofList (x :: w)).utf8ByteSize = n + 1 :=
      ⟨(String.ofList (x :: w)).utf8ByteSize - 1, by omega⟩
    have hrest : n + 1 - x.utf8Size = (String.ofList w).utf8ByteSize := by omega
    rw [hn, List.cons_append, takeBytes?, if_pos (by omega), hrest, ih (List.prefix_append w t)]
    rfl

theorem slice?_advanced {c : TextCursor} {w : List Char} (h : w <+: c.rest) :
    c.slice? (advanced w.length c) = some w := by
  have htake : c.rest.take w.length = w := (List.prefix_iff_eq_take.mp h).symm
  rw [slice?, offset_advanced, htake, Nat.add_sub_cancel_left]
  exact takeBytes?_of_prefix h

end TextCursor

theorem Recognizer.value?_acceptedStart {r : Recognizer TextCursor Char Unit} {text : String}
    {o : Outcome TextCursor} (hr : r.table.CallbackFree)
    (h : r.Yields () (.stop 0 text) (.start 0 text) o) :
    (r.acceptedStart text).value? =
      some (if o.accepted then (TextCursor.start 0 text).slice? o.position else none) := by
  have hlen : (span (TextCursor.stop 0 text) (.start 0 text)).length < text.toList.length + 1 := by
    rw [TextCursor.span_stop_start]
    exact Nat.lt_succ_self _
  have hw : (r.exec (text.toList.length + 1) () (.stop 0 text) (.start 0 text)).value? = some o :=
    Matcher.Yields.within h hr hlen
  rw [acceptedStart, Recording.value?_bind, hw]
  rfl

end TableAutomata
