import TableAutomata.Text.Unprintable
import TableAutomata.Text.Combining

/-! Characters and strings between quotes. Four control characters have a sign of their own behind a
backslash, the enclosing quote and the backslash itself are written behind one, and what a reader
could not see or tell from its neighbour is written by its number. -/

namespace TableAutomata.Text

def byNumber (c : Char) : String :=
  "\\u\x7b" ++ String.ofList (Nat.toDigits 16 c.toNat) ++ "\x7d"

def shorthand? : Char → Option Char
  | '\x00' => some '0'
  | '\t' => some 't'
  | '\n' => some 'n'
  | '\r' => some 'r'
  | _ => none

/-- One character inside `quote`. A combining character would join the quote or the character
before it, so it too is shown by number. -/
def escaped (quote c : Char) : String :=
  match shorthand? c with
  | some sign => String.ofList ['\\', sign]
  | none =>
    if c == '\\' || c == quote then String.ofList ['\\', c]
    else if isUnprintable c || isCombining c then byNumber c
    else String.singleton c

def quotedChar (c : Char) : String :=
  "'" ++ escaped '\x27' c ++ "'"

def quotedString (s : String) : String :=
  "\x22" ++ String.join (s.toList.map (escaped '\x22')) ++ "\x22"

end TableAutomata.Text
