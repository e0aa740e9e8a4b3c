import TableAutomata.Input.Cursor
import TableAutomata.Input.Position

/-! Cursors over the characters of a text, which know their line and column. -/

namespace TableAutomata

/-- A text cut in two: the characters passed, nearest first, and the rest. The bytes passed and the
position are carried along from character to character, never counted anew. Two texts with the same
characters are still two sequences; `source` tells them apart. -/
structure TextCursor where
  source : Nat
  passed : List Char
  rest : List Char
  offset : Nat
  position : Position
  counted : offset = (String.ofList passed.reverse).utf8ByteSize
  tracked : position = Position.start.pastAll passed.reverse

namespace TextCursor

def start (source : Nat) (text : String) : TextCursor :=
  ⟨source, [], text.toList, 0, .start, rfl, rfl⟩

def next? (c : TextCursor) : Option (Char × TextCursor) :=
  match c.rest with
  | [] => none
  | x :: rest =>
    some (x, ⟨c.source, x :: c.passed, rest, c.offset + x.utf8Size, c.position.past x, by
      simp [c.counted], by simp [c.tracked, Position.pastAll]⟩)

instance : Cursor TextCursor Char where
  beq a b := a.offset == b.offset && a.source == b.source
  next? := next?
  remaining := rest

def stop (source : Nat) (text : String) : TextCursor :=
  Cursor.finish (start source text)

def atEnd (c : TextCursor) : Bool :=
  c.rest.isEmpty

def compare? (a b : TextCursor) : Option Ordering :=
  if a.source == b.source then some (compare a.offset b.offset) else none

/-- The characters that fill exactly `n` bytes; no answer if there are fewer bytes or if a character
straddles the cut. -/
def takeBytes? : Nat → List Char → Option (List Char)
  | 0, _ => some []
  | _ + 1, [] => none
  | n + 1, x :: rest =>
    if x.utf8Size ≤ n + 1 then (takeBytes? (n + 1 - x.utf8Size) rest).map (x :: ·) else none

/-- The characters of a's text from `a` up to the offset of `b`: none of them if `b` is not ahead,
and no answer if that offset cuts no place in the text. -/
def slice? (a b : TextCursor) : Option (List Char) :=
  takeBytes? (b.offset - a.offset) a.rest

theorem eq_of_next? {c d : TextCursor} {x : Char} (h : Cursor.next? c = some (x, d)) :
    c.rest = x :: d.rest ∧ d.passed = x :: c.passed ∧ d.offset = c.offset + x.utf8Size ∧
      d.source = c.source := by
  simp only [Cursor.next?, next?] at h
  split at h
  · cases h
  · next hr =>
    cases h
    exact ⟨hr, rfl, rfl, rfl⟩

theorem offset_lt_of_next? {c d : TextCursor} {x : Char} (h : Cursor.next? c = some (x, d)) :
    c.offset < d.offset := by
  have hp : 0 < x.utf8Size := Char.utf8Size_pos x
  obtain ⟨-, -, hoffset, -⟩ := eq_of_next? h
  omega

theorem offset_le_advanced (n : Nat) (c : TextCursor) : c.offset ≤ (Cursor.advanced n c).offset := by
  induction n generalizing c with
  | zero => simp
  | succ n ih =>
    cases hn : Cursor.next? c with
    | none => exact Nat.le_of_eq (congrArg offset (Cursor.advanced_of_none hn).symm)
    | some td =>
      obtain ⟨x, d⟩ := td
      rw [Cursor.advanced_succ_of_some hn]
      exact Nat.le_trans (Nat.le_of_lt (offset_lt_of_next? hn)) (ih d)

instance : LawfulCursor TextCursor where
  remaining_eq c := by
    simp only [Cursor.remaining, Cursor.next?, next?]
    cases c.rest <;> rfl
  beq_refl c := by simp [BEq.beq]
  beq_symm h := by
    simp only [BEq.beq, Bool.and_eq_true, decide_eq_true_eq] at h ⊢
    exact ⟨h.1.symm, h.2.symm⟩
  beq_trans h h' := by
    simp only [BEq.beq, Bool.and_eq_true, decide_eq_true_eq] at h h' ⊢
    exact ⟨h.1.trans h'.1, h.2.trans h'.2⟩
  ahead_ne {n c} h := by
    cases hn : Cursor.next? c with
    | none =>
      simp only [Cursor.next?, next?] at hn
      split at hn
      · next hr => simp [Cursor.remaining, hr] at h
      · cases hn
    | some td =>
      obtain ⟨x, d⟩ := td
      have hlt := offset_lt_of_next? hn
      have hle := offset_le_advanced n d
      rw [Cursor.advanced_succ_of_some hn]
      have hne : (Cursor.advanced n d).offset ≠ c.offset := by omega
      simp [BEq.beq, hne]

instance : Describe TextCursor :=
  ⟨fun c => Describe.fields "CharCursor"
    [("offset", describe c.offset), ("line", describe c.position.line),
     ("column", describe c.position.column)]⟩

end TextCursor

end TableAutomata
