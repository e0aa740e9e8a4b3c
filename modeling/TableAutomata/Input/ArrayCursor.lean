import TableAutomata.Input.Cursor
import TableAutomata.Describe

/-! Cursors over the elements of an array. -/

namespace TableAutomata

/-- An index into `items`, its end included. Two arrays with the same elements are still two
sequences; `source` tells them apart. -/
structure ArrayCursor (α : Type) where
  source : Nat
  items : Array α
  index : Nat
  index_le : index ≤ items.size

namespace ArrayCursor

variable {α : Type}

def start (source : Nat) (items : Array α) : ArrayCursor α :=
  ⟨source, items, 0, Nat.zero_le _⟩

def stop (source : Nat) (items : Array α) : ArrayCursor α :=
  ⟨source, items, items.size, Nat.le_refl _⟩

def next? (c : ArrayCursor α) : Option (α × ArrayCursor α) :=
  if h : c.index < c.items.size then
    some (c.items[c.index], ⟨c.source, c.items, c.index + 1, h⟩)
  else none

instance : Cursor (ArrayCursor α) α where
  beq a b := a.index == b.index && a.source == b.source
  next? := next?
  remaining c := c.items.toList.drop c.index

def atEnd (c : ArrayCursor α) : Bool :=
  c.items.size ≤ c.index

def compare? (a b : ArrayCursor α) : Option Ordering :=
  if a.source == b.source then some (compare a.index b.index) else none

/-- The elements of a's array from `a` up to the index of `b`: none of them if `b` is not ahead, and
no answer if the array has no such index. -/
def slice? (a b : ArrayCursor α) : Option (List α) :=
  if b.index ≤ a.items.size then
    some ((a.items.toList.drop a.index).take (b.index - a.index))
  else none

theorem next?_of_lt {c : ArrayCursor α} (h : c.index < c.items.size) :
    Cursor.next? c = some (c.items[c.index], ⟨c.source, c.items, c.index + 1, h⟩) :=
  dif_pos h

theorem next?_of_not_lt {c : ArrayCursor α} (h : ¬ c.index < c.items.size) :
    Cursor.next? c = none :=
  dif_neg h

theorem eq_of_next? {c d : ArrayCursor α} {x : α} (h : Cursor.next? c = some (x, d)) :
    d.source = c.source ∧ d.items = c.items ∧ d.index = c.index + 1 := by
  simp only [Cursor.next?, next?] at h
  split at h
  · cases h
    exact ⟨rfl, rfl, rfl⟩
  · cases h

theorem index_advanced (n : Nat) (c : ArrayCursor α) :
    (Cursor.advanced n c).index = min (c.index + n) c.items.size := by
  induction n generalizing c with
  | zero => have h := c.index_le; simp; omega
  | succ n ih =>
    by_cases h : c.index < c.items.size
    · rw [Cursor.advanced_succ_of_some (next?_of_lt h), ih]
      simp only
      omega
    · rw [Cursor.advanced_of_none (next?_of_not_lt h)]
      have hle := c.index_le
      omega

instance : LawfulCursor (ArrayCursor α) where
  remaining_eq c := by
    by_cases h : c.index < c.items.size
    · rw [next?_of_lt h]
      simp only [Cursor.remaining]
      rw [List.drop_eq_getElem_cons (by simpa using h)]
      simp
    · rw [next?_of_not_lt h]
      simp only [Cursor.remaining, List.drop_eq_nil_iff, Array.length_toList]
      omega
  beq_refl c := by simp [BEq.beq]
  beq_symm h := by
    simp only [BEq.beq, Bool.and_eq_true, decide_eq_true_eq] at h ⊢
    exact ⟨h.1.symm, h.2.symm⟩
  beq_trans h h' := by
    simp only [BEq.beq, Bool.and_eq_true, decide_eq_true_eq] at h h' ⊢
    exact ⟨h.1.trans h'.1, h.2.trans h'.2⟩
  ahead_ne {n c} h := by
    have hi := index_advanced (n + 1) c
    simp only [Cursor.remaining, List.length_drop, Array.length_toList] at h
    have hne : (Cursor.advanced (n + 1) c).index ≠ c.index := by omega
    simp [BEq.beq, hne]

instance : Describe (ArrayCursor α) :=
  ⟨fun c => Describe.fields "SliceCursor"
    [("index", describe c.index), ("len", describe c.items.size)]⟩

end ArrayCursor

end TableAutomata
