/-! What can be wrong with a table, with a start entry, or with the bounds of a repetition. A run
itself has no errors, only outcomes. -/

namespace TableAutomata

inductive TableError where
  | emptyTable
  /-- A link of entry `entry` leads to entry `target` in a table of only `len` entries. -/
  | danglingTarget (entry target len : Nat)
  | startOutOfRange (start len : Nat)
  | invalidRepeatBounds (min max : Nat)
deriving DecidableEq

def TableError.message : TableError → String
  | emptyTable => "transition table has no entries"
  | danglingTarget entry target len =>
    s!"entry {entry} points at Index({target}), but the table has {len} entries"
  | startOutOfRange start len =>
    s!"start index {start} is out of range for a table of {len} entries"
  | invalidRepeatBounds min max =>
    s!"invalid repeat bounds: min {min} is greater than max {max}"

end TableAutomata
