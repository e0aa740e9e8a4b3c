import TableAutomata.Describe

/-! Places in a text, by line and column and by byte offset. -/

namespace TableAutomata

/-- Lines and columns count characters from one, the offset counts UTF-8 bytes from zero. -/
structure Position where
  line : Nat
  column : Nat
  offset : Nat
deriving DecidableEq

namespace Position

def start : Position := ⟨1, 1, 0⟩

def past (p : Position) (c : Char) : Position :=
  if c = '\n' then ⟨p.line + 1, 1, p.offset + c.utf8Size⟩
  else ⟨p.line, p.column + 1, p.offset + c.utf8Size⟩

def pastAll (p : Position) (cs : List Char) : Position :=
  cs.foldl past p

/-- The places before, between and behind the characters. -/
def trail (p : Position) : List Char → List Position
  | [] => [p]
  | c :: cs => p :: trail (p.past c) cs

instance : Inhabited Position := ⟨start⟩

instance : Describe Position :=
  ⟨fun p => Describe.fields "Position"
    [("line", describe p.line), ("column", describe p.column), ("offset", describe p.offset)]⟩

end Position

end TableAutomata
