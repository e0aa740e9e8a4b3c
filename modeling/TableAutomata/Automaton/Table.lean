import TableAutomata.Automaton.Error
import TableAutomata.Automaton.Matcher

/-! Transition tables. A table is written as a list of entries whose links name other entries by
number; it is built only if every number has an entry, and it can be listed again. -/

namespace TableAutomata

/-- Where an entry's link leads: out of the table, or to the entry with this number. -/
inductive Target where
  | terminal
  | index (n : Nat)
deriving DecidableEq

namespace Target

/-- The number that has no entry in a table of `len`. -/
def dangling? (len : Nat) : Target → Option Nat
  | terminal => none
  | index n => if n < len then none else some n

/-- A number without an entry leads out of the table. -/
def resolve (len : Nat) : Target → Option (Fin len)
  | terminal => none
  | index n => if h : n < len then some ⟨n, h⟩ else none

def ofLink {len : Nat} : Option (Fin len) → Target
  | none => terminal
  | some i => index i

instance : Describe Target :=
  ⟨fun
    | terminal => "Terminal"
    | index n => Describe.applied "Index" [describe n]⟩

end Target

variable {C T Ctx : Type}

/-- When the matcher accepts, a run goes to `onSuccess`, and if the entry is accepting it first
notes the place reached; otherwise it goes to `onFailure`. -/
structure Entry (C T Ctx : Type) where
  onSuccess : Target
  onFailure : Target
  matcher : Matcher C T Ctx
  accepting : Bool
  auxA : Nat
  auxB : Nat

namespace Entry

def pass (onSuccess onFailure : Target) (matcher : Matcher C T Ctx) : Entry C T Ctx :=
  ⟨onSuccess, onFailure, matcher, false, 0, 0⟩

def accept (onSuccess onFailure : Target) (matcher : Matcher C T Ctx) : Entry C T Ctx :=
  ⟨onSuccess, onFailure, matcher, true, 0, 0⟩

def withAux (e : Entry C T Ctx) (auxA auxB : Nat) : Entry C T Ctx :=
  { e with auxA := auxA, auxB := auxB }

def link (len : Nat) (e : Entry C T Ctx) : Link len :=
  ⟨e.onSuccess.resolve len, e.onFailure.resolve len, e.accepting, e.auxA, e.auxB⟩

/-- The first link of the entry, success before failure, that leads nowhere in a table of `len`. -/
def dangling? (len : Nat) (e : Entry C T Ctx) : Option Nat :=
  match e.onSuccess.dangling? len with
  | some n => some n
  | none => e.onFailure.dangling? len

instance [Describe T] : Describe (Entry C T Ctx) :=
  ⟨fun e => Describe.fields "TransitionEntry"
    [("on_success", describe e.onSuccess), ("on_failure", describe e.onFailure),
     ("primitive", describe e.matcher), ("accepting", describe e.accepting),
     ("aux_a", describe e.auxA), ("aux_b", describe e.auxB)]⟩

end Entry

/-- A nonempty automaton, its entries addressed by number. Every link leads out of the table or to
one of its entries. -/
structure Table (C T Ctx : Type) where
  size : Nat
  size_pos : 0 < size
  link : Fin size → Link size
  matcher : Fin size → Matcher C T Ctx

namespace Table

def ofEntries (es : List (Entry C T Ctx)) (nonempty : es ≠ []) : Table C T Ctx where
  size := es.length
  size_pos := List.length_pos_iff.mpr nonempty
  link i := es[i].link es.length
  matcher i := es[i].matcher

/-- The first entry with a link that leads nowhere, the entries being numbered from `i`. -/
def firstDangling? (len i : Nat) : List (Entry C T Ctx) → Option TableError
  | [] => none
  | e :: rest =>
    match e.dangling? len with
    | some n => some (.danglingTarget i n len)
    | none => firstDangling? len (i + 1) rest

/-- The table of a list of entries, if there are any and every link leads to one of them. -/
def ofEntries? (es : List (Entry C T Ctx)) : Except TableError (Table C T Ctx) :=
  if h : es = [] then .error .emptyTable
  else
    match firstDangling? es.length 0 es with
    | some e => .error e
    | none => .ok (ofEntries es h)

def entry (t : Table C T Ctx) (i : Fin t.size) : Entry C T Ctx :=
  let l := t.link i
  ⟨.ofLink l.onSuccess, .ofLink l.onFailure, t.matcher i, l.accepting, l.auxA, l.auxB⟩

def entries (t : Table C T Ctx) : List (Entry C T Ctx) :=
  List.ofFn t.entry

def get? (t : Table C T Ctx) (i : Nat) : Option (Entry C T Ctx) :=
  if h : i < t.size then some (t.entry ⟨i, h⟩) else none

def isEmpty (t : Table C T Ctx) : Bool :=
  t.size == 0

def first (t : Table C T Ctx) : Fin t.size :=
  ⟨0, t.size_pos⟩

def start? (t : Table C T Ctx) (n : Nat) : Except TableError (Fin t.size) :=
  if h : n < t.size then .ok ⟨n, h⟩ else .error (.startOutOfRange n t.size)

def toMatcher (t : Table C T Ctx) (start : Fin t.size) : Matcher C T Ctx :=
  .nested t.link t.matcher start

def toStep (t : Table C T Ctx) : Matcher C T Ctx :=
  t.toMatcher t.first

instance [Describe T] : Describe (Table C T Ctx) :=
  ⟨fun t => describe t.entries⟩

end Table

namespace Matcher

def nested? (t : Table C T Ctx) (start : Nat) : Except TableError (Matcher C T Ctx) :=
  (t.start? start).map t.toMatcher

def repeatSeq? (pattern : List T) (min max : Nat) : Except TableError (Matcher C T Ctx) :=
  if h : min ≤ max then .ok (.repeatSeq pattern min max h)
  else .error (.invalidRepeatBounds min max)

end Matcher

end TableAutomata
