import TableAutomata.Proofs.Locality
import TableAutomata.Scan.Rule

/-! Tables over other cursors or another context. A table is carried over by exchanging the callers'
functions in it and in all tables nested in it; all else stays as it is. -/

namespace TableAutomata

variable {C D T Ctx Ctx' K : Type}

/-- The matcher with `φ f` in the place of every function `f`, at any depth. -/
def Matcher.mapFunc (φ : (C → C → Ctx → Outcome C) → D → D → Ctx' → Outcome D) :
    Matcher C T Ctx → Matcher D T Ctx'
  | .length n => .length n
  | .equals t => .equals t
  | .oneOf set => .oneOf set
  | .seq pattern => .seq pattern
  | .range lo hi => .range lo hi
  | .always => .always
  | .func f => .func (φ f)
  | .nested link matcher start => .nested link (fun i => (matcher i).mapFunc φ) start
  | .repeatSeq pattern min max h => .repeatSeq pattern min max h

variable (φ : (C → C → Ctx → Outcome C) → D → D → Ctx' → Outcome D)

def Table.mapFunc (t : Table C T Ctx) : Table D T Ctx' :=
  t.withMatchers fun i => (t.matcher i).mapFunc φ

def Recognizer.mapFunc (r : Recognizer C T Ctx) : Recognizer D T Ctx' :=
  ⟨⟨r.shared.tag, r.shared.table.mapFunc φ⟩, r.start⟩

def Rule.mapFunc (r : Rule C T Ctx K) : Rule D T Ctx' K :=
  ⟨r.kind, r.recognizer.mapFunc φ, r.priority⟩

namespace Matcher

variable {φ}

theorem reading?_mapFunc [BEq T] [LE T] [DecidableLE T] {m : Matcher C T Ctx}
    {read : List T → Outcome Mark} (h : m.reading? = some read) :
    (m.mapFunc φ).reading? = some read := by
  cases m with
  | func f => cases h
  | nested link matcher start => cases h
  | _ => exact h

theorem CallbackFree.alike_mapFunc [BEq T] [LE T] [DecidableLE T] {m : Matcher C T Ctx}
    (h : m.CallbackFree) : Alike ReadAlike m (m.mapFunc φ) := by
  induction m using Matcher.induction with
  | single m read hr => exact .leaf ⟨read, hr, reading?_mapFunc hr⟩
  | func f => cases h
  | table t start ih =>
    exact .table t (fun i => (t.matcher i).mapFunc φ) start fun i => ih i (h i)

end Matcher

end TableAutomata
