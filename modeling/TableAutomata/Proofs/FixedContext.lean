import TableAutomata.Proofs.Exchange
import TableAutomata.Proofs.RejectedPlaces

/-! Functions that are called with one context for good. The context given to a run comes unchanged to
every function in its table and in the tables nested in it, so a context may as well be written into
the functions beforehand. -/

namespace TableAutomata

open Recording (Ends)

variable {C T Ctx Ctx' K : Type}

variable [Cursor C T] [BEq T] [LE T] [DecidableLE T]

end TableAutomata
