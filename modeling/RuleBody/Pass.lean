/-
  RuleBody.Pass
  ─────────────
  **PASSES.**

  A pass gets a whole rule body and the heuristics of the run.  It leaves
  the body as it has become, also when it fails, and says whether it changed
  anything.
-/
import RuleBody.Heuristic.Manager
import RuleBody.Visitor

namespace RuleBody

/-- Whether a pass changed something. -/
inductive Effect where
  | changed
  | unchanged
  deriving DecidableEq, Repr

namespace Effect

/-- The name of an effect. -/
def name : Effect → String
  | .changed => "Changed"
  | .unchanged => "Unchanged"

/-- The effect of two passes in a row. -/
def andThen : Effect → Effect → Effect
  | _, .changed => .changed
  | first, .unchanged => first

/-- The effect of a number of changes. -/
def ofCount (n : Nat) : Effect := if 0 < n then .changed else .unchanged

end Effect

/-- What a pass leaves. -/
structure Outcome where
  block : Block
  manager : Manager
  effect : Except Error Effect

/-- The passes. -/
inductive Pass where
  | unrollLoops
  | outline
  deriving DecidableEq, Repr

namespace Pass

/-- Every pass. -/
def all : List Pass := [.unrollLoops, .outline]

/-- The name of a pass, which is also its flag without the two dashes. -/
def name : Pass → String
  | .unrollLoops => "unroll-loops"
  | .outline => "debug-print"

/-- The pass of a name. -/
def ofName? (name : String) : Option Pass := all.find? (·.name == name)

end Pass
end RuleBody
