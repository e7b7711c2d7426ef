/-
  RuleBody.Pass.Outline
  ─────────────────────
  **THE OUTLINE OF A TREE.**

  One line for each expression and statement: the name of its kind and, for
  an expression, its own text, indented by its depth.
-/
import RuleBody.Pass
import RuleBody.Text.Blank

namespace RuleBody.Outline

/-- What the outline holds during a walk. -/
structure State where
  indent : Int := 0
  lines : List String := []
  deriving DecidableEq, Repr

/-- Write the line of a node and go one level down. -/
def enter {α : Type} (asNode : α → Node) : Hook State α := fun s site => do
  let deeper := s.indent + 1
  match site.slot with
  | none => return ⟨{ s with indent := deeper }, site, none⟩
  | some x =>
      let line := Text.spaces s.indent ++ (asNode x).label
      Run.say .info line
      return ⟨⟨deeper, s.lines ++ [line]⟩, site, none⟩

/-- Go one level up. -/
def leave {α : Type} : Hook State α := fun s site =>
  return ⟨{ s with indent := s.indent - 1 }, site, none⟩

/-- The visitor that writes the outline. -/
def visitor : Visitor State where
  exprs := { before := enter .expr, after := leave }
  stmts := { before := enter .stmt, after := leave }

end RuleBody.Outline

namespace RuleBody

/-- Write the outline of a rule body.  The loops inside forget. -/
def Block.outline (b : Block) : Run (Step Outline.State Block) :=
  Outline.visitor.apply (Node.block b).steps {} b

/-- The pass that writes the outline to the log. -/
def Pass.runOutline (b : Block) (m : Manager) : Run Outcome := do
  let r ← b.outline
  return ⟨r.value, m, r.failure.elim (.ok .unchanged) .error⟩

end RuleBody
