/-
  RuleBody.Parse.Fragment
  ───────────────────────
  **FRAGMENTS OF SOURCE TEXT.**

  A fragment is a text and the place it was taken from.  It is read as a
  block, as exactly one statement, or as exactly one expression; an
  expression is read as the statement that a semicolon makes of it.
-/
import RuleBody.Parse
import RuleBody.Error

namespace RuleBody

/-- Read a fragment as a block. -/
def Block.parse (src : String) (origin : Location) : Except Error Block :=
  match Token.scan src with
  | .error e => .error (.scan src e)
  | .ok tokens =>
      match Parse.stmts tokens with
      | .error e => .error (.parse src origin e)
      | .ok stmts => .ok ⟨stmts, {}⟩

/-- Read a fragment as one statement. -/
def Stmt.parse (src : String) (origin : Location) : Except Error Stmt := do
  let block ← Block.parse src origin
  match block.stmts with
  | [s] => return s
  | stmts => .error (.stmtCount origin stmts.length src)

/-- Read a fragment as one expression. -/
def Expr.parse (src : String) (origin : Location) : Except Error Expr := do
  let s ← Stmt.parse (src ++ ";") origin
  match s with
  | .basic [] _ => return .nil
  | .basic [e] _ => return e
  | _ => .error (.notExpr origin src)

end RuleBody
