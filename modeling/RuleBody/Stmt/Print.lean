/-
  RuleBody.Stmt.Print
  ───────────────────
  **WRITING STATEMENTS.**

  Statements of a block stand on lines of their own and nothing is
  indented.  Every loop is written with its three clauses; a clause that is
  empty leaves its place empty.
-/
import RuleBody.Stmt
import RuleBody.Expr.Print

namespace RuleBody

namespace Stmt

mutual

/-- The text of a statement. -/
def print : Stmt → Except Fault String
  | .basic es _ => do return (← Expr.printJoined " " es) ++ ";"
  | .block es ss _ _ =>
      if es.isEmpty then do return "\x7b\n" ++ (← printLines ss) ++ "\n\x7d"
      else .error .blockParts
  | .raw _ src _ => .ok src
  | .loop (decl :: test :: increment :: _) body _ _ => do
      let d ← decl.print
      let t ← test.print
      let i ← increment.print
      let b ← print body
      return "for(" ++ d ++ "; " ++ t ++ "; " ++ i ++ ") " ++ b
  | .loop _ _ _ _ => .error .loopParts
  | .cond [c] yes none _ => do
      let c ← c.print
      let y ← print yes
      return "if(" ++ c ++ ")\n" ++ y
  | .cond [c] yes (some no) _ => do
      let c ← c.print
      let y ← print yes
      let n ← print no
      return "if(" ++ c ++ ")\n" ++ y ++ "\nelse\n" ++ n
  | .cond _ _ _ _ => .error .condParts
  | .switch [c] body _ => do
      let c ← c.print
      let b ← print body
      return "switch(" ++ c ++ ") " ++ b
  | .switch _ _ _ => .error .switchParts

/-- The texts of some statements, each on a line of its own. -/
def printLines : List Stmt → Except Fault String
  | [] => .ok ""
  | [s] => print s
  | s :: ss => do
      let first ← print s
      let others ← printLines ss
      return first ++ "\n" ++ others

end

end Stmt

/-- The text of a block. -/
def Block.print (b : Block) : Except Fault String :=
  Stmt.printLines b.stmts

end RuleBody
