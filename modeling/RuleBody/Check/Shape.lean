/-
  RuleBody.Check.Shape
  ────────────────────
  **THE SHAPE OF STATEMENTS.**

  A loop has at least its three clauses, a conditional and a switch exactly
  one condition, compound and raw statements no expressions.  A tree of this
  shape can be written; other trees can arise when expressions are taken
  away or added.
-/
import RuleBody.Stmt

namespace RuleBody

/-- Whether a statement of a kind may have a number of expressions. -/
def Stmt.Kind.allows : Stmt.Kind → Nat → Bool
  | .basic, _ => true
  | .block, n | .raw, n => n == 0
  | .loop, n => decide (3 ≤ n)
  | .cond, n | .switch, n => n == 1

/-- Whether a statement itself has its shape. -/
def Stmt.shapely (s : Stmt) : Bool := s.kind.allows s.exprs.length

mutual

/-- Whether a statement and those inside it have their shapes. -/
def Stmt.allShapely : Stmt → Bool
  | .basic es t => Stmt.shapely (.basic es t)
  | .raw es src t => Stmt.shapely (.raw es src t)
  | .block es ss b t => Stmt.shapely (.block es ss b t) && Stmt.listShapely ss
  | .loop es body i t => Stmt.shapely (.loop es body i t) && Stmt.allShapely body
  | .cond es yes none t => Stmt.shapely (.cond es yes none t) && Stmt.allShapely yes
  | .cond es yes (some no) t =>
      Stmt.shapely (.cond es yes (some no) t) && (Stmt.allShapely yes && Stmt.allShapely no)
  | .switch es body t => Stmt.shapely (.switch es body t) && Stmt.allShapely body

/-- Whether some statements and those inside them have their shapes. -/
def Stmt.listShapely : List Stmt → Bool
  | [] => true
  | s :: ss => Stmt.allShapely s && Stmt.listShapely ss

end

/-- Whether all statements of a block have their shapes. -/
def Block.shapely (b : Block) : Bool := Stmt.listShapely b.stmts

/-- Insist on the shapes of the statements of a block. -/
def Block.verify (b : Block) : Except Fault Unit :=
  if b.shapely then .ok () else .error .stmtShape

end RuleBody
