/-
  RuleBody.Induction.Idiom
  ────────────────────────
  **WAYS TO MOVE A VARIABLE.**

  The table of increments that are understood.  An idiom fits a chain with
  as many parts as its pattern; the first idiom that fits decides.  Scaling
  a variable is understood too, as something that drives no loop.
-/
import RuleBody.Induction
import RuleBody.Expr.Print
import RuleBody.Run

namespace RuleBody

/-- What an idiom says about an expression that it fits. -/
inductive Verdict where
  /-- The expression moves a variable by a fixed amount. -/
  | drives (i : Induction)
  /-- The expression changes a variable in a way that drives no loop. -/
  | scales
  deriving DecidableEq, Repr

/-- One row of the table. -/
structure Idiom where
  /-- The idiom as it is told in messages. -/
  pattern : String
  /-- What the idiom says about a chain. -/
  fit? : Expr → Except Fault (Option Verdict)

namespace Idiom

/-! ## §1. Parts of the idioms. -/

/-- The verdict that `e` moves `target` by `step`. -/
def moves (e target : Expr) (direction : Direction) (step : String) :
    Except Fault (Option Verdict) := do
  return some (.drives ⟨← target.print, direction, ← e.print, step⟩)

/-- The direction in which an operator moves. -/
def direction? (op : Expr) : Option Direction :=
  if op.isLeafText "+" then some .increasing
  else if op.isLeafText "-" then some .decreasing
  else none

/-- An operator behind the variable, such as `i++`. -/
def behind (op : String) (direction : Direction) (e : Expr) : Except Fault (Option Verdict) :=
  match e.parts with
  | [target, mark] => if mark.isLeafText op then moves e target direction "1" else .ok none
  | _ => .ok none

/-- An operator before the variable, such as `++i`. -/
def inFront (op : String) (direction : Direction) (e : Expr) : Except Fault (Option Verdict) :=
  match e.parts with
  | [mark, target] => if mark.isLeafText op then moves e target direction "1" else .ok none
  | _ => .ok none

/-- An assignment that adds or subtracts, such as `i += e`. -/
def assigns (op : String) (direction : Direction) (e : Expr) : Except Fault (Option Verdict) :=
  match e.parts with
  | [target, mark, amount] =>
      if mark.isLeafText op then do moves e target direction (← amount.print) else .ok none
  | _ => .ok none

/-- An assignment that multiplies or divides. -/
def scaling (e : Expr) : Except Fault (Option Verdict) :=
  match e.parts with
  | [_, mark, _] =>
      .ok (if mark.isLeafText "*=" || mark.isLeafText "/=" then some .scales else none)
  | _ => .ok none

/-- An assignment of a sum or difference of `operand`, which has to be the
variable itself, and `amount`, which has to be a literal. -/
def reassigns (e target mark operand op amount : Expr) : Except Fault (Option Verdict) :=
  if mark.isLeafText "=" then do
    if (← operand.print) == (← target.print) && amount.kind == .lit then
      match direction? op with
      | some direction => moves e target direction (← amount.print)
      | none => return none
    else return none
  else .ok none

/-- An assignment with the variable first, such as `i = i + c`. -/
def variableFirst (e : Expr) : Except Fault (Option Verdict) :=
  match e.parts with
  | [target, mark, operand, op, amount] => reassigns e target mark operand op amount
  | _ => .ok none

/-- An assignment with the variable last, such as `i = c + i`. -/
def variableLast (e : Expr) : Except Fault (Option Verdict) :=
  match e.parts with
  | [target, mark, amount, op, operand] => reassigns e target mark operand op amount
  | _ => .ok none

/-! ## §2. The table. -/

/-- The idioms, in the order in which they are tried. -/
def table : List Idiom :=
  [⟨"i++", behind "++" .increasing⟩,
    ⟨"++i", inFront "++" .increasing⟩,
    ⟨"i--", behind "--" .decreasing⟩,
    ⟨"--i", inFront "--" .decreasing⟩,
    ⟨"i += e", assigns "+=" .increasing⟩,
    ⟨"i -= e", assigns "-=" .decreasing⟩,
    ⟨"i *= e", scaling⟩,
    ⟨"i = i + c", variableFirst⟩,
    ⟨"i = c + i", variableLast⟩]

/-- The first idiom of a list that fits, and its verdict. -/
def first? (e : Expr) : List Idiom → Except Fault (Option (Idiom × Verdict))
  | [] => .ok none
  | idiom :: others => do
      match ← idiom.fit? e with
      | some verdict => return some (idiom, verdict)
      | none => first? e others

end Idiom

namespace Expr

/-- The idiom of the table that fits an expression; only chains fit. -/
def idiom? (e : Expr) : Except Fault (Option (Idiom × Verdict)) :=
  if e.kind = .chain then Idiom.first? e Idiom.table else .ok none

/-- The verdict on an expression, logged. -/
def verdict? (e : Expr) : Run (Option Verdict) := do
  match ← (e.idiom? : Run _) with
  | some (idiom, verdict) =>
      Run.log .debug fun _ => do
        return "`" ++ (← e.print) ++ "` matches increment idiom `" ++ idiom.pattern ++ "`"
      return some verdict
  | none => return none

end Expr
end RuleBody
