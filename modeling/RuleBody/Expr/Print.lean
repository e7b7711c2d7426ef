/-
  RuleBody.Expr.Print
  ───────────────────
  **WRITING EXPRESSIONS, AND THEIR PARTS.**

  Arguments are separated by a comma and a blank, a call is its callee and
  its arguments in parentheses, and every other node is its own text and
  then its parts, separated by blanks.  Only a call that lost its callee or
  its arguments cannot be written.
-/
import RuleBody.Expr

namespace RuleBody.Expr

/-! ## §1. Writing. -/

mutual

/-- The text of an expression. -/
def print : Expr → Except Fault String
  | ⟨kind, text, parts, _⟩ =>
      match kind with
      | .args => printJoined ", " parts
      | .call => if parts.length < 2 then .error .bareCall else printCall parts
      | _ => do return text ++ (← printJoined " " parts)

/-- The texts of some expressions with a separator between them. -/
def printJoined (separator : String) : List Expr → Except Fault String
  | [] => .ok ""
  | [p] => print p
  | p :: ps => do
      let first ← print p
      let others ← printJoined separator ps
      return first ++ separator ++ others

/-- The text of the parts of a call: all but the last are the callee. -/
def printCall : List Expr → Except Fault String
  | [] => .ok ""
  | [arguments] => do return "(" ++ (← print arguments) ++ ")"
  | p :: ps => do
      let first ← print p
      let others ← printCall ps
      return first ++ others

end

/-! ## §2. Parts. -/

/-- A part by its number. -/
def part (e : Expr) (n : Nat) : Except Fault Expr :=
  match e.parts[n]? with
  | some p => .ok p
  | none => do .error (.noPart n e.parts.length (some (← e.print)))

/-- Put an expression in the place of a part. -/
def setPart (e : Expr) (n : Nat) (p : Expr) : Except Fault Expr :=
  if n < e.parts.length then .ok { e with parts := e.parts.set n p }
  else .error (.noPart n e.parts.length none)

/-- Add a part behind the others. -/
def append (e p : Expr) : Expr := { e with parts := e.parts ++ [p] }

/-- Add a part before the others. -/
def prepend (e p : Expr) : Expr := { e with parts := p :: e.parts }

/-- Drop the last part, if there is one. -/
def dropLast (e : Expr) : Expr := { e with parts := e.parts.dropLast }

/-! ## §3. Sides. -/

/-- An expression can be split at an operator if it is an assignment, a
comparison or a comma chain and the operator is one of its parts. -/
def checkSplit (e : Expr) (split : String) : Except Fault Unit :=
  if !(e.isAssignment || e.isComparison || e.containsLeaf ",") then do
    .error (.noSides (← e.print))
  else if !e.hasDirect split then do
    .error (.notDirect split (← e.print))
  else .ok ()

/-- The parts before the first occurrence of an operator. -/
def partsBefore (e : Expr) (split : String) : List Expr :=
  e.parts.takeWhile fun p => !p.isLeafText split

/-- The parts behind the first occurrence of an operator. -/
def partsBehind (e : Expr) (split : String) : List Expr :=
  (e.parts.dropWhile fun p => !p.isLeafText split).drop 1

/-- The side before the first occurrence of an operator, as a chain. -/
def lhs (e : Expr) (split : String) : Except Fault Expr := do
  e.checkSplit split
  return chain (e.partsBefore split)

/-- The side behind the first occurrence of an operator, as a chain. -/
def rhs (e : Expr) (split : String) : Except Fault Expr := do
  e.checkSplit split
  return chain (e.partsBehind split)

end RuleBody.Expr
