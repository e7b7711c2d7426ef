/-
  RuleBody.Loop.Drive
  ───────────────────
  **WHAT DRIVES A LOOP.**

  The analysis tries the increment clause first.  Where that names no
  variable, it scans the body for variables that exactly one expression
  moves, and lets the test decide between several.  A variable that was
  found is remembered in the loop.
-/
import RuleBody.Induction.Increment
import RuleBody.Loop.Scan

namespace RuleBody.Loop

/-! ## §1. The variable. -/

/-- The variable that the body moves. -/
def ofBody : Query (Option Induction) := do
  match single (← scan) with
  | [] =>
      let body := (← Query.loop).body
      Run.log .warn fun _ => do
        return "No induction variable found in loop body:\n" ++ (← body.print)
      return none
  | [i] => return some i
  | found =>
      let test ← Query.clause .test
      match found.filter fun i => test.containsLeaf i.name with
      | [i] => return some i
      | _ => Query.fail (.ambiguous (found.map (·.name)))

/-- The variable that the increment clause moves.  Only a chain moves any. -/
def ofIncrement : Query (Option Induction) := do
  let increment ← Query.clause .increment
  if increment.kind = .chain then
    let test ← Query.clause .test
    Query.ofExcept (← Induction.ofIncrement increment test)
  else return none

/-- What drives the loop, computed afresh. -/
def analyse : Query (Option Induction) := do
  let result ← match ← ofIncrement with
    | some i => pure (some i)
    | none => ofBody
  if let some i := result then
    Run.say .debug ("Induction variable " ++ i.display)
  return result

/-- What drives the loop.  Only a variable that was found is remembered. -/
def drive : Query (Option Induction) := do
  match (← Query.loop).induction with
  | some i => return some i
  | none =>
      let found ← analyse
      Query.modify fun l => { l with induction := found }
      return found

/-! ## §2. Its bound. -/

/-- The side of a comparison that the variable is compared with. -/
def bound (test : Expr) (name : String) : Except Fault (Except Error String) := do
  match test.comparison? with
  | none => return .error (.unsupported .loopTest (← test.print))
  | some op =>
      if test.hasDirect op then
        let l ← (← test.lhs op).print
        let r ← (← test.rhs op).print
        if l == name then return .ok r
        else if r == name then return .ok l
        else return .error (.unsupported .loopBound (← test.print))
      else return .error (.unsupported .nestedComparison (← test.print))

/-- The bound of the variable that drives the loop.  Empty if there is no
such variable or no test. -/
def limit : Query String := do
  match ← drive with
  | none => return ""
  | some i =>
      let test ← Query.clause .test
      if test.isNil then return ""
      else Query.ofExcept (← (bound test i.name : Run _))

end RuleBody.Loop
