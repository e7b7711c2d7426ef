/-
  RuleBody.Induction.Increment
  ────────────────────────────
  **THE VARIABLE OF AN INCREMENT CLAUSE.**

  An increment is cut at its direct commas into segments, and every segment
  has to fit an idiom.  Of two segments that move a variable, the one whose
  variable the test mentions wins; if that does not decide, the later one
  does, with a warning.
-/
import RuleBody.Induction.Idiom
import RuleBody.Error
import RuleBody.Segments

namespace RuleBody.Induction

/-- Choose between the variables of two neighbouring segments. -/
def choose (test : Expr) : Option Induction → Option Induction → Run (Option Induction)
  | some l, some r =>
      if test.containsLeaf l.name && !test.containsLeaf r.name then return some l
      else if test.containsLeaf r.name && !test.containsLeaf l.name then return some r
      else do
        Run.say .warn
          ("Increment moves both " ++ l.name ++ " and " ++ r.name ++ "; using " ++ r.name)
        return some r
  | some l, none => return some l
  | none, r => return r

/-- The variable that one segment moves. -/
def ofSegment (e : Expr) : Run (Except Error (Option Induction)) := do
  match ← e.verdict? with
  | some (.drives i) => return .ok (some i)
  | some .scales => return .ok none
  | none => return .error (.unsupported .loopIncrement (← (e.print : Run _)))

/-- The variable that some segments move. -/
def ofSegments (test : Expr) : List Expr → Run (Except Error (Option Induction))
  | [] => return .ok none
  | [e] => ofSegment e
  | e :: es => do
      match ← ofSegment e with
      | .error err => return .error err
      | .ok l =>
          match ← ofSegments test es with
          | .error err => return .error err
          | .ok r => return .ok (← choose test l r)

/-- The segments of an increment; without a comma that is the increment
itself. -/
def segments (increment : Expr) : List Expr :=
  if increment.hasDirect "," then (cutWhere (·.isLeafText ",") increment.parts).map .chain
  else [increment]

/-- The variable that an increment moves.  None for increments that drive no
loop, an error for those that fit no idiom. -/
def ofIncrement (increment test : Expr) : Run (Except Error (Option Induction)) :=
  ofSegments test (segments increment)

end RuleBody.Induction
