/-
  RuleBody.Induction
  ──────────────────
  **INDUCTION VARIABLES.**

  The variable that drives a loop, the way it moves, the amount it moves by
  in each round, and the text of the expression that moves it.
-/

namespace RuleBody

/-- The way an induction variable moves. -/
inductive Direction where
  | increasing
  | decreasing
  deriving DecidableEq, Repr

namespace Direction

/-- The operator that moves a value along. -/
def sign : Direction → String
  | .increasing => "+"
  | .decreasing => "-"

/-- The comparison that keeps a loop running while the variable, moved by a
whole group of rounds, has not passed the bound. -/
def comparison : Direction → String
  | .increasing => "<"
  | .decreasing => ">="

end Direction

/-- What drives a loop. -/
structure Induction where
  /-- The name of the variable, such as `i`. -/
  name : String
  direction : Direction
  /-- The text of what moves the variable, such as `i += 2`. -/
  increment : String
  /-- The amount the variable moves by in each round, such as `2`. -/
  step : String
  deriving DecidableEq, Repr

/-- An induction as it stands in messages. -/
def Induction.display (i : Induction) : String :=
  i.name ++ " (" ++ i.direction.sign ++ i.step ++ ") via `" ++ i.increment ++ "`"

end RuleBody
