/-
  RuleBody.Error
  ──────────────
  **ERRORS.**

  What can be wrong with a text, a loop or a request.  The wording of every
  error is in `Error.message`.
-/
import RuleBody.Token.Scan
import RuleBody.Parse.State
import RuleBody.Text.Quoted

namespace RuleBody

/-- What the induction analysis does not know how to interpret. -/
inductive Construct where
  | loopIncrement
  | loopTest
  | nestedComparison
  | loopBound
  deriving DecidableEq, Repr

/-- The name of a construct in messages. -/
def Construct.name : Construct → String
  | .loopIncrement => "loop increment"
  | .loopTest => "loop test condition"
  | .nestedComparison => "nested comparison"
  | .loopBound => "loop bound"

/-- An error that is answered to the caller. -/
inductive Error where
  /-- The text cannot be read into tokens. -/
  | scan (src : String) (e : Token.ScanError)
  /-- The tokens cannot be grouped into statements. -/
  | parse (src : String) (origin : Location) (e : Parse.ParseError)
  /-- Not exactly one statement. -/
  | stmtCount (origin : Location) (count : Nat) (src : String)
  /-- Not exactly one expression. -/
  | notExpr (origin : Location) (src : String)
  /-- A valid construct that the analysis does not know. -/
  | unsupported (construct : Construct) (text : String)
  /-- Several variables could drive the loop. -/
  | ambiguous (candidates : List String)
  /-- No heuristic has the name. -/
  | unknownHeuristic (name : String)
  /-- No pass has the name. -/
  | unknownPass (name : String)
  /-- An override without name or value. -/
  | overrideForm (text : String)
  /-- An override whose value is no number. -/
  | overrideValue (name value : String)
  /-- The error of a visitor. -/
  | custom (message : String)
  deriving DecidableEq, Repr

/-- The words for an error. -/
def Error.message : Error → String
  | .scan src e => e.location.picture src e.trouble.message
  | .parse src origin e =>
      "\n\n" ++ e.token.location.picture src e.message ++ "\nat "
        ++ (e.token.location.offsetBy origin).display ++ "\n"
  | .stmtCount origin count src =>
      "Expected exactly one statement at " ++ origin.display ++ ", but got " ++ toString count
        ++ " in:\n" ++ src
  | .notExpr origin src =>
      "Expected exactly one expression at " ++ origin.display ++ ", but got:\n" ++ src
  | .unsupported construct text => "unsupported " ++ construct.name ++ ": `" ++ text ++ "`"
  | .ambiguous candidates =>
      "cannot choose an induction variable among " ++ Text.quoteList candidates
  | .unknownHeuristic name => "Unknown heuristic: " ++ name
  | .unknownPass name => "Unknown pass: " ++ name
  | .overrideForm text => "Expected NAME=VALUE but got `" ++ text ++ "`"
  | .overrideValue name value =>
      "Invalid value for heuristic " ++ name ++ ": `" ++ value ++ "`"
  | .custom message => message

end RuleBody
