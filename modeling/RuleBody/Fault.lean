/-
  RuleBody.Fault
  ──────────────
  **BROKEN PRECONDITIONS.**

  A fault is a mistake of the caller, not of the text that is compiled: a
  part that is not there, a node that cannot be written, a tag that is not
  set.  A fault ends the computation in which it happens.  Errors, by
  contrast, are answers (`RuleBody.Error`).
-/

namespace RuleBody

/-- Why a computation cannot go on. -/
inductive Fault where
  /-- There is no part `n`; the text of the expression, where it is told. -/
  | noPart (n count : Nat) (within : Option String)
  /-- Only assignments, comparisons and comma chains have two sides. -/
  | noSides (text : String)
  /-- The operator to split at is not a direct part. -/
  | notDirect (split text : String)
  /-- A call without callee or arguments is written. -/
  | bareCall
  /-- A block statement with parts is written. -/
  | blockParts
  /-- A loop with fewer than three clauses is written. -/
  | loopParts
  /-- A conditional whose condition is not one expression is written. -/
  | condParts
  /-- A switch whose selector is not one expression is written. -/
  | switchParts
  /-- The loop does not have the clause asked for. -/
  | noClause (count : Nat)
  /-- The condition asked for is not there. -/
  | noCondition
  /-- The tag to remove is not set. -/
  | noTag (name : String)
  /-- The first text ends before the line. -/
  | lineNotActual (index : Nat)
  /-- The second text ends before the line. -/
  | lineNotExpected (index : Nat)
  /-- Two lines that should agree do not. -/
  | lineDiffers
  /-- An expected line occurs nowhere; the expected lines are shown. -/
  | lineMissing (shown : String)
  /-- A pass is named without its two dashes. -/
  | passWithoutDashes
  /-- The passes were expected to change something. -/
  | noChange
  /-- A statement has a number of parts that its kind does not allow. -/
  | stmtShape
  /-- An error where none was expected. -/
  | unexpectedError
  /-- There is no element at this place of a list. -/
  | outOfRange (index length : Nat)
  /-- A difference of numbers would be below zero. -/
  | underflow
  /-- A traversal was given too few steps. -/
  | exhausted
  deriving DecidableEq, Repr

/-- The words for a fault, for those that have some. -/
def Fault.message : Fault → Option String
  | .noPart n count none =>
      some ("part " ++ toString n ++ " out of range for " ++ toString count ++ " parts")
  | .noPart n count (some text) =>
      some ("part " ++ toString n ++ " out of range for " ++ toString count
        ++ " parts in `" ++ text ++ "`")
  | .noSides text =>
      some ("`" ++ text ++ "` is neither an assignment, a comparison nor a comma chain")
  | .notDirect split text =>
      some ("`" ++ split ++ "` is not a top-level part of `" ++ text ++ "`")
  | .bareCall => some "call expression needs a callee and arguments"
  | .blockParts => some "block statement cannot have parts"
  | .loopParts => some "loop needs decl, test and inc parts"
  | .condParts => some "if needs exactly one condition"
  | .switchParts => some "switch needs exactly one selector"
  | .noClause count => some ("loop has only " ++ toString count ++ " clauses")
  | .noTag name => some ("Tried to remove annotation " ++ name ++ " which is not present")
  | .lineNotActual index =>
      some ("Line " ++ toString index ++ " not found in actual output: ")
  | .lineNotExpected index =>
      some ("Line " ++ toString index ++ " not found in expected output: ")
  | .lineMissing shown => some (shown ++ "\nwhen ")
  | .passWithoutDashes => some "passes should be prefixed with `--`"
  | .noChange => some "Expected changes"
  | .noCondition | .lineDiffers | .stmtShape | .unexpectedError | .outOfRange _ _ | .underflow
  | .exhausted => none

end RuleBody
