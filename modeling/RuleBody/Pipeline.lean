/-
  RuleBody.Pipeline
  ─────────────────
  **RUNNING PASSES.**

  A pipeline is the list of the passes that were asked for, by name.  They
  run in order until one fails; a name without a pass is an error when its
  turn comes.
-/
import RuleBody.Pass.Outline
import RuleBody.Pass.Unroll
import RuleBody.Stmt.Print

namespace RuleBody

/-- The names of the passes to run. -/
structure Pipeline where
  names : List String := []
  deriving DecidableEq, Repr

namespace Pipeline

/-- What follows the two dashes of a flag. -/
def flag? (text : String) : Option String :=
  match text.toList with
  | '-' :: '-' :: name => some (String.ofList name)
  | _ => none

/-- The pipeline of some names, with or without the two dashes. -/
def ofNames (texts : List String) : Pipeline :=
  ⟨texts.map fun text => (flag? text).getD text⟩

/-- The pipeline of the flags that name a pass, among other arguments. -/
def ofArguments (arguments : List String) : Pipeline :=
  ⟨(arguments.filterMap flag?).filter fun name => (Pass.ofName? name).isSome⟩

/-- The names, separated by blanks. -/
def display (p : Pipeline) : String := " ".intercalate p.names

/-- Run one pass. -/
def runPass (b : Block) (m : Manager) (name : String) : Run Outcome :=
  match Pass.ofName? name with
  | some .unrollLoops => Pass.runUnroll b m
  | some .outline => Pass.runOutline b m
  | none => return ⟨b, m, .error (.unknownPass name)⟩

/-- Run some passes; `before` is the effect of those that ran already. -/
def runPasses (printBefore : Bool) : Block → Manager → Effect → List String → Run Outcome
  | b, m, before, [] => return ⟨b, m, .ok before⟩
  | b, m, before, name :: others => do
      if printBefore then
        Run.log .info fun _ => do return "IR before " ++ name ++ ":\n" ++ (← b.print) ++ "\n"
      let r ← runPass b m name
      match r.effect with
      | .error e => return ⟨r.block, r.manager, .error e⟩
      | .ok effect => runPasses printBefore r.block r.manager (before.andThen effect) others

/-- Run the passes of a pipeline on a rule body. -/
def run (p : Pipeline) (printBefore : Bool) (b : Block) (m : Manager) : Run Outcome :=
  runPasses printBefore b m .unchanged p.names

end Pipeline
end RuleBody
