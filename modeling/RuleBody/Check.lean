/-
  RuleBody.Check
  ──────────────
  **CHECKED RUNS.**

  Reading and transforming a text where no error is expected: an error is a
  fault here, the texts before and after are logged under a heading, and the
  result has to have its shape.
-/
import RuleBody.Check.Lines
import RuleBody.Check.Shape
import RuleBody.Pipeline

namespace RuleBody.Check

/-- The value of something that must not fail. -/
def insist {α : Type} : Except Error α → Except Fault α
  | .ok x => .ok x
  | .error _ => .error .unexpectedError

/-- Log a text under a heading. -/
def heading (title text : String) : Run Unit :=
  Run.say .info (title ++ ":\n```\n" ++ text ++ "\n```\n")

/-- Read a text and write it again. -/
def parse (src : String) : Run (Block × String) := do
  let src := Text.trim src
  heading "Before parse" src
  let b ← (insist (Block.parse src {}) : Run _)
  let text ← (b.print : Run _)
  heading "After parse" text
  return (b, text)

/-- The heuristics that unroll every loop by a factor. -/
def unrollBy (factor : Nat) : Run Manager :=
  Manager.withDefaults.setOverride unrollingNumber (.const factor.toFloat)

/-- Insist that every argument starts with two dashes. -/
def dashed (arguments : List String) : Except Fault Unit :=
  if arguments.all fun a => (Pipeline.flag? a).isSome then .ok ()
  else .error .passWithoutDashes

/-- Read a text and run some passes on it. -/
def transformWith (m : Manager) (arguments : List String) (src : String) :
    Run (Block × Effect × String) := do
  let src := Text.trim src
  let b ← (insist (Block.parse src {}) : Run _)
  let title := "(transform " ++ Text.quoteList arguments ++ ")"
  heading ("Before " ++ title) src
  (dashed arguments : Run _)
  let r ← (Pipeline.ofNames arguments).run false b m
  let effect ← (insist r.effect : Run _)
  let text ← (r.block.print : Run _)
  heading ("After " ++ title) text
  (r.block.verify : Run _)
  return (r.block, effect, text)

/-- Read a text and run some passes that have to change it. -/
def transform (m : Manager) (arguments : List String) (src : String) :
    Run (Block × String) := do
  let (b, effect, text) ← transformWith m arguments src
  match effect with
  | .changed => return (b, text)
  | .unchanged => Run.fault .noChange

end RuleBody.Check
