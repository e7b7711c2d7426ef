/-
  RuleBody.Pass.Unroll
  ────────────────────
  **UNROLLING LOOPS.**

  A loop `for(i = 0; i < n; i++) body` that is unrolled by four becomes

      {
      i = 0;
      for(; i + 4 < n; ) { body i++; body i++; body i++; body i++; }
      for(; i < n; i++) body
      }

  where the second loop does the iterations that are left.  Both loops get a
  tag, by which the next run of the pass leaves them alone; it takes the tag
  away.  Loops are treated from the inside out, and a loop that came out of
  an unrolling is not looked at again in the same run.
-/
import RuleBody.Loop.Drive
import RuleBody.Number.Read
import RuleBody.Parse.Fragment
import RuleBody.Pass
import RuleBody.Text.Blank

namespace RuleBody.Unroll

/-! ## §1. The unrolled form. -/

/-- The tag of the loops that come out of an unrolling. -/
def justUnrolled : String := "justUnrolled"

/-- How far the variable moves in one unrolled group: a number where the
step is one and the product fits in 64 bits, a product otherwise. -/
def offset (factor : Int) (step : String) : String :=
  match Number.readInt64? step with
  | some n =>
      if Number.fitsInt64 (n * factor) then toString (n * factor) else product
  | none => product
where
  /-- The product as an expression. -/
  product : String := toString factor ++ "*(" ++ step ++ ")"

/-- The text of the test of the unrolled loop: the variable, moved by one
group, has not passed the limit. -/
def testText (factor : Int) (i : Induction) (limit : String) : String :=
  i.name ++ i.direction.sign ++ offset factor i.step ++ i.direction.comparison ++ limit

/-- Move a declaration that has parts out of a loop, to stand before it. -/
def hoist (l : Loop) : Except Fault (List Stmt × Loop) := do
  let decl ← l.clause .decl
  if decl.parts.isEmpty then return ([], l)
  else return ([.ofExpr decl], ← l.setClause .decl .nil)

/-- The increment of a loop as it is repeated in the unrolled body, read
from its text.  None where the body itself moves the variable. -/
def repeated (l : Loop) : Except Fault (Except Error (Option Expr)) := do
  let increment ← l.clause .increment
  if increment.parts.isEmpty then return .ok none
  else return (Expr.parse (← increment.print) {}).map some

/-- A number of copies of a body, each followed by the increment. -/
def copies (factor : Nat) (body : Stmt) (increment : Option Expr) : List Stmt :=
  (List.replicate factor (body :: (increment.map Stmt.ofExpr).toList)).flatten

/-- A loop with the tag of an unrolling. -/
def tagged (l : Loop) : Stmt :=
  { l with tags := l.tags.insert justUnrolled none }.toStmt

/-- The loop that runs the groups. -/
def groups (l : Loop) (test : Expr) (factor : Nat) (increment : Option Expr) :
    Except Fault Loop := do
  let l ← l.setClause .test test
  let l := l.setBody (.ofBlock ⟨copies factor l.body increment, {}⟩)
  l.setClause .increment .nil

/-- The statement that takes the place of a loop, given the text of the test
of its unrolled loop. -/
def unrolled (l : Loop) (factor : Nat) (testText : String) :
    Except Fault (Except Error Stmt) := do
  let (before, l) ← hoist l
  match Expr.parse testText {} with
  | .error e => return .error e
  | .ok test =>
      match ← repeated l with
      | .error e => return .error e
      | .ok increment =>
          let first ← groups l test factor increment
          let second ← l.setClause .decl .nil
          return .ok (.ofBlock ⟨before ++ [tagged first, tagged second], {}⟩)

/-! ## §2. Which loops to unroll. -/

/-- What an unrolling needs to know. -/
structure Plan where
  factor : Int
  induction : Induction
  limit : String
  deriving DecidableEq, Repr

/-- Whether the test compares the variable of the loop with a bound; a
warning says why not. -/
def suits : Loop.Query Bool := do
  let test ← Loop.Query.clause .test
  if test.hasBoolOp || test.hasTernary then
    Run.log .warn fun _ => do
      return "Not unrolling loop with complex test condition `" ++ (← test.print) ++ "`"
    return false
  else
    match test.comparison?.filter test.hasDirect with
    | none =>
        Run.log .warn fun _ => do
          return "Not unrolling loop without a direct comparison in `" ++ (← test.print) ++ "`"
        return false
    | some op =>
        match ← Loop.drive with
        | none =>
            Run.say .warn "Not unrolling loop without induction variable"
            return false
        | some i =>
            let left ← (do (← test.lhs op).print : Except Fault String)
            let right ← (do (← test.rhs op).print : Except Fault String)
            if left == i.name || right == i.name then return true
            else
              Run.log .warn fun _ => do
                return "Not unrolling loop; `" ++ (← test.print) ++ "` does not compare "
                  ++ i.name ++ " directly"
              return false

/-- The bound of a loop that suits; empty if it does not. -/
def usableLimit : Loop.Query String := do
  if ← suits then Loop.limit else return ""

/-- What the heuristic is told about a loop. -/
def features (nesting bodySize operators : Nat) : Features :=
  .ofList [("loopNestingLevel", nesting.toFloat), ("loopBodySize", bodySize.toFloat),
    ("loopBodyOps", operators.toFloat)]

/-- A loop and the heuristics after some questions, and their answer. -/
structure Asked (α : Type) where
  loop : Loop
  manager : Manager
  answer : Except Error α

/-- Ask the heuristic for the factor. -/
def askFactor (m : Manager) (indent nesting operators : Nat) (l : Loop) : Run (Asked Int) := do
  let f := features nesting l.bodySize operators
  match m.ask unrollingNumber (·.evalInt f) with
  | .error e => return ⟨l, m, .error e⟩
  | .ok (m, factor) =>
      Run.say .debug (Text.spaces indent ++ "Unroll factor " ++ toString factor ++ " for "
        ++ f.display)
      return ⟨l, m, .ok factor⟩

/-- How to unroll a loop; none if it is better left alone. -/
def plan (m : Manager) (indent nesting operators : Nat) (l : Loop) :
    Run (Asked (Option Plan)) := do
  let (l, bound) ← l.ask usableLimit
  match bound with
  | .error e => return ⟨l, m, .error e⟩
  | .ok limit =>
      if limit.isEmpty then return ⟨l, m, .ok none⟩
      else
        let ⟨l, m, answer⟩ ← askFactor m indent nesting operators l
        match answer with
        | .error e => return ⟨l, m, .error e⟩
        | .ok factor =>
            if factor < 2 then return ⟨l, m, .ok none⟩
            else
              let (l, driven) ← l.ask Loop.drive
              return ⟨l, m, driven.map (·.map fun i => ⟨factor, i, limit⟩)⟩

/-! ## §3. The visitor. -/

/-- What the pass holds during a walk. -/
structure State where
  manager : Manager
  /-- The kinds of the statements around the current place, innermost
  first. -/
  stack : List (Option Stmt.Kind) := []
  /-- The number of loops unrolled so far. -/
  unrolled : Nat := 0

/-- The number of loops around the current statement, itself included. -/
def State.nesting (s : State) : Nat := s.stack.count (some .loop)

/-- Treat a loop without the tag.  A loop that cannot be put together again
is lost. -/
def treatLoop (s : State) (l : Loop) : Run (Step State (Option Stmt)) := do
  let operators := (Node.stmt l.toStmt).operators
  let ⟨l, manager, answer⟩ ← plan s.manager s.stack.length s.nesting operators l
  let s := { s with manager }
  match answer with
  | .error e => return ⟨s, some l.toStmt, some e⟩
  | .ok none => return ⟨s, some l.toStmt, none⟩
  | .ok (some p) =>
      let text := testText p.factor p.induction p.limit
      Run.say .debug ("Unrolled loop condition " ++ text)
      match ← (unrolled l p.factor.toNat text : Run _) with
      | .error e => return ⟨s, none, some e⟩
      | .ok stmt => return ⟨{ s with unrolled := s.unrolled + 1 }, some stmt, none⟩

/-- Treat a statement whose children were visited. -/
def treat (s : State) (slot : Option Stmt) : Run (Step State (Option Stmt)) :=
  match slot.bind Stmt.loop? with
  | none => return ⟨s, slot, none⟩
  | some l => do
      if l.tags.has justUnrolled then
        Run.say .debug (Text.spaces s.stack.length ++ "Skipping loop that was just unrolled")
        let tags ← (l.tags.remove justUnrolled : Run Tags)
        return ⟨s, some { l with tags }.toStmt, none⟩
      else treatLoop s l

/-- The visitor that unrolls loops from the inside out. -/
def visitor : Visitor State where
  stmts :=
    { before := fun s site =>
        return ⟨{ s with stack := site.slot.map Stmt.kind :: s.stack }, site, none⟩
      after := fun s site => do
        let r ← treat s site.slot
        return ⟨{ r.state with stack := r.state.stack.tail }, { site with slot := r.value },
          r.failure⟩ }

end RuleBody.Unroll

namespace RuleBody

/-- The pass that unrolls loops. -/
def Pass.runUnroll (b : Block) (m : Manager) : Run Outcome := do
  let r ← Unroll.visitor.apply (Node.block b).steps { manager := m } b
  match r.failure with
  | some e => return ⟨r.value, r.state.manager, .error e⟩
  | none =>
      Run.say .info ("Unrolled " ++ toString r.state.unrolled ++ " loop(s)")
      return ⟨r.value, r.state.manager, .ok (Effect.ofCount r.state.unrolled)⟩

end RuleBody
