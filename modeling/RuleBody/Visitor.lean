/-
  RuleBody.Visitor
  ────────────────
  **VISITORS.**

  A visitor walks a tree depth first and may change it on the way.  Its
  hooks get the slot that holds a node: emptying the slot deletes the node,
  filling it replaces the node, and the queues beside it take new siblings.
  A hook may fail; the tree is then left as it stands, with nothing lost.

  A statement that sits alone in its place, such as the body of a loop, is
  visited as a list of one.  If nothing is left of it, the empty statement
  takes its place; if several are left, they become a block.

  Visitors can add work without end, so every walk carries a number of
  steps.  `Node.steps` is enough for a visitor that adds nothing to visit.
-/
import RuleBody.Node
import RuleBody.Visitor.Splice

namespace RuleBody

/-- The hooks of a visitor with a state of its own. -/
structure Visitor (σ : Type) where
  exprs : Hooks σ Expr := {}
  stmts : Hooks σ Stmt := {}
  /-- Called with a block before its statements are visited. -/
  beforeBlock : σ → Block → Run (Step σ Block) := fun s b => pure ⟨s, b, none⟩
  /-- Called with a block after its statements were visited. -/
  afterBlock : σ → Block → Run (Step σ Block) := fun s b => pure ⟨s, b, none⟩
  /-- Whether to walk the children of a node.  Its own hooks are called
  either way. -/
  descends : σ → Node → Run (σ × Bool) := fun s _ => pure (s, true)

/-- Steps that are enough to walk a tree with a visitor that adds nothing
to visit. -/
def Node.steps (n : Node) : Nat := n.size + 2

section

variable {σ : Type}

/-- Walk into a node if the visitor wants to. -/
def Visitor.descend {α : Type} (v : Visitor σ) (asNode : α → Node)
    (accept : σ → α → Run (Step σ α)) (s : σ) (x : α) : Run (Step σ α) := do
  let (s, wanted) ← v.descends s (asNode x)
  if wanted then accept s x else return ⟨s, x, none⟩

/-! ## §1. Expressions. -/

/-- Walk the parts of an expression. -/
def Expr.accept (v : Visitor σ) : Nat → σ → Expr → Run (Step σ Expr)
  | 0, _, _ => Run.fault .exhausted
  | fuel + 1, s, e => do
      let r ← visitList v.exprs (v.descend .expr (Expr.accept v fuel)) fuel s e.parts
      return r.map fun parts => { e with parts }

/-- Walk a list of expressions. -/
def Visitor.visitExprs (v : Visitor σ) (fuel : Nat) (s : σ) (es : List Expr) :
    Run (Step σ (List Expr)) :=
  visitList v.exprs (v.descend .expr (Expr.accept v fuel)) fuel s es

/-! ## §2. Statements. -/

/-- The statement that takes the place of what a visit left of one. -/
def Stmt.ofVisited : List Stmt → Stmt
  | [] => .empty
  | [s] => s
  | ss => .ofBlock ⟨ss, {}⟩

/-- Visit a statement that sits alone in its place. -/
def visitSlot (visitStmts : σ → List Stmt → Run (Step σ (List Stmt))) (s : σ) (x : Stmt) :
    Run (Step σ Stmt) := do
  let r ← visitStmts s [x]
  return r.map Stmt.ofVisited

/-- Visit a block with its own hooks. -/
def Visitor.visitBlock (v : Visitor σ)
    (visitStmts : σ → List Stmt → Run (Step σ (List Stmt))) (s : σ) (b : Block) :
    Run (Step σ Block) := do
  let entered ← v.beforeBlock s b
  entered.andThen id fun s b => do
    let inner ← v.descend .block (fun s b => do
      let r ← visitStmts s b.stmts
      return r.map fun stmts => { b with stmts }) s b
    inner.andThen id v.afterBlock

/-- Walk the expressions of a statement, then the statements inside it.  A
loop forgets its induction. -/
def Stmt.accept (v : Visitor σ) : Nat → σ → Stmt → Run (Step σ Stmt)
  | 0, _, _ => Run.fault .exhausted
  | fuel + 1, s, stmt => do
      let visitStmts := visitList v.stmts (v.descend .stmt (Stmt.accept v fuel)) fuel
      let r ← v.visitExprs fuel s stmt.exprs
      match stmt with
      | .basic _ tags => return r.map (.basic · tags)
      | .raw _ src tags => return r.map (.raw · src tags)
      | .block _ ss b tags =>
          r.andThen (.block · ss b tags) fun s es => do
            let q ← v.visitBlock visitStmts s ⟨ss, b⟩
            return q.map fun b => .block es b.stmts b.tags tags
      | .loop _ body _ tags =>
          r.andThen (.loop · body none tags) fun s es => do
            let q ← visitSlot visitStmts s body
            return q.map fun body => .loop es body none tags
      | .cond _ yes none tags =>
          r.andThen (.cond · yes none tags) fun s es => do
            let q ← visitSlot visitStmts s yes
            return q.map fun yes => .cond es yes none tags
      | .cond _ yes (some no) tags =>
          r.andThen (.cond · yes (some no) tags) fun s es => do
            let q ← visitSlot visitStmts s yes
            q.andThen (.cond es · (some no) tags) fun s yes => do
              let p ← visitSlot visitStmts s no
              return p.map fun no => .cond es yes (some no) tags
      | .switch _ body tags =>
          r.andThen (.switch · body tags) fun s es => do
            let q ← visitSlot visitStmts s body
            return q.map fun body => .switch es body tags

/-- Walk a list of statements. -/
def Visitor.visitStmts (v : Visitor σ) (fuel : Nat) (s : σ) (ss : List Stmt) :
    Run (Step σ (List Stmt)) :=
  visitList v.stmts (v.descend .stmt (Stmt.accept v fuel)) fuel s ss

/-! ## §3. Blocks and nodes. -/

/-- Walk the statements of a block. -/
def Block.accept (v : Visitor σ) (fuel : Nat) (s : σ) (b : Block) : Run (Step σ Block) := do
  let r ← v.visitStmts fuel s b.stmts
  return r.map fun stmts => { b with stmts }

/-- Walk the children of a node. -/
def Node.accept (v : Visitor σ) (fuel : Nat) (s : σ) : Node → Run (Step σ Node)
  | .expr e => do return (← e.accept v fuel s).map .expr
  | .stmt x => do return (← x.accept v fuel s).map .stmt
  | .block b => do return (← b.accept v fuel s).map .block

/-- Walk a whole rule body, the hooks of the block itself included. -/
def Visitor.apply (v : Visitor σ) (fuel : Nat) (s : σ) (b : Block) : Run (Step σ Block) := do
  Run.say .debug ("Visiting block with " ++ toString b.stmts.length ++ " statements")
  v.visitBlock (v.visitStmts fuel) s b

end

end RuleBody
