/-
  RuleBody.Visitor.Print
  ──────────────────────
  **WRITING WITH A VISITOR.**

  A node can be written with its children left to a visitor: the marks and
  keywords of the node itself are written, and each child is walked in the
  place where its text would stand.  What was written before a failure is
  kept.
-/
import RuleBody.Visitor

namespace RuleBody

/-- Something under a visit and what was written with it. -/
structure Written (α : Type) where
  value : α
  out : String

section

variable {σ α β : Type}

/-- Go on writing after a child was walked. -/
def Step.write (r : Step σ α) (out : String) : Step σ (Written α) :=
  r.map fun x => ⟨x, out⟩

/-- Go on after something was written; a failure stays, with the thing
rebuilt. -/
def Step.thenWrite (r : Step σ (Written α)) (rebuild : α → β) (mark : String)
    (next : σ → α → Run (Step σ (Written β))) : Run (Step σ (Written β)) :=
  match r.failure with
  | some e => pure ⟨r.state, ⟨rebuild r.value.value, r.value.out⟩, some e⟩
  | none => do
      let q ← next r.state r.value.value
      return q.map fun w => ⟨w.value, r.value.out ++ mark ++ w.out⟩

/-- Walk some children with a separator written between them. -/
def writeList (accept : σ → α → Run (Step σ α)) (separator : String) :
    σ → List α → Run (Step σ (Written (List α)))
  | s, [] => pure ⟨s, ⟨[], ""⟩, none⟩
  | s, [x] => do return (← accept s x).map fun x => ⟨[x], ""⟩
  | s, x :: xs => do
      let r ← accept s x
      (r.write "").thenWrite (· :: xs) separator fun s x => do
        return (← writeList accept separator s xs).map fun w => ⟨x :: w.value, w.out⟩

/-- The last step of a sequence: walk one child and close with a mark. -/
def writeLast (accept : σ → α → Run (Step σ α)) (rebuild : α → β) (mark : String) (s : σ)
    (x : α) : Run (Step σ (Written β)) := do
  let r ← accept s x
  return r.map fun x => ⟨rebuild x, if r.failure.isSome then "" else mark⟩

/-- Put a text in front of what was written. -/
def Step.behind (r : Step σ (Written α)) (front : String) : Step σ (Written α) :=
  r.map fun w => ⟨w.value, front ++ w.out⟩

/-- Write an expression with its parts left to a visitor. -/
def Expr.printWith (v : Visitor σ) (fuel : Nat) (s : σ) (e : Expr) :
    Run (Step σ (Written Expr)) := do
  let rebuild := fun parts => { e with parts }
  match e.kind with
  | .args =>
      return (← writeList (Expr.accept v fuel) ", " s e.parts).map fun w =>
        ⟨rebuild w.value, w.out⟩
  | .call =>
      match e.parts.getLast? with
      | none => Run.fault .bareCall
      | some arguments =>
          if e.parts.length < 2 then Run.fault .bareCall
          else
            let r ← writeList (Expr.accept v fuel) "" s e.parts.dropLast
            r.thenWrite (fun callee => rebuild (callee ++ [arguments])) "(" fun s callee =>
              writeLast (Expr.accept v fuel) (fun x => rebuild (callee ++ [x])) ")" s arguments
  | _ =>
      let r ← writeList (Expr.accept v fuel) " " s e.parts
      return (r.map fun w => ⟨rebuild w.value, w.out⟩).behind e.text

/-- Write a statement with its children left to a visitor.  A loop keeps
the induction it remembers. -/
def Stmt.printWith (v : Visitor σ) (fuel : Nat) (s : σ) (stmt : Stmt) :
    Run (Step σ (Written Stmt)) := do
  match stmt with
  | .basic es tags =>
      let r ← writeList (Expr.accept v fuel) " " s es
      r.thenWrite (.basic · tags) ";" fun s es => pure ⟨s, ⟨.basic es tags, ""⟩, none⟩
  | .raw es src tags => return ⟨s, ⟨.raw es src tags, src⟩, none⟩
  | .block es ss b tags =>
      if !es.isEmpty then Run.fault .blockParts
      else
        let r ← writeLast (Block.accept v fuel)
          (fun b => Stmt.block es b.stmts b.tags tags) "\n\x7d" s ⟨ss, b⟩
        return r.behind "\x7b\n"
  | .loop (decl :: test :: increment :: others) body i tags =>
      let r ← writeList (Expr.accept v fuel) "; " s [decl, test, increment]
      let r ← r.thenWrite (fun es => .loop (es ++ others) body i tags) ") " fun s es =>
        writeLast (Stmt.accept v fuel) (fun body => .loop (es ++ others) body i tags) "" s body
      return r.behind "for("
  | .loop _ _ _ _ => Run.fault .loopParts
  | .cond [c] yes no tags =>
      let r ← (Expr.accept v fuel s c)
      let r ← (r.write "").thenWrite (fun c => .cond [c] yes no tags) ")\n" fun s c =>
        match no with
        | none => writeLast (Stmt.accept v fuel) (fun yes => .cond [c] yes none tags) "" s yes
        | some no => do
            let q ← Stmt.accept v fuel s yes
            (q.write "").thenWrite (fun yes => .cond [c] yes (some no) tags) "\nelse\n"
              fun s yes =>
                writeLast (Stmt.accept v fuel) (fun no => .cond [c] yes (some no) tags) "" s no
      return r.behind "if("
  | .cond _ _ _ _ => Run.fault .condParts
  | .switch [c] body tags =>
      let r ← Expr.accept v fuel s c
      let r ← (r.write "").thenWrite (fun c => .switch [c] body tags) ") " fun s c =>
        writeLast (Stmt.accept v fuel) (fun body => .switch [c] body tags) "" s body
      return r.behind "switch("
  | .switch _ _ _ => Run.fault .switchParts

/-- Write a block with its statements left to a visitor. -/
def Block.printWith (v : Visitor σ) (fuel : Nat) (s : σ) (b : Block) :
    Run (Step σ (Written Block)) := do
  return (← writeList (Stmt.accept v fuel) "\n" s b.stmts).map fun w =>
    ⟨{ b with stmts := w.value }, w.out⟩

/-- Write a node with its children left to a visitor. -/
def Node.printWith (v : Visitor σ) (fuel : Nat) (s : σ) : Node → Run (Step σ (Written Node))
  | .expr e => do return (← e.printWith v fuel s).map fun w => ⟨.expr w.value, w.out⟩
  | .stmt x => do return (← x.printWith v fuel s).map fun w => ⟨.stmt w.value, w.out⟩
  | .block b => do return (← b.printWith v fuel s).map fun w => ⟨.block w.value, w.out⟩

end

end RuleBody
