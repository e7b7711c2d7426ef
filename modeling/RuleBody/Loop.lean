/-
  RuleBody.Loop
  ─────────────
  **LOOPS.**

  A loop seen by itself: its clauses, its body, and the result of its
  induction analysis, which is computed once and remembered.  A clause that
  is opened for a change makes the loop forget; a change of the body does
  not.
-/
import RuleBody.Stmt

namespace RuleBody

/-- A loop. -/
structure Loop where
  /-- Declaration, test and increment. -/
  clauses : List Expr
  body : Stmt
  /-- The remembered result of the analysis. -/
  induction : Option Induction
  tags : Tags
  deriving DecidableEq, Repr

/-- The loop that a statement is. -/
def Stmt.loop? : Stmt → Option Loop
  | .loop es body i tags => some ⟨es, body, i, tags⟩
  | _ => none

namespace Loop

/-- The loop as a statement. -/
def toStmt (l : Loop) : Stmt := .loop l.clauses l.body l.induction l.tags

@[simp] theorem loop?_toStmt (l : Loop) : l.toStmt.loop? = some l := rfl

/-- A statement is a loop exactly if it is the statement of that loop. -/
theorem loop?_eq_some_iff {s : Stmt} {l : Loop} : s.loop? = some l ↔ s = l.toStmt := by
  constructor
  · intro h
    cases s with
    | loop es body i tags =>
        obtain rfl := Option.some.inj h
        rfl
    | _ => exact absurd h nofun
  · rintro rfl
    exact loop?_toStmt l

/-! ## §1. Clauses and body. -/

/-- The places of the clauses. -/
inductive Clause where
  | decl
  | test
  | increment
  deriving DecidableEq, Repr

/-- The clauses in their order. -/
def Clause.all : List Clause := [.decl, .test, .increment]

/-- The number of a clause. -/
def Clause.index : Clause → Nat
  | .decl => 0
  | .test => 1
  | .increment => 2

/-- A clause of the loop. -/
def clause (l : Loop) (c : Clause) : Except Fault Expr :=
  match l.clauses[c.index]? with
  | some e => .ok e
  | none => .error (.noClause l.clauses.length)

/-- Forget the result of the analysis. -/
def forget (l : Loop) : Loop := { l with induction := none }

/-- Change a clause and answer what it has become.  The loop forgets, even
where the clause is missing. -/
def editClause (l : Loop) (c : Clause) (f : Expr → Expr) : Loop × Except Fault Expr :=
  match l.clauses[c.index]? with
  | some e => ({ l.forget with clauses := l.clauses.set c.index (f e) }, .ok (f e))
  | none => (l.forget, .error (.noClause l.clauses.length))

/-- Put an expression in the place of a clause that has to be there. -/
def setClause (l : Loop) (c : Clause) (e : Expr) : Except Fault Loop :=
  match l.editClause c fun _ => e with
  | (l, .ok _) => .ok l
  | (_, .error f) => .error f

/-- Put another statement in the place of the body. -/
def setBody (l : Loop) (body : Stmt) : Loop := { l with body }

/-- The number of statements of the body; a single statement counts one. -/
def bodySize (l : Loop) : Nat :=
  match l.body with
  | .block _ ss _ _ => ss.length
  | _ => 1

end Loop
end RuleBody
