/-
  RuleBody.Stmt
  ─────────────
  **STATEMENTS AND BLOCKS.**

  A statement holds a list of expressions and, for the control statements,
  other statements; a block is a list of statements.  A loop carries its
  three clauses as expressions and may remember the result of its induction
  analysis.  Nothing forces the number of expressions: a walk may take some
  away or add some, and `Stmt.print` refuses what cannot be written.
-/
import RuleBody.Expr
import RuleBody.Induction

namespace RuleBody

/-- A statement.  The expressions come first, the tags of the node last. -/
inductive Stmt where
  /-- A simple statement such as an assignment or a call. -/
  | basic (exprs : List Expr) (tags : Tags)
  /-- A compound statement; `blockTags` are the tags of the block inside. -/
  | block (exprs : List Expr) (stmts : List Stmt) (blockTags : Tags) (tags : Tags)
  /-- A line that is passed through as it is. -/
  | raw (exprs : List Expr) (src : String) (tags : Tags)
  /-- A loop with the clauses declaration, test and increment. -/
  | loop (exprs : List Expr) (body : Stmt) (induction : Option Induction) (tags : Tags)
  /-- A conditional, with or without an alternative. -/
  | cond (exprs : List Expr) (yes : Stmt) (no : Option Stmt) (tags : Tags)
  /-- A choice by the value of a selector. -/
  | switch (exprs : List Expr) (body : Stmt) (tags : Tags)
  deriving Repr

/-- A list of statements; the root of a rule body. -/
structure Block where
  stmts : List Stmt := []
  tags : Tags := {}
  deriving Repr

/-- The kinds of statements. -/
inductive Stmt.Kind where
  | basic
  | block
  | raw
  | loop
  | cond
  | switch
  deriving DecidableEq, Repr

namespace Stmt

/-! ## §1. Equality. -/

mutual

/-- Equality of statements, tags and remembered inductions included, is
decidable. -/
def decEq : (a b : Stmt) → Decidable (a = b)
  | .basic es t, .basic es' t' =>
      if h : es = es' ∧ t = t' then .isTrue (by rw [h.1, h.2])
      else .isFalse (fun e => h (Stmt.basic.inj e))
  | .raw es src t, .raw es' src' t' =>
      if h : es = es' ∧ src = src' ∧ t = t' then .isTrue (by rw [h.1, h.2.1, h.2.2])
      else .isFalse (fun e => h (Stmt.raw.inj e))
  | .block es ss b t, .block es' ss' b' t' =>
      if h : es = es' ∧ b = b' ∧ t = t' then
        match decEqList ss ss' with
        | .isTrue hs => .isTrue (by rw [h.1, h.2.1, h.2.2, hs])
        | .isFalse hs => .isFalse (fun e => hs (Stmt.block.inj e).2.1)
      else .isFalse (fun e => h ⟨(Stmt.block.inj e).1, (Stmt.block.inj e).2.2⟩)
  | .loop es s i t, .loop es' s' i' t' =>
      if h : es = es' ∧ i = i' ∧ t = t' then
        match decEq s s' with
        | .isTrue hs => .isTrue (by rw [h.1, h.2.1, h.2.2, hs])
        | .isFalse hs => .isFalse (fun e => hs (Stmt.loop.inj e).2.1)
      else .isFalse (fun e => h ⟨(Stmt.loop.inj e).1, (Stmt.loop.inj e).2.2⟩)
  | .cond es s n t, .cond es' s' n' t' =>
      if h : es = es' ∧ t = t' then
        match decEq s s', decEqOption n n' with
        | .isTrue hs, .isTrue hn => .isTrue (by rw [h.1, h.2, hs, hn])
        | .isFalse hs, _ => .isFalse (fun e => hs (Stmt.cond.inj e).2.1)
        | _, .isFalse hn => .isFalse (fun e => hn (Stmt.cond.inj e).2.2.1)
      else .isFalse (fun e => h ⟨(Stmt.cond.inj e).1, (Stmt.cond.inj e).2.2.2⟩)
  | .switch es s t, .switch es' s' t' =>
      if h : es = es' ∧ t = t' then
        match decEq s s' with
        | .isTrue hs => .isTrue (by rw [h.1, h.2, hs])
        | .isFalse hs => .isFalse (fun e => hs (Stmt.switch.inj e).2.1)
      else .isFalse (fun e => h ⟨(Stmt.switch.inj e).1, (Stmt.switch.inj e).2.2⟩)
  | .basic .., .block .. | .basic .., .raw .. | .basic .., .loop .. | .basic .., .cond ..
  | .basic .., .switch .. | .block .., .basic .. | .block .., .raw .. | .block .., .loop ..
  | .block .., .cond .. | .block .., .switch .. | .raw .., .basic .. | .raw .., .block ..
  | .raw .., .loop .. | .raw .., .cond .. | .raw .., .switch .. | .loop .., .basic ..
  | .loop .., .block .. | .loop .., .raw .. | .loop .., .cond .. | .loop .., .switch ..
  | .cond .., .basic .. | .cond .., .block .. | .cond .., .raw .. | .cond .., .loop ..
  | .cond .., .switch .. | .switch .., .basic .. | .switch .., .block .. | .switch .., .raw ..
  | .switch .., .loop .. | .switch .., .cond .. => .isFalse nofun

/-- Equality of optional statements is decidable. -/
def decEqOption : (a b : Option Stmt) → Decidable (a = b)
  | none, none => .isTrue rfl
  | none, some _ => .isFalse nofun
  | some _, none => .isFalse nofun
  | some a, some b =>
      match decEq a b with
      | .isTrue h => .isTrue (by rw [h])
      | .isFalse h => .isFalse (fun e => h (Option.some.inj e))

/-- Equality of lists of statements is decidable. -/
def decEqList : (as bs : List Stmt) → Decidable (as = bs)
  | [], [] => .isTrue rfl
  | [], _ :: _ => .isFalse nofun
  | _ :: _, [] => .isFalse nofun
  | a :: as, b :: bs =>
      match decEq a b with
      | .isFalse h => .isFalse (fun e => h (List.cons.inj e).1)
      | .isTrue h =>
          match decEqList as bs with
          | .isFalse hs => .isFalse (fun e => hs (List.cons.inj e).2)
          | .isTrue hs => .isTrue (by rw [h, hs])

end

instance : DecidableEq Stmt := decEq

/-! ## §2. Construction. -/

/-- The empty statement. -/
def empty : Stmt := .basic [] {}

/-- A simple statement. -/
def ofExpr (e : Expr) : Stmt := .basic [e] {}

/-- A compound statement. -/
def ofBlock (b : Block) : Stmt := .block [] b.stmts b.tags {}

instance : Inhabited Stmt := ⟨empty⟩

/-! ## §3. Fields. -/

/-- The kind of a statement. -/
def kind : Stmt → Kind
  | .basic .. => .basic
  | .block .. => .block
  | .raw .. => .raw
  | .loop .. => .loop
  | .cond .. => .cond
  | .switch .. => .switch

/-- The expressions of a statement itself. -/
def exprs : Stmt → List Expr
  | .basic es _ | .block es _ _ _ | .raw es _ _ | .loop es _ _ _ | .cond es _ _ _
  | .switch es _ _ => es

/-- The tags of a statement. -/
def tags : Stmt → Tags
  | .basic _ t | .block _ _ _ t | .raw _ _ t | .loop _ _ _ t | .cond _ _ _ t
  | .switch _ _ t => t

/-- The statement with other tags. -/
def withTags : Stmt → Tags → Stmt
  | .basic es _, t => .basic es t
  | .block es ss b _, t => .block es ss b t
  | .raw es src _, t => .raw es src t
  | .loop es body i _, t => .loop es body i t
  | .cond es yes no _, t => .cond es yes no t
  | .switch es body _, t => .switch es body t

/-- The statement with other expressions; a loop forgets its induction. -/
def withExprs : Stmt → List Expr → Stmt
  | .basic _ t, es => .basic es t
  | .block _ ss b t, es => .block es ss b t
  | .raw _ src t, es => .raw es src t
  | .loop _ body _ t, es => .loop es body none t
  | .cond _ yes no t, es => .cond es yes no t
  | .switch _ body t, es => .switch es body t

/-- Whether the statement controls others. -/
def isControl (s : Stmt) : Bool :=
  s.kind == .loop || s.kind == .cond || s.kind == .switch

/-- The block of a compound statement. -/
def block? : Stmt → Option Block
  | .block _ ss b _ => some ⟨ss, b⟩
  | _ => none

/-- The block of a compound statement, or a block of only the statement. -/
def toBlock (s : Stmt) : Block :=
  s.block?.getD ⟨[s], {}⟩

/-- Add a statement to a compound statement; others stay as they are. -/
def addStmt : Stmt → Stmt → Stmt
  | .block es ss b t, s => .block es (ss ++ [s]) b t
  | other, _ => other

/-- The condition of a conditional or selector of a switch. -/
def condition? : Stmt → Option (Except Fault Expr)
  | .cond es _ _ _ | .switch es _ _ => some (es.head?.elim (.error .noCondition) .ok)
  | _ => none

/-! ## §4. Parts. -/

/-- The expressions of the statement by number. -/
def part (s : Stmt) (n : Nat) : Except Fault Expr :=
  match s.exprs[n]? with
  | some e => .ok e
  | none => .error (.noPart n s.exprs.length none)

/-- Change an expression of the statement and answer what it has become.  A
loop forgets its induction, even where there is no such expression. -/
def editPart (s : Stmt) (n : Nat) (f : Expr → Expr) : Stmt × Except Fault Expr :=
  match s.exprs[n]? with
  | some e => (s.withExprs (s.exprs.set n (f e)), .ok (f e))
  | none => (s.withExprs s.exprs, .error (.noPart n s.exprs.length none))

/-- Add an expression behind the others. -/
def addExpr (s : Stmt) (e : Expr) : Stmt :=
  s.withExprs (s.exprs ++ [e])

/-- Take the last expression away, if there is one. -/
def popExpr (s : Stmt) : Stmt × Option Expr :=
  (s.withExprs s.exprs.dropLast, s.exprs.getLast?)

/-! ## §5. Expressions at any depth. -/

mutual

/-- Whether an expression of the statement, at any depth, has a property. -/
def anyExpr (p : Expr → Bool) : Stmt → Bool
  | .basic es _ | .raw es _ _ => Expr.anyNodeIn p es
  | .block es ss _ _ => Expr.anyNodeIn p es || anyExprIn p ss
  | .loop es body _ _ => Expr.anyNodeIn p es || anyExpr p body
  | .cond es yes none _ => Expr.anyNodeIn p es || anyExpr p yes
  | .cond es yes (some no) _ => Expr.anyNodeIn p es || (anyExpr p yes || anyExpr p no)
  | .switch es body _ => Expr.anyNodeIn p es || anyExpr p body

/-- Whether an expression of one of the statements has a property. -/
def anyExprIn (p : Expr → Bool) : List Stmt → Bool
  | [] => false
  | s :: ss => anyExpr p s || anyExprIn p ss

end

/-- Whether the leaf occurs in the statement or in a statement inside. -/
def containsLeaf (s : Stmt) (text : String) : Bool :=
  s.anyExpr (·.isLeafText text)

end Stmt

namespace Block

/-- Equality of blocks is decidable. -/
def decEq : (a b : Block) → Decidable (a = b)
  | ⟨ss, t⟩, ⟨ss', t'⟩ =>
      if h : ss = ss' ∧ t = t' then .isTrue (by rw [h.1, h.2])
      else .isFalse (fun e => h (Block.mk.inj e))

instance : DecidableEq Block := decEq

/-- Add a statement at the end. -/
def addStmt (b : Block) (s : Stmt) : Block := { b with stmts := b.stmts ++ [s] }

/-- Whether the leaf occurs in the block. -/
def containsLeaf (b : Block) (text : String) : Bool :=
  Stmt.anyExprIn (·.isLeafText text) b.stmts

end Block
end RuleBody
