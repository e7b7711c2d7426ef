/-
  RuleBody.Node
  ─────────────
  **NODES OF EVERY KIND.**

  An expression, statement or block, seen as a node of one tree: its kind,
  its tags, its children in the order in which they are written, and the
  number of nodes of a kind below it.
-/
import RuleBody.Stmt.Print

namespace RuleBody

/-! ## §1. Kinds. -/

/-- The kinds of nodes. -/
inductive Node.Kind where
  | expr (kind : Expr.Kind)
  | stmt (kind : Stmt.Kind)
  | block
  deriving DecidableEq, Repr

/-- The name of a kind in listings. -/
def Node.Kind.name : Node.Kind → String
  | .expr .nil => "EXPR_NIL"
  | .expr .op => "EXPR_OP"
  | .expr .lit => "EXPR_LIT"
  | .expr .ident => "EXPR_IDENT"
  | .expr .chain => "EXPR_CHAIN"
  | .expr .call => "EXPR_CALL"
  | .expr .args => "EXPR_ARGS"
  | .expr .keyword => "EXPR_KEYWORD"
  | .stmt .basic => "STMT_BASIC"
  | .stmt .block => "STMT_BLOCK"
  | .stmt .raw => "STMT_RAW"
  | .stmt .loop => "STMT_LOOP"
  | .stmt .cond => "STMT_COND"
  | .stmt .switch => "STMT_SWITCH"
  | .block => "BLOCK"

/-- Every kind: expressions, statements, blocks. -/
def Node.Kind.all : List Node.Kind :=
  [.expr .nil, .expr .op, .expr .lit, .expr .ident, .expr .chain, .expr .call, .expr .args,
    .expr .keyword, .stmt .basic, .stmt .block, .stmt .raw, .stmt .loop, .stmt .cond,
    .stmt .switch, .block]

/-- Whether nodes of the kind are expressions. -/
def Node.Kind.isExpr : Node.Kind → Bool
  | .expr _ => true
  | _ => false

/-- Whether nodes of the kind are statements. -/
def Node.Kind.isStmt : Node.Kind → Bool
  | .stmt _ => true
  | _ => false

/-! ## §2. Nodes. -/

/-- A node of a tree. -/
inductive Node where
  | expr (e : Expr)
  | stmt (s : Stmt)
  | block (b : Block)
  deriving DecidableEq, Repr

namespace Node

/-- The kind of a node. -/
def kind : Node → Kind
  | .expr e => .expr e.kind
  | .stmt s => .stmt s.kind
  | .block _ => .block

/-- The tags of a node. -/
def tags : Node → Tags
  | .expr e => e.tags
  | .stmt s => s.tags
  | .block b => b.tags

/-- The node with other tags. -/
def withTags : Node → Tags → Node
  | .expr e, t => .expr { e with tags := t }
  | .stmt s, t => .stmt (s.withTags t)
  | .block b, t => .block { b with tags := t }

/-- The text of a node. -/
def print : Node → Except Fault String
  | .expr e => e.print
  | .stmt s => s.print
  | .block b => b.print

/-- Whether the leaf occurs in the tree. -/
def containsLeaf : Node → String → Bool
  | .expr e, text => e.containsLeaf text
  | .stmt s, text => s.containsLeaf text
  | .block b, text => b.containsLeaf text

/-- The name of the kind and, for an expression, its own text. -/
def label : Node → String
  | .expr e =>
      if e.text.isEmpty then (kind (.expr e)).name
      else (kind (.expr e)).name ++ " " ++ e.text
  | n => n.kind.name

/-- The children of a node, in the order in which they are written. -/
def children : Node → List Node
  | .expr e => e.parts.map .expr
  | .stmt (.basic es _) | .stmt (.raw es _ _) => es.map .expr
  | .stmt (.block es ss b _) => es.map .expr ++ [.block ⟨ss, b⟩]
  | .stmt (.loop es body _ _) => es.map .expr ++ [.stmt body]
  | .stmt (.cond es yes none _) => es.map .expr ++ [.stmt yes]
  | .stmt (.cond es yes (some no) _) => es.map .expr ++ [.stmt yes, .stmt no]
  | .stmt (.switch es body _) => es.map .expr ++ [.stmt body]
  | .block b => b.stmts.map .stmt

end Node

/-! ## §3. Counting. -/

namespace Expr

mutual

/-- The number of nodes of a kind in an expression, itself included. -/
def count (k : Node.Kind) : Expr → Nat
  | ⟨kind, _, parts, _⟩ => (if Node.Kind.expr kind = k then 1 else 0) + countList k parts

/-- The number of nodes of a kind in some expressions. -/
def countList (k : Node.Kind) : List Expr → Nat
  | [] => 0
  | p :: ps => count k p + countList k ps

end

end Expr

namespace Stmt

mutual

/-- The number of nodes of a kind in a statement, itself included. -/
def count (k : Node.Kind) : Stmt → Nat
  | .basic es _ => one .basic k + Expr.countList k es
  | .raw es _ _ => one .raw k + Expr.countList k es
  | .block es ss _ _ =>
      one .block k + Expr.countList k es + ((if Node.Kind.block = k then 1 else 0) + countList k ss)
  | .loop es body _ _ => one .loop k + Expr.countList k es + count k body
  | .cond es yes none _ => one .cond k + Expr.countList k es + count k yes
  | .cond es yes (some no) _ =>
      one .cond k + Expr.countList k es + (count k yes + count k no)
  | .switch es body _ => one .switch k + Expr.countList k es + count k body
where
  /-- One for a statement of the kind that is counted. -/
  one (own : Kind) (k : Node.Kind) : Nat := if Node.Kind.stmt own = k then 1 else 0

/-- The number of nodes of a kind in some statements. -/
def countList (k : Node.Kind) : List Stmt → Nat
  | [] => 0
  | s :: ss => count k s + countList k ss

end

end Stmt

namespace Node

/-- The number of nodes of a kind in a tree, its root included. -/
def count (k : Kind) : Node → Nat
  | .expr e => e.count k
  | .stmt s => s.count k
  | .block b => (if Kind.block = k then 1 else 0) + Stmt.countList k b.stmts

/-- The number of operators in a tree, a measure of what it costs. -/
def operators (n : Node) : Nat := n.count (.expr .op)

end Node

/-! ## §4. Size. -/

namespace Expr

mutual

/-- The number of nodes of an expression. -/
def size : Expr → Nat
  | ⟨_, _, parts, _⟩ => 1 + sizeList parts

/-- The number of nodes of some expressions. -/
def sizeList : List Expr → Nat
  | [] => 0
  | p :: ps => size p + sizeList ps

end

end Expr

namespace Stmt

mutual

/-- The number of expressions and statements of a statement. -/
def size : Stmt → Nat
  | .basic es _ | .raw es _ _ => 1 + Expr.sizeList es
  | .block es ss _ _ => 1 + Expr.sizeList es + sizeList ss
  | .loop es body _ _ => 1 + Expr.sizeList es + size body
  | .cond es yes none _ => 1 + Expr.sizeList es + size yes
  | .cond es yes (some no) _ => 1 + Expr.sizeList es + (size yes + size no)
  | .switch es body _ => 1 + Expr.sizeList es + size body

/-- The number of expressions and statements of some statements. -/
def sizeList : List Stmt → Nat
  | [] => 0
  | s :: ss => size s + sizeList ss

end

end Stmt

/-- The number of expressions, statements and blocks of a tree. -/
def Node.size : Node → Nat
  | .expr e => e.size
  | .stmt s => s.size
  | .block b => 1 + Stmt.sizeList b.stmts

end RuleBody
