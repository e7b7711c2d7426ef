/-
  RuleBody.Expr
  ─────────────
  **EXPRESSIONS.**

  An expression is a chain of tokens: `i = i + 1` is one node with five
  parts, not an assignment node.  Only calls, subscripts and brackets nest.
  Every node has a kind, a text of its own and parts; a node without parts
  is a leaf.  Questions about an expression are questions about its leaves.
-/
import RuleBody.Tags

namespace RuleBody

/-- The kinds of expressions. -/
inductive Expr.Kind where
  /-- Nothing, for example an empty loop clause. -/
  | nil
  /-- An operator or a mark. -/
  | op
  | lit
  | ident
  /-- A chain such as `i = i + 1`. -/
  | chain
  /-- A call; the last part holds the arguments. -/
  | call
  /-- Arguments. -/
  | args
  | keyword
  deriving DecidableEq, Repr, Inhabited

/-- An expression. -/
structure Expr where
  kind : Expr.Kind
  text : String
  parts : List Expr
  tags : Tags
  deriving Repr, Inhabited

namespace Expr

/-! ## §1. Equality. -/

mutual

/-- Equality of expressions, tags included, is decidable. -/
def decEq : (a b : Expr) → Decidable (a = b)
  | ⟨k, t, ps, g⟩, ⟨k', t', ps', g'⟩ =>
      if h : k = k' ∧ t = t' ∧ g = g' then
        match decEqList ps ps' with
        | .isTrue hps => .isTrue (by rw [h.1, h.2.1, h.2.2, hps])
        | .isFalse hps => .isFalse (fun e => hps (Expr.mk.inj e).2.2.1)
      else
        .isFalse (fun e => h ⟨(Expr.mk.inj e).1, (Expr.mk.inj e).2.1, (Expr.mk.inj e).2.2.2⟩)

/-- Equality of lists of expressions is decidable. -/
def decEqList : (as bs : List Expr) → Decidable (as = bs)
  | [], [] => .isTrue rfl
  | [], _ :: _ => .isFalse nofun
  | _ :: _, [] => .isFalse nofun
  | a :: as, b :: bs =>
      match decEq a b with
      | .isFalse h => .isFalse (fun e => h (List.cons.inj e).1)
      | .isTrue h =>
          match decEqList as bs with
          | .isFalse hs => .isFalse (fun e => hs (List.cons.inj e).2)
          | .isTrue hs => .isTrue (by rw [h, hs])

end

instance : DecidableEq Expr := decEq

/-! ## §2. Construction. -/

/-- A leaf. -/
def leaf (kind : Kind) (text : String) : Expr := ⟨kind, text, [], {}⟩

/-- A node that is made of its parts. -/
def node (kind : Kind) (parts : List Expr) : Expr := ⟨kind, "", parts, {}⟩

/-- The empty expression. -/
def nil : Expr := leaf .nil ""

/-- An operator or mark. -/
def op (text : String) : Expr := leaf .op text

/-- A literal. -/
def lit (text : String) : Expr := leaf .lit text

/-- An identifier. -/
def ident (name : String) : Expr := leaf .ident name

/-- A keyword. -/
def keyword (word : String) : Expr := leaf .keyword word

/-- A chain of parts. -/
def chain (parts : List Expr) : Expr := node .chain parts

/-- Arguments. -/
def args (parts : List Expr) : Expr := node .args parts

/-- A call. -/
def call (callee arguments : Expr) : Expr := node .call [callee, arguments]

/-! ## §3. Leaves. -/

/-- Whether this is the empty expression. -/
def isNil (e : Expr) : Bool := e.kind == .nil

/-- Whether there are no parts. -/
def isLeaf (e : Expr) : Bool := e.parts.isEmpty

/-- Whether this is a leaf with exactly the given text. -/
def isLeafText (e : Expr) (text : String) : Bool :=
  e.isLeaf && e.text == text

mutual

/-- Whether the expression or something inside it has a property. -/
def anyNode (p : Expr → Bool) : Expr → Bool
  | ⟨kind, text, parts, tags⟩ => p ⟨kind, text, parts, tags⟩ || anyNodeIn p parts

/-- Whether one of the expressions or something inside has a property. -/
def anyNodeIn (p : Expr → Bool) : List Expr → Bool
  | [] => false
  | e :: es => anyNode p e || anyNodeIn p es

end

/-- Whether the leaf occurs anywhere in the expression. -/
def containsLeaf (e : Expr) (text : String) : Bool :=
  e.anyNode (·.isLeafText text)

/-- Whether the leaf is a direct part. -/
def hasDirect (e : Expr) (text : String) : Bool :=
  e.parts.any (·.isLeafText text)

/-! ## §4. Operators. -/

/-- The comparison operators; the first that occurs is the comparison of an
expression. -/
def comparisons : List String := ["==", "!=", ">=", "<=", "<", ">"]

/-- The operators of boolean expressions. -/
def boolOps : List String := ["&&", "&", "||", "|", "!", "^"]

/-- Whether there is an assignment anywhere. -/
def isAssignment (e : Expr) : Bool := e.containsLeaf "="

/-- The comparison of an expression, wherever it stands. -/
def comparison? (e : Expr) : Option String :=
  comparisons.find? fun op => e.containsLeaf op

/-- Whether there is a comparison anywhere. -/
def isComparison (e : Expr) : Bool := e.comparison?.isSome

/-- Whether there is a boolean operator anywhere. -/
def hasBoolOp (e : Expr) : Bool := boolOps.any fun op => e.containsLeaf op

/-- Whether there is a conditional operator anywhere. -/
def hasTernary (e : Expr) : Bool := e.containsLeaf "?"

end Expr
end RuleBody
