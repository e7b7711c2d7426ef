/-
  RuleBody.Parse.State
  ────────────────────
  **WHERE THE READER STANDS.**

  Tokens are grouped into statements from left to right, one token at a
  time.  What has been read so far is a `State`: the statements that are
  still open around the current place (`Context`), and within an expression
  the brackets that are still open (`Level`) and the parts read in the
  innermost of them.
-/
import RuleBody.Token
import RuleBody.Stmt

namespace RuleBody.Parse

/-! ## §1. Open brackets. -/

/-- What a bracket was opened for. -/
inductive Bracket where
  | paren
  /-- A subscript. -/
  | square
  | brace
  /-- The arguments of a call and those read before the current one. -/
  | call (callee : Expr) (arguments : List Expr)
  deriving DecidableEq, Repr

/-- An open bracket and the parts that stand before it. -/
structure Level where
  bracket : Bracket
  before : List Expr
  deriving DecidableEq, Repr

/-! ## §2. Open statements. -/

/-- What an expression is read for. -/
inductive Purpose where
  /-- A simple statement. -/
  | statement
  /-- The declaration of a loop. -/
  | decl
  /-- The test of a loop. -/
  | test (decl : Expr)
  /-- The increment of a loop. -/
  | increment (decl test : Expr)
  /-- The test of a loop that has no other clauses. -/
  | onlyTest
  /-- The condition of a conditional. -/
  | condition
  /-- The selector of a switch. -/
  | selector
  /-- The value of a label. -/
  | label
  deriving DecidableEq, Repr

/-- The statements around the current place, from the inside out. -/
inductive Context where
  /-- The fragment itself and its statements so far. -/
  | top (stmts : List Stmt)
  /-- A compound statement and its statements so far. -/
  | block (stmts : List Stmt) (outer : Context)
  /-- A loop whose body is missing. -/
  | loop (decl test increment : Expr) (outer : Context)
  /-- A conditional whose first branch is missing. -/
  | yes (condition : Expr) (outer : Context)
  /-- A conditional whose alternative is missing. -/
  | no (condition : Expr) (yes : Stmt) (outer : Context)
  /-- A switch whose body is missing. -/
  | switch (selector : Expr) (outer : Context)
  deriving DecidableEq, Repr

/-- The statements of the fragment that are complete. -/
def Context.topStmts : Context → List Stmt
  | .top stmts => stmts
  | .block _ outer | .loop _ _ _ outer | .yes _ outer | .no _ _ outer | .switch _ outer =>
      outer.topStmts

/-! ## §3. The state. -/

/-- Where the reader stands. -/
inductive State where
  /-- A statement starts here, or the enclosing block ends. -/
  | start (context : Context)
  /-- An opening parenthesis has to follow. -/
  | head (purpose : Purpose) (context : Context)
  /-- Inside an expression. -/
  | expr (purpose : Purpose) (levels : List Level) (parts : List Expr) (context : Context)
  /-- A colon has to follow the keyword of a label. -/
  | colon (context : Context)
  /-- Behind a label; a semicolon that follows belongs to it. -/
  | labelled (label : Stmt) (context : Context)
  /-- A statement is complete. -/
  | done (stmt : Stmt) (context : Context)
  deriving DecidableEq, Repr

/-- The open statements of a state. -/
def State.context : State → Context
  | .start context | .head _ context | .expr _ _ _ context | .colon context
  | .labelled _ context | .done _ context => context

/-! ## §4. What can go wrong. -/

/-- Why a token does not fit. -/
inductive Cause where
  /-- A token of another kind has to stand here. -/
  | expected (kind : Token.Kind)
  /-- An operator has to stand here. -/
  | expectedOperator (op : String)
  /-- The keyword of a statement inside an expression. -/
  | keyword
  /-- The fragment ends inside an expression. -/
  | unfinished
  /-- The token cannot stand inside an expression. -/
  | misplaced
  /-- A statement of this kind is not supported. -/
  | unsupported
  /-- The fragment ends inside a block. -/
  | openBlock
  deriving DecidableEq, Repr

/-- A token that does not fit. -/
structure ParseError where
  cause : Cause
  token : Token
  deriving DecidableEq, Repr

/-- The words for it. -/
def ParseError.message (e : ParseError) : String :=
  match e.cause with
  | .expected kind =>
      "Expected " ++ kind.name ++ ", but got \"" ++ e.token.lexeme ++ "\" of kind "
        ++ e.token.kind.name
  | .expectedOperator op =>
      "Expected \"" ++ op ++ "\", but got \"" ++ e.token.lexeme ++ "\""
  | .keyword => "Unexpected keyword \"" ++ e.token.lexeme ++ "\" in expression"
  | .unfinished => "Unexpected end of fragment in expression"
  | .misplaced => "Unexpected \"" ++ e.token.lexeme ++ "\" in expression"
  | .unsupported => "Unsupported statement starting with \"" ++ e.token.lexeme ++ "\""
  | .openBlock => "Unterminated block"

end RuleBody.Parse
