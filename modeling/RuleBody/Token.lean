/-
  RuleBody.Token
  ──────────────
  **TOKENS.**

  A token is a kind, the text it was read from and the place where it was
  read.
-/
import RuleBody.Location

namespace RuleBody

/-- The kinds of tokens. -/
inductive Token.Kind where
  /-- The end of the text. -/
  | eof
  | identifier
  | keyword
  | float
  | integer
  | string
  | char
  | lParen
  | rParen
  | lBracket
  | rBracket
  | lBrace
  | rBrace
  | semicolon
  | comma
  | operator
  /-- A whole line that starts with `#`, passed through untouched. -/
  | directive
  deriving DecidableEq, Repr, Inhabited

/-- The name of a kind in messages. -/
def Token.Kind.name : Token.Kind → String
  | .eof => "Eof"
  | .identifier => "Identifier"
  | .keyword => "Keyword"
  | .float => "FloatLiteral"
  | .integer => "Integer"
  | .string => "String"
  | .char => "Char"
  | .lParen => "LParen"
  | .rParen => "RParen"
  | .lBracket => "LBracket"
  | .rBracket => "RBracket"
  | .lBrace => "LBrace"
  | .rBrace => "RBrace"
  | .semicolon => "Semicolon"
  | .comma => "Comma"
  | .operator => "Operator"
  | .directive => "Directive"

/-- A token of a source text. -/
structure Token where
  kind : Token.Kind
  /-- The text of the token; empty at the end of the text. -/
  lexeme : String
  location : Location
  deriving DecidableEq, Repr, Inhabited

namespace Token

/-- A token as it stands in listings. -/
def display (t : Token) : String :=
  t.kind.name ++ " \"" ++ t.lexeme ++ "\" " ++ t.location.display

/-- Whether the token is the given keyword. -/
def isKeyword (t : Token) (word : String) : Bool :=
  t.kind == .keyword && t.lexeme == word

/-- Whether the token is the given operator. -/
def isOperator (t : Token) (op : String) : Bool :=
  t.kind == .operator && t.lexeme == op

end Token
end RuleBody
