/-
  RuleBody.Parse
  ──────────────
  **FROM TOKENS TO STATEMENTS.**

  `step` reads one token; the statements of a fragment are what `step`
  leaves after all its tokens, so that reading is a fold and reading `xs`
  and then `ys` is reading `xs ++ ys`.

  Expressions stay chains of tokens.  A name that is followed by a
  parenthesis starts a call, a subscript binds to the part before it unless
  that is an operator, and a chain of one part is that part.  An `else`
  belongs to the nearest conditional that lacks one.
-/
import RuleBody.Parse.State

namespace RuleBody.Parse

/-! ## §1. Expressions. -/

/-- Keywords that start a statement and cannot stand inside an expression. -/
def statementKeywords : List String := ["do", "else", "for", "if", "switch", "while"]

/-- The expression that is made of some parts. -/
def collapse : List Expr → Expr
  | [] => .nil
  | [part] => part
  | parts => .chain parts

/-- What stands between two marks, with the marks. -/
def enclosed (opening : String) (inner : List Expr) (closing : String) : List Expr :=
  [.op opening]
    ++ (match inner with
        | [] => []
        | parts => [collapse parts])
    ++ [.op closing]

/-- A subscript takes the part before it along, unless that is an operator. -/
def subscript (before inner : List Expr) : List Expr :=
  let marks := enclosed "[" inner "]"
  match before.getLast? with
  | some operand =>
      if operand.kind = .op then before ++ [.chain marks]
      else before.dropLast ++ [.chain (operand :: marks)]
  | none => [.chain marks]

/-- The arguments of a call once its parenthesis closes. -/
def allArguments (arguments parts : List Expr) : List Expr :=
  if arguments.isEmpty && parts.isEmpty then [] else arguments ++ [collapse parts]

/-- The parts of the surrounding level once the token closes the innermost
one; none if the token does not close it. -/
def Level.close? (level : Level) (parts : List Expr) (t : Token) : Option (List Expr) :=
  match level.bracket, t.kind with
  | .paren, .rParen => some (level.before ++ [.chain (enclosed "(" parts ")")])
  | .square, .rBracket => some (subscript level.before parts)
  | .brace, .rBrace => some (level.before ++ [.chain (enclosed "\x7b" parts "\x7d")])
  | .call callee arguments, .rParen =>
      some (level.before ++ [.call callee (.args (allArguments arguments parts))])
  | _, _ => none

/-- The level once the token separates two arguments of a call. -/
def Level.nextArgument? (level : Level) (parts : List Expr) (t : Token) : Option Level :=
  match level.bracket, t.kind with
  | .call callee arguments, .comma =>
      some { level with bracket := .call callee (arguments ++ [collapse parts]) }
  | _, _ => none

/-- The level that a parenthesis opens behind some parts. -/
def openParen (parts : List Expr) : Level :=
  match parts.getLast? with
  | some last =>
      if last.kind = .ident then ⟨.call last [], parts.dropLast⟩ else ⟨.paren, parts⟩
  | none => ⟨.paren, parts⟩

/-- Read a token that closes nothing: a new part, or a new level. -/
def shift (levels : List Level) (parts : List Expr) (t : Token) :
    Except Cause (List Level × List Expr) :=
  match t.kind with
  | .identifier => .ok (levels, parts ++ [.ident t.lexeme])
  | .integer | .float | .string | .char => .ok (levels, parts ++ [.lit t.lexeme])
  | .keyword =>
      if statementKeywords.contains t.lexeme then .error .keyword
      else .ok (levels, parts ++ [.keyword t.lexeme])
  | .operator | .comma => .ok (levels, parts ++ [.op t.lexeme])
  | .lParen => .ok (openParen parts :: levels, [])
  | .lBracket => .ok (⟨.square, parts⟩ :: levels, [])
  | .lBrace => .ok (⟨.brace, parts⟩ :: levels, [])
  | .eof => .error .unfinished
  | .rParen | .rBracket | .rBrace | .semicolon | .directive => .error .misplaced

/-- Whether the token ends an expression that is read for the purpose. -/
def Purpose.endsAt (purpose : Purpose) (t : Token) : Bool :=
  match purpose with
  | .statement | .decl | .test _ => t.kind == .semicolon
  | .increment _ _ | .onlyTest | .condition | .selector => t.kind == .rParen
  | .label => t.isOperator ":"

/-- How to go on with an expression that was read for the purpose. -/
def Purpose.finish (purpose : Purpose) (e : Expr) (context : Context) : State :=
  match purpose with
  | .statement => .done (if e.isNil then .empty else .ofExpr e) context
  | .decl => .expr (.test e) [] [] context
  | .test d => .expr (.increment d e) [] [] context
  | .increment d t => .start (.loop d t e context)
  | .onlyTest => .start (.loop .nil e .nil context)
  | .condition => .start (.yes e context)
  | .selector => .start (.switch e context)
  | .label =>
      .labelled (.ofExpr (.chain [.keyword "case", e, .op ":"])) context

/-- Read a token inside an expression. -/
def stepExpr (purpose : Purpose) (levels : List Level) (parts : List Expr) (context : Context)
    (t : Token) : Except ParseError State :=
  match levels with
  | [] =>
      if purpose.endsAt t then .ok (purpose.finish (collapse parts) context) else go
  | level :: outer =>
      match level.close? parts t with
      | some parts' => .ok (.expr purpose outer parts' context)
      | none =>
          match level.nextArgument? parts t with
          | some level' => .ok (.expr purpose (level' :: outer) [] context)
          | none => go
where
  go : Except ParseError State :=
    match shift levels parts t with
    | .ok (levels', parts') => .ok (.expr purpose levels' parts' context)
    | .error cause => .error ⟨cause, t⟩

/-! ## §2. Statements. -/

/-- Put a complete statement into its context, up to the nearest block.
Where an `else` follows, the nearest conditional that lacks an alternative
waits for it, and the answer is true. -/
def Context.attach (elseFollows : Bool) (s : Stmt) : Context → Context × Bool
  | .top stmts => (.top (stmts ++ [s]), false)
  | .block stmts outer => (.block (stmts ++ [s]) outer, false)
  | .loop d t i outer => outer.attach elseFollows (.loop [d, t, i] s none {})
  | .yes c outer =>
      if elseFollows then (.no c s outer, true)
      else outer.attach elseFollows (.cond [c] s none {})
  | .no c first outer => outer.attach elseFollows (.cond [c] first (some s) {})
  | .switch c outer => outer.attach elseFollows (.switch [c] s {})

/-- Read the keyword of a statement. -/
def stepKeyword (context : Context) (t : Token) : Except ParseError State :=
  match t.lexeme with
  | "for" => .ok (.head .decl context)
  | "while" => .ok (.head .onlyTest context)
  | "if" => .ok (.head .condition context)
  | "switch" => .ok (.head .selector context)
  | "case" => .ok (.expr .label [] [] context)
  | "default" => .ok (.colon context)
  | "do" | "else" => .error ⟨.unsupported, t⟩
  | _ => stepExpr .statement [] [] context t

/-- Read the first token of a statement, or the end of a block. -/
def stepStart (context : Context) (t : Token) : Except ParseError State :=
  match t.kind, context with
  | .lBrace, _ => .ok (.start (.block [] context))
  | .semicolon, _ => .ok (.done .empty context)
  | .directive, _ => .ok (.done (.raw [] t.lexeme {}) context)
  | .keyword, _ => stepKeyword context t
  | .rBrace, .block stmts outer => .ok (.done (.ofBlock ⟨stmts, {}⟩) outer)
  | .eof, .top _ => .ok (.start context)
  | .eof, .block _ _ => .error ⟨.openBlock, t⟩
  | _, _ => stepExpr .statement [] [] context t

/-- Read the token behind a complete statement. -/
def stepDone (s : Stmt) (context : Context) (t : Token) : Except ParseError State :=
  match context.attach (t.isKeyword "else") s with
  | (context', true) => .ok (.start context')
  | (context', false) => stepStart context' t

/-- Read one token. -/
def step (state : State) (t : Token) : Except ParseError State :=
  match state with
  | .start context => stepStart context t
  | .head purpose context =>
      if t.kind = .lParen then .ok (.expr purpose [] [] context)
      else .error ⟨.expected .lParen, t⟩
  | .expr purpose levels parts context => stepExpr purpose levels parts context t
  | .colon context =>
      if t.isOperator ":" then
        .ok (.labelled (.ofExpr (.chain [.keyword "default", .op ":"])) context)
      else .error ⟨.expectedOperator ":", t⟩
  | .labelled label context =>
      if t.kind = .semicolon then .ok (.done label context) else stepDone label context t
  | .done s context => stepDone s context t

/-! ## §3. Fragments. -/

/-- Read some tokens. -/
def steps (state : State) (tokens : List Token) : Except ParseError State :=
  tokens.foldlM step state

theorem steps_append (state : State) (xs ys : List Token) :
    steps state (xs ++ ys) = steps state xs >>= fun state' => steps state' ys := by
  simp [steps, List.foldlM_append]

/-- The statements of a fragment. -/
def stmts (tokens : List Token) : Except ParseError (List Stmt) := do
  let state ← steps (.start (.top [])) tokens
  return state.context.topStmts

end RuleBody.Parse
