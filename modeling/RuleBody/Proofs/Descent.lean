/-
  RuleBody.Proofs.Descent
  ───────────────────────
  **READING BY DESCENT.**

  `Parse.steps` reads a fragment as a fold, one token after another, so it
  never asks for a token that is not there.  Here a fragment is read by
  recursive descent: a cursor stands in the list of tokens, tokens are taken
  by their index, and the token that was taken last is the one before the
  cursor.  An index out of range is a fault, and so is the token before the
  first.

      peekN      — a token further on, at most the last
      previous   — the token before the cursor; a fault at the start
      advance    — one place further, but not behind the last token

  The tokens of a text end with its end, which the descent never takes, so
  that every token it asks for is there.  What it reads is what the fold
  reads, or it is refused with the same message (`Tracks`); so no text makes
  it fault (`readBlock_eq`, `readStmt_eq`, `readExpr_eq`).

  §1  the cursor;
  §2  the descent;
  §3  along the fold;
  §4  where an expression ends;
  §5  expressions;
  §6  statements;
  §7  fragments.
-/
import RuleBody.Parse.Fragment
import RuleBody.Proofs.Cursor
import RuleBody.Proofs.Replay

namespace RuleBody

open Token (Kind)
open Parse (Cause Context ParseError Purpose State step steps)

/-! ## §1. The cursor. -/

/-- The tokens of a fragment and how many of them were taken, with the text
and the place of the fragment. -/
structure Cursor where
  source : String
  origin : Location
  tokens : List Token
  current : Nat := 0

namespace Cursor

/-- The token that was taken last. -/
def previous (c : Cursor) : Except Fault Token := do
  Checked.get c.tokens (← Checked.sub c.current 1)

/-- The token some places further on, at most the last. -/
def peekN (c : Cursor) (n : Nat) : Except Fault Token := do
  let last ← Checked.sub c.tokens.length 1
  Checked.get c.tokens (min (c.current + n) last)

/-- The next token. -/
def peek (c : Cursor) : Except Fault Token := c.peekN 0

/-- Whether the next token is the end of the text. -/
def isAtEnd (c : Cursor) : Except Fault Bool := do
  return (← c.peek).kind == .eof

/-- Whether the next token is of the given kind. -/
def check (c : Cursor) (kind : Kind) : Except Fault Bool := do
  if ← c.isAtEnd then return false
  else return (← c.peek).kind == kind

/-- Take the next token, unless it is the end of the text. -/
def advance (c : Cursor) : Except Fault (Token × Cursor) := do
  if ← c.isAtEnd then return (← c.previous, c)
  else
    let c := { c with current := c.current + 1 }
    return (← c.previous, c)

/-- The message of a token that does not fit. -/
def refusal (c : Cursor) (e : ParseError) : Except Fault String := do
  let picture ← e.token.location.pictured c.source e.message
  return "\n\n" ++ picture ++ "\nat " ++ (e.token.location.offsetBy c.origin).display ++ "\n"

end Cursor

/-! ## §2. The descent. -/

/-- A computation that moves the cursor; it may fault, or be refused with a
message. -/
def Descent (α : Type) : Type := Cursor → Except Fault (Except String (α × Cursor))

namespace Descent

/-- Go on with the value of a computation from where it left the cursor. -/
def andThen {α β : Type} (x : Descent α) (f : α → Descent β) : Descent β := fun c =>
  match x c with
  | .error fault => .error fault
  | .ok (.error message) => .ok (.error message)
  | .ok (.ok (a, c')) => f a c'

instance : Monad Descent where
  pure a := fun c => .ok (.ok (a, c))
  bind := andThen

/-- Stop with a fault. -/
def fault {α : Type} (f : Fault) : Descent α := fun _ => .error f

/-- Look at the cursor. -/
def look {α : Type} (f : Cursor → Except Fault α) : Descent α := fun c =>
  (f c).map fun a => .ok (a, c)

/-- Take the next token. -/
def advance : Descent Token := fun c => c.advance.map .ok

/-- Refuse a token. -/
def refuse {α : Type} (e : ParseError) : Descent α := fun c => (c.refusal e).map .error

/-- Take a token of the given kind. -/
def expect (kind : Kind) : Descent Token := do
  if ← look (·.check kind) then
    let _ ← advance
    look (·.previous)
  else refuse ⟨.expected kind, ← look (·.peek)⟩

/-- Take the given operator. -/
def expectOperator (op : String) : Descent Token := do
  if (← look (·.peek)).isOperator op then
    let _ ← advance
    look (·.previous)
  else refuse ⟨.expectedOperator op, ← look (·.peek)⟩

/-- Whether the token ends an expression that is read up to one of the
terminators. -/
def isTerminator (terminators : List String) (t : Token) : Bool :=
  [Kind.semicolon, .comma, .rParen, .rBracket, .rBrace, .operator].contains t.kind
    && terminators.contains t.lexeme

/-- The expression that is made of some parts. -/
def collapse (parts : List Expr) : Descent Expr :=
  match parts.length with
  | 0 => return .nil
  | 1 => look fun _ => Checked.get parts 0
  | _ => return .chain parts

/-- What stands between two marks, with the marks and what they bind to. -/
def enclosed (operand : Option Expr) (opening : String) (inner : Expr) (closing : String) : Expr :=
  .chain (operand.toList ++ [.op opening] ++ (if inner.isNil then [] else [inner])
    ++ [.op closing])

/-- The operand of a subscript and the parts before it. -/
def takeOperand (parts : List Expr) : Option Expr × List Expr :=
  match parts.getLast? with
  | some last => if last.kind = .op then (none, parts) else (some last, parts.dropLast)
  | none => (none, parts)

/-- Read up to a mark and take the mark. -/
def closed (inner : List String → Descent Expr) (mark : String) (kind : Kind) : Descent Expr := do
  let e ← inner [mark]
  let _ ← expect kind
  return e

/-- The arguments of a call, behind those that were read before. -/
def arguments (argument : Descent Expr) : Nat → List Expr → Descent Expr
  | 0, _ => fault .exhausted
  | fuel + 1, before => do
      let e ← argument
      if ← look (·.check .comma) then
        let _ ← advance
        arguments argument fuel (before ++ [e])
      else
        let _ ← expect .rParen
        return .args (before ++ [e])

/-- The arguments of a call whose parenthesis was taken. -/
def args (argument : Descent Expr) (fuel : Nat) : Descent Expr := do
  if ← look (·.check .rParen) then
    let _ ← advance
    return .args []
  else arguments argument fuel []

/-- The parts of an expression with the next one. -/
def part (inner : List String → Descent Expr) (fuel : Nat) (parts : List Expr) (t : Token) :
    Descent (List Expr) :=
  match t.kind with
  | .identifier => do
      let _ ← advance
      if ← look (·.check .lParen) then
        let _ ← advance
        let arguments ← args (inner [",", ")"]) fuel
        return parts ++ [.call (.ident t.lexeme) arguments]
      else return parts ++ [.ident t.lexeme]
  | .integer | .float | .string | .char => do
      let _ ← advance
      return parts ++ [.lit t.lexeme]
  | .keyword =>
      if Parse.statementKeywords.contains t.lexeme then refuse ⟨.keyword, t⟩
      else do
        let _ ← advance
        return parts ++ [.keyword t.lexeme]
  | .operator | .comma => do
      let _ ← advance
      return parts ++ [.op t.lexeme]
  | .lParen => do
      let _ ← advance
      let e ← closed inner ")" .rParen
      return parts ++ [enclosed none "(" e ")"]
  | .lBracket => do
      let _ ← advance
      let e ← closed inner "]" .rBracket
      let (operand, before) := takeOperand parts
      return before ++ [enclosed operand "[" e "]"]
  | .lBrace => do
      let _ ← advance
      let e ← closed inner "\x7d" .rBrace
      return parts ++ [enclosed none "\x7b" e "\x7d"]
  | .eof => refuse ⟨.unfinished, t⟩
  | .rParen | .rBracket | .rBrace | .semicolon | .directive => refuse ⟨.misplaced, t⟩

/-- An expression up to one of the terminators, which is not taken, behind
some parts of it. -/
def expression : Nat → List String → List Expr → Descent Expr
  | 0, _, _ => fault .exhausted
  | fuel + 1, terminators, parts => do
      let t ← look (·.peek)
      if isTerminator terminators t then collapse parts
      else
        let parts ← part (fun stops => expression fuel stops []) fuel parts t
        expression fuel terminators parts

/-- An expression up to a mark, and the mark. -/
def clause (fuel : Nat) (mark : String) (kind : Kind) : Descent Expr :=
  closed (fun stops => expression fuel stops []) mark kind

/-- A simple statement. -/
def basicStmt (fuel : Nat) : Descent Stmt := do
  let e ← clause fuel ";" .semicolon
  return if e.isNil then .empty else .ofExpr e

/-- The statements of a block behind those that were read before, up to the
closing brace. -/
def blockStmts (statement : Descent Stmt) : Nat → List Stmt → Descent (List Stmt)
  | 0, _ => fault .exhausted
  | fuel + 1, before => do
      if ← look (·.check .rBrace) then return before
      else if ← look (·.isAtEnd) then refuse ⟨.openBlock, ← look (·.peek)⟩
      else
        let s ← statement
        blockStmts statement fuel (before ++ [s])

/-- A compound statement. -/
def blockStmt (statement : Descent Stmt) (fuel : Nat) : Descent Stmt := do
  let _ ← expect .lBrace
  let stmts ← blockStmts statement fuel []
  let _ ← expect .rBrace
  return .ofBlock ⟨stmts, {}⟩

/-- An expression in parentheses. -/
def condition (fuel : Nat) : Descent Expr := do
  let _ ← expect .lParen
  clause fuel ")" .rParen

/-- A loop with its three clauses. -/
def forStmt (statement : Descent Stmt) (fuel : Nat) : Descent Stmt := do
  let _ ← advance
  let _ ← expect .lParen
  let decl ← clause fuel ";" .semicolon
  let test ← clause fuel ";" .semicolon
  let increment ← clause fuel ")" .rParen
  let body ← statement
  return .loop [decl, test, increment] body none {}

/-- A loop with a test only. -/
def whileStmt (statement : Descent Stmt) (fuel : Nat) : Descent Stmt := do
  let _ ← advance
  let test ← condition fuel
  let body ← statement
  return .loop [.nil, test, .nil] body none {}

/-- A conditional; an `else` that follows its first branch belongs to it. -/
def ifStmt (statement : Descent Stmt) (fuel : Nat) : Descent Stmt := do
  let _ ← advance
  let test ← condition fuel
  let yes ← statement
  if (← look (·.peek)).isKeyword "else" then
    let _ ← advance
    let no ← statement
    return .cond [test] yes (some no) {}
  else return .cond [test] yes none {}

/-- A switch. -/
def switchStmt (statement : Descent Stmt) (fuel : Nat) : Descent Stmt := do
  let _ ← advance
  let selector ← condition fuel
  let body ← statement
  return .switch [selector] body {}

/-- The colon of a label, with a semicolon that follows it. -/
def labelEnd (parts : List Expr) : Descent Stmt := do
  let _ ← expectOperator ":"
  let label : Stmt := .ofExpr (.chain (parts ++ [.op ":"]))
  if ← look (·.check .semicolon) then
    let _ ← advance
    return label
  else return label

/-- A label, kept as a simple statement. -/
def labelStmt (fuel : Nat) : Descent Stmt := do
  let t ← advance
  if t.lexeme = "case" then
    let value ← expression fuel [":"] []
    labelEnd [.keyword t.lexeme, value]
  else labelEnd [.keyword t.lexeme]

/-- A statement that starts with a keyword. -/
def keywordStmt (statement : Descent Stmt) (fuel : Nat) (t : Token) : Descent Stmt :=
  match t.lexeme with
  | "for" => forStmt statement fuel
  | "while" => whileStmt statement fuel
  | "if" => ifStmt statement fuel
  | "switch" => switchStmt statement fuel
  | "case" | "default" => labelStmt fuel
  | "do" | "else" => refuse ⟨.unsupported, t⟩
  | _ => basicStmt fuel

/-- A statement whose first token is seen; `statement` reads those in it. -/
def stmtAt (statement : Descent Stmt) (fuel : Nat) (t : Token) : Descent Stmt :=
  match t.kind with
  | .lBrace => blockStmt statement fuel
  | .semicolon => do
      let _ ← advance
      return .empty
  | .directive => do
      let _ ← advance
      return .raw [] t.lexeme {}
  | .keyword => keywordStmt statement fuel t
  | _ => basicStmt fuel

/-- A statement. -/
def statement : Nat → Descent Stmt
  | 0 => fault .exhausted
  | fuel + 1 => do
      let t ← look (·.peek)
      stmtAt (statement fuel) (fuel + 1) t

/-- The statements of a fragment behind those that were read before. -/
def topStmts : Nat → List Stmt → Descent (List Stmt)
  | 0, _ => fault .exhausted
  | fuel + 1, before => do
      if ← look (·.isAtEnd) then return before
      else
        let s ← statement (fuel + 1)
        topStmts fuel (before ++ [s])

/-- All statements of a fragment. -/
def stmts (c : Cursor) : Except Fault (Except String (List Stmt)) :=
  (topStmts (c.tokens.length + 1) [] c).map (·.map (·.1))

/-- Read a fragment as a block. -/
def readBlock (src : String) (origin : Location) : Except Fault (Except String Block) := do
  match ← Scanner.scan src with
  | .error message => return .error message
  | .ok tokens =>
      let read ← stmts ⟨src, origin, tokens, 0⟩
      return read.map fun ss => ⟨ss, {}⟩

/-- Read a fragment as one statement. -/
def readStmt (src : String) (origin : Location) : Except Fault (Except String Stmt) := do
  match ← readBlock src origin with
  | .error message => return .error message
  | .ok b =>
      if b.stmts.length ≠ 1 then
        return .error (Error.stmtCount origin b.stmts.length src).message
      else return .ok (← Checked.get b.stmts 0)

/-- Read a fragment as one expression. -/
def readExpr (src : String) (origin : Location) : Except Fault (Except String Expr) := do
  match ← readStmt (src ++ ";") origin with
  | .error message => return .error message
  | .ok s =>
      if s.kind ≠ .basic ∨ s.exprs.length > 1 then
        return .error (Error.notExpr origin src).message
      else return .ok (s.exprs.getLast?.getD .nil)

end Descent

/-! ## §3. Along the fold. -/

namespace Cursor

/-- The cursor at another place. -/
def seek (c : Cursor) (k : Nat) : Cursor := { c with current := k }

/-- The last token is the end of the text, and the others are proper. -/
def Ended (c : Cursor) : Prop :=
  ∃ ts stop, c.tokens = ts ++ [.eof stop] ∧ ∀ t ∈ ts, t.IsProper

variable {c : Cursor} {k : Nat} {t : Token}

theorem exists_token (hk : k < c.tokens.length) : ∃ t, c.tokens[k]? = some t :=
  ⟨_, List.getElem?_eq_getElem hk⟩

theorem lt_of_token (ht : c.tokens[k]? = some t) : k < c.tokens.length :=
  (List.getElem?_eq_some_iff.1 ht).1

theorem drop_eq_cons (ht : c.tokens[k]? = some t) :
    c.tokens.drop k = t :: c.tokens.drop (k + 1) := by
  obtain ⟨hk, rfl⟩ := List.getElem?_eq_some_iff.1 ht
  exact List.drop_eq_getElem_cons hk

theorem Ended.proper (h : c.Ended) (ht : c.tokens[k]? = some t) (hkind : t.kind ≠ .eof) :
    t.IsProper := by
  obtain ⟨ts, stop, htokens, hproper⟩ := h
  have hmem : t ∈ ts ++ [.eof stop] := htokens ▸ List.mem_of_getElem? ht
  rcases List.mem_append.1 hmem with hmem | hmem
  · exact hproper t hmem
  · obtain rfl := List.mem_singleton.1 hmem
    exact absurd rfl hkind

/-- Behind a token that is not the end of the text stands another. -/
theorem Ended.next (h : c.Ended) (ht : c.tokens[k]? = some t) (hkind : t.kind ≠ .eof) :
    k + 1 < c.tokens.length := by
  obtain ⟨ts, stop, htokens, _⟩ := h
  have hk : k < c.tokens.length := lt_of_token ht
  have hlast : k ≠ ts.length := by
    rintro rfl
    rw [htokens, List.getElem?_append_right (Nat.le_refl _), Nat.sub_self] at ht
    cases ht
    exact hkind rfl
  rw [htokens, List.length_append] at hk ⊢
  have hone : ([.eof stop] : List Token).length = 1 := rfl
  omega

theorem Ended.last (h : c.Ended) (ht : c.tokens[k]? = some t) (hkind : t.kind = .eof) :
    c.tokens.drop (k + 1) = [] := by
  obtain ⟨ts, stop, htokens, hproper⟩ := h
  rw [htokens] at ht ⊢
  rcases Nat.lt_or_ge k ts.length with hk | hk
  · rw [List.getElem?_append_left hk] at ht
    exact absurd hkind (Token.Lexeme.kind_ne_eof (hproper t (List.mem_of_getElem? ht)))
  · refine List.drop_eq_nil_of_le ?_
    rw [List.length_append]
    exact Nat.add_le_add_right hk 1

theorem peek_seek (ht : c.tokens[k]? = some t) : (c.seek k).peek = .ok t := by
  have hk : k < c.tokens.length := lt_of_token ht
  have hsub : Checked.sub c.tokens.length 1 = .ok (c.tokens.length - 1) :=
    Checked.sub_eq_ok (Nat.one_le_of_lt hk)
  unfold peek peekN
  show (Checked.sub c.tokens.length 1 >>= _ : Except Fault Token) = _
  rw [hsub]
  show Checked.get c.tokens (min k (c.tokens.length - 1)) = _
  rw [Nat.min_eq_left (Nat.le_sub_one_of_lt hk)]
  exact Checked.get_eq_ok ht

theorem isAtEnd_seek (ht : c.tokens[k]? = some t) : (c.seek k).isAtEnd = .ok (t.kind == .eof) := by
  unfold isAtEnd
  rw [peek_seek ht]
  rfl

theorem check_seek (ht : c.tokens[k]? = some t) {kind : Kind} (hkind : kind ≠ .eof) :
    (c.seek k).check kind = .ok (t.kind == kind) := by
  unfold check
  rw [isAtEnd_seek ht, peek_seek ht]
  by_cases heof : t.kind = .eof
  · rw [heof]
    exact congrArg _ (beq_false_of_ne hkind.symm).symm
  · show (if (t.kind == .eof) = true then _ else _) = _
    rw [if_neg (by simpa using heof)]
    rfl

theorem previous_seek (ht : c.tokens[k]? = some t) : (c.seek (k + 1)).previous = .ok t := by
  unfold previous
  show (Checked.sub (k + 1) 1 >>= _ : Except Fault Token) = _
  rw [Checked.sub_eq_ok (Nat.le_add_left 1 k)]
  exact Checked.get_eq_ok ht

theorem advance_seek (ht : c.tokens[k]? = some t) (hkind : t.kind ≠ .eof) :
    (c.seek k).advance = .ok (t, c.seek (k + 1)) := by
  unfold advance
  rw [isAtEnd_seek ht]
  show (if (t.kind == .eof) = true then _ else _) = _
  rw [if_neg (by simpa using hkind)]
  show ((c.seek (k + 1)).previous >>= _ : Except Fault (Token × Cursor)) = _
  rw [previous_seek ht]
  rfl

theorem refusal_eq (c : Cursor) (e : ParseError) :
    c.refusal e = .ok (Error.parse c.source c.origin e).message := by
  unfold refusal
  rw [Location.pictured_eq]
  rfl

end Cursor

namespace Descent

open Cursor

/-- From a place in the tokens a computation goes along the fold: it is
refused where the fold fails, with the same message, or it leads to a place
from which the fold goes on to the same end. -/
def Tracks {α : Type} (c : Cursor) (k : Nat) (state : State) (x : Descent α)
    (Q : α → Nat → State → Prop) : Prop :=
  (∃ e, steps state (c.tokens.drop k) = .error e
    ∧ x (c.seek k) = .ok (.error (Error.parse c.source c.origin e).message))
  ∨ ∃ a k' state', x (c.seek k) = .ok (.ok (a, c.seek k'))
    ∧ steps state (c.tokens.drop k) = steps state' (c.tokens.drop k') ∧ Q a k' state'

section

variable {α β : Type} {c : Cursor} {k : Nat} {t : Token} {state state' : State}
  {x : Descent α} {f : α → Descent β} {Q : α → Nat → State → Prop}
  {R : β → Nat → State → Prop}

theorem tracks_pure {a : α} (h : Q a k state) : Tracks c k state (pure a) Q :=
  .inr ⟨a, k, state, rfl, rfl, h⟩

theorem Tracks.bind (hx : Tracks c k state x Q)
    (hf : ∀ a k' state', Q a k' state' → Tracks c k' state' (f a) R) :
    Tracks c k state (x >>= f) R := by
  have hbind : (x >>= f) (c.seek k) = andThen x f (c.seek k) := rfl
  unfold andThen at hbind
  rcases hx with ⟨e, hfold, hrun⟩ | ⟨a, k', state', hrun, hfold, hQ⟩
  · rw [hrun] at hbind
    exact .inl ⟨e, hfold, hbind⟩
  · rw [hrun] at hbind
    rcases hf a k' state' hQ with ⟨e, hfold', hrun'⟩ | ⟨b, k'', state'', hrun', hfold', hR⟩
    · exact .inl ⟨e, hfold.trans hfold', hbind.trans hrun'⟩
    · exact .inr ⟨b, k'', state'', hbind.trans hrun', hfold.trans hfold', hR⟩

theorem Tracks.mono (hx : Tracks c k state x Q) {Q' : α → Nat → State → Prop}
    (hQ : ∀ a k' state', Q a k' state' → Q' a k' state') :
    Tracks c k state x Q' := by
  rcases hx with herror | ⟨a, k', state', hrun, hfold, h⟩
  · exact .inl herror
  · exact .inr ⟨a, k', state', hrun, hfold, hQ a k' state' h⟩

/-- The fold may stand in another state that goes on alike. -/
theorem Tracks.of_step_eq (state' : State) (ht : c.tokens[k]? = some t)
    (hstep : step state t = step state' t) (hx : Tracks c k state' x Q) :
    Tracks c k state x Q := by
  have hfold : steps state (c.tokens.drop k) = steps state' (c.tokens.drop k) := by
    rw [drop_eq_cons ht]
    show (step state t >>= _ : Except ParseError State) = step state' t >>= _
    rw [hstep]
  unfold Tracks
  rw [hfold]
  exact hx

theorem tracks_of_look {g : Cursor → Except Fault α} {a : α} (hg : g (c.seek k) = .ok a)
    (h : Q a k state) : Tracks c k state (look g) Q := by
  refine .inr ⟨a, k, state, ?_, rfl, h⟩
  show (g (c.seek k)).map _ = _
  rw [hg]
  rfl

theorem tracks_look {g : Cursor → Except Fault α} {a : α} (hg : g (c.seek k) = .ok a)
    (hf : Tracks c k state (f a) R) : Tracks c k state (look g >>= f) R := by
  refine Tracks.bind (Q := fun a' k' state' => a' = a ∧ k' = k ∧ state' = state)
    (tracks_of_look hg ⟨rfl, rfl, rfl⟩) ?_
  rintro a k state ⟨rfl, rfl, rfl⟩
  exact hf

theorem tracks_refuse {cause : Cause} (ht : c.tokens[k]? = some t)
    (hstep : step state t = .error ⟨cause, t⟩) : Tracks c k state (refuse ⟨cause, t⟩) Q := by
  refine .inl ⟨⟨cause, t⟩, ?_, ?_⟩
  · rw [drop_eq_cons ht]
    show (step state t >>= _ : Except ParseError State) = _
    rw [hstep]
    rfl
  · show ((c.seek k).refusal ⟨cause, t⟩).map _ = _
    rw [refusal_eq]
    rfl

/-- Where the fold reads a token, the cursor moves behind it. -/
theorem tracks_advance {f : Token → Descent β} (hc : c.Ended) (ht : c.tokens[k]? = some t)
    (hkind : t.kind ≠ .eof) (hstep : step state t = .ok state')
    (hf : k + 1 < c.tokens.length → Tracks c (k + 1) state' (f t) R) :
    Tracks c k state (advance >>= f) R := by
  refine Tracks.bind (.inr ⟨t, k + 1, state', ?_, ?_, rfl, rfl, rfl⟩ :
    Tracks c k state advance fun a k₁ state₁ => a = t ∧ k₁ = k + 1 ∧ state₁ = state') ?_
  · show (c.seek k).advance.map _ = _
    rw [advance_seek ht hkind]
    rfl
  · rw [drop_eq_cons ht]
    show (step state t >>= _ : Except ParseError State) = _
    rw [hstep]
    rfl
  · rintro a k₁ state₁ ⟨rfl, rfl, rfl⟩
    exact hf (hc.next ht hkind)

theorem tracks_peek {f : Token → Descent β} (ht : c.tokens[k]? = some t)
    (hf : Tracks c k state (f t) R) : Tracks c k state (look (·.peek) >>= f) R :=
  tracks_look (peek_seek ht) hf

theorem tracks_check {f : Bool → Descent β} {kind : Kind} (ht : c.tokens[k]? = some t)
    (hkind : kind ≠ .eof) (hf : Tracks c k state (f (t.kind == kind)) R) :
    Tracks c k state (look (·.check kind) >>= f) R :=
  tracks_look (check_seek ht hkind) hf

theorem tracks_expect {f : Token → Descent β} {kind : Kind} (hc : c.Ended)
    (ht : c.tokens[k]? = some t) (hkind : t.kind = kind) (heof : kind ≠ .eof)
    (hstep : step state t = .ok state')
    (hf : k + 1 < c.tokens.length → Tracks c (k + 1) state' (f t) R) :
    Tracks c k state (expect kind >>= f) R := by
  refine Tracks.bind (Q := fun a k₁ state₁ => a = t ∧ k₁ = k + 1 ∧ state₁ = state') ?_ ?_
  · refine tracks_check ht heof ?_
    rw [if_pos (by simpa using hkind)]
    refine tracks_advance hc ht (hkind ▸ heof) hstep fun _ => ?_
    exact tracks_of_look (previous_seek ht) ⟨rfl, rfl, rfl⟩
  · rintro a k₁ state₁ ⟨rfl, rfl, rfl⟩
    exact hf (hc.next ht (hkind ▸ heof))

end

/-! ## §4. Where an expression ends. -/

/-- The marks up to which the fold reads an expression. -/
def stops (purpose : Purpose) : List Parse.Level → List String
  | [] =>
      match purpose with
      | .statement | .decl | .test _ => [";"]
      | .increment _ _ | .onlyTest | .condition | .selector => [")"]
      | .label => [":"]
  | level :: _ =>
      match level.bracket with
      | .paren => [")"]
      | .square => ["]"]
      | .brace => ["\x7d"]
      | .call _ _ => [",", ")"]

theorem lexeme_of_isTerminator {t : Token} {mark : String}
    (h : isTerminator [mark] t = true) : t.lexeme = mark := by
  unfold isTerminator at h
  simpa using (Bool.and_eq_true_iff.1 h).2

section

variable {t : Token} (ht : t.kind ≠ .eof → t.IsProper) {purpose : Purpose}
  {levels : List Parse.Level} {parts : List Expr} {context : Context}

include ht

theorem proper_of_isTerminator {marks : List String} (h : isTerminator marks t = true) :
    t.IsProper := by
  unfold isTerminator at h
  have hmem := (Bool.and_eq_true_iff.1 h).1
  refine ht fun heof => ?_
  rw [heof] at hmem
  exact absurd hmem (by decide)

/-- A token is a mark if its text is. -/
theorem isTerminator_mark {kind : Kind} {mark : String} (hmark : kind.mark? = some mark)
    (hkind : kind ∈ [Kind.semicolon, .comma, .rParen, .rBracket, .rBrace]) :
    isTerminator [mark] t = (t.kind == kind) := by
  have hkindOf : Token.kindOf mark = kind := by
    revert mark
    simp only [List.mem_cons, List.not_mem_nil, or_false] at hkind
    rcases hkind with rfl | rfl | rfl | rfl | rfl <;> rintro mark ⟨rfl⟩ <;> rfl
  rw [Bool.eq_iff_iff]
  constructor
  · intro h
    rw [beq_iff_eq, ← hkindOf, ← lexeme_of_isTerminator h]
    exact (Token.Lexeme.kindOf_eq (proper_of_isTerminator ht h)).symm
  · intro h
    have h : t.kind = kind := beq_iff_eq.1 h
    have hne : t.kind ≠ .eof := by
      rintro heof
      rw [← h, heof] at hkind
      exact absurd hkind (by decide)
    have hlexeme : t.lexeme = mark := (ht hne).lexeme_eq h hmark
    unfold isTerminator
    rw [hlexeme, h]
    simp only [List.mem_cons, List.not_mem_nil, or_false] at hkind
    rcases hkind with rfl | rfl | rfl | rfl | rfl <;> simp

theorem isTerminator_colon : isTerminator [":"] t = t.isOperator ":" := by
  rw [Bool.eq_iff_iff]
  constructor
  · intro h
    have hlexeme : t.lexeme = ":" := lexeme_of_isTerminator h
    have hkind : t.kind = .operator := by
      rw [← Token.Lexeme.kindOf_eq (proper_of_isTerminator ht h), hlexeme]
      rfl
    simp [Token.isOperator, hkind, hlexeme]
  · intro h
    obtain ⟨hkind, hlexeme⟩ := Bool.and_eq_true_iff.1 h
    rw [beq_iff_eq] at hkind hlexeme
    simp [isTerminator, hkind, hlexeme]

theorem isTerminator_arguments :
    isTerminator [",", ")"] t = (t.kind == .comma || t.kind == .rParen) := by
  have hcomma : isTerminator [","] t = (t.kind == .comma) := isTerminator_mark ht rfl (by decide)
  have hparen : isTerminator [")"] t = (t.kind == .rParen) := isTerminator_mark ht rfl (by decide)
  rw [← hcomma, ← hparen]
  simp only [isTerminator, List.contains_cons, List.contains_nil, Bool.or_false]
  exact Bool.and_or_distrib_left _ _ _

theorem isTerminator_purpose : isTerminator (stops purpose []) t = purpose.endsAt t := by
  cases purpose with
  | statement | decl | test => exact isTerminator_mark ht rfl (by decide)
  | increment | onlyTest | condition | selector => exact isTerminator_mark ht rfl (by decide)
  | label => exact isTerminator_colon ht

/-- No bracket closes, and no argument ends, at a token that is no terminator. -/
theorem not_closing {level : Parse.Level} {outer : List Parse.Level}
    (h : isTerminator (stops purpose (level :: outer)) t = false) :
    level.close? parts t = none ∧ level.nextArgument? parts t = none := by
  obtain ⟨bracket, before⟩ := level
  have hmark {kind : Kind} {mark : String} (hmark : kind.mark? = some mark)
      (hkind : kind ∈ [Kind.semicolon, .comma, .rParen, .rBracket, .rBrace])
      (hterm : isTerminator [mark] t = false) : t.kind ≠ kind := by
    rw [isTerminator_mark ht hmark hkind] at hterm
    exact beq_eq_false_iff_ne.1 hterm
  cases bracket with
  | paren =>
      have hkind : t.kind ≠ .rParen := hmark rfl (by decide) h
      simp [Parse.Level.close?, Parse.Level.nextArgument?, hkind]
  | square =>
      have hkind : t.kind ≠ .rBracket := hmark rfl (by decide) h
      simp [Parse.Level.close?, Parse.Level.nextArgument?, hkind]
  | brace =>
      have hkind : t.kind ≠ .rBrace := hmark rfl (by decide) h
      simp [Parse.Level.close?, Parse.Level.nextArgument?, hkind]
  | call callee arguments =>
      have hkinds : isTerminator [",", ")"] t = false := h
      rw [isTerminator_arguments ht, Bool.or_eq_false_iff, beq_eq_false_iff_ne,
        beq_eq_false_iff_ne] at hkinds
      simp [Parse.Level.close?, Parse.Level.nextArgument?, hkinds.1, hkinds.2]

/-- The fold shifts a token that is no terminator. -/
theorem step_expr_eq (h : isTerminator (stops purpose levels) t = false) :
    step (.expr purpose levels parts context) t
      = Parse.stepExpr.go purpose levels parts context t := by
  cases levels with
  | nil =>
      rw [isTerminator_purpose ht] at h
      show (if purpose.endsAt t = true then _ else _) = _
      rw [if_neg (by simp [h])]
  | cons level outer =>
      obtain ⟨hclose, hnext⟩ := not_closing ht h
      show Parse.stepExpr purpose (level :: outer) parts context t = _
      unfold Parse.stepExpr
      dsimp only
      rw [hclose, hnext]

theorem step_of_shift (h : isTerminator (stops purpose levels) t = false)
    {levels' : List Parse.Level} {parts' : List Expr}
    (hshift : Parse.shift levels parts t = .ok (levels', parts')) :
    step (.expr purpose levels parts context) t = .ok (.expr purpose levels' parts' context) := by
  rw [step_expr_eq ht h, Parse.stepExpr.go, hshift]

theorem step_of_no_shift (h : isTerminator (stops purpose levels) t = false) {cause : Cause}
    (hshift : Parse.shift levels parts t = .error cause) :
    step (.expr purpose levels parts context) t = .error ⟨cause, t⟩ := by
  rw [step_expr_eq ht h, Parse.stepExpr.go, hshift]

end

theorem step_of_close {t : Token} {purpose : Purpose} {context : Context} {level : Parse.Level}
    {outer : List Parse.Level} {parts parts' : List Expr}
    (h : level.close? parts t = some parts') :
    step (.expr purpose (level :: outer) parts context) t
      = .ok (.expr purpose outer parts' context) := by
  show Parse.stepExpr purpose (level :: outer) parts context t = _
  unfold Parse.stepExpr
  dsimp only
  rw [h]

theorem step_of_comma {t : Token} (hkind : t.kind = .comma) {purpose : Purpose}
    {context : Context} {callee : Expr} {before outer parts : List Expr}
    {levels : List Parse.Level} :
    step (.expr purpose (⟨.call callee before, outer⟩ :: levels) parts context) t
      = .ok (.expr purpose (⟨.call callee (before ++ [Parse.collapse parts]), outer⟩ :: levels) []
        context) := by
  show Parse.stepExpr purpose (⟨.call callee before, outer⟩ :: levels) parts context t = _
  simp [Parse.stepExpr, Parse.Level.close?, Parse.Level.nextArgument?, hkind]

/-! ## §5. Expressions. -/

/-- There is something in every part. -/
def Whole (parts : List Expr) : Prop := ∀ e ∈ parts, e.isNil = false

theorem Whole.append {parts more : List Expr} (h : Whole parts) (hmore : Whole more) :
    Whole (parts ++ more) := fun e he =>
  (List.mem_append.1 he).elim (h e) (hmore e)

theorem whole_nil : Whole [] := fun _ h => absurd h List.not_mem_nil

theorem whole_singleton {e : Expr} (h : e.isNil = false) : Whole [e] :=
  List.forall_mem_singleton.2 h

theorem isNil_collapse {parts : List Expr} (h : Whole parts) :
    (Parse.collapse parts).isNil = parts.isEmpty := by
  rcases parts with _ | ⟨e, _ | _⟩
  · rfl
  · exact h e List.mem_cons_self
  · rfl

theorem collapse_eq (parts : List Expr) :
    collapse parts = look fun _ => .ok (Parse.collapse parts) := by
  rcases parts with _ | ⟨e, _ | _⟩ <;> rfl

theorem enclosed_eq {parts : List Expr} (h : Whole parts) (operand : Option Expr)
    (opening closing : String) :
    enclosed operand opening (Parse.collapse parts) closing
      = .chain (operand.toList ++ Parse.enclosed opening parts closing) := by
  unfold enclosed Parse.enclosed
  rw [isNil_collapse h]
  cases parts with
  | nil => simp
  | cons e parts => simp

theorem subscript_eq {inner : List Expr} (h : Whole inner) (parts : List Expr) :
    (takeOperand parts).2 ++ [enclosed (takeOperand parts).1 "[" (Parse.collapse inner) "]"]
      = Parse.subscript parts inner := by
  rw [enclosed_eq h]
  unfold takeOperand Parse.subscript
  dsimp only
  cases hlast : parts.getLast? with
  | none =>
      rw [List.getLast?_eq_none_iff.1 hlast]
      rfl
  | some last =>
      dsimp only
      split <;> rfl

section

variable {c : Cursor} {k : Nat} {purpose : Purpose} {levels : List Parse.Level}
  {parts : List Expr} {context : Context}

/-- An expression has been read behind some parts of it, and the fold stands
at its terminator. -/
def Stopped (c : Cursor) (k : Nat) (purpose : Purpose) (levels : List Parse.Level)
    (before : List Expr) (context : Context) (e : Expr) (k' : Nat) (state : State) : Prop :=
  ∃ parts t, e = Parse.collapse parts ∧ state = .expr purpose levels parts context ∧ Whole parts
    ∧ c.tokens[k']? = some t ∧ isTerminator (stops purpose levels) t = true
    ∧ k ≤ k' ∧ (parts = [] → before = [] ∧ k' = k)

/-- Behind an expression that was read up to a mark stands the mark. -/
theorem closed_tracks (hc : c.Ended) {inner : List String → Descent Expr} {mark : String}
    {kind : Kind} (hmark : kind.mark? = some mark)
    (hkind : kind ∈ [Kind.semicolon, .comma, .rParen, .rBracket, .rBrace])
    (hstops : stops purpose levels = [mark])
    (hinner : Tracks c k (.expr purpose levels [] context) (inner [mark])
      (Stopped c k purpose levels [] context))
    {next : List Expr → State}
    (hstep : ∀ parts t, t.kind = kind →
      step (.expr purpose levels parts context) t = .ok (next parts)) :
    Tracks c k (.expr purpose levels [] context) (closed inner mark kind) fun e k' state =>
      ∃ parts, e = Parse.collapse parts ∧ state = next parts ∧ Whole parts
        ∧ k < k' ∧ k' < c.tokens.length := by
  refine hinner.bind ?_
  rintro e k' state ⟨parts, t, rfl, rfl, hwhole, ht, hterm, hle, _⟩
  rw [hstops, isTerminator_mark (hc.proper ht) hmark hkind, beq_iff_eq] at hterm
  have heof : kind ≠ .eof := by
    rintro rfl
    exact absurd hkind (by decide)
  refine tracks_expect hc ht hterm heof (hstep parts t hterm) fun hnext => ?_
  exact tracks_pure ⟨parts, rfl, rfl, hwhole, Nat.lt_succ_of_le hle, hnext⟩

/-- The arguments of a call. -/
theorem arguments_tracks (hc : c.Ended) {callee : Expr} {outer before : List Expr}
    {argument : Descent Expr}
    (hargument : ∀ k' before, k ≤ k' → k' < c.tokens.length →
      Tracks c k' (.expr purpose (⟨.call callee before, outer⟩ :: levels) [] context) argument
        (Stopped c k' purpose (⟨.call callee before, outer⟩ :: levels) [] context))
    {fuel : Nat} (hfuel : c.tokens.length < k + fuel) (hk : k < c.tokens.length)
    (hfirst : before = [] → ∀ t, c.tokens[k]? = some t → t.kind ≠ .rParen) :
    Tracks c k (.expr purpose (⟨.call callee before, outer⟩ :: levels) [] context)
      (arguments argument fuel before) fun e k' state =>
        ∃ all, e = .args all
          ∧ state = .expr purpose levels (outer ++ [.call callee (.args all)]) context
          ∧ k < k' ∧ k' < c.tokens.length := by
  induction fuel generalizing k before with
  | zero => omega
  | succ fuel ih =>
      unfold arguments
      refine (hargument k before (Nat.le_refl k) hk).bind ?_
      rintro e k' state ⟨parts, t, rfl, rfl, _, ht, hterm, hle, hempty⟩
      have hkinds : isTerminator [",", ")"] t = true := hterm
      rw [isTerminator_arguments (hc.proper ht), Bool.or_eq_true, beq_iff_eq, beq_iff_eq] at hkinds
      refine tracks_check ht (by decide) ?_
      rcases hkinds with hkind | hkind
      · rw [if_pos (by simp [hkind])]
        refine tracks_advance hc ht (by simp [hkind]) (step_of_comma hkind) fun hnext => ?_
        have hnil : before ++ [Parse.collapse parts] ≠ [] := by simp
        have hrest := ih (fun k'' before hk'' => hargument k'' before (by omega)) (by omega) hnext
          (fun h => absurd h hnil)
        refine hrest.mono ?_
        rintro e k'' state ⟨all, he, hstate, hlt, hlength⟩
        exact ⟨all, he, hstate, by omega, hlength⟩
      · rw [if_neg (by simp [hkind])]
        have hall : Parse.allArguments before parts = before ++ [Parse.collapse parts] := by
          refine if_neg ?_
          rw [Bool.and_eq_true, List.isEmpty_iff, List.isEmpty_iff]
          rintro ⟨hbefore, hparts⟩
          obtain ⟨_, rfl⟩ := hempty hparts
          exact hfirst hbefore t ht hkind
        have hclose : (⟨.call callee before, outer⟩ : Parse.Level).close? parts t
            = some (outer ++ [.call callee (.args (before ++ [Parse.collapse parts]))]) := by
          simp [Parse.Level.close?, hkind, hall]
        refine tracks_expect hc ht hkind (by decide) (step_of_close hclose) fun hnext => ?_
        exact tracks_pure ⟨_, rfl, rfl, Nat.lt_succ_of_le hle, hnext⟩

theorem args_tracks (hc : c.Ended) {callee : Expr} {outer : List Expr} {argument : Descent Expr}
    (hargument : ∀ k' before, k ≤ k' → k' < c.tokens.length →
      Tracks c k' (.expr purpose (⟨.call callee before, outer⟩ :: levels) [] context) argument
        (Stopped c k' purpose (⟨.call callee before, outer⟩ :: levels) [] context))
    {fuel : Nat} (hfuel : c.tokens.length < k + fuel) (hk : k < c.tokens.length) :
    Tracks c k (.expr purpose (⟨.call callee [], outer⟩ :: levels) [] context)
      (args argument fuel) fun e k' state =>
        ∃ all, e = .args all
          ∧ state = .expr purpose levels (outer ++ [.call callee (.args all)]) context
          ∧ k < k' ∧ k' < c.tokens.length := by
  obtain ⟨t, ht⟩ := exists_token hk
  refine tracks_check ht (by decide) ?_
  by_cases hkind : t.kind = .rParen
  · have hclose : (⟨.call callee [], outer⟩ : Parse.Level).close? [] t
        = some (outer ++ [.call callee (.args [])]) := by
      simp [Parse.Level.close?, Parse.allArguments, hkind]
    rw [if_pos (by simp [hkind])]
    refine tracks_advance hc ht (by simp [hkind]) (step_of_close hclose) fun hnext => ?_
    exact tracks_pure ⟨[], rfl, rfl, Nat.lt_succ_self k, hnext⟩
  · rw [if_neg (by simp [hkind])]
    refine arguments_tracks hc hargument hfuel hk fun _ t' ht' => ?_
    obtain rfl : t = t' := Option.some.inj (ht.symm.trans ht')
    exact hkind

/-- A parenthesis that stands here opens no call. -/
def Apart (c : Cursor) (k : Nat) (parts : List Expr) : Prop :=
  ∀ t, c.tokens[k]? = some t → t.kind = .lParen → ∀ e ∈ parts.getLast?, e.kind ≠ .ident

theorem apart_nil : Apart c k [] := fun _ _ _ _ h => absurd h (Option.not_mem_none _)

theorem apart_append {e : Expr} (h : e.kind ≠ .ident) : Apart c k (parts ++ [e]) := by
  intro t _ _ e' he'
  rw [List.getLast?_concat, Option.mem_some_iff] at he'
  exact he' ▸ h

/-- What reading one part leads to. -/
def Grown (c : Cursor) (k : Nat) (purpose : Purpose) (levels : List Parse.Level)
    (context : Context) (parts : List Expr) (k' : Nat) (state : State) : Prop :=
  state = .expr purpose levels parts context ∧ Whole parts ∧ parts ≠ [] ∧ Apart c k' parts
    ∧ k < k' ∧ k' < c.tokens.length

theorem grown_append {k' : Nat} (hparts : Whole parts) {e : Expr} (hnil : e.isNil = false)
    (hident : e.kind ≠ .ident) (hk : k < k') (hk' : k' < c.tokens.length) :
    Grown c k purpose levels context (parts ++ [e]) k'
      (.expr purpose levels (parts ++ [e]) context) :=
  ⟨rfl, hparts.append (whole_singleton hnil), by simp, apart_append hident, hk, hk'⟩

theorem leaf_tracks (hc : c.Ended) {t : Token} (ht : c.tokens[k]? = some t)
    (heof : t.kind ≠ .eof) (hterm : isTerminator (stops purpose levels) t = false)
    (hparts : Whole parts) {e : Expr} (hnil : e.isNil = false) (hident : e.kind ≠ .ident)
    (hshift : Parse.shift levels parts t = .ok (levels, parts ++ [e])) :
    Tracks c k (.expr purpose levels parts context)
      (advance >>= fun _ => pure (parts ++ [e])) (Grown c k purpose levels context) := by
  refine tracks_advance hc ht heof (step_of_shift (hc.proper ht) hterm hshift) fun hnext => ?_
  exact tracks_pure (grown_append hparts hnil hident (Nat.lt_succ_self k) hnext)

/-- A computation reads expressions behind a place. -/
def Reads (c : Cursor) (k : Nat) (inner : List String → Descent Expr) : Prop :=
  ∀ k' purpose levels context, k < k' → k' < c.tokens.length →
    Tracks c k' (.expr purpose levels [] context) (inner (stops purpose levels))
      (Stopped c k' purpose levels [] context)

/-- What stands in a bracket. -/
theorem bracket_tracks (hc : c.Ended) {t : Token} (ht : c.tokens[k]? = some t)
    (heof : t.kind ≠ .eof) (hterm : isTerminator (stops purpose levels) t = false)
    {inner : List String → Descent Expr} (hinner : Reads c k inner)
    {level : Parse.Level} (hshift : Parse.shift levels parts t = .ok (level :: levels, []))
    {mark : String} {kind : Kind} (hmark : kind.mark? = some mark)
    (hkind : kind ∈ [Kind.semicolon, .comma, .rParen, .rBracket, .rBrace])
    (hstops : stops purpose (level :: levels) = [mark])
    {after : List Expr → List Expr}
    (hclose : ∀ parts t, t.kind = kind → level.close? parts t = some (after parts))
    {build : Expr → List Expr}
    (hbuild : ∀ inner, Whole inner → build (Parse.collapse inner) = after inner
      ∧ Whole (after inner) ∧ after inner ≠ [] ∧ ∀ k, Apart c k (after inner)) :
    Tracks c k (.expr purpose levels parts context)
      (advance >>= fun _ => closed inner mark kind >>= fun e => pure (build e))
      (Grown c k purpose levels context) := by
  refine tracks_advance hc ht heof (step_of_shift (hc.proper ht) hterm hshift) fun hnext => ?_
  have hread := hinner (k + 1) purpose (level :: levels) context (Nat.lt_succ_self k) hnext
  rw [hstops] at hread
  refine (closed_tracks hc hmark hkind hstops hread
    fun parts t ht => step_of_close (hclose parts t ht)).bind ?_
  rintro e k' state ⟨inside, rfl, rfl, hwhole, hlt, hlength⟩
  obtain ⟨heq, hafter, hne, hapart⟩ := hbuild inside hwhole
  rw [heq]
  exact tracks_pure ⟨rfl, hafter, hne, hapart k', Nat.lt_of_succ_lt hlt, hlength⟩

theorem whole_of_subset {parts parts' : List Expr} (h : Whole parts) (hsub : parts' ⊆ parts) :
    Whole parts' := fun e he => h e (hsub he)

/-- A subscript is a chain behind some of the parts. -/
theorem subscript_cases (parts inner : List Expr) :
    ∃ before marks, Parse.subscript parts inner = before ++ [.chain marks] ∧ before ⊆ parts := by
  unfold Parse.subscript
  dsimp only
  cases parts.getLast? with
  | none => exact ⟨[], _, rfl, List.nil_subset _⟩
  | some last =>
      dsimp only
      split
      · exact ⟨parts, _, rfl, List.Subset.refl _⟩
      · exact ⟨parts.dropLast, _, rfl, List.dropLast_subset _⟩

/-- A name, and the arguments of its call. -/
theorem part_tracks_name (hc : c.Ended) {t : Token} (ht : c.tokens[k]? = some t)
    (hkind : t.kind = .identifier) (hterm : isTerminator (stops purpose levels) t = false)
    (hparts : Whole parts) {inner : List String → Descent Expr} (hinner : Reads c k inner)
    {fuel : Nat} (hfuel : c.tokens.length < k + 1 + fuel) :
    Tracks c k (.expr purpose levels parts context) (part inner fuel parts t)
      (Grown c k purpose levels context) := by
  unfold part
  rw [hkind]
  have heof : t.kind ≠ .eof := by rw [hkind]; decide
  have hshift : Parse.shift levels parts t = .ok (levels, parts ++ [.ident t.lexeme]) := by
    rw [Parse.shift, hkind]
  refine tracks_advance hc ht heof (step_of_shift (hc.proper ht) hterm hshift) fun hnext => ?_
  obtain ⟨t', ht'⟩ := exists_token hnext
  refine tracks_check ht' (by decide) ?_
  by_cases hcall : t'.kind = .lParen
  · have hcallee : Parse.openParen (parts ++ [.ident t.lexeme])
        = ⟨.call (.ident t.lexeme) [], parts⟩ := by
      unfold Parse.openParen
      rw [List.getLast?_concat, List.dropLast_concat]
      rfl
    have hopens : step (.expr purpose levels (parts ++ [.ident t.lexeme]) context) t'
        = .ok (.expr purpose (⟨.call (.ident t.lexeme) [], parts⟩ :: levels) [] context) := by
      refine step_of_shift (hc.proper ht') ?_ ?_
      · unfold isTerminator
        rw [hcall]
        rfl
      · rw [Parse.shift, hcall, ← hcallee]
    rw [if_pos (by simp [hcall])]
    refine tracks_advance hc ht' (by rw [hcall]; decide) hopens fun hnext' => ?_
    refine (args_tracks hc (fun k' before hk' => hinner k' purpose _ context (by omega))
      (by omega) hnext').bind ?_
    rintro _ k' _ ⟨all, rfl, rfl, hlt, hlength⟩
    exact tracks_pure (grown_append hparts rfl (by rintro ⟨⟩) (by omega) hlength)
  · rw [if_neg (by simp [hcall])]
    refine tracks_pure ⟨rfl, hparts.append (whole_singleton rfl), by simp, ?_,
      Nat.lt_succ_self k, hnext⟩
    intro t'' ht'' hkind''
    obtain rfl : t' = t'' := Option.some.inj (ht'.symm.trans ht'')
    exact absurd hkind'' hcall

/-- **One part.** -/
theorem part_tracks (hc : c.Ended) {t : Token} (ht : c.tokens[k]? = some t)
    (hterm : isTerminator (stops purpose levels) t = false) (hparts : Whole parts)
    (hapart : Apart c k parts) {inner : List String → Descent Expr} (hinner : Reads c k inner)
    {fuel : Nat} (hfuel : c.tokens.length < k + 1 + fuel) :
    Tracks c k (.expr purpose levels parts context) (part inner fuel parts t)
      (Grown c k purpose levels context) := by
  have hproper := hc.proper ht
  have chained {marks : List Expr} : Whole (parts ++ [.chain marks])
      ∧ parts ++ [.chain marks] ≠ [] ∧ ∀ k, Apart c k (parts ++ [.chain marks]) :=
    ⟨hparts.append (whole_singleton rfl), by simp, fun _ => apart_append (by rintro ⟨⟩)⟩
  unfold part
  cases hkind : t.kind with
  | identifier =>
      simpa only [part, hkind] using part_tracks_name hc ht hkind hterm hparts hinner hfuel
  | integer | float | string | char | operator | comma =>
      exact leaf_tracks hc ht (by rw [hkind]; decide) hterm hparts rfl (by rintro ⟨⟩)
        (by rw [Parse.shift, hkind])
  | keyword =>
      dsimp only
      split
      · rename_i hword
        refine tracks_refuse ht (step_of_no_shift hproper hterm ?_)
        rw [Parse.shift, hkind]
        exact if_pos hword
      · rename_i hword
        refine leaf_tracks hc ht (by rw [hkind]; decide) hterm hparts rfl (by rintro ⟨⟩) ?_
        rw [Parse.shift, hkind]
        exact if_neg hword
  | lParen =>
      have hopen : Parse.openParen parts = ⟨.paren, parts⟩ := by
        unfold Parse.openParen
        cases hlast : parts.getLast? with
        | none => rfl
        | some last => exact if_neg (hapart t ht hkind last hlast)
      refine bracket_tracks hc ht (by rw [hkind]; decide) hterm hinner
        (by rw [Parse.shift, hkind, hopen]) rfl (by decide) rfl
        (fun inside t' ht' => by rw [Parse.Level.close?, ht']) fun inside hinside => ⟨?_, chained⟩
      rw [enclosed_eq hinside]
      rfl
  | lBracket =>
      refine bracket_tracks hc ht (by rw [hkind]; decide) hterm hinner
        (by rw [Parse.shift, hkind]) rfl (by decide) rfl
        (fun inside t' ht' => by rw [Parse.Level.close?, ht']) fun inside hinside =>
          ⟨subscript_eq hinside parts, ?_⟩
      obtain ⟨before, marks, hsubscript, hsubset⟩ := subscript_cases parts inside
      rw [hsubscript]
      exact ⟨(whole_of_subset hparts hsubset).append (whole_singleton rfl), by simp,
        fun _ => apart_append (by rintro ⟨⟩)⟩
  | lBrace =>
      refine bracket_tracks hc ht (by rw [hkind]; decide) hterm hinner
        (by rw [Parse.shift, hkind]) rfl (by decide) rfl
        (fun inside t' ht' => by rw [Parse.Level.close?, ht']) fun inside hinside => ⟨?_, chained⟩
      rw [enclosed_eq hinside]
      rfl
  | eof =>
      exact tracks_refuse ht (step_of_no_shift hproper hterm (by rw [Parse.shift, hkind]))
  | rParen | rBracket | rBrace | semicolon | directive =>
      exact tracks_refuse ht (step_of_no_shift hproper hterm (by rw [Parse.shift, hkind]))

/-- **An expression is read as the fold reads it.** -/
theorem expression_tracks (hc : c.Ended) {fuel : Nat} (hfuel : c.tokens.length < k + fuel)
    (hk : k < c.tokens.length) (hparts : Whole parts) (hapart : Apart c k parts) :
    Tracks c k (.expr purpose levels parts context)
      (expression fuel (stops purpose levels) parts)
      (Stopped c k purpose levels parts context) := by
  induction fuel generalizing k purpose levels parts context with
  | zero => omega
  | succ fuel ih =>
      obtain ⟨t, ht⟩ := exists_token hk
      unfold expression
      refine tracks_peek ht ?_
      by_cases hterm : isTerminator (stops purpose levels) t = true
      · rw [if_pos hterm, collapse_eq]
        exact tracks_of_look rfl ⟨parts, t, rfl, rfl, hparts, ht, hterm, Nat.le_refl k,
          fun h => ⟨h, rfl⟩⟩
      · have hinner : Reads c k fun stops => expression fuel stops [] := by
          intro k' purpose levels context hlt hk'
          exact ih (by omega) hk' whole_nil apart_nil
        rw [if_neg hterm]
        refine (part_tracks hc ht (eq_false_of_ne_true hterm) hparts hapart hinner
          (by omega)).bind ?_
        rintro parts' k' state ⟨rfl, hparts', hne, hapart', hlt, hk'⟩
        refine (ih (by omega) hk' hparts' hapart').mono ?_
        rintro e k'' state ⟨all, t', he, hstate, hall, ht', hterm', hle, hempty⟩
        exact ⟨all, t', he, hstate, hall, ht', hterm', by omega, fun h => absurd (hempty h).1 hne⟩

end

/-! ## §6. Statements. -/

section

variable {c : Cursor} {k : Nat} {context : Context} {fuel : Nat}

/-- A statement has been read. -/
def Done (c : Cursor) (k : Nat) (context : Context) (s : Stmt) (k' : Nat) (state : State) : Prop :=
  state = .done s context ∧ k < k' ∧ k' < c.tokens.length

theorem Done.of_lt {k₀ k' : Nat} {s : Stmt} {state : State} (h : Done c k context s k' state)
    (hk : k₀ ≤ k) : Done c k₀ context s k' state :=
  ⟨h.1, Nat.lt_of_le_of_lt hk h.2.1, h.2.2⟩

theorem clause_tracks (hc : c.Ended) (hfuel : c.tokens.length < k + fuel)
    (hk : k < c.tokens.length) {purpose : Purpose} {mark : String} {kind : Kind}
    (hmark : kind.mark? = some mark)
    (hkind : kind ∈ [Kind.semicolon, .comma, .rParen, .rBracket, .rBrace])
    (hstops : stops purpose [] = [mark]) (hends : ∀ t, t.kind = kind → purpose.endsAt t = true) :
    Tracks c k (.expr purpose [] [] context) (clause fuel mark kind) fun e k' state =>
      state = purpose.finish e context ∧ k < k' ∧ k' < c.tokens.length := by
  have hread : Tracks c k (.expr purpose [] [] context) (expression fuel [mark] [])
      (Stopped c k purpose [] [] context) :=
    hstops ▸ expression_tracks hc hfuel hk whole_nil apart_nil
  refine (closed_tracks hc hmark hkind hstops hread
    (fun parts t ht => if_pos (hends t ht))).mono ?_
  rintro _ k' _ ⟨parts, rfl, rfl, _, hlt, hk'⟩
  exact ⟨rfl, hlt, hk'⟩

theorem basicStmt_tracks (hc : c.Ended) (hfuel : c.tokens.length < k + fuel)
    (hk : k < c.tokens.length) :
    Tracks c k (.expr .statement [] [] context) (basicStmt fuel) (Done c k context) := by
  refine (clause_tracks hc hfuel hk rfl (by decide) rfl fun _ => beq_iff_eq.2).bind ?_
  rintro e k' _ ⟨rfl, hlt, hk'⟩
  exact tracks_pure ⟨rfl, hlt, hk'⟩

theorem tracks_head {β : Type} {f : Token → Descent β} {R : β → Nat → State → Prop}
    {purpose : Purpose} (hc : c.Ended) (hk : k < c.tokens.length)
    (hf : ∀ t, k + 1 < c.tokens.length → Tracks c (k + 1) (.expr purpose [] [] context) (f t) R) :
    Tracks c k (.head purpose context) (expect .lParen >>= f) R := by
  obtain ⟨t, ht⟩ := exists_token hk
  by_cases hkind : t.kind = .lParen
  · exact tracks_expect hc ht hkind (by decide) (if_pos hkind) (hf t)
  · refine Tracks.bind (Q := fun _ _ _ => False) ?_ (fun _ _ _ h => h.elim)
    refine tracks_check ht (by decide) ?_
    rw [if_neg (by simp [hkind])]
    exact tracks_peek ht (tracks_refuse ht (if_neg hkind))

theorem condition_tracks (hc : c.Ended) (hfuel : c.tokens.length < k + fuel)
    (hk : k < c.tokens.length) {purpose : Purpose} (hstops : stops purpose [] = [")"])
    (hends : ∀ t, t.kind = .rParen → purpose.endsAt t = true) :
    Tracks c k (.head purpose context) (condition fuel) fun e k' state =>
      state = purpose.finish e context ∧ k < k' ∧ k' < c.tokens.length := by
  refine tracks_head hc hk fun _ hnext => ?_
  refine (clause_tracks hc (by omega) hnext rfl (by decide) hstops hends).mono ?_
  rintro e k' state ⟨hstate, hlt, hk'⟩
  exact ⟨hstate, by omega, hk'⟩

/-- Whether a token of the kind ends the context. -/
def ends : Context → Kind → Bool
  | .block _ _, .rBrace | .block _ _, .eof | .top _, .eof => true
  | _, _ => false

/-- A computation reads the statements behind a place. -/
def ReadsStmts (c : Cursor) (k : Nat) (statement : Descent Stmt) : Prop :=
  ∀ k' t context, k < k' → c.tokens[k']? = some t → ends context t.kind = false →
    Tracks c k' (.start context) statement (Done c k' context)

/-- The last statement inside another. -/
theorem ReadsStmts.last {statement : Descent Stmt} (h : ReadsStmts c k statement) {k' : Nat}
    (hlt : k < k') (hk' : k' < c.tokens.length) {inner : Context}
    (hends : ∀ kind, ends inner kind = false) {build : Stmt → Stmt}
    (hdone : ∀ s t, step (.done s inner) t = step (.done (build s) context) t) :
    Tracks c k' (.start inner) (statement >>= fun s => pure (build s)) (Done c k context) := by
  obtain ⟨t, ht⟩ := exists_token hk'
  refine (h k' t inner hlt ht (hends _)).bind ?_
  rintro s k'' _ ⟨rfl, hlt', hk''⟩
  obtain ⟨t'', ht''⟩ := exists_token hk''
  refine Tracks.of_step_eq (.done (build s) context) ht'' (hdone s t'') ?_
  exact tracks_pure ⟨rfl, by omega, hk''⟩

theorem labelEnd_tracks (hc : c.Ended) (hk : k < c.tokens.length) {state : State}
    {parts : List Expr}
    (hcolon : ∀ t, t.isOperator ":" = true →
      step state t = .ok (.labelled (.ofExpr (.chain (parts ++ [.op ":"]))) context))
    (hother : ∀ t, c.tokens[k]? = some t → t.isOperator ":" = false →
      step state t = .error ⟨.expectedOperator ":", t⟩) :
    Tracks c k state (labelEnd parts) (Done c k context) := by
  obtain ⟨t, ht⟩ := exists_token hk
  have hoperator : Tracks c k state (expectOperator ":") fun _ k' state' =>
      state' = .labelled (.ofExpr (.chain (parts ++ [.op ":"]))) context
        ∧ k < k' ∧ k' < c.tokens.length := by
    refine tracks_peek ht ?_
    cases hop : t.isOperator ":" with
    | false => exact tracks_peek ht (tracks_refuse ht (hother t ht hop))
    | true =>
        have heof : t.kind ≠ .eof := by
          intro heof
          rw [Token.isOperator, heof] at hop
          cases hop
        refine tracks_advance hc ht heof (hcolon t hop) fun hnext => ?_
        exact tracks_of_look (previous_seek ht) ⟨rfl, Nat.lt_succ_self k, hnext⟩
  refine hoperator.bind ?_
  rintro _ k' _ ⟨rfl, hlt, hk'⟩
  obtain ⟨t', ht'⟩ := exists_token hk'
  refine tracks_check ht' (by decide) ?_
  by_cases hkind : t'.kind = .semicolon
  · rw [if_pos (by simp [hkind])]
    refine tracks_advance hc ht' (by rw [hkind]; decide) (if_pos hkind) fun hnext => ?_
    exact tracks_pure ⟨rfl, by omega, hnext⟩
  · rw [if_neg (by simp [hkind])]
    exact Tracks.of_step_eq (.done _ context) ht' (if_neg hkind) (tracks_pure ⟨rfl, hlt, hk'⟩)

section

variable {t : Token} (hc : c.Ended) (ht : c.tokens[k]? = some t)
  (hfuel : c.tokens.length < k + fuel) {statement : Descent Stmt}
  (hstatement : ReadsStmts c k statement)

/-- What the fold does at a keyword. -/
theorem step_start_keyword (hkind : t.kind = .keyword) :
    step (.start context) t = Parse.stepKeyword context t := by
  show Parse.stepStart context t = _
  unfold Parse.stepStart
  rw [hkind]

include hc ht hfuel

theorem labelStmt_tracks (hkind : t.kind = .keyword)
    (hword : t.lexeme = "case" ∨ t.lexeme = "default") :
    Tracks c k (.start context) (labelStmt fuel) (Done c k context) := by
  have heof : t.kind ≠ .eof := by rw [hkind]; decide
  rcases hword with hword | hword
  · have hstep : step (.start context) t = .ok (.expr .label [] [] context) := by
      rw [step_start_keyword hkind, Parse.stepKeyword, hword]
      rfl
    refine tracks_advance hc ht heof hstep fun hnext => ?_
    rw [if_pos hword, hword]
    have hread : Tracks c (k + 1) (.expr .label [] [] context) (expression fuel [":"] [])
        (Stopped c (k + 1) .label [] [] context) :=
      expression_tracks hc (by omega) hnext whole_nil apart_nil
    refine hread.bind ?_
    rintro _ k' _ ⟨parts, t', rfl, rfl, _, ht', hterm, hle, _⟩
    have hlabel : Tracks c k' (.expr .label [] parts context)
        (labelEnd [.keyword "case", Parse.collapse parts]) (Done c k' context) := by
      refine labelEnd_tracks hc (lt_of_token ht') (fun t h => if_pos h) fun t'' ht'' hop => ?_
      obtain rfl : t' = t'' := Option.some.inj (ht'.symm.trans ht'')
      rw [isTerminator_purpose (hc.proper ht')] at hterm
      exact absurd (hterm.symm.trans hop) (by decide)
    exact hlabel.mono fun _ _ _ hdone => hdone.of_lt (by omega)
  · have hstep : step (.start context) t = .ok (.colon context) := by
      rw [step_start_keyword hkind, Parse.stepKeyword, hword]
      rfl
    refine tracks_advance hc ht heof hstep fun hnext => ?_
    rw [if_neg (by rw [hword]; decide), hword]
    have hlabel : Tracks c (k + 1) (.colon context) (labelEnd [.keyword "default"])
        (Done c (k + 1) context) :=
      labelEnd_tracks hc hnext (fun t h => if_pos h) fun t _ h => if_neg (by simp [h])
    exact hlabel.mono fun _ _ _ hdone => hdone.of_lt (by omega)

include hstatement

theorem forStmt_tracks (hkind : t.kind = .keyword) (hword : t.lexeme = "for") :
    Tracks c k (.start context) (forStmt statement fuel) (Done c k context) := by
  have hstep : step (.start context) t = .ok (.head .decl context) := by
    rw [step_start_keyword hkind, Parse.stepKeyword, hword]
    rfl
  refine tracks_advance hc ht (by rw [hkind]; decide) hstep fun hnext => ?_
  refine tracks_head hc hnext fun _ hnext' => ?_
  refine (clause_tracks hc (by omega) hnext' rfl (by decide) rfl fun _ => beq_iff_eq.2).bind ?_
  rintro decl k₁ _ ⟨rfl, hlt₁, hk₁⟩
  refine (clause_tracks hc (by omega) hk₁ rfl (by decide) rfl fun _ => beq_iff_eq.2).bind ?_
  rintro test k₂ _ ⟨rfl, hlt₂, hk₂⟩
  refine (clause_tracks hc (by omega) hk₂ rfl (by decide) rfl fun _ => beq_iff_eq.2).bind ?_
  rintro increment k₃ _ ⟨rfl, hlt₃, hk₃⟩
  exact hstatement.last (by omega) hk₃ (fun _ => rfl) fun _ _ => rfl

theorem whileStmt_tracks (hkind : t.kind = .keyword) (hword : t.lexeme = "while") :
    Tracks c k (.start context) (whileStmt statement fuel) (Done c k context) := by
  have hstep : step (.start context) t = .ok (.head .onlyTest context) := by
    rw [step_start_keyword hkind, Parse.stepKeyword, hword]
    rfl
  refine tracks_advance hc ht (by rw [hkind]; decide) hstep fun hnext => ?_
  refine (condition_tracks hc (by omega) hnext rfl fun _ => beq_iff_eq.2).bind ?_
  rintro test k' _ ⟨rfl, hlt, hk'⟩
  exact hstatement.last (by omega) hk' (fun _ => rfl) fun _ _ => rfl

theorem switchStmt_tracks (hkind : t.kind = .keyword) (hword : t.lexeme = "switch") :
    Tracks c k (.start context) (switchStmt statement fuel) (Done c k context) := by
  have hstep : step (.start context) t = .ok (.head .selector context) := by
    rw [step_start_keyword hkind, Parse.stepKeyword, hword]
    rfl
  refine tracks_advance hc ht (by rw [hkind]; decide) hstep fun hnext => ?_
  refine (condition_tracks hc (by omega) hnext rfl fun _ => beq_iff_eq.2).bind ?_
  rintro selector k' _ ⟨rfl, hlt, hk'⟩
  exact hstatement.last (by omega) hk' (fun _ => rfl) fun _ _ => rfl

theorem ifStmt_tracks (hkind : t.kind = .keyword) (hword : t.lexeme = "if") :
    Tracks c k (.start context) (ifStmt statement fuel) (Done c k context) := by
  have hstep : step (.start context) t = .ok (.head .condition context) := by
    rw [step_start_keyword hkind, Parse.stepKeyword, hword]
    rfl
  refine tracks_advance hc ht (by rw [hkind]; decide) hstep fun hnext => ?_
  refine (condition_tracks hc (by omega) hnext rfl fun _ => beq_iff_eq.2).bind ?_
  rintro test k₁ _ ⟨rfl, hlt₁, hk₁⟩
  obtain ⟨t₁, ht₁⟩ := exists_token hk₁
  refine (hstatement k₁ t₁ (.yes test context) (by omega) ht₁ rfl).bind ?_
  rintro yes k₂ _ ⟨rfl, hlt₂, hk₂⟩
  obtain ⟨t₂, ht₂⟩ := exists_token hk₂
  refine tracks_peek ht₂ ?_
  by_cases helse : t₂.isKeyword "else" = true
  · have heof : t₂.kind ≠ .eof := by
      intro heof
      rw [Token.isKeyword, heof] at helse
      cases helse
    have hstep : step (.done yes (.yes test context)) t₂
        = .ok (.start (.no test yes context)) := by
      show Parse.stepDone yes (.yes test context) t₂ = _
      unfold Parse.stepDone
      rw [Context.attach, if_pos helse]
    rw [if_pos helse]
    refine tracks_advance hc ht₂ heof hstep fun hk₃ => ?_
    exact hstatement.last (by omega) hk₃ (fun _ => rfl) fun _ _ => rfl
  · have hstep : step (.done yes (.yes test context)) t₂
        = step (.done (.cond [test] yes none {}) context) t₂ := by
      show Parse.stepDone yes (.yes test context) t₂ = Parse.stepDone _ context t₂
      unfold Parse.stepDone
      rw [Context.attach, if_neg helse]
    rw [if_neg helse]
    exact Tracks.of_step_eq _ ht₂ hstep (tracks_pure ⟨rfl, by omega, hk₂⟩)

theorem keywordStmt_tracks (hkind : t.kind = .keyword) :
    Tracks c k (.start context) (keywordStmt statement fuel t) (Done c k context) := by
  unfold keywordStmt
  split
  case h_1 hword => exact forStmt_tracks hc ht hfuel hstatement hkind hword
  case h_2 hword => exact whileStmt_tracks hc ht hfuel hstatement hkind hword
  case h_3 hword => exact ifStmt_tracks hc ht hfuel hstatement hkind hword
  case h_4 hword => exact switchStmt_tracks hc ht hfuel hstatement hkind hword
  case h_5 hword => exact labelStmt_tracks hc ht hfuel hkind (.inl hword)
  case h_6 hword => exact labelStmt_tracks hc ht hfuel hkind (.inr hword)
  case h_7 hword | h_8 hword =>
      refine tracks_refuse ht ?_
      rw [step_start_keyword hkind, Parse.stepKeyword, hword]
      rfl
  case h_9 =>
      refine Tracks.of_step_eq (.expr .statement [] [] context) ht ?_
        (basicStmt_tracks hc hfuel (lt_of_token ht))
      rw [step_start_keyword hkind]
      unfold Parse.stepKeyword
      split <;> first | rfl | contradiction

omit hc ht hfuel in
theorem blockStmts_tracks {k₁ : Nat} (hlt : k < k₁) (hk₁ : k₁ < c.tokens.length)
    (hfuel : c.tokens.length < k₁ + fuel) {before : List Stmt} :
    Tracks c k₁ (.start (.block before context)) (blockStmts statement fuel before)
      fun all k' state => state = .start (.block all context) ∧ k < k'
        ∧ ∃ t, c.tokens[k']? = some t ∧ t.kind = .rBrace := by
  induction fuel generalizing k₁ before with
  | zero => omega
  | succ fuel ih =>
      obtain ⟨t₁, ht₁⟩ := exists_token hk₁
      unfold blockStmts
      refine tracks_check ht₁ (by decide) ?_
      by_cases hbrace : t₁.kind = .rBrace
      · rw [if_pos (by simp [hbrace])]
        exact tracks_pure ⟨rfl, hlt, t₁, ht₁, hbrace⟩
      · rw [if_neg (by simp [hbrace])]
        refine tracks_look (isAtEnd_seek ht₁) ?_
        by_cases heof : t₁.kind = .eof
        · rw [if_pos (by simp [heof])]
          refine tracks_peek ht₁ (tracks_refuse ht₁ ?_)
          show Parse.stepStart (.block before context) t₁ = _
          unfold Parse.stepStart
          rw [heof]
        · rw [if_neg (by simp [heof])]
          have hends : ends (.block before context) t₁.kind = false := by
            unfold ends
            split <;> first | rfl | contradiction
          refine (hstatement k₁ t₁ _ hlt ht₁ hends).bind ?_
          rintro s k₂ _ ⟨rfl, hlt₂, hk₂⟩
          obtain ⟨t₂, ht₂⟩ := exists_token hk₂
          exact Tracks.of_step_eq (.start (.block (before ++ [s]) context)) ht₂ rfl
            (ih (by omega) hk₂ (by omega))

theorem blockStmt_tracks (hkind : t.kind = .lBrace) :
    Tracks c k (.start context) (blockStmt statement fuel) (Done c k context) := by
  have hopen : step (.start context) t = .ok (.start (.block [] context)) := by
    show Parse.stepStart context t = _
    unfold Parse.stepStart
    rw [hkind]
  refine tracks_expect hc ht hkind (by decide) hopen fun hnext => ?_
  refine (blockStmts_tracks hstatement (Nat.lt_succ_self k) hnext (by omega)).bind ?_
  rintro all k' _ ⟨rfl, hlt, t', ht', hbrace⟩
  have hclose : step (.start (.block all context)) t'
      = .ok (.done (.ofBlock ⟨all, {}⟩) context) := by
    show Parse.stepStart (.block all context) t' = _
    unfold Parse.stepStart
    rw [hbrace]
  refine tracks_expect hc ht' hbrace (by decide) hclose fun hnext' => ?_
  exact tracks_pure ⟨rfl, by omega, hnext'⟩

/-- **One statement**, if those inside it are read. -/
theorem stmtAt_tracks (hends : ends context t.kind = false) :
    Tracks c k (.start context) (stmtAt statement fuel t) (Done c k context) := by
  unfold stmtAt
  split
  case h_1 hkind => exact blockStmt_tracks hc ht hfuel hstatement hkind
  case h_2 hkind =>
      have hstep : step (.start context) t = .ok (.done .empty context) := by
        show Parse.stepStart context t = _
        unfold Parse.stepStart
        rw [hkind]
      refine tracks_advance hc ht (by rw [hkind]; decide) hstep fun hnext => ?_
      exact tracks_pure ⟨rfl, Nat.lt_succ_self k, hnext⟩
  case h_3 hkind =>
      have hstep : step (.start context) t = .ok (.done (.raw [] t.lexeme {}) context) := by
        show Parse.stepStart context t = _
        unfold Parse.stepStart
        rw [hkind]
      refine tracks_advance hc ht (by rw [hkind]; decide) hstep fun hnext => ?_
      exact tracks_pure ⟨rfl, Nat.lt_succ_self k, hnext⟩
  case h_4 hkind => exact keywordStmt_tracks hc ht hfuel hstatement hkind
  case h_5 hbrace hsemicolon hdirective hkeyword =>
      refine Tracks.of_step_eq (.expr .statement [] [] context) ht ?_
        (basicStmt_tracks hc hfuel (lt_of_token ht))
      show Parse.stepStart context t = _
      unfold Parse.stepStart
      split
      case h_5 hkind | h_6 hkind | h_7 hkind =>
          rw [hkind] at hends
          cases hends
      case h_8 => rfl
      all_goals contradiction

end

/-- **A statement is read as the fold reads it.** -/
theorem statement_tracks (hc : c.Ended) {t : Token} (ht : c.tokens[k]? = some t)
    (hfuel : c.tokens.length < k + fuel) (hends : ends context t.kind = false) :
    Tracks c k (.start context) (statement fuel) (Done c k context) := by
  induction fuel generalizing k t context with
  | zero =>
      have hk := lt_of_token ht
      omega
  | succ fuel ih =>
      have hnested : ReadsStmts c k (statement fuel) := by
        intro k' t' context' hlt ht' hends'
        exact ih ht' (by omega) hends'
      unfold statement
      exact tracks_peek ht (stmtAt_tracks hc ht hfuel hnested hends)

theorem topStmts_tracks (hc : c.Ended) (hk : k < c.tokens.length)
    (hfuel : c.tokens.length < k + fuel) {before : List Stmt} :
    Tracks c k (.start (.top before)) (topStmts fuel before) fun all k' state =>
      state = .start (.top all) ∧ ∃ t, c.tokens[k']? = some t ∧ t.kind = .eof := by
  induction fuel generalizing k before with
  | zero => omega
  | succ fuel ih =>
      obtain ⟨t, ht⟩ := exists_token hk
      unfold topStmts
      refine tracks_look (isAtEnd_seek ht) ?_
      by_cases heof : t.kind = .eof
      · rw [if_pos (by simp [heof])]
        exact tracks_pure ⟨rfl, t, ht, heof⟩
      · rw [if_neg (by simp [heof])]
        have hends : ends (.top before) t.kind = false := by
          unfold ends
          split <;> first | rfl | contradiction
        refine (statement_tracks hc ht hfuel hends).bind ?_
        rintro s k' _ ⟨rfl, hlt, hk'⟩
        obtain ⟨t', ht'⟩ := exists_token hk'
        exact Tracks.of_step_eq (.start (.top (before ++ [s]))) ht' rfl (ih hk' (by omega))

end

/-! ## §7. Fragments. -/

/-- The tokens of a text can be walked to their end. -/
theorem ended_of_scan {src : String} {tokens : List Token} (h : Token.scan src = .ok tokens)
    (origin : Location) : (⟨src, origin, tokens, 0⟩ : Cursor).Ended := by
  obtain ⟨ts, stop, htokens, _, hproper⟩ := Token.Reads.of_scanFrom h
  exact ⟨ts, stop, htokens, hproper⟩

/-- The statements of a fragment are those of the fold. -/
theorem stmts_eq {c : Cursor} (hc : c.Ended) :
    stmts (c.seek 0)
      = .ok ((Parse.stmts c.tokens).mapError fun e =>
          (Error.parse c.source c.origin e).message) := by
  have hk : 0 < c.tokens.length := by
    obtain ⟨ts, stop, htokens, _⟩ := hc
    simp [htokens]
  have hfold : Parse.stmts c.tokens = (steps (.start (.top [])) (c.tokens.drop 0)).map
      (·.context.topStmts) := rfl
  have htracks : Tracks c 0 (.start (.top [])) (topStmts (c.tokens.length + 1) [])
      fun all k' state =>
        state = .start (.top all) ∧ ∃ t, c.tokens[k']? = some t ∧ t.kind = .eof :=
    topStmts_tracks hc hk (by omega)
  unfold stmts
  rcases htracks with
    ⟨e, hsteps, hrun⟩ | ⟨all, k', _, hrun, hsteps, rfl, t, ht, heof⟩
  · show (topStmts (c.tokens.length + 1) [] (c.seek 0)).map _ = _
    rw [hrun, hfold, hsteps]
    rfl
  · have hlast : steps (.start (.top all)) (c.tokens.drop k') = .ok (.start (.top all)) := by
      rw [drop_eq_cons ht, hc.last ht heof]
      show (Parse.stepStart (.top all) t >>= _ : Except ParseError State) = _
      unfold Parse.stepStart
      rw [heof]
      rfl
    show (topStmts (c.tokens.length + 1) [] (c.seek 0)).map _ = _
    rw [hrun, hfold, hsteps, hlast]
    rfl

/-- **A block is read without a fault**, as the fold reads it or with the
message of its error. -/
theorem readBlock_eq (src : String) (origin : Location) :
    readBlock src origin = .ok ((Block.parse src origin).mapError Error.message) := by
  unfold readBlock Block.parse
  rw [Scanner.scan_eq]
  cases hscan : Token.scan src with
  | error e => rfl
  | ok tokens =>
      have hread := stmts_eq (ended_of_scan hscan origin)
      show (stmts (Cursor.seek ⟨src, origin, tokens, 0⟩ 0) >>= _ :
        Except Fault (Except String Block)) = _
      rw [hread]
      dsimp only
      cases Parse.stmts tokens <;> rfl

/-- **A statement is read without a fault.** -/
theorem readStmt_eq (src : String) (origin : Location) :
    readStmt src origin = .ok ((Stmt.parse src origin).mapError Error.message) := by
  unfold readStmt Stmt.parse
  rw [readBlock_eq]
  cases Block.parse src origin with
  | error e => rfl
  | ok b =>
      obtain ⟨stmts, tags⟩ := b
      rcases stmts with _ | ⟨s, _ | ⟨s', rest⟩⟩ <;> rfl

/-- **An expression is read without a fault.** -/
theorem readExpr_eq (src : String) (origin : Location) :
    readExpr src origin = .ok ((Expr.parse src origin).mapError Error.message) := by
  unfold readExpr Expr.parse
  rw [readStmt_eq]
  cases Stmt.parse (src ++ ";") origin with
  | error e => rfl
  | ok s =>
      cases s with
      | basic exprs tags => rcases exprs with _ | ⟨e, _ | ⟨e', rest⟩⟩ <;> rfl
      | block | raw | loop | cond | switch => rfl

end Descent

end RuleBody
