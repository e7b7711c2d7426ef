/-
  RuleBody.Proofs.Moves
  ─────────────────────
  **WHAT ONE STEP OF THE READER CAN DO.**

  The reader is a function that may fail.  Here its steps are a relation
  with one constructor for each thing that a token can do: `Grows` inside an
  expression, `Starts` at the start of a statement, `Continues` behind a
  complete one, and `Moves` for all of them.  A step succeeds exactly where
  there is such a move (`step_eq_ok`), so that what the reader keeps is
  proved once for each constructor.

  §1  inside an expression;
  §2  at the start of a statement;
  §3  one step.
-/
import RuleBody.Proofs.Replay

namespace RuleBody.Parse

/-! ## §1. Inside an expression. -/

/-- The kind of leaf that a token becomes inside an expression. -/
def leafKind? (t : Token) : Option Expr.Kind :=
  match t.kind with
  | .identifier => some .ident
  | .integer | .float | .string | .char => some .lit
  | .keyword => if statementKeywords.contains t.lexeme then none else some .keyword
  | .operator | .comma => some .op
  | _ => none

/-- Whether a bracket holds the arguments of a call. -/
def Bracket.isCall : Bracket → Bool
  | .call _ _ => true
  | _ => false

/-- What a token can do to the open brackets and to the parts in the
innermost of them. -/
inductive Grows (t : Token) : List Level → List Expr → List Level → List Expr → Prop where
  /-- A comma is a part only where it does not separate arguments. -/
  | leaf {levels : List Level} {parts : List Expr} {kind : Expr.Kind}
      (hkind : leafKind? t = some kind)
      (hcomma : ∀ l ∈ levels.head?, l.bracket.isCall = true → t.kind ≠ .comma) :
      Grows t levels parts levels (parts ++ [.leaf kind t.lexeme])
  | openParen {levels : List Level} {parts : List Expr} (hkind : t.kind = .lParen) :
      Grows t levels parts (openParen parts :: levels) []
  | openSquare {levels : List Level} {parts : List Expr} (hkind : t.kind = .lBracket) :
      Grows t levels parts (⟨.square, parts⟩ :: levels) []
  | openBrace {levels : List Level} {parts : List Expr} (hkind : t.kind = .lBrace) :
      Grows t levels parts (⟨.brace, parts⟩ :: levels) []
  | closeParen {outer : List Level} {before parts : List Expr} (hkind : t.kind = .rParen) :
      Grows t (⟨.paren, before⟩ :: outer) parts outer (before ++ [.chain (enclosed "(" parts ")")])
  | closeSquare {outer : List Level} {before parts : List Expr} (hkind : t.kind = .rBracket) :
      Grows t (⟨.square, before⟩ :: outer) parts outer (subscript before parts)
  | closeBrace {outer : List Level} {before parts : List Expr} (hkind : t.kind = .rBrace) :
      Grows t (⟨.brace, before⟩ :: outer) parts outer
        (before ++ [.chain (enclosed "\x7b" parts "\x7d")])
  | closeCall {outer : List Level} {before parts arguments : List Expr} {callee : Expr}
      (hkind : t.kind = .rParen) :
      Grows t (⟨.call callee arguments, before⟩ :: outer) parts outer
        (before ++ [.call callee (.args (allArguments arguments parts))])
  | nextArgument {outer : List Level} {before parts arguments : List Expr} {callee : Expr}
      (hkind : t.kind = .comma) :
      Grows t (⟨.call callee arguments, before⟩ :: outer) parts
        (⟨.call callee (arguments ++ [collapse parts]), before⟩ :: outer) []

section

variable {t : Token} {levels levels' outer : List Level} {parts parts' : List Expr} {l l' : Level}

theorem Grows.of_shift (h : shift levels parts t = .ok (levels', parts'))
    (hcomma : ∀ l ∈ levels.head?, l.bracket.isCall = true → t.kind ≠ .comma) :
    Grows t levels parts levels' parts' := by
  unfold shift at h
  split at h
  case h_1 hk => cases h; exact .leaf (by rw [leafKind?, hk]) hcomma
  case h_2 hk | h_3 hk | h_4 hk | h_5 hk => cases h; exact .leaf (by rw [leafKind?, hk]) hcomma
  case h_6 hk =>
      split at h
      · cases h
      · rename_i hword
        cases h
        refine .leaf ?_ hcomma
        rw [leafKind?, hk]
        exact if_neg hword
  case h_7 hk | h_8 hk => cases h; exact .leaf (by rw [leafKind?, hk]) hcomma
  case h_9 hk => cases h; exact .openParen hk
  case h_10 hk => cases h; exact .openSquare hk
  case h_11 hk => cases h; exact .openBrace hk
  all_goals cases h

theorem shift_leaf {kind : Expr.Kind} (h : leafKind? t = some kind) :
    shift levels parts t = .ok (levels, parts ++ [.leaf kind t.lexeme]) := by
  unfold leafKind? at h
  unfold shift
  split at h
  case h_6 hk =>
      split at h
      · cases h
      · rename_i hword
        cases h
        rw [hk]
        exact if_neg hword
  case h_9 => cases h
  all_goals
    rename_i hk
    cases h
    rw [hk]
    rfl

theorem Grows.of_close (h : l.close? parts t = some parts') :
    Grows t (l :: outer) parts outer parts' := by
  obtain ⟨bracket, before⟩ := l
  unfold Level.close? at h
  split at h
  case h_1 hb hk =>
      cases h
      obtain rfl : bracket = .paren := hb
      exact .closeParen hk
  case h_2 hb hk =>
      cases h
      obtain rfl : bracket = .square := hb
      exact .closeSquare hk
  case h_3 hb hk =>
      cases h
      obtain rfl : bracket = .brace := hb
      exact .closeBrace hk
  case h_4 callee arguments hb hk =>
      cases h
      obtain rfl : bracket = .call callee arguments := hb
      exact .closeCall hk
  case h_5 => cases h

theorem Grows.of_next (h : l.nextArgument? parts t = some l') :
    Grows t (l :: outer) parts (l' :: outer) [] := by
  obtain ⟨bracket, before⟩ := l
  unfold Level.nextArgument? at h
  split at h
  case h_1 callee arguments hb hk =>
      cases h
      obtain rfl : bracket = .call callee arguments := hb
      exact .nextArgument hk
  case h_2 => cases h

/-- The kinds of tokens that may close a bracket or separate arguments. -/
def closing : List Token.Kind := [.rParen, .rBracket, .rBrace, .comma]

theorem close?_eq_none (h : t.kind ∉ closing) : l.close? parts t = none := by
  unfold Level.close?
  split
  case h_1 hk | h_2 hk | h_3 hk | h_4 hk => exact absurd (by rw [hk]; decide) h
  case h_5 => rfl

theorem close?_comma (h : t.kind = .comma) : l.close? parts t = none := by
  unfold Level.close?
  split
  case h_1 hk | h_2 hk | h_3 hk | h_4 hk =>
      rw [h] at hk
      cases hk
  case h_5 => rfl

theorem nextArgument?_eq_none (h : l.bracket.isCall = true → t.kind ≠ .comma) :
    l.nextArgument? parts t = none := by
  unfold Level.nextArgument?
  split
  case h_1 hb hk => exact absurd hk (h (by rw [hb]; rfl))
  case h_2 => rfl

/-- A token that neither closes nor separates is shifted, whatever is
open. -/
theorem stepExpr_of_shift {purpose : Purpose} {context : Context}
    (hends : levels = [] → purpose.endsAt t = false)
    (hclose : ∀ l ∈ levels.head?, l.close? parts t = none ∧ l.nextArgument? parts t = none)
    (h : shift levels parts t = .ok (levels', parts')) :
    stepExpr purpose levels parts context t = .ok (.expr purpose levels' parts' context) := by
  cases levels with
  | nil =>
      show (if purpose.endsAt t then _ else _) = _
      rw [if_neg (by simp [hends rfl])]
      exact stepExpr_go_of_shift h
  | cons l outer =>
      obtain ⟨hnone, hnext⟩ := hclose l rfl
      simp only [stepExpr, hnone, hnext]
      exact stepExpr_go_of_shift h

/-- What a token does inside an expression it does for every purpose that it
does not end. -/
theorem Grows.stepExpr {purpose : Purpose} (h : Grows t levels parts levels' parts')
    (hends : levels = [] → purpose.endsAt t = false) (context : Context) :
    stepExpr purpose levels parts context t = .ok (.expr purpose levels' parts' context) := by
  have hopening : t.kind ∉ closing → ∀ l ∈ levels.head?, l.close? parts t = none
      ∧ l.nextArgument? parts t = none := by
    intro hkind l _
    refine ⟨close?_eq_none hkind, nextArgument?_eq_none fun _ hcomma => ?_⟩
    exact hkind (by rw [hcomma]; decide)
  cases h with
  | leaf hkind hcomma =>
      refine stepExpr_of_shift hends (fun l hl => ?_) (shift_leaf hkind)
      refine ⟨?_, nextArgument?_eq_none (hcomma l hl)⟩
      by_cases hk : t.kind = .comma
      · exact close?_comma hk
      · refine close?_eq_none fun hmem => ?_
        -- The other kinds that close something are not the kind of a leaf.
        simp only [closing, List.mem_cons, List.not_mem_nil, or_false, hk] at hmem
        rcases hmem with h | h | h <;> simp [leafKind?, h] at hkind
  | openParen hk =>
      refine stepExpr_of_shift hends (hopening (by rw [hk]; decide)) ?_
      rw [shift, hk]
  | openSquare hk =>
      refine stepExpr_of_shift hends (hopening (by rw [hk]; decide)) ?_
      rw [shift, hk]
  | openBrace hk =>
      refine stepExpr_of_shift hends (hopening (by rw [hk]; decide)) ?_
      rw [shift, hk]
  | closeParen hk | closeSquare hk | closeBrace hk | closeCall hk | nextArgument hk =>
      simp only [Parse.stepExpr, Level.close?, Level.nextArgument?, hk]

/-- **One step inside an expression**: the token ends it, or it does one of
the things that a token can do. -/
theorem stepExpr_eq_ok {purpose : Purpose} {context : Context} {state' : State} :
    stepExpr purpose levels parts context t = .ok state'
      ↔ (levels = [] ∧ purpose.endsAt t = true
          ∧ state' = purpose.finish (collapse parts) context)
        ∨ (levels = [] → purpose.endsAt t = false)
          ∧ ∃ levels' parts', Grows t levels parts levels' parts'
            ∧ state' = .expr purpose levels' parts' context := by
  constructor
  · intro h
    cases levels with
    | nil =>
        have h : (if purpose.endsAt t then _ else _) = _ := h
        split at h
        · rename_i hends
          cases h
          exact .inl ⟨rfl, hends, rfl⟩
        · rename_i hends
          obtain ⟨levels', parts', hshift, rfl⟩ := stepExpr_go h
          exact .inr ⟨fun _ => Bool.eq_false_iff.2 hends, levels', parts',
            .of_shift hshift (by simp), rfl⟩
    | cons l outer =>
        refine .inr ⟨fun hnil => (List.cons_ne_nil l outer hnil).elim, ?_⟩
        cases hclose : l.close? parts t with
        | some parts' =>
            simp only [stepExpr, hclose] at h
            cases h
            exact ⟨outer, parts', .of_close hclose, rfl⟩
        | none =>
            cases hnext : l.nextArgument? parts t with
            | some l' =>
                simp only [stepExpr, hclose, hnext] at h
                cases h
                exact ⟨l' :: outer, [], .of_next hnext, rfl⟩
            | none =>
                simp only [stepExpr, hclose, hnext] at h
                obtain ⟨levels', parts', hshift, rfl⟩ := stepExpr_go h
                refine ⟨levels', parts', .of_shift hshift ?_, rfl⟩
                intro l' hl' hcall hcomma
                obtain rfl : l = l' := Option.some.inj hl'
                obtain ⟨bracket, before⟩ := l
                cases bracket with
                | call callee arguments => simp [Level.nextArgument?, hcomma] at hnext
                | paren | square | brace => cases hcall
  · rintro (⟨rfl, hends, rfl⟩ | ⟨hends, levels', parts', hgrows, rfl⟩)
    · show (if purpose.endsAt t then _ else _) = _
      rw [if_pos hends]
    · exact hgrows.stepExpr hends context

end

/-! ## §2. At the start of a statement. -/

/-- The token does not start a block or a label, so that an expression may
start with it. -/
def OpensExpr (t : Token) : Prop :=
  t.kind ≠ .lBrace ∧ t.isKeyword "case" = false ∧ t.isKeyword "default" = false

/-- What the first token of a statement can do, and what can end a block or
the fragment. -/
inductive Starts (t : Token) : Context → State → Prop where
  | block {context : Context} (hkind : t.kind = .lBrace) :
      Starts t context (.start (.block [] context))
  | empty {context : Context} (hkind : t.kind = .semicolon) :
      Starts t context (.done .empty context)
  | directive {context : Context} (hkind : t.kind = .directive) :
      Starts t context (.done (.raw [] t.lexeme {}) context)
  | forLoop {context : Context} (hword : t.isKeyword "for" = true) :
      Starts t context (.head .decl context)
  | whileLoop {context : Context} (hword : t.isKeyword "while" = true) :
      Starts t context (.head .onlyTest context)
  | conditional {context : Context} (hword : t.isKeyword "if" = true) :
      Starts t context (.head .condition context)
  | switch {context : Context} (hword : t.isKeyword "switch" = true) :
      Starts t context (.head .selector context)
  | case {context : Context} (hword : t.isKeyword "case" = true) :
      Starts t context (.expr .label [] [] context)
  | default {context : Context} (hword : t.isKeyword "default" = true) :
      Starts t context (.colon context)
  | endBlock {stmts : List Stmt} {outer : Context} (hkind : t.kind = .rBrace) :
      Starts t (.block stmts outer) (.done (.ofBlock ⟨stmts, {}⟩) outer)
  | endFragment {stmts : List Stmt} (hkind : t.kind = .eof) :
      Starts t (.top stmts) (.start (.top stmts))
  | expr {context : Context} {levels : List Level} {parts : List Expr} (hopens : OpensExpr t)
      (hgrows : Grows t [] [] levels parts) :
      Starts t context (.expr .statement levels parts context)

section

variable {t : Token} {context : Context} {state' : State}

theorem isKeyword_iff {word : String} :
    t.isKeyword word = true ↔ t.kind = .keyword ∧ t.lexeme = word := by
  simp [Token.isKeyword]

/-- An expression is read from the start. -/
theorem starts_of_stepExpr (hopens : OpensExpr t) (hsemicolon : t.kind ≠ .semicolon)
    (h : stepExpr .statement [] [] context t = .ok state') : Starts t context state' := by
  rcases stepExpr_eq_ok.1 h with ⟨_, hends, _⟩ | ⟨_, levels', parts', hgrows, rfl⟩
  · exact absurd (of_decide_eq_true hends) hsemicolon
  · exact .expr hopens hgrows

theorem starts_of_stepKeyword (hkind : t.kind = .keyword)
    (h : stepKeyword context t = .ok state') : Starts t context state' := by
  unfold stepKeyword at h
  split at h
  case h_1 hword => cases h; exact .forLoop (isKeyword_iff.2 ⟨hkind, hword⟩)
  case h_2 hword => cases h; exact .whileLoop (isKeyword_iff.2 ⟨hkind, hword⟩)
  case h_3 hword => cases h; exact .conditional (isKeyword_iff.2 ⟨hkind, hword⟩)
  case h_4 hword => cases h; exact .switch (isKeyword_iff.2 ⟨hkind, hword⟩)
  case h_5 hword => cases h; exact .case (isKeyword_iff.2 ⟨hkind, hword⟩)
  case h_6 hword => cases h; exact .default (isKeyword_iff.2 ⟨hkind, hword⟩)
  case h_7 | h_8 => cases h
  case h_9 hcase hdefault _ _ =>
      refine starts_of_stepExpr ⟨by rw [hkind]; decide, ?_, ?_⟩ (by rw [hkind]; decide) h
      · exact Bool.eq_false_iff.2 fun hword => hcase (isKeyword_iff.1 hword).2
      · exact Bool.eq_false_iff.2 fun hword => hdefault (isKeyword_iff.1 hword).2

/-- Outside all brackets, only parts and opening brackets go on. -/
theorem Grows.kind_of_nil {parts : List Expr} {levels' : List Level} {parts' : List Expr}
    (h : Grows t [] parts levels' parts') :
    t.kind ∉ [Token.Kind.semicolon, .directive, .rParen, .rBracket, .rBrace, .eof]
      ∧ (t.kind = .keyword → t.lexeme ∉ statementKeywords) := by
  cases h with
  | leaf hkind =>
      unfold leafKind? at hkind
      split at hkind
      case h_6 hk =>
          split at hkind
          · cases hkind
          · rename_i hword
            exact ⟨by rw [hk]; decide, fun _ => by simpa using hword⟩
      case h_9 => cases hkind
      all_goals
        rename_i hk
        exact ⟨by rw [hk]; decide, by rw [hk]; nofun⟩
  | openParen hk | openSquare hk | openBrace hk =>
      exact ⟨by rw [hk]; decide, by rw [hk]; nofun⟩

theorem Grows.kind_ne_eof {levels levels' : List Level} {parts parts' : List Expr}
    (h : Grows t levels parts levels' parts') : t.kind ≠ .eof := by
  intro hk
  cases h with
  | leaf hkind => simp [leafKind?, hk] at hkind
  | openParen h | openSquare h | openBrace h | closeParen h | closeSquare h | closeBrace h
  | closeCall h | nextArgument h =>
      rw [hk] at h
      cases h

/-- A token that goes on outside all brackets ends nothing but a label. -/
theorem Grows.not_endsAt {parts : List Expr} {levels' : List Level} {parts' : List Expr}
    (h : Grows t [] parts levels' parts') {purpose : Purpose} (hpurpose : purpose ≠ .label) :
    purpose.endsAt t = false := by
  obtain ⟨hkind, _⟩ := h.kind_of_nil
  have hsemicolon : (t.kind == .semicolon) = false := by
    simp only [beq_eq_false_iff_ne]
    rintro hk
    exact hkind (by rw [hk]; decide)
  have hparen : (t.kind == .rParen) = false := by
    simp only [beq_eq_false_iff_ne]
    rintro hk
    exact hkind (by rw [hk]; decide)
  cases purpose with
  | statement | decl | test => exact hsemicolon
  | increment | onlyTest | condition | selector => exact hparen
  | label => exact absurd rfl hpurpose

/-- What a token does inside an expression adds its text. -/
theorem Grows.extended {levels levels' : List Level} {parts parts' : List Expr}
    (h : Grows t levels parts levels' parts') (ht : t.IsProper) (hl : ∀ l ∈ levels, l.Legible)
    (hp : ∀ e ∈ parts, e.Legible) : Extended levels parts t.lexeme levels' parts' := by
  have hends : levels = [] → Purpose.statement.endsAt t = false := by
    rintro rfl
    exact h.not_endsAt (by decide)
  rcases stepExpr_cases ht hl hp (h.stepExpr hends (.top [])) with
    ⟨hnil, hends', _⟩ | ⟨levels'', parts'', hstate, hext, _⟩
  · rw [hends hnil] at hends'
    cases hends'
  · cases hstate
    exact hext

theorem stepStart_of_grows {levels : List Level} {parts : List Expr} (hopens : OpensExpr t)
    (hgrows : Grows t [] [] levels parts) :
    stepStart context t = stepExpr .statement [] [] context t := by
  obtain ⟨hbrace, hcase, hdefault⟩ := hopens
  obtain ⟨hkinds, hwords⟩ := hgrows.kind_of_nil
  unfold stepStart
  split
  case h_1 hk => exact absurd hk hbrace
  case h_2 hk | h_3 hk | h_5 hk | h_6 hk | h_7 hk => exact absurd (by rw [hk]; decide) hkinds
  case h_4 hk =>
      unfold stepKeyword
      split
      case h_5 hword =>
          rw [isKeyword_iff.2 ⟨hk, hword⟩] at hcase
          cases hcase
      case h_6 hword =>
          rw [isKeyword_iff.2 ⟨hk, hword⟩] at hdefault
          cases hdefault
      case h_9 => rfl
      all_goals
        rename_i hword
        exact absurd (by rw [hword]; decide) (hwords hk)
  case h_8 => rfl

theorem stepStart_eq_ok : stepStart context t = .ok state' ↔ Starts t context state' := by
  constructor
  · intro h
    unfold stepStart at h
    split at h
    case h_1 hk => cases h; exact .block hk
    case h_2 hk => cases h; exact .empty hk
    case h_3 hk => cases h; exact .directive hk
    case h_4 hk => exact starts_of_stepKeyword hk h
    case h_5 hk => cases h; exact .endBlock hk
    case h_6 hk => cases h; exact .endFragment hk
    case h_7 => cases h
    case h_8 hbrace hsemicolon _ hkeyword _ _ _ =>
        have hword : ∀ word, t.isKeyword word = false := fun word =>
          Bool.eq_false_iff.2 fun hword => hkeyword (isKeyword_iff.1 hword).1
        exact starts_of_stepExpr ⟨hbrace, hword _, hword _⟩ hsemicolon h
  · intro h
    cases h with
    | block hk | empty hk | directive hk | endBlock hk | endFragment hk =>
        unfold stepStart
        rw [hk]
    | forLoop hword | whileLoop hword | conditional hword | switch hword | case hword
    | default hword =>
        obtain ⟨hk, hlexeme⟩ := isKeyword_iff.1 hword
        unfold stepStart
        rw [hk]
        unfold stepKeyword
        rw [hlexeme]
        rfl
    | expr hopens hgrows =>
        rw [stepStart_of_grows hopens hgrows]
        have hends : Purpose.statement.endsAt t = false := hgrows.not_endsAt (by decide)
        exact hgrows.stepExpr (fun _ => hends) context

end

/-! ## §3. One step. -/

/-- What the token behind a complete statement can do. -/
inductive Continues (t : Token) (s : Stmt) (context : Context) : State → Prop where
  | next {context' : Context} {state' : State} (helse : t.isKeyword "else" = false)
      (hattach : context.attach false s = (context', false)) (hstarts : Starts t context' state') :
      Continues t s context state'
  | alternative {context' : Context} (helse : t.isKeyword "else" = true)
      (hattach : context.attach true s = (context', true)) :
      Continues t s context (.start context')

/-- What a token can do. -/
inductive Moves (t : Token) : State → State → Prop where
  | start {context : Context} {state' : State} (h : Starts t context state') :
      Moves t (.start context) state'
  | head {purpose : Purpose} {context : Context} (hkind : t.kind = .lParen) :
      Moves t (.head purpose context) (.expr purpose [] [] context)
  | grow {purpose : Purpose} {levels levels' : List Level} {parts parts' : List Expr}
      {context : Context} (hends : levels = [] → purpose.endsAt t = false)
      (h : Grows t levels parts levels' parts') :
      Moves t (.expr purpose levels parts context) (.expr purpose levels' parts' context)
  | finish {purpose : Purpose} {parts : List Expr} {context : Context}
      (hends : purpose.endsAt t = true) :
      Moves t (.expr purpose [] parts context) (purpose.finish (collapse parts) context)
  | colon {context : Context} (hcolon : t.isOperator ":" = true) :
      Moves t (.colon context)
        (.labelled (.ofExpr (.chain [.keyword "default", .op ":"])) context)
  | endLabel {s : Stmt} {context : Context} (hkind : t.kind = .semicolon) :
      Moves t (.labelled s context) (.done s context)
  | labelled {s : Stmt} {context : Context} {state' : State} (hkind : t.kind ≠ .semicolon)
      (h : Continues t s context state') : Moves t (.labelled s context) state'
  | done {s : Stmt} {context : Context} {state' : State} (h : Continues t s context state') :
      Moves t (.done s context) state'

section

variable {t : Token} {context : Context} {state state' : State}

/-- Without an `else`, no conditional waits for one. -/
theorem attach_false_snd (s : Stmt) (context : Context) : (context.attach false s).2 = false := by
  induction context generalizing s with
  | top | block => rfl
  | loop _ _ _ _ ih | yes _ _ ih | no _ _ _ ih | switch _ _ ih => exact ih _

/-- No statement starts with `else`. -/
theorem stepStart_else (h : t.isKeyword "else" = true) :
    stepStart context t = .error ⟨.unsupported, t⟩ := by
  obtain ⟨hkind, hword⟩ := isKeyword_iff.1 h
  unfold stepStart
  rw [hkind]
  show stepKeyword context t = _
  unfold stepKeyword
  rw [hword]
  rfl

theorem stepDone_eq_ok {s : Stmt} :
    stepDone s context t = .ok state' ↔ Continues t s context state' := by
  unfold stepDone
  constructor
  · intro h
    cases helse : t.isKeyword "else" with
    | false =>
        have hwaits := attach_false_snd s context
        rw [helse] at h
        rcases hattach : context.attach false s with ⟨context', waits⟩
        rw [hattach] at h hwaits
        cases hwaits
        exact .next helse hattach (stepStart_eq_ok.1 h)
    | true =>
        rw [helse] at h
        rcases hattach : context.attach true s with ⟨context', _ | _⟩
        · rw [hattach] at h
          dsimp only at h
          rw [stepStart_else helse] at h
          cases h
        · rw [hattach] at h
          cases h
          exact .alternative helse hattach
  · intro h
    cases h with
    | next helse hattach hstarts =>
        rw [helse, hattach]
        exact stepStart_eq_ok.2 hstarts
    | alternative helse hattach => rw [helse, hattach]

/-- **A step succeeds exactly where there is a move.** -/
theorem step_eq_ok : step state t = .ok state' ↔ Moves t state state' := by
  constructor
  · intro h
    cases state with
    | start context => exact .start (stepStart_eq_ok.1 h)
    | head purpose context =>
        by_cases hkind : t.kind = .lParen
        · rw [show step (.head purpose context) t = _ from if_pos hkind] at h
          cases h
          exact .head hkind
        · rw [show step (.head purpose context) t = _ from if_neg hkind] at h
          cases h
    | expr purpose levels parts context =>
        rcases stepExpr_eq_ok.1 h with ⟨rfl, hends, rfl⟩ | ⟨hends, levels', parts', hgrows, rfl⟩
        · exact .finish hends
        · exact .grow hends hgrows
    | colon context =>
        by_cases hcolon : t.isOperator ":" = true
        · rw [show step (.colon context) t = _ from if_pos hcolon] at h
          cases h
          exact .colon hcolon
        · rw [show step (.colon context) t = _ from if_neg hcolon] at h
          cases h
    | labelled s context =>
        by_cases hkind : t.kind = .semicolon
        · rw [show step (.labelled s context) t = _ from if_pos hkind] at h
          cases h
          exact .endLabel hkind
        · rw [show step (.labelled s context) t = _ from if_neg hkind] at h
          exact .labelled hkind (stepDone_eq_ok.1 h)
    | done s context => exact .done (stepDone_eq_ok.1 h)
  · intro h
    cases h with
    | start h => exact stepStart_eq_ok.2 h
    | head hkind => exact if_pos hkind
    | grow hends h => exact h.stepExpr hends _
    | finish hends => exact if_pos hends
    | colon hcolon => exact if_pos hcolon
    | endLabel hkind => exact if_pos hkind
    | labelled hkind h => exact (if_neg hkind).trans (stepDone_eq_ok.2 h)
    | done h => exact stepDone_eq_ok.2 h

end

/-- What every move keeps is kept by a run. -/
theorem steps_keep {P : State → Prop} {tokens : List Token}
    (hmoves : ∀ t ∈ tokens, ∀ {state state' : State}, Moves t state state' → P state → P state')
    {state state' : State} (hstate : P state) (h : steps state tokens = .ok state') :
    P state' := by
  induction tokens generalizing state with
  | nil =>
      cases h
      exact hstate
  | cons t ts ih =>
      obtain ⟨hmove, hmoves⟩ := List.forall_mem_cons.1 hmoves
      rw [steps_cons] at h
      cases hstep : step state t with
      | error e =>
          rw [hstep] at h
          cases h
      | ok middle =>
          rw [hstep] at h
          exact ih hmoves (hmove (step_eq_ok.1 hstep) hstate) h

end RuleBody.Parse
