/-
  RuleBody.Proofs.Acceptance
  ──────────────────────────
  **WHICH TEXTS ARE EXPRESSIONS.**

  An expression is read as the statement that a semicolon makes of it, by a
  reader that knows all statements.  A text that is not an expression may
  still be read, as a loop, a label or as several statements, and is turned
  away only afterwards.  What is left are the texts whose brackets match:

      a [ f ( i , j ) ] + 1     — accepted
      a ( i ]                   — brackets that do not match
      i = 0 ; j = 0             — two statements
      if ( a ) b                — not a simple statement

  As long as nothing is complete, the reader stands where the words read so
  far lead to (`steps_first`), and a single simple statement is complete only
  at the semicolon (`spelt_of_basic`).

  §1  brackets that match;
  §2  the first statement of a text;
  §3  expressions.
-/
import RuleBody.Proofs.Orderly

namespace RuleBody

open Parse (Paired Spelt leafKind? brackets State Context Purpose Moves Starts Continues)

/-! ## §1. Brackets that match. -/

namespace Token

/-- The kinds of brackets and their matches. -/
def bracketKinds : List (Kind × Kind) :=
  [(.lParen, .rParen), (.lBracket, .rBracket), (.lBrace, .rBrace)]

/-- The brackets among the kinds are balanced and nested. -/
inductive Nested : List Kind → Prop where
  | nil : Nested []
  | other {kind : Kind} {kinds : List Kind} :
      (∀ pair ∈ bracketKinds, kind ≠ pair.1 ∧ kind ≠ pair.2) → Nested kinds →
      Nested (kind :: kinds)
  | bracket {opening closing : Kind} {inner kinds : List Kind} :
      (opening, closing) ∈ bracketKinds → Nested inner → Nested kinds →
      Nested (opening :: (inner ++ closing :: kinds))

/-- The token cannot stand in an expression. -/
def Foreign (t : Token) : Prop :=
  t.kind = .semicolon ∨ t.kind = .directive
    ∨ t.kind = .keyword ∧ t.lexeme ∈ ["do", "else", "for", "if", "switch", "while"]

instance (t : Token) : Decidable t.Foreign :=
  inferInstanceAs (Decidable (_ ∨ _ ∨ _ ∧ _))

/-- A token of a text is a leaf unless it is foreign or a bracket. -/
theorem IsProper.isLeaf_iff {t : Token} (h : t.IsProper) :
    (∃ kind, leafKind? (.plain t.lexeme) = some kind)
      ↔ ¬ t.Foreign ∧ ∀ pair ∈ bracketKinds, t.kind ≠ pair.1 ∧ t.kind ≠ pair.2 := by
  have heof : t.kind ≠ .eof := Lexeme.kind_ne_eof h
  rw [h.plain_lexeme]
  obtain ⟨kind, lexeme, location⟩ := t
  cases kind <;> simp [leafKind?, Foreign, bracketKinds, Parse.statementKeywords] at heof ⊢

/-- The kinds of brackets are those of the brackets. -/
theorem mem_bracketKinds_iff {opening closing : Token} (ho : opening.IsProper)
    (hc : closing.IsProper) :
    (opening.kind, closing.kind) ∈ bracketKinds ↔ (opening.lexeme, closing.lexeme) ∈ brackets := by
  constructor
  · intro h
    have hmarks : ∀ pair ∈ bracketKinds, ∃ marks ∈ brackets, pair.1.mark? = some marks.1
        ∧ pair.2.mark? = some marks.2 := by decide
    obtain ⟨⟨o, c⟩, hmem, hom, hcm⟩ := hmarks _ h
    rwa [ho.lexeme_eq rfl hom, hc.lexeme_eq rfl hcm]
  · intro h
    have hkinds : ∀ marks ∈ brackets, (kindOf marks.1, kindOf marks.2) ∈ bracketKinds := by decide
    have hmem := hkinds _ h
    rwa [Lexeme.kindOf_eq ho, Lexeme.kindOf_eq hc] at hmem

theorem not_foreign_of_bracket {t : Token} {pair : Kind × Kind} (hmem : pair ∈ bracketKinds)
    (hkind : t.kind = pair.1 ∨ t.kind = pair.2) : ¬ t.Foreign := by
  have hkinds : ∀ pair ∈ bracketKinds, ∀ kind ∈ [Kind.semicolon, .directive, .keyword],
      kind ≠ pair.1 ∧ kind ≠ pair.2 := by decide
  have hnot : ∀ kind ∈ [Kind.semicolon, .directive, .keyword], t.kind ≠ kind := by
    rintro kind hk rfl
    exact hkind.elim (hkinds pair hmem _ hk).1 (hkinds pair hmem _ hk).2
  rintro (hk | hk | ⟨hk, _⟩)
  · exact hnot _ (by decide) hk
  · exact hnot _ (by decide) hk
  · exact hnot _ (by decide) hk

/-- **The words of some tokens are paired exactly if no token is foreign and
the brackets are nested.** -/
theorem paired_iff_nested {ts : List Token} (hproper : ∀ t ∈ ts, t.IsProper) :
    Paired (ts.map (·.lexeme)) ↔ (∀ t ∈ ts, ¬ t.Foreign) ∧ Nested (ts.map (·.kind)) := by
  constructor
  · intro h
    generalize hwords : ts.map (·.lexeme) = words at h
    induction h generalizing ts with
    | nil =>
        obtain rfl := List.map_eq_nil_iff.1 hwords
        exact ⟨by simp, .nil⟩
    | leaf _ hkind _ ih =>
        obtain ⟨t, ts, rfl, rfl, rfl⟩ := List.map_eq_cons_iff.1 hwords
        obtain ⟨ht, hts⟩ := List.forall_mem_cons.1 hproper
        obtain ⟨hforeign, hother⟩ := ht.isLeaf_iff.1 ⟨_, hkind⟩
        obtain ⟨hrest, hnested⟩ := ih hts rfl
        exact ⟨List.forall_mem_cons.2 ⟨hforeign, hrest⟩, .other hother hnested⟩
    | bracket hmem _ _ ihinner ih =>
        obtain ⟨o, ts, rfl, rfl, hafter⟩ := List.map_eq_cons_iff.1 hwords
        obtain ⟨inner, ts, rfl, rfl, hclose⟩ := List.map_eq_append_iff.1 hafter
        obtain ⟨c, ts, rfl, rfl, rfl⟩ := List.map_eq_cons_iff.1 hclose
        obtain ⟨ho, hproper⟩ := List.forall_mem_cons.1 hproper
        obtain ⟨hinner, hproper⟩ := List.forall_mem_append.1 hproper
        obtain ⟨hc, hts⟩ := List.forall_mem_cons.1 hproper
        have hkinds := (mem_bracketKinds_iff ho hc).2 hmem
        obtain ⟨hforeign, hnested⟩ := ihinner hinner rfl
        obtain ⟨hforeign', hnested'⟩ := ih hts rfl
        constructor
        · refine List.forall_mem_cons.2 ⟨not_foreign_of_bracket hkinds (.inl rfl),
            List.forall_mem_append.2 ⟨hforeign, List.forall_mem_cons.2 ⟨?_, hforeign'⟩⟩⟩
          exact not_foreign_of_bracket hkinds (.inr rfl)
        · rw [List.map_cons, List.map_append, List.map_cons]
          exact .bracket hkinds hnested hnested'
  · rintro ⟨hforeign, h⟩
    generalize hkinds : ts.map (·.kind) = kinds at h
    induction h generalizing ts with
    | nil =>
        obtain rfl := List.map_eq_nil_iff.1 hkinds
        exact .nil
    | other hother _ ih =>
        obtain ⟨t, ts, rfl, rfl, rfl⟩ := List.map_eq_cons_iff.1 hkinds
        obtain ⟨ht, hts⟩ := List.forall_mem_cons.1 hproper
        obtain ⟨hleaf, hrest⟩ := List.forall_mem_cons.1 hforeign
        obtain ⟨kind, hkind⟩ := ht.isLeaf_iff.2 ⟨hleaf, hother⟩
        exact .leaf (Lexeme.isLexeme ht) hkind (ih hts hrest rfl)
    | bracket hmem _ _ ihinner ih =>
        obtain ⟨o, ts, rfl, rfl, hafter⟩ := List.map_eq_cons_iff.1 hkinds
        obtain ⟨inner, ts, rfl, rfl, hclose⟩ := List.map_eq_append_iff.1 hafter
        obtain ⟨c, ts, rfl, rfl, rfl⟩ := List.map_eq_cons_iff.1 hclose
        obtain ⟨ho, hproper⟩ := List.forall_mem_cons.1 hproper
        obtain ⟨hinner, hproper⟩ := List.forall_mem_append.1 hproper
        obtain ⟨hc, hts⟩ := List.forall_mem_cons.1 hproper
        obtain ⟨_, hforeign⟩ := List.forall_mem_cons.1 hforeign
        obtain ⟨hinside, hforeign⟩ := List.forall_mem_append.1 hforeign
        obtain ⟨_, hbehind⟩ := List.forall_mem_cons.1 hforeign
        rw [List.map_cons, List.map_append, List.map_cons]
        exact .bracket ((mem_bracketKinds_iff ho hc).1 hmem) (ihinner hinner hinside rfl)
          (ih hts hbehind rfl)

end Token

/-! ## §2. The first statement of a text. -/

namespace Parse

/-- What is known of the tokens where the reader stands in the first statement
of a text and in no other statement around it: those of a simple statement
spell its parts so far, and those of a label start with a keyword. -/
def First (ts : List Token) : State → Prop
  | .start _ => ts = []
  | .head purpose _ => purpose ≠ .statement ∧ purpose ≠ .label
  | .expr .statement levels parts _ => Spelt .statement (ts.map (·.lexeme)) levels parts
  | .expr .label _ _ _ | .colon _ | .labelled _ _ => ∃ t ∈ ts.head?, ¬ OpensExpr t
  | .expr _ _ _ _ | .done _ _ => True

section

variable {ts : List Token} {t : Token} {context : Context} {state state' : State}

/-- A complete statement leaves a context that is not empty. -/
theorem attach_ne_top (elseFollows : Bool) (s : Stmt) (context : Context) :
    (context.attach elseFollows s).1 ≠ .top [] := by
  induction context generalizing s with
  | top stmts => simp [Context.attach]
  | block => simp [Context.attach]
  | loop _ _ _ _ ih | no _ _ _ ih | switch _ _ ih => exact ih _
  | yes c outer ih =>
      unfold Context.attach
      split
      · simp
      · exact ih _

theorem Starts.first (h : Starts t context state') (ht : t.IsProper)
    (htop : state'.context = .top []) (hts : context = .top [] → ts = []) :
    First (ts ++ [t]) state' := by
  cases h with
  | block => cases htop
  | empty | directive | endBlock => trivial
  | forLoop | whileLoop | conditional | switch => exact ⟨by decide, by decide⟩
  | case hword | default hword =>
      obtain rfl := hts htop
      exact ⟨t, rfl, fun hopens => by simp [hopens.2] at hword⟩
  | endFragment hk => exact absurd hk (Token.Lexeme.kind_ne_eof ht)
  | expr hopens hgrows =>
      obtain rfl := hts htop
      exact Spelt.grow (by decide) .nil (Token.Lexeme.isLexeme ht) (hgrows.plain ht)

theorem Continues.first {s : Stmt} (h : Continues t s context state') (ht : t.IsProper)
    (htop : state'.context = .top []) : First (ts ++ [t]) state' := by
  cases h with
  | next _ hattach hstarts =>
      -- The statement that is complete stands before the next one.
      refine hstarts.first ht htop fun htop' => absurd ?_ (attach_ne_top false s context)
      rw [hattach, htop']
  | alternative _ hattach =>
      refine absurd ?_ (attach_ne_top true s context)
      rw [hattach]
      exact htop

/-- **One more token of the first statement.** -/
theorem Moves.first (h : Moves t state state') (ht : t.IsProper)
    (htop : state'.context = .top []) (hstate : state.context = .top [] → First ts state) :
    First (ts ++ [t]) state' := by
  -- What the tokens start with does not change.
  have hlabel : (∃ t ∈ ts.head?, ¬ OpensExpr t) → ∃ t' ∈ (ts ++ [t]).head?, ¬ OpensExpr t' := by
    rintro ⟨first, hfirst, hopens⟩
    refine ⟨first, ?_, hopens⟩
    rw [List.head?_append, Option.mem_def.1 hfirst]
    rfl
  cases h with
  | start h => exact h.first ht htop hstate
  | @head purpose context hk =>
      obtain ⟨hstatement, hlabel⟩ := hstate htop
      cases purpose with
      | statement => exact absurd rfl hstatement
      | label => exact absurd rfl hlabel
      | decl | test | increment | onlyTest | condition | selector => trivial
  | @grow purpose _ _ _ _ _ _ hgrows =>
      have hfirst := hstate htop
      cases purpose with
      | statement =>
          rw [First, List.map_append]
          exact Spelt.grow (by decide) hfirst (Token.Lexeme.isLexeme ht) (hgrows.plain ht)
      | label => exact hlabel hfirst
      | decl | test | increment | onlyTest | condition | selector => trivial
  | @finish purpose _ _ _ =>
      cases purpose with
      | label => exact hlabel (hstate htop)
      | statement | decl | test => trivial
      -- A loop, a conditional or a switch now stands around what follows.
      | increment | onlyTest | condition | selector => cases htop
  | colon => exact hlabel (hstate htop)
  | endLabel => trivial
  | labelled _ h | done h => exact h.first ht htop

end

/-- A run through the first statement. -/
theorem steps_first {ts : List Token} (hproper : ∀ t ∈ ts, t.IsProper) {state : State}
    (h : steps (.start (.top [])) ts = .ok state) (htop : state.context = .top []) :
    First ts state := by
  induction ts using List.reverseRecOn generalizing state with
  | nil =>
      cases h
      rfl
  | append_singleton ts t ih =>
      obtain ⟨hts, ht⟩ := List.forall_mem_append.1 hproper
      rw [steps_append] at h
      obtain ⟨middle, hmiddle, hstep⟩ := bind_eq_ok.1 h
      obtain ⟨_, hstep, ⟨⟩⟩ := bind_eq_ok.1 hstep
      exact (step_eq_ok.1 hstep).first (ht t (by simp)) htop (ih hts hmiddle)

section

variable {t : Token} {context : Context} {state state' : State}

theorem Starts.semicolon (h : Starts t context state') (hk : t.kind = .semicolon) :
    state' = .done .empty context := by
  have hother : ∀ {kind : Token.Kind}, t.kind = kind → kind ≠ .semicolon → False := fun h hne =>
    hne (h.symm.trans hk)
  cases h with
  | empty => rfl
  | block h | directive h | endBlock h | endFragment h => exact (hother h (by decide)).elim
  | forLoop h | whileLoop h | conditional h | switch h | case h | default h =>
      exact (hother (isKeyword_iff.1 h).1 (by decide)).elim
  | expr _ hgrows =>
      exact absurd (by rw [hk]; decide) hgrows.kind_of_nil.1

/-- **A semicolon goes on to another clause, or it completes a statement**: an
empty one, a simple one, a label, or one behind another statement. -/
theorem Moves.semicolon (h : Moves t state state') (hk : t.kind = .semicolon) :
    (∃ purpose levels parts context, state' = .expr purpose levels parts context)
      ∨ ∃ s context, state' = .done s context ∧ (state = .start context
        ∨ (∃ parts, state = .expr .statement [] parts context)
        ∨ (∃ label, state = .labelled label context) ∨ context ≠ .top []) := by
  cases h with
  | start h => exact .inr ⟨_, _, h.semicolon hk, .inl rfl⟩
  | head | grow => exact .inl ⟨_, _, _, _, rfl⟩
  | @finish purpose parts context hends =>
      cases purpose with
      | statement => exact .inr ⟨_, _, rfl, .inr (.inl ⟨parts, rfl⟩)⟩
      | decl | test => exact .inl ⟨_, _, _, _, rfl⟩
      | increment | onlyTest | condition | selector =>
          simp [Purpose.endsAt, hk] at hends
      | label => simp [Purpose.endsAt, Token.isOperator, hk] at hends
  | colon hcolon => simp [Token.isOperator, hk] at hcolon
  | endLabel => exact .inr ⟨_, _, rfl, .inr (.inr (.inl ⟨_, rfl⟩))⟩
  | labelled hne => exact absurd hk hne
  | @done s context _ h =>
      cases h with
      | next _ hattach hstarts =>
          refine .inr ⟨_, _, hstarts.semicolon hk, .inr (.inr (.inr fun htop => ?_))⟩
          refine absurd ?_ (attach_ne_top false s context)
          rw [hattach, htop]
      | alternative helse => simp [Token.isKeyword, hk] at helse

/-- One simple statement at the top had nothing before it and nothing around
it. -/
theorem attach_eq_basic {s : Stmt} {es : List Expr} {tags : Tags}
    (h : (context.attach false s).1 = .top [.basic es tags]) :
    context = .top [] ∧ s = .basic es tags := by
  induction context generalizing s with
  | top stmts =>
      have hsingle : stmts ++ [s] = [] ++ [.basic es tags] := Context.top.inj h
      obtain ⟨rfl, hs⟩ := List.append_inj' hsingle rfl
      exact ⟨rfl, List.singleton_inj.1 hs⟩
  | block => simp [Context.attach] at h
  | loop _ _ _ _ ih | yes _ _ ih | no _ _ _ ih | switch _ _ ih => cases (ih h).2

end

/-- **A text that is read as one simple statement**, and does not start like a
block or a label, is spelt up to its semicolon. -/
theorem spelt_of_basic {ts : List Token} {semi : Token} {stop : Location} {es : List Expr}
    {tags : Tags} (hproper : ∀ t ∈ ts, t.IsProper) (hsemi : semi.kind = .semicolon)
    (hfirst : ∀ t ∈ ts.head?, OpensExpr t)
    (h : stmts (ts ++ [semi] ++ [.eof stop]) = .ok [.basic es tags]) :
    ∃ parts, Spelt .statement (ts.map (·.lexeme)) [] parts := by
  obtain ⟨state, state', hsteps, hend, htop⟩ := stmts_eq_ok.1 h
  rw [steps_append] at hsteps
  obtain ⟨middle, hmiddle, hsteps⟩ := bind_eq_ok.1 hsteps
  obtain ⟨_, hstep, ⟨⟩⟩ := bind_eq_ok.1 hsteps
  rcases (step_eq_ok.1 hstep).semicolon hsemi with
    ⟨purpose, levels, parts, context, rfl⟩ | ⟨s, context, rfl, hbefore⟩
  -- Inside an expression the text cannot end.
  · rw [show step (.expr purpose levels parts context) (.eof stop) = _ from
      stepExpr_eof purpose levels parts context stop] at hend
    cases hend
  · have hcontext : context = .top [] := by
      cases step_eq_ok.1 hend with
      | done h =>
          cases h with
          | next _ hattach hstarts =>
              obtain ⟨ss, rfl, rfl⟩ := stepStart_eof (stepStart_eq_ok.2 hstarts)
              obtain rfl : ss = [.basic es tags] := htop
              exact (attach_eq_basic (by rw [hattach])).1
          | alternative helse => cases helse
    subst hcontext
    rcases hbefore with rfl | ⟨parts, rfl⟩ | ⟨label, rfl⟩ | hne
    · obtain rfl : ts = [] := steps_first hproper hmiddle rfl
      exact ⟨[], .nil⟩
    · exact ⟨parts, steps_first hproper hmiddle rfl⟩
    · obtain ⟨t, ht, hopens⟩ := steps_first hproper hmiddle rfl
      exact absurd (hfirst t ht) hopens
    · exact absurd rfl hne

/-- What is spelt is paired. -/
theorem Spelt.paired {purpose : Purpose} {words : List String} {parts : List Expr}
    (h : Spelt purpose words [] parts) : Paired words := by
  have hspelt : (collapse parts).IsSpelt purpose := ⟨words, parts, h, rfl⟩
  have hwords := h.spec.2.2
  rw [levelsWords, List.nil_append] at hwords
  rw [hwords, ← collapse_words]
  exact hspelt.paired

end Parse

/-! ## §3. Expressions. -/

/-- **Exactly the texts whose brackets match are expressions.**  Take a text
that, with a semicolon behind it, is scanned into some tokens and the
semicolon, and the first of these tokens starts neither a block nor a label.
It is read as an expression exactly if none of the tokens is a semicolon, a
directive or a keyword of a statement, and the brackets among them are balanced
and nested. -/
theorem expression_iff_nested {text : String} {ts : List Token} {semi : Token} {stop : Location}
    (hscan : Token.scan (text ++ ";") = .ok (ts ++ [semi, .eof stop]))
    (hsemi : semi.kind = .semicolon) (hfirst : ∀ t ∈ ts.head?, Parse.OpensExpr t)
    (origin : Location) :
    (∃ e, Expr.parse text origin = .ok e)
      ↔ (∀ t ∈ ts, ¬ t.Foreign) ∧ Token.Nested (ts.map (·.kind)) := by
  obtain ⟨tokens, here, htokens, hreads, hproper⟩ := Token.Reads.of_scanFrom hscan
  rw [List.append_cons] at htokens hscan
  obtain rfl : tokens = ts ++ [semi] := (List.append_inj_left' htokens rfl).symm
  obtain ⟨hts, hlast⟩ := List.forall_mem_append.1 hproper
  rw [← Token.paired_iff_nested hts]
  constructor
  · rintro ⟨e, hparse⟩
    obtain ⟨es, tags, hstmt, _⟩ := Expr.parse_eq_ok.1 hparse
    obtain ⟨b, hblock, hstmts⟩ := Stmt.parse_eq_ok.1 hstmt
    obtain ⟨tokens, here', hscan', _, _, hread⟩ := Block.tokens_of_parse hblock
    rw [← Except.ok.inj (hscan.symm.trans hscan'), hstmts] at hread
    obtain ⟨parts, hspelt⟩ := Parse.spelt_of_basic hts hsemi hfirst hread
    exact hspelt.paired
  · intro hpaired
    obtain ⟨parts, hspelt⟩ := hpaired.spelt
    have hwords : (Parse.collapse parts).words = ts.map (·.lexeme) := by
      rw [Parse.collapse_words]
      exact hspelt.spec.2.2.symm
    have hopens : (Parse.collapse parts).Opens := by
      intro word hword
      rw [hwords, List.head?_map] at hword
      obtain ⟨t, ht, rfl⟩ := Option.map_eq_some_iff.1 hword
      rw [(hts t (List.mem_of_mem_head? ht)).plain_lexeme]
      exact hfirst t ht
    refine ⟨_, Expr.IsSpelt.parse ⟨_, parts, hspelt, rfl⟩ hopens ?_ origin⟩
    rw [hwords]
    rw [String.toList_append, List.map_append] at hreads
    have hmark : semi.lexeme = ";" := (hlast semi (by simp)).lexeme_eq hsemi rfl
    rwa [show [semi].map (·.lexeme) = [";"] by simp [hmark]] at hreads

/-- Brackets inside brackets are read; a square bracket that closes a
parenthesis is not, so these brackets are not nested. -/
theorem expression_iff_nested_call :
    let token : Token.Kind → String → Nat → Token := fun kind word n => ⟨kind, word, ⟨0, n, n⟩⟩
    let inside : List Token := [token .identifier "f" 0, token .lParen "(" 1,
      token .identifier "a" 2, token .lBracket "[" 3, token .identifier "i" 4,
      token .rBracket "]" 5, token .rParen ")" 6]
    let crossed : List Token := [token .identifier "f" 0, token .lParen "(" 1,
      token .identifier "a" 2, token .rBracket "]" 3]
    (Token.scan ("f(a[i])" ++ ";") = .ok (inside ++ [token .semicolon ";" 7, .eof ⟨0, 8, 8⟩])
        ∧ ∃ e, Expr.parse "f(a[i])" {} = .ok e)
      ∧ Token.scan ("f(a]" ++ ";") = .ok (crossed ++ [token .semicolon ";" 4, .eof ⟨0, 5, 5⟩])
        ∧ ¬ Token.Nested (crossed.map (·.kind)) := by
  intro token inside crossed
  have hscan : Token.scan ("f(a[i])" ++ ";")
      = .ok (inside ++ [token .semicolon ";" 7, .eof ⟨0, 8, 8⟩]) := by decide +kernel
  have hscan' : Token.scan ("f(a]" ++ ";")
      = .ok (crossed ++ [token .semicolon ";" 4, .eof ⟨0, 5, 5⟩]) := by decide +kernel
  have hother : ∀ pair ∈ Token.bracketKinds, Token.Kind.identifier ≠ pair.1
      ∧ Token.Kind.identifier ≠ pair.2 := by decide
  have hfirst : ∀ rest, ∀ t ∈ (token .identifier "f" 0 :: rest).head?, Parse.OpensExpr t := by
    rintro rest _ ⟨⟩
    exact ⟨by decide, by decide, by decide⟩
  refine ⟨⟨hscan, (expression_iff_nested hscan rfl (hfirst _) {}).2 ⟨by decide, ?_⟩⟩, hscan', ?_⟩
  · have hindex : Token.Nested [.lBracket, .identifier, .rBracket] :=
      @Token.Nested.bracket .lBracket .rBracket [.identifier] [] (by decide)
        (.other hother .nil) .nil
    exact .other hother (@Token.Nested.bracket .lParen .rParen
      [.identifier, .lBracket, .identifier, .rBracket] [] (by decide) (.other hother hindex) .nil)
  · intro hnested
    obtain ⟨e, he⟩ := (expression_iff_nested hscan' rfl (hfirst _) {}).2 ⟨by decide, hnested⟩
    have hfails : (Expr.parse "f(a]" {}).toOption = none := by decide +kernel
    rw [he] at hfails
    cases hfails

end RuleBody
