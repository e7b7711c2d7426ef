/-
  RuleBody.Proofs.Tokens
  ──────────────────────
  **WHAT IS WRITTEN HAS THE TOKENS THAT WERE READ.**

  Reading groups tokens and writing sets blanks anew, but neither invents or
  loses a token (`writing_keeps_tokens`): the text of a rule body that was
  read scans to the tokens it was read from, but for

      while (c)      — written as   for (; c; )
      case 1:        — written as   case 1:;

  so semicolons may be added behind labels and in loops that had only a
  test, and nowhere else.  The reader keeps this at every step: the words of
  its state are the words that it has read (`Moves.keeps`).

  §1  what is seen of a token;
  §2  one step;
  §3  a run;
  §4  texts.
-/
import RuleBody.Proofs.Moves
import RuleBody.Proofs.RoundTrip

namespace RuleBody

open RuleBody.Expr (wordsOf)

/-! ## §1. What is seen of a token. -/

namespace Token

/-- A token without its place. -/
def face (t : Token) : Kind × String := (t.kind, t.lexeme)

/-- What counts of a token: of a semicolon nothing, and `while` counts as
`for`. -/
def counted (f : Kind × String) : List (Kind × String) :=
  if f.1 = .semicolon then []
  else [if f = (.keyword, "while") then (.keyword, "for") else f]

/-- The tokens of a text without the semicolons, and with `for` in the place
of `while`. -/
def essence (faces : List (Kind × String)) : List (Kind × String) := faces.flatMap counted

theorem essence_append (xs ys : List (Kind × String)) :
    essence (xs ++ ys) = essence xs ++ essence ys := List.flatMap_append

/-- The token starts neither a loop with only a test nor a label. -/
def isOrdinary (t : Token) : Bool :=
  !t.isKeyword "while" && !t.isKeyword "case" && !t.isKeyword "default"

theorem isOrdinary_iff {t : Token} :
    t.isOrdinary = true ↔ t.isKeyword "while" = false ∧ t.isKeyword "case" = false
      ∧ t.isKeyword "default" = false := by
  simp [isOrdinary, and_assoc]

/-- What is seen of a word. -/
def faceOf (word : String) : Kind × String := (kindOf word, word)

theorem IsProper.face_eq {t : Token} (h : t.IsProper) : t.face = faceOf t.lexeme := by
  rw [face, faceOf, Lexeme.kindOf_eq h]

theorem map_face {ts : List Token} (h : ∀ t ∈ ts, t.IsProper) :
    ts.map face = (ts.map (·.lexeme)).map faceOf := by
  rw [List.map_map]
  exact List.map_congr_left fun t ht => (h t ht).face_eq

/-- What counts of some words. -/
def essenceOf (words : List String) : List (Kind × String) := essence (words.map faceOf)

@[simp] theorem essenceOf_nil : essenceOf [] = [] := rfl

@[simp] theorem essenceOf_cons (word : String) (words : List String) :
    essenceOf (word :: words) = counted (faceOf word) ++ essenceOf words := rfl

@[simp] theorem essenceOf_append (xs ys : List String) :
    essenceOf (xs ++ ys) = essenceOf xs ++ essenceOf ys := by
  rw [essenceOf, List.map_append, essence_append]
  rfl

@[simp] theorem counted_semicolon : counted (faceOf ";") = [] := by decide

@[simp] theorem counted_while : counted (faceOf "while") = counted (faceOf "for") := by decide

end Token

/-! ## §2. One step. -/

namespace Parse

open Token (essenceOf)

/-- The words of what has been read; the parenthesis of a loop with only a
test is still to come. -/
def State.spelt : State → List String
  | .head .onlyTest context => context.words ++ ["for"]
  | state => state.words

/-- The state is neither in a loop with only a test nor in a label. -/
def State.isPlain : State → Bool
  | .head .onlyTest _ | .expr .onlyTest _ _ _ | .expr .label _ _ _ | .colon _ | .labelled _ _ =>
      false
  | _ => true

/-- What a step has to keep of the words. -/
structure Keeps (words : List String) (plain : Bool) (t : Token) (state' : State) : Prop where
  essence : essenceOf state'.spelt = essenceOf (words ++ [t.lexeme])
  exactly : plain = true → t.isOrdinary = true →
    state'.isPlain = true ∧ state'.spelt = words ++ [t.lexeme]

section

variable {words : List String} {plain : Bool} {t : Token} {state state' : State}

theorem Keeps.of_eq (hwords : state'.spelt = words ++ [t.lexeme])
    (hplain : plain = true → t.isOrdinary = true → state'.isPlain = true) :
    Keeps words plain t state' where
  essence := by rw [hwords]
  exactly hp ht := ⟨hplain hp ht, hwords⟩

theorem Keeps.of_essence (h : essenceOf state'.spelt = essenceOf (words ++ [t.lexeme]))
    (hplain : plain = true → t.isOrdinary = false) : Keeps words plain t state' where
  essence := h
  exactly hp ht := by
    rw [hplain hp] at ht
    cases ht

theorem isOrdinary_eq_false {word : String} (hword : t.isKeyword word = true)
    (hmem : word ∈ ["while", "case", "default"]) : t.isOrdinary = false := by
  refine Bool.eq_false_iff.2 fun h => ?_
  obtain ⟨hwhile, hcase, hdefault⟩ := Token.isOrdinary_iff.1 h
  simp only [List.mem_cons, List.not_mem_nil, or_false] at hmem
  rcases hmem with rfl | rfl | rfl
  · exact absurd hword (Bool.eq_false_iff.1 hwhile)
  · exact absurd hword (Bool.eq_false_iff.1 hcase)
  · exact absurd hword (Bool.eq_false_iff.1 hdefault)

theorem Starts.keeps {context : Context} (h : Starts t context state') (ht : t.IsProper) :
    Keeps context.words true t state' := by
  cases h with
  | block hk =>
      refine .of_eq ?_ fun _ _ => rfl
      rw [ht.lexeme_eq hk rfl]
      rfl
  | empty hk =>
      refine .of_eq ?_ fun _ _ => rfl
      rw [ht.lexeme_eq hk rfl]
      rfl
  | directive => exact .of_eq (by simp [State.spelt, State.words, Stmt.words]) fun _ _ => rfl
  | forLoop hword | conditional hword | switch hword =>
      obtain ⟨_, hlexeme⟩ := isKeyword_iff.1 hword
      refine .of_eq ?_ fun _ _ => rfl
      rw [hlexeme]
      rfl
  | whileLoop hword =>
      obtain ⟨_, hlexeme⟩ := isKeyword_iff.1 hword
      refine .of_essence ?_ fun _ => isOrdinary_eq_false hword (by decide)
      simp [State.spelt, hlexeme]
  | case hword =>
      obtain ⟨_, hlexeme⟩ := isKeyword_iff.1 hword
      refine .of_essence ?_ fun _ => isOrdinary_eq_false hword (by decide)
      rw [hlexeme]
      rfl
  | default hword =>
      obtain ⟨_, hlexeme⟩ := isKeyword_iff.1 hword
      refine .of_essence ?_ fun _ => isOrdinary_eq_false hword (by decide)
      rw [hlexeme]
      rfl
  | endBlock hk =>
      refine .of_eq ?_ fun _ _ => rfl
      rw [ht.lexeme_eq hk rfl]
      simp [State.spelt, State.words, Context.words, Stmt.words, Stmt.ofBlock]
  | endFragment hk => exact absurd hk (Token.Lexeme.kind_ne_eof ht)
  | expr _ hgrows =>
      refine .of_eq ?_ fun _ _ => rfl
      have hwords := (hgrows.extended ht (by simp) (by simp)).words
      simp only [levelsWords, Expr.wordsOf_nil, List.nil_append] at hwords
      simp only [State.spelt, State.words, Purpose.words, List.nil_append, hwords]

theorem Continues.keeps {s : Stmt} {context : Context} (h : Continues t s context state')
    (ht : t.IsProper) (hs : s.Pristine) (hcontext : context.Legible) :
    Keeps (context.words ++ s.words) true t state' := by
  cases h with
  | next helse hattach hstarts =>
      obtain ⟨context', hattach', _, hwords⟩ := Context.attach_false hs hcontext
      obtain ⟨rfl, _⟩ := Prod.mk.inj (hattach.symm.trans hattach')
      rw [← hwords]
      exact hstarts.keeps ht
  | alternative helse hattach =>
      obtain ⟨_, hwords⟩ := Context.attach_true hs hcontext hattach
      obtain ⟨_, hlexeme⟩ := isKeyword_iff.1 helse
      refine .of_eq ?_ fun _ _ => rfl
      rw [hlexeme, List.append_assoc]
      exact hwords

/-- The end of an expression. -/
theorem finish_keeps {purpose : Purpose} {parts : List Expr} {context : Context}
    (ht : t.IsProper) (hparts : ∀ e ∈ parts, e.Legible) (hends : purpose.endsAt t = true) :
    Keeps (State.expr purpose [] parts context).words
      (State.expr purpose [] parts context).isPlain t
      (purpose.finish (collapse parts) context) := by
  cases purpose with
  | statement =>
      have hsemi := ht.lexeme_eq (of_decide_eq_true hends) (show _ = some ";" from rfl)
      refine .of_eq ?_ fun _ _ => rfl
      show context.words ++ (if (collapse parts).isNil then Stmt.empty
        else .ofExpr (collapse parts)).words = _
      split
      · rename_i hnil
        have hwords : wordsOf parts = [] := by
          rw [← collapse_words, isNil_of_legible (collapse_legible hparts) hnil, Expr.words_nil]
        simp [State.words, Purpose.words, levelsWords, hwords, hsemi, Stmt.empty, Stmt.words]
      · simp [State.words, Purpose.words, levelsWords, hsemi, Stmt.ofExpr, Stmt.words,
          collapse_words]
  | decl | test =>
      have hsemi := ht.lexeme_eq (of_decide_eq_true hends) (show _ = some ";" from rfl)
      refine .of_eq ?_ fun _ _ => rfl
      simp [Purpose.finish, State.spelt, State.words, Purpose.words, levelsWords, hsemi,
        collapse_words]
  | increment | condition | selector =>
      have hparen := ht.lexeme_eq (of_decide_eq_true hends) (show _ = some ")" from rfl)
      refine .of_eq ?_ fun _ _ => rfl
      simp [Purpose.finish, State.spelt, State.words, Context.words, Purpose.words, levelsWords,
        hparen, collapse_words]
  | onlyTest =>
      -- The parenthesis is written as a semicolon and a parenthesis.
      have hparen := ht.lexeme_eq (of_decide_eq_true hends) (show _ = some ")" from rfl)
      refine .of_essence ?_ fun h => Bool.noConfusion h
      simp [Purpose.finish, State.spelt, State.words, Context.words, Purpose.words, levelsWords,
        hparen, collapse_words]
  | label =>
      obtain ⟨_, hcolon⟩ : t.kind = .operator ∧ t.lexeme = ":" := by
        simpa [Purpose.endsAt, Token.isOperator] using hends
      refine .of_essence ?_ fun h => Bool.noConfusion h
      simp [Purpose.finish, State.spelt, State.words, Purpose.words, levelsWords, Stmt.ofExpr,
        Stmt.words, collapse_words, words_keyword (show "case" ∈ Stmt.keywords by decide), hcolon]

/-- **One step keeps what was read**: the words of the state grow by the
token, up to semicolons and the spelling of `while`; and by the token alone
where there is neither a `while` nor a label. -/
theorem Moves.keeps (h : Moves t state state') (ht : t.IsProper) (hlegible : state.Legible) :
    Keeps state.spelt state.isPlain t state' := by
  cases h with
  | start h => exact h.keeps ht
  | @head purpose context hk =>
      have hparen := ht.lexeme_eq hk (show _ = some "(" from rfl)
      obtain ⟨hhead, _⟩ := hlegible
      cases purpose with
      | decl | condition | selector =>
          refine .of_eq ?_ fun _ _ => rfl
          simp [State.spelt, State.words, Purpose.words, levelsWords, hparen]
      | onlyTest =>
          refine .of_essence ?_ fun h => Bool.noConfusion h
          simp [State.spelt, State.words, Purpose.words, levelsWords, hparen]
      | statement | test | increment | label => cases hhead
  | @grow purpose levels levels' parts parts' context _ h =>
      obtain ⟨_, hlevels, hparts, _⟩ := hlegible
      have hwords := (h.extended ht hlevels hparts).words
      refine .of_eq ?_ fun hplain _ => ?_
      · simp only [State.spelt, State.words, List.append_assoc, hwords]
      · cases purpose <;> first | rfl | exact hplain
  | finish hends => exact finish_keeps ht hlegible.2.2.1 hends
  | colon hcolon =>
      obtain ⟨_, hlexeme⟩ : t.kind = .operator ∧ t.lexeme = ":" := by
        simpa [Token.isOperator] using hcolon
      refine .of_essence ?_ fun h => Bool.noConfusion h
      simp [State.spelt, State.words, Stmt.ofExpr, Stmt.words,
        words_keyword (show "default" ∈ Stmt.keywords by decide), hlexeme]
  | endLabel hk =>
      refine .of_essence ?_ fun h => Bool.noConfusion h
      rw [ht.lexeme_eq hk rfl]
      simp [State.spelt, State.words]
  | labelled _ h =>
      refine .of_essence (h.keeps ht hlegible.1 hlegible.2).essence fun h => Bool.noConfusion h
  | done h => exact h.keeps ht hlegible.1 hlegible.2

end

/-! ## §3. A run. -/

/-- The words of the state that a run leads to are the words that it read. -/
theorem steps_spelt {tokens : List Token} {state state' : State} (ht : ∀ t ∈ tokens, t.IsProper)
    (hlegible : state.Legible) (h : steps state tokens = .ok state') :
    essenceOf state'.spelt = essenceOf (state.spelt ++ tokens.map (·.lexeme))
      ∧ (state.isPlain = true → (∀ t ∈ tokens, t.isOrdinary = true) →
        state'.spelt = state.spelt ++ tokens.map (·.lexeme)) := by
  induction tokens generalizing state with
  | nil =>
      cases h
      simp
  | cons t ts ih =>
      obtain ⟨htoken, hts⟩ := List.forall_mem_cons.1 ht
      rw [steps_cons] at h
      cases hstep : step state t with
      | error e =>
          rw [hstep] at h
          cases h
      | ok middle =>
          rw [hstep] at h
          obtain ⟨hmiddle, _⟩ := step_replays htoken hlegible hstep
          have hkeeps := (step_eq_ok.1 hstep).keeps htoken hlegible
          obtain ⟨hessence, hexactly⟩ := ih hts hmiddle h
          constructor
          · rw [hessence, Token.essenceOf_append, hkeeps.essence]
            simp
          · intro hplain hordinary
            obtain ⟨hword, hwords⟩ := List.forall_mem_cons.1 hordinary
            obtain ⟨hplain', hspelt⟩ := hkeeps.exactly hplain hword
            rw [hexactly hplain' hwords, hspelt]
            simp

/-- A fragment ends in a state whose words are those of its statements. -/
theorem spelt_of_step_eof {state state' : State} {stop : Location}
    (h : step state (.eof stop) = .ok state') : state.spelt = state.words := by
  cases state with
  | head => cases h
  | start | expr | colon | labelled | done => rfl

theorem stmts_keep {ts : List Token} {stop : Location} {ss : List Stmt}
    (hproper : ∀ t ∈ ts, t.IsProper) (h : stmts (ts ++ [.eof stop]) = .ok ss) :
    essenceOf (Stmt.wordsOf ss) = essenceOf (ts.map (·.lexeme))
      ∧ ((∀ t ∈ ts, t.isOrdinary = true) → Stmt.wordsOf ss = ts.map (·.lexeme)) := by
  obtain ⟨state, state', hsteps, hend, rfl⟩ := stmts_eq_ok.1 h
  have hstart : (State.start (.top [])).Legible := by
    intro s hs
    cases hs
  obtain ⟨hlegible, _⟩ := replay hproper hstart hsteps
  obtain ⟨hessence, hexactly⟩ := steps_spelt hproper hstart hsteps
  obtain ⟨ss, rfl, _, hwords, _⟩ := step_eof hlegible hend
  rw [spelt_of_step_eof hend, hwords] at hessence hexactly
  exact ⟨hessence, hexactly rfl⟩

end Parse

/-! ## §4. Texts. -/

open Token (face essence)

/-- The tokens that a block was read from. -/
theorem Block.tokens_of_parse {src : String} {origin : Location} {b : Block}
    (h : Block.parse src origin = .ok b) :
    ∃ ts stop, Token.scan src = .ok (ts ++ [.eof stop])
      ∧ Token.Reads src.toList (ts.map (·.lexeme)) ∧ (∀ t ∈ ts, t.IsProper)
      ∧ Parse.stmts (ts ++ [.eof stop]) = .ok b.stmts := by
  unfold Block.parse at h
  split at h
  · cases h
  · rename_i tokens hscan
    split at h
    · cases h
    · rename_i ss hstmts
      cases h
      obtain ⟨ts, stop, rfl, hreads, hproper⟩ := Token.Reads.of_scanFrom hscan
      exact ⟨ts, stop, hscan, hreads, hproper, hstmts⟩

/-- **Writing keeps the tokens.**  What is written of a rule body that was
read scans to the tokens that were read, up to semicolons and the spelling
of `while`; and to exactly these tokens where none of them starts a loop
with only a test or a label. -/
theorem writing_keeps_tokens {src : String} {origin : Location} {b : Block}
    (h : Block.parse src origin = .ok b) :
    ∃ text tokens tokens', b.print = .ok text ∧ Token.scan src = .ok tokens
      ∧ Token.scan text = .ok tokens'
      ∧ essence (tokens'.map face) = essence (tokens.map face)
      ∧ ((∀ t ∈ tokens, t.isOrdinary = true) → tokens'.map face = tokens.map face) := by
  obtain ⟨_, hpristine, _⟩ := Block.parse_spec h
  obtain ⟨text, htext, hreads⟩ := Block.Legible.written fun s hs => (hpristine s hs).legible
  obtain ⟨ts', stop', hscan', hwords', hproper'⟩ := hreads.scanFrom {}
  obtain ⟨ts, stop, hscan, _, hproper, hstmts⟩ := Block.tokens_of_parse h
  obtain ⟨hessence, hexactly⟩ := Parse.stmts_keep hproper hstmts
  have hfaces : ts.map face = (ts.map (·.lexeme)).map Token.faceOf := Token.map_face hproper
  have hfaces' : ts'.map face = (Stmt.wordsOf b.stmts).map Token.faceOf := by
    rw [Token.map_face hproper', hwords']
  refine ⟨text, _, _, htext, hscan, hscan', ?_, fun hordinary => ?_⟩
  · have hts : essence (ts'.map face) = essence (ts.map face) := by
      rw [hfaces, hfaces']
      exact hessence
    rw [List.map_append, List.map_append, Token.essence_append, Token.essence_append, hts]
    rfl
  · have hts : ts'.map face = ts.map face := by
      rw [hfaces, hfaces', hexactly fun t ht => hordinary t (List.mem_append_left _ ht)]
    rw [List.map_append, List.map_append, hts]
    rfl

/-- A loop with only a test behind a label that has no semicolon, and a
conditional. -/
theorem writing_keeps_tokens_while :
    let labelled := "switch(a) \x7b case 1: while(n) f(n,); \x7d"
    let conditional := "if(a[i]) \x7b\x7d else ;"
    (∃ b text tokens tokens', Block.parse labelled {} = .ok b ∧ b.print = .ok text
      ∧ Token.scan labelled = .ok tokens ∧ Token.scan text = .ok tokens'
      ∧ essence (tokens'.map face) = essence (tokens.map face))
    ∧ ∃ b text tokens tokens', Block.parse conditional {} = .ok b ∧ b.print = .ok text
      ∧ Token.scan conditional = .ok tokens ∧ Token.scan text = .ok tokens'
      ∧ tokens'.map face = tokens.map face := by
  intro labelled conditional
  constructor
  · have hparse : Block.parse labelled {} = .ok ⟨[.switch [.ident "a"] (.ofBlock ⟨[
        .ofExpr (.chain [.keyword "case", .lit "1", .op ":"]),
        .loop [.nil, .ident "n", .nil]
          (.ofExpr (.call (.ident "f") (.args [.ident "n", .nil]))) none {}], {}⟩) {}], {}⟩ := by
      decide +kernel
    obtain ⟨text, tokens, tokens', htext, hscan, hscan', hessence, _⟩ :=
      writing_keeps_tokens hparse
    exact ⟨_, text, tokens, tokens', hparse, htext, hscan, hscan', hessence⟩
  · have hparse : Block.parse conditional {} = .ok ⟨[.cond
        [.chain [.ident "a", .op "[", .ident "i", .op "]"]] (.ofBlock ⟨[], {}⟩) (some .empty) {}],
        {}⟩ := by
      decide +kernel
    obtain ⟨text, tokens, tokens', htext, hscan, hscan', _, hexactly⟩ :=
      writing_keeps_tokens hparse
    have hordinary : (Token.scan conditional).map (·.all Token.isOrdinary) = .ok true := by
      decide +kernel
    rw [hscan] at hordinary
    have hall := List.all_eq_true.1 (Except.ok.inj hordinary)
    exact ⟨_, text, tokens, tokens', hparse, htext, hscan, hscan', hexactly hall⟩

end RuleBody
