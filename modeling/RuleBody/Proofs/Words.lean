/-
  RuleBody.Proofs.Words
  ─────────────────────
  **WHAT IS WRITTEN READS AS THE WORDS OF THE TREE.**

  The words of a tree are the texts of its tokens, in the order in which
  they are written.  A legible tree is one that the reader could have made,
  node by node: leaves are tokens, calls have a name and arguments, and
  statements have their expressions.  The text of a legible tree exists and
  reads as the words of the tree, whatever follows (`Expr.Legible.written`,
  `Stmt.Legible.written`).
-/
import RuleBody.Proofs.Reading
import RuleBody.Stmt.Print

namespace RuleBody

/-! ## §1. Words. -/

namespace Expr

mutual

/-- The words of an expression. -/
def words : Expr → List String
  | ⟨kind, text, parts, _⟩ =>
      match kind with
      | .args => wordsJoined [","] parts
      | .call => wordsCall parts
      | _ => (if text = "" then [] else [text]) ++ wordsJoined [] parts

/-- The words of some expressions with a separator between them. -/
def wordsJoined (separator : List String) : List Expr → List String
  | [] => []
  | [p] => words p
  | p :: ps => words p ++ (separator ++ wordsJoined separator ps)

/-- The words of the parts of a call. -/
def wordsCall : List Expr → List String
  | [] => []
  | [arguments] => "(" :: (words arguments ++ [")"])
  | p :: ps => words p ++ wordsCall ps

end

/-- The words of some expressions in a row. -/
def wordsOf (es : List Expr) : List String := es.flatMap words

@[simp] theorem wordsOf_nil : wordsOf [] = [] := rfl

@[simp] theorem wordsOf_cons (e : Expr) (es : List Expr) :
    wordsOf (e :: es) = e.words ++ wordsOf es := rfl

@[simp] theorem wordsOf_append (es fs : List Expr) :
    wordsOf (es ++ fs) = wordsOf es ++ wordsOf fs := List.flatMap_append

theorem wordsJoined_nil (es : List Expr) : wordsJoined [] es = wordsOf es := by
  induction es with
  | nil => rfl
  | cons e es ih =>
      cases es with
      | nil => simp [wordsJoined]
      | cons f fs => simp only [wordsJoined, List.nil_append, ih, wordsOf_cons]

@[simp] theorem words_nil : Expr.nil.words = [] := rfl

@[simp] theorem words_chain (parts : List Expr) : (chain parts).words = wordsOf parts := by
  show ([] : List String) ++ wordsJoined [] parts = _
  rw [wordsJoined_nil, List.nil_append]

@[simp] theorem words_args (parts : List Expr) : (args parts).words = wordsJoined [","] parts :=
  rfl

@[simp] theorem words_call (callee arguments : Expr) :
    (call callee arguments).words = callee.words ++ "(" :: (arguments.words ++ [")"]) := rfl

/-- The words of arguments, all but the last followed by a comma. -/
theorem wordsJoined_snoc (separator : List String) (es : List Expr) (e : Expr) :
    wordsJoined separator (es ++ [e]) = (es.flatMap fun f => f.words ++ separator) ++ e.words := by
  induction es with
  | nil => simp [wordsJoined]
  | cons f fs ih =>
      have hstep : wordsJoined separator (f :: (fs ++ [e]))
          = f.words ++ (separator ++ wordsJoined separator (fs ++ [e])) := by
        cases fs <;> rfl
      rw [List.cons_append, hstep, ih]
      simp

end Expr

namespace Stmt

mutual

/-- The words of a statement. -/
def words : Stmt → List String
  | .basic es _ => Expr.wordsOf es ++ [";"]
  | .block _ ss _ _ => "\x7b" :: (wordsOf ss ++ ["\x7d"])
  | .raw _ src _ => [src]
  | .loop es body _ _ => "for" :: "(" :: (clauses es ++ ")" :: words body)
  | .cond es yes none _ => "if" :: "(" :: (Expr.wordsOf es ++ ")" :: words yes)
  | .cond es yes (some no) _ =>
      "if" :: "(" :: (Expr.wordsOf es ++ ")" :: (words yes ++ "else" :: words no))
  | .switch es body _ => "switch" :: "(" :: (Expr.wordsOf es ++ ")" :: words body)
where
  /-- The words of the clauses of a loop. -/
  clauses : List Expr → List String
    | d :: t :: i :: _ => d.words ++ ";" :: (t.words ++ ";" :: i.words)
    | _ => []

/-- The words of some statements. -/
def wordsOf : List Stmt → List String
  | [] => []
  | s :: ss => words s ++ wordsOf ss

end

@[simp] theorem wordsOf_nil : wordsOf [] = [] := rfl

@[simp] theorem wordsOf_cons (s : Stmt) (ss : List Stmt) :
    wordsOf (s :: ss) = s.words ++ wordsOf ss := rfl

@[simp] theorem wordsOf_append (ss ts : List Stmt) :
    wordsOf (ss ++ ts) = wordsOf ss ++ wordsOf ts := by
  induction ss with
  | nil => rfl
  | cons s ss ih => simp [ih]

end Stmt

/-! ## §2. Legible trees. -/

/-- The kinds of the tokens that a leaf can be. -/
def Expr.Kind.admits : Expr.Kind → Token.Kind → Bool
  | .op, k => [Token.Kind.operator, .comma, .lParen, .rParen, .lBracket, .rBracket, .lBrace,
      .rBrace].contains k
  | .lit, k => [Token.Kind.integer, .float, .string, .char].contains k
  | .ident, k => k == .identifier
  | .keyword, k => k == .keyword
  | _, _ => false

/-- An expression that the reader could have made, node by node. -/
inductive Expr.Legible : Expr → Prop where
  | nil : Legible .nil
  | leaf {kind : Expr.Kind} {text : String} : Token.IsLexeme text →
      kind.admits (Token.kindOf text) = true → Legible (.leaf kind text)
  | chain {parts : List Expr} : (∀ p ∈ parts, Legible p) → Legible (.chain parts)
  | args {arguments : List Expr} : (∀ p ∈ arguments, Legible p) → Legible (.args arguments)
  | call {name : String} {arguments : List Expr} : Token.IsLexeme name →
      Token.kindOf name = .identifier → (∀ p ∈ arguments, Legible p) →
      Legible (.call (.ident name) (.args arguments))

/-- A statement that the reader could have made, node by node.  Tags and
remembered inductions do not matter. -/
inductive Stmt.Legible : Stmt → Prop where
  | empty {tags : Tags} : Legible (.basic [] tags)
  | basic {e : Expr} {tags : Tags} : e.Legible → Legible (.basic [e] tags)
  | block {ss : List Stmt} {b tags : Tags} : (∀ s ∈ ss, Legible s) →
      Legible (.block [] ss b tags)
  | raw {src : String} {tags : Tags} : Token.Lexeme .directive src.toList →
      Legible (.raw [] src tags)
  | loop {d t i : Expr} {body : Stmt} {induction : Option Induction} {tags : Tags} :
      d.Legible → t.Legible → i.Legible → Legible body →
      Legible (.loop [d, t, i] body induction tags)
  | cond {c : Expr} {yes : Stmt} {no : Option Stmt} {tags : Tags} : c.Legible → Legible yes →
      (∀ s ∈ no, Legible s) → Legible (.cond [c] yes no tags)
  | switch {c : Expr} {body : Stmt} {tags : Tags} : c.Legible → Legible body →
      Legible (.switch [c] body tags)

/-- A block of legible statements. -/
def Block.Legible (b : Block) : Prop := ∀ s ∈ b.stmts, s.Legible

/-- A statement as the reader makes it: legible, without tags and without
remembered inductions. -/
inductive Stmt.Pristine : Stmt → Prop where
  | empty : Pristine (.basic [] {})
  | basic {e : Expr} : e.Legible → Pristine (.basic [e] {})
  | block {ss : List Stmt} : (∀ s ∈ ss, Pristine s) → Pristine (.block [] ss {} {})
  | raw {src : String} : Token.Lexeme .directive src.toList → Pristine (.raw [] src {})
  | loop {d t i : Expr} {body : Stmt} : d.Legible → t.Legible → i.Legible → Pristine body →
      Pristine (.loop [d, t, i] body none {})
  | cond {c : Expr} {yes : Stmt} {no : Option Stmt} : c.Legible → Pristine yes →
      (∀ s ∈ no, Pristine s) → Pristine (.cond [c] yes no {})
  | switch {c : Expr} {body : Stmt} : c.Legible → Pristine body → Pristine (.switch [c] body {})

theorem Stmt.Pristine.legible {s : Stmt} (h : s.Pristine) : s.Legible := by
  induction h with
  | empty => exact .empty
  | basic he => exact .basic he
  | block _ ih => exact .block ih
  | raw hsrc => exact .raw hsrc
  | loop hd ht hi _ ih => exact .loop hd ht hi ih
  | cond hc _ _ ihyes ihno => exact .cond hc ihyes ihno
  | switch hc _ ih => exact .switch hc ih

/-! ## §3. Expressions. -/

open Token (Reads EndsWord endsWord_cons)

/-- Some text is written, and it reads as the words wherever it can end. -/
def WrittenAs (ends : List Char → Prop) (text : Except Fault String) (words : List String) : Prop :=
  ∃ s, text = .ok s ∧ ∀ rest more, ends rest → Reads rest more →
    Reads (s.toList ++ rest) (words ++ more)

namespace Expr

theorem Kind.admits_ne_directive {kind : Expr.Kind} {k : Token.Kind} (h : kind.admits k = true) :
    k ≠ .directive := by
  rintro rfl
  cases kind <;> exact absurd h (by decide)

theorem words_leaf {kind : Expr.Kind} {k : Token.Kind} {text : String} (hk : kind.admits k = true)
    (hne : text ≠ "") : (leaf kind text).words = [text] := by
  have hplain : (leaf kind text).words = (if text = "" then [] else [text]) ++ [] := by
    cases kind with
    | op | lit | ident | keyword => rfl
    | nil | chain | call | args => simp [Kind.admits] at hk
  rw [hplain, if_neg hne, List.append_nil]

theorem print_leaf {kind : Expr.Kind} {k : Token.Kind} {text : String} (hk : kind.admits k = true) :
    (leaf kind text).print = .ok text := by
  have hplain : (leaf kind text).print = .ok (text ++ "") := by
    cases kind with
    | op | lit | ident | keyword => rfl
    | nil | chain | call | args => simp [Kind.admits] at hk
  rw [hplain, String.append_empty]

theorem leaf_written {kind : Expr.Kind} {text : String} (ht : Token.IsLexeme text)
    (hk : kind.admits (Token.kindOf text) = true) :
    WrittenAs EndsWord (leaf kind text).print (leaf kind text).words := by
  refine ⟨text, print_leaf hk, ?_⟩
  intro rest more hend hrest
  rw [words_leaf hk ht.ne_empty]
  exact .lexeme ht (hend.stops (Kind.admits_ne_directive hk)) hrest

theorem joined_written {separator : String} {between : List String}
    (hsep : ∀ rest more, Reads rest more → EndsWord (separator.toList ++ rest)
      ∧ Reads (separator.toList ++ rest) (between ++ more))
    {parts : List Expr} (h : ∀ p ∈ parts, WrittenAs EndsWord p.print p.words) :
    WrittenAs EndsWord (printJoined separator parts) (wordsJoined between parts) := by
  induction parts with
  | nil => exact ⟨"", rfl, fun rest more _ hrest => by simpa [wordsJoined] using hrest⟩
  | cons p ps ih =>
      obtain ⟨s, hs, hreads⟩ := h p List.mem_cons_self
      cases ps with
      | nil => exact ⟨s, by simpa [printJoined] using hs, by simpa [wordsJoined] using hreads⟩
      | cons q qs =>
          obtain ⟨s', hs', hreads'⟩ := ih fun r hr => h r (List.mem_cons_of_mem p hr)
          refine ⟨s ++ separator ++ s', ?_, ?_⟩
          · simp only [printJoined, hs, hs', bind, Except.bind, pure, Except.pure]
          · intro rest more hend hrest
            obtain ⟨hend', hmid⟩ := hsep _ _ (hreads' rest more hend hrest)
            have hall := hreads _ _ hend' hmid
            simpa [wordsJoined, String.toList_append, List.append_assoc] using hall

/-- The blank between the parts of a chain. -/
theorem blank_between (rest : List Char) (more : List String) (h : Reads rest more) :
    EndsWord (" ".toList ++ rest) ∧ Reads (" ".toList ++ rest) ([] ++ more) :=
  ⟨endsWord_cons rest (by decide) (by decide), .blank (by decide) h⟩

/-- The comma and the blank between arguments. -/
theorem comma_between (rest : List Char) (more : List String) (h : Reads rest more) :
    EndsWord (", ".toList ++ rest) ∧ Reads (", ".toList ++ rest) ([","] ++ more) :=
  ⟨endsWord_cons _ (by decide) (by decide), .mark (by rfl) (.blank (by decide) h)⟩

/-- A call ends with its parenthesis, so that anything may follow. -/
theorem call_written {name : String} {arguments : List Expr} (hname : Token.IsLexeme name)
    (hkind : Token.kindOf name = .identifier)
    (h : ∀ p ∈ arguments, WrittenAs EndsWord p.print p.words) :
    WrittenAs (fun _ => True) (Expr.call (ident name) (Expr.args arguments)).print
      (Expr.call (ident name) (Expr.args arguments)).words := by
  have hcallee : Kind.ident.admits (Token.kindOf name) = true := by simp [Kind.admits, hkind]
  obtain ⟨s, hs, hreads⟩ := leaf_written hname hcallee
  obtain ⟨s', hs', hreads'⟩ := joined_written comma_between h
  have hcall : (Expr.call (ident name) (Expr.args arguments)).print
      = .ok (s ++ ("(" ++ s' ++ ")")) := by
    show (do
      let first ← (ident name).print
      let others ←
        (do return "(" ++ (← (Expr.args arguments).print) ++ ")" : Except Fault String)
      return first ++ others : Except Fault String) = _
    rw [show (ident name).print = .ok s from hs,
      show (Expr.args arguments).print = .ok s' from hs']
    rfl
  refine ⟨_, hcall, ?_⟩
  intro rest more _ hrest
  have hclose : Reads (')' :: rest) (")" :: more) := .mark (by rfl) hrest
  have hinner := hreads' _ _ (endsWord_cons rest (by decide) (by decide)) hclose
  have hopen : Reads ('(' :: (s'.toList ++ ')' :: rest))
      ("(" :: (wordsJoined [","] arguments ++ ")" :: more)) := .mark (by rfl) hinner
  have hall := hreads _ _ (endsWord_cons _ (by decide) (by decide)) hopen
  simpa [ident, String.toList_append, List.append_assoc] using hall

/-- **The text of a legible expression reads as its words.** -/
theorem Legible.written {e : Expr} (h : e.Legible) : WrittenAs EndsWord e.print e.words := by
  induction h with
  | nil =>
      refine ⟨"" ++ "", rfl, ?_⟩
      intro rest more _ hrest
      simpa using hrest
  | leaf ht hk => exact leaf_written ht hk
  | chain _ ih =>
      obtain ⟨s, hs, hreads⟩ := joined_written blank_between ih
      refine ⟨"" ++ s, ?_, ?_⟩
      · show (do return "" ++ (← printJoined " " _) : Except Fault String) = _
        rw [hs]
        rfl
      · simpa [wordsJoined_nil] using hreads
  | args _ ih => exact joined_written comma_between ih
  | call hname hkind _ ih =>
      obtain ⟨s, hs, hreads⟩ := call_written hname hkind ih
      exact ⟨s, hs, fun rest more _ hrest => hreads rest more trivial hrest⟩

end Expr

/-! ## §4. Statements. -/

/-- The line ends here: a directive does not run on. -/
def EndsLine (rest : List Char) : Prop := ∀ c ∈ rest.head?, c = '\n'

theorem endsLine_nil : EndsLine [] := by
  intro c hc
  simp at hc

theorem endsLine_cons (rest : List Char) : EndsLine ('\n' :: rest) := by
  intro c hc
  simpa [eq_comm] using hc

theorem EndsLine.stops {rest : List Char} (h : EndsLine rest) :
    Token.Kind.directive.stops rest = true := by
  cases rest with
  | nil => exact Token.Kind.stops_nil _
  | cons c rest =>
      obtain rfl := h c rfl
      rfl

namespace Stmt

/-- The keywords that are written for statements. -/
def keywords : List String := ["for", "if", "switch", "else", "case", "default"]

/-- The keywords of statements are tokens. -/
theorem keyword_lexeme {word : String} (h : word ∈ keywords) :
    Token.Lexeme .keyword word.toList := by
  have hpiece : ∃ c cs, word.toList = c :: cs
      ∧ Token.piece c cs = .ok ⟨some .keyword, c :: cs, []⟩ := by
    simp only [keywords, List.mem_cons, List.not_mem_nil, or_false] at h
    rcases h with rfl | rfl | rfl | rfl | rfl | rfl <;> exact ⟨_, _, rfl, by decide +kernel⟩
  obtain ⟨c, cs, hchars, hpiece⟩ := hpiece
  rw [hchars]
  exact Token.piece_lexeme hpiece rfl

/-- The words of a keyword and the parenthesis behind it. -/
private theorem reads_head (word : String) {rest : List Char} {more : List String}
    (hword : word ∈ keywords) (h : Reads rest more) :
    Reads (word.toList ++ '(' :: rest) (word :: "(" :: more) :=
  .lexeme (keyword_lexeme hword) (by rfl) (.mark (by rfl) h)

theorem lines_written {ss : List Stmt} (h : ∀ s ∈ ss, WrittenAs EndsLine s.print s.words) :
    WrittenAs EndsLine (printLines ss) (wordsOf ss) := by
  induction ss with
  | nil => exact ⟨"", rfl, fun rest more _ hrest => by simpa using hrest⟩
  | cons s ss ih =>
      obtain ⟨text, htext, hreads⟩ := h s List.mem_cons_self
      cases ss with
      | nil => exact ⟨text, by simpa [printLines] using htext, by simpa using hreads⟩
      | cons s' ss =>
          obtain ⟨text', htext', hreads'⟩ := ih fun r hr => h r (List.mem_cons_of_mem s hr)
          refine ⟨text ++ "\n" ++ text', ?_, ?_⟩
          · simp only [printLines, htext, htext', bind, Except.bind, pure, Except.pure]
          · intro rest more hend hrest
            have hothers : Reads ('\n' :: (text'.toList ++ rest)) _ :=
              .blank (by decide) (hreads' rest more hend hrest)
            have hall := hreads _ _ (endsLine_cons _) hothers
            simpa [String.toList_append, List.append_assoc] using hall

/-- The text of an expression and the mark behind it. -/
private theorem reads_before_mark {e : Expr} {text : String}
    (hreads : ∀ rest more, EndsWord rest → Reads rest more →
      Reads (text.toList ++ rest) (e.words ++ more))
    {c : Char} {kind : Token.Kind} {rest : List Char} {more : List String}
    (hc : Token.punctuation? c = some kind) (hrest : Reads rest more) :
    Reads (text.toList ++ c :: rest) (e.words ++ String.ofList [c] :: more) := by
  refine hreads _ _ (endsWord_cons rest ?_ ?_) (.mark hc hrest)
  · unfold Token.punctuation? at hc
    split at hc <;> first | rfl | cases hc
  · unfold Token.punctuation? at hc
    split at hc <;> first | decide | cases hc

/-- **The text of a legible statement reads as its words**, if the line ends
behind it. -/
theorem Legible.written {s : Stmt} (h : s.Legible) : WrittenAs EndsLine s.print s.words := by
  induction h with
  | empty => exact ⟨"" ++ ";", rfl, fun rest more _ hrest => .mark (by rfl) hrest⟩
  | @basic e _ he =>
      obtain ⟨text, htext, hreads⟩ := he.written
      refine ⟨text ++ ";", ?_, ?_⟩
      · simp [print, Expr.printJoined, htext]
      · intro rest more _ hrest
        have hall := reads_before_mark hreads (c := ';') (by rfl) hrest
        simpa [words, String.toList_append, List.append_assoc] using hall
  | @block ss _ _ _ ih =>
      obtain ⟨text, htext, hreads⟩ := lines_written ih
      refine ⟨"\x7b\n" ++ text ++ "\n\x7d", ?_, ?_⟩
      · simp [print, htext]
      · intro rest more _ hrest
        have hclose : Reads ('\n' :: '\x7d' :: rest) ("\x7d" :: more) :=
          .blank (by decide) (.mark (by rfl) hrest)
        have hinner := hreads _ _ (endsLine_cons _) hclose
        have hall : Reads ('\x7b' :: '\n' :: _) ("\x7b" :: _) :=
          .mark (by rfl) (.blank (by decide) hinner)
        simpa [words, String.toList_append, List.append_assoc] using hall
  | raw hsrc => exact ⟨_, rfl, fun rest more hend hrest => .lexeme hsrc hend.stops hrest⟩
  | @loop d t i body _ _ hd ht hi _ ih =>
      obtain ⟨declText, hdecl, hdreads⟩ := hd.written
      obtain ⟨testText, htest, htreads⟩ := ht.written
      obtain ⟨incrText, hincr, hireads⟩ := hi.written
      obtain ⟨bodyText, hbody, hbreads⟩ := ih
      refine ⟨"for(" ++ declText ++ "; " ++ testText ++ "; " ++ incrText ++ ") " ++ bodyText,
        ?_, ?_⟩
      · simp only [print, hdecl, htest, hincr, hbody, bind, Except.bind, pure, Except.pure]
      · intro rest more hend hrest
        have hbody' : Reads (' ' :: (bodyText.toList ++ rest)) _ :=
          .blank (by decide) (hbreads rest more hend hrest)
        have hincr' : Reads (' ' :: (incrText.toList ++ ')' :: _)) _ :=
          .blank (by decide) (reads_before_mark hireads (by rfl) hbody')
        have htest' : Reads (' ' :: (testText.toList ++ ';' :: _)) _ :=
          .blank (by decide) (reads_before_mark htreads (by rfl) hincr')
        have hall := reads_head "for" (by decide)
          (reads_before_mark hdreads (c := ';') (by rfl) htest')
        simpa [words, words.clauses, String.toList_append, List.append_assoc] using hall
  | @cond c yes no _ hc _ _ ihyes ihno =>
      obtain ⟨condText, hcond, hcreads⟩ := hc.written
      obtain ⟨yesText, hyes, hyreads⟩ := ihyes
      cases no with
      | none =>
          refine ⟨"if(" ++ condText ++ ")\n" ++ yesText, ?_, ?_⟩
          · simp only [print, hcond, hyes, bind, Except.bind, pure, Except.pure]
          · intro rest more hend hrest
            have hyes' : Reads ('\n' :: (yesText.toList ++ rest)) _ :=
              .blank (by decide) (hyreads rest more hend hrest)
            have hall := reads_head "if" (by decide)
              (reads_before_mark hcreads (c := ')') (by rfl) hyes')
            simpa [words, String.toList_append, List.append_assoc] using hall
      | some no =>
          obtain ⟨noText, hno, hnreads⟩ := ihno no rfl
          refine ⟨"if(" ++ condText ++ ")\n" ++ yesText ++ "\nelse\n" ++ noText, ?_, ?_⟩
          · simp only [print, hcond, hyes, hno, bind, Except.bind, pure, Except.pure]
          · intro rest more hend hrest
            have hno' : Reads ('\n' :: (noText.toList ++ rest)) _ :=
              .blank (by decide) (hnreads rest more hend hrest)
            have helse : Reads ('\n' :: ("else".toList ++ '\n' :: (noText.toList ++ rest))) _ :=
              .blank (by decide) (.lexeme (keyword_lexeme (by decide)) (by rfl) hno')
            have hyes' : Reads ('\n' :: (yesText.toList ++ '\n' :: _)) _ :=
              .blank (by decide) (hyreads _ _ (endsLine_cons _) helse)
            have hall := reads_head "if" (by decide)
              (reads_before_mark hcreads (c := ')') (by rfl) hyes')
            simpa [words, String.toList_append, List.append_assoc] using hall
  | @switch c body _ hc _ ih =>
      obtain ⟨condText, hcond, hcreads⟩ := hc.written
      obtain ⟨bodyText, hbody, hbreads⟩ := ih
      refine ⟨"switch(" ++ condText ++ ") " ++ bodyText, ?_, ?_⟩
      · simp only [print, hcond, hbody, bind, Except.bind, pure, Except.pure]
      · intro rest more hend hrest
        have hbody' : Reads (' ' :: (bodyText.toList ++ rest)) _ :=
          .blank (by decide) (hbreads rest more hend hrest)
        have hall := reads_head "switch" (by decide)
          (reads_before_mark hcreads (c := ')') (by rfl) hbody')
        simpa [words, String.toList_append, List.append_assoc] using hall

end Stmt

/-- **The text of a legible block reads as its words.** -/
theorem Block.Legible.written {b : Block} (h : b.Legible) :
    ∃ text, b.print = .ok text ∧ Reads text.toList (Stmt.wordsOf b.stmts) := by
  obtain ⟨text, htext, hreads⟩ := Stmt.lines_written fun s hs => (h s hs).written
  refine ⟨text, htext, ?_⟩
  simpa using hreads [] [] endsLine_nil .done

end RuleBody
