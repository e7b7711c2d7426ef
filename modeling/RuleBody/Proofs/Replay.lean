/-
  RuleBody.Proofs.Replay
  ──────────────────────
  **THE READER KEEPS ALL THAT IT NEEDS TO READ AGAIN.**

  The words of a state are the words of what is complete in it and of what
  is still open.  Wherever the reader stands, reading the words of its state
  from the start leads to the same place (`replay`).  They need not be the
  words that were read: a loop may be written with only its test, and a label
  without its semicolon.  The states that differ from what is written again
  are those inside such a loop or right behind such a label; `canonical`
  gives the state that takes their place.

  §1  the texts of marks;
  §2  the words of a state;
  §3  states the reader can be in;
  §4  one step inside an expression;
  §5  one step;
  §6  a run.
-/
import Mathlib.Data.List.Basic
import RuleBody.Proofs.Words
import RuleBody.Parse

namespace RuleBody

/-! ## §1. Marks. -/

namespace Token

/-- The text of a mark. -/
def Kind.mark? : Kind → Option String
  | .lParen => some "("
  | .rParen => some ")"
  | .lBracket => some "["
  | .rBracket => some "]"
  | .lBrace => some "\x7b"
  | .rBrace => some "\x7d"
  | .semicolon => some ";"
  | .comma => some ","
  | _ => none

theorem Lexeme.eq_mark {kind : Kind} {chars : List Char} (h : Lexeme kind chars) {mark : String}
    (hmark : kind.mark? = some mark) : chars = mark.toList := by
  cases h with
  | punctuation hc =>
      unfold punctuation? at hc
      split at hc <;> cases hc <;> cases hmark <;> rfl
  | name =>
      unfold nameKind at hmark
      split at hmark <;> cases hmark
  | directive | string | char | integer | float | longOperator | shortOperator => cases hmark

/-- A token of the kind of a mark is the mark. -/
theorem IsProper.lexeme_eq {t : Token} (h : t.IsProper) {kind : Kind} (hkind : t.kind = kind)
    {mark : String} (hmark : kind.mark? = some mark) : t.lexeme = mark := by
  have hchars : t.lexeme.toList = mark.toList := Lexeme.eq_mark h (hkind ▸ hmark)
  rw [← String.ofList_toList (s := t.lexeme), hchars, String.ofList_toList]

/-- The token that the text of a proper token is. -/
theorem IsProper.plain_lexeme {t : Token} (h : t.IsProper) :
    plain t.lexeme = ⟨t.kind, t.lexeme, {}⟩ := by
  unfold plain
  rw [Lexeme.kindOf_eq h]

end Token

namespace Parse

/-! ## §2. The words of a state. -/

/-- The words of an open bracket. -/
def Bracket.words : Bracket → List String
  | .paren => ["("]
  | .square => ["["]
  | .brace => ["\x7b"]
  | .call callee arguments =>
      callee.words ++ "(" :: arguments.flatMap fun argument => argument.words ++ [","]

/-- The words of an open bracket and of what stands before it. -/
def Level.words (l : Level) : List String := Expr.wordsOf l.before ++ l.bracket.words

/-- The words of the open brackets; the innermost comes first in the list
and last in the text. -/
def levelsWords : List Level → List String
  | [] => []
  | l :: outer => levelsWords outer ++ l.words

/-- The words between the start of a statement and the expression that is
read for the purpose. -/
def Purpose.words : Purpose → List String
  | .statement => []
  | .decl => ["for", "("]
  | .test d => "for" :: "(" :: (d.words ++ [";"])
  | .increment d t => "for" :: "(" :: (d.words ++ ";" :: (t.words ++ [";"]))
  | .onlyTest => ["for", "(", ";"]
  | .condition => ["if", "("]
  | .selector => ["switch", "("]
  | .label => ["case"]

/-- The words of the statements around a place. -/
def Context.words : Context → List String
  | .top ss => Stmt.wordsOf ss
  | .block ss outer => outer.words ++ "\x7b" :: Stmt.wordsOf ss
  | .loop d t i outer =>
      outer.words ++ "for" :: "(" :: (d.words ++ ";" :: (t.words ++ ";" :: (i.words ++ [")"])))
  | .yes c outer => outer.words ++ "if" :: "(" :: (c.words ++ [")"])
  | .no c first outer =>
      outer.words ++ "if" :: "(" :: (c.words ++ ")" :: (first.words ++ ["else"]))
  | .switch c outer => outer.words ++ "switch" :: "(" :: (c.words ++ [")"])

/-- The words of what has been read. -/
def State.words : State → List String
  | .start context => context.words
  | .head purpose context => context.words ++ purpose.words.dropLast
  | .expr purpose levels parts context =>
      context.words ++ (purpose.words ++ (levelsWords levels ++ Expr.wordsOf parts))
  | .colon context => context.words ++ ["default"]
  | .labelled s context | .done s context => context.words ++ s.words

/-- The state that reading the words of a state leads to. -/
def State.canonical : State → State
  | .head .onlyTest context => .expr .decl [] [] context
  | .expr .onlyTest levels parts context => .expr (.test .nil) levels parts context
  | .labelled s context => .done s context
  | state => state

/-! ## §3. The states the reader can be in. -/

/-- Legible arguments, and a callee that is a name. -/
def Bracket.Legible : Bracket → Prop
  | .call callee arguments =>
      (∃ name, callee = .ident name ∧ Token.IsLexeme name ∧ Token.kindOf name = .identifier)
        ∧ ∀ a ∈ arguments, a.Legible
  | _ => True

/-- A legible bracket behind legible parts. -/
def Level.Legible (l : Level) : Prop := l.bracket.Legible ∧ ∀ e ∈ l.before, e.Legible

/-- The clauses that were read before are legible. -/
def Purpose.Legible : Purpose → Prop
  | .test d => d.Legible
  | .increment d t => d.Legible ∧ t.Legible
  | _ => True

/-- The purposes that a parenthesis comes before. -/
def Purpose.isHead : Purpose → Bool
  | .decl | .onlyTest | .condition | .selector => true
  | _ => false

/-- Statements as the reader makes them, and legible expressions, all the
way out. -/
def Context.Legible : Context → Prop
  | .top ss => ∀ s ∈ ss, s.Pristine
  | .block ss outer => (∀ s ∈ ss, s.Pristine) ∧ outer.Legible
  | .loop d t i outer => d.Legible ∧ t.Legible ∧ i.Legible ∧ outer.Legible
  | .yes c outer | .switch c outer => c.Legible ∧ outer.Legible
  | .no c first outer => c.Legible ∧ first.Pristine ∧ outer.Legible

/-- All that was read is legible. -/
def State.Legible : State → Prop
  | .start context | .colon context => context.Legible
  | .head purpose context => purpose.isHead = true ∧ context.Legible
  | .expr purpose levels parts context =>
      purpose.Legible ∧ (∀ l ∈ levels, l.Legible) ∧ (∀ e ∈ parts, e.Legible) ∧ context.Legible
  | .labelled s context | .done s context => s.Pristine ∧ context.Legible

/-! ## §4. One step inside an expression. -/

open RuleBody.Expr (wordsOf)

@[simp] theorem words_op {text : String} (h : text ≠ "") : (Expr.op text).words = [text] :=
  Expr.words_leaf (k := .operator) rfl h

theorem collapse_words (parts : List Expr) : (collapse parts).words = wordsOf parts := by
  unfold collapse
  split
  · rfl
  · simp
  · exact Expr.words_chain parts

theorem collapse_legible {parts : List Expr} (h : ∀ e ∈ parts, e.Legible) :
    (collapse parts).Legible := by
  unfold collapse
  split
  · exact .nil
  · exact h _ List.mem_cons_self
  · exact .chain h

theorem enclosed_words (opening closing : String) (inner : List Expr) (ho : opening ≠ "")
    (hc : closing ≠ "") :
    wordsOf (enclosed opening inner closing) = opening :: (wordsOf inner ++ [closing]) := by
  unfold enclosed
  cases inner with
  | nil => simp [ho, hc]
  | cons e es => simp [ho, hc, collapse_words]

theorem enclosed_legible {opening closing : String} {inner : List Expr}
    (ho : (Expr.op opening).Legible) (hc : (Expr.op closing).Legible)
    (h : ∀ e ∈ inner, e.Legible) : ∀ e ∈ enclosed opening inner closing, e.Legible := by
  intro e he
  unfold enclosed at he
  cases inner with
  | nil =>
      simp only [List.append_nil, List.cons_append, List.nil_append, List.mem_cons,
        List.not_mem_nil, or_false] at he
      rcases he with rfl | rfl
      · exact ho
      · exact hc
  | cons p ps =>
      simp only [List.cons_append, List.nil_append, List.mem_cons, List.not_mem_nil,
        or_false] at he
      rcases he with rfl | rfl | rfl
      · exact ho
      · exact collapse_legible h
      · exact hc

/-- A leaf that is made of a token. -/
theorem leaf_legible {k : Expr.Kind} {kind : Token.Kind} {text : String}
    (h : Token.Lexeme kind text.toList) (hk : k.admits kind = true) :
    (Expr.leaf k text).Legible := by
  refine .leaf h.isLexeme ?_
  rwa [h.kindOf_eq]

theorem subscript_words (before inner : List Expr) :
    wordsOf (subscript before inner)
      = wordsOf before ++ "[" :: (wordsOf inner ++ ["]"]) := by
  have hmarks := enclosed_words "[" "]" inner (by decide) (by decide)
  unfold subscript
  split
  · rename_i operand hlast
    have hbefore := List.dropLast_append_getLast? operand hlast
    split
    · simp [hmarks]
    · rw [← hbefore]
      simp [hmarks]
  · rename_i hnone
    rw [List.getLast?_eq_none_iff.1 hnone]
    simp [hmarks]

theorem subscript_legible {before inner : List Expr} (hbefore : ∀ e ∈ before, e.Legible)
    (hinner : ∀ e ∈ inner, e.Legible) : ∀ e ∈ subscript before inner, e.Legible := by
  have hopen : Token.Lexeme .lBracket "[".toList := .punctuation rfl
  have hclose : Token.Lexeme .rBracket "]".toList := .punctuation rfl
  have hmarks : ∀ e ∈ enclosed "[" inner "]", e.Legible :=
    enclosed_legible (leaf_legible hopen rfl) (leaf_legible hclose rfl) hinner
  intro e he
  unfold subscript at he
  split at he
  · rename_i operand hlast
    have hoperand : operand.Legible := hbefore _ (List.mem_of_getLast? hlast)
    split at he
    · rcases List.mem_append.1 he with he | he
      · exact hbefore e he
      · obtain rfl := List.mem_singleton.1 he
        exact .chain hmarks
    · rcases List.mem_append.1 he with he | he
      · exact hbefore e (List.dropLast_subset before he)
      · obtain rfl := List.mem_singleton.1 he
        exact .chain (List.forall_mem_cons.2 ⟨hoperand, hmarks⟩)
  · obtain rfl := List.mem_singleton.1 he
    exact .chain hmarks

theorem allArguments_words (arguments parts : List Expr) :
    Expr.wordsJoined [","] (allArguments arguments parts)
      = (arguments.flatMap fun a => a.words ++ [","]) ++ wordsOf parts := by
  unfold allArguments
  split
  · rename_i h
    simp only [Bool.and_eq_true, List.isEmpty_iff] at h
    rw [h.1, h.2]
    rfl
  · rw [Expr.wordsJoined_snoc, collapse_words]

theorem allArguments_legible {arguments parts : List Expr} (ha : ∀ e ∈ arguments, e.Legible)
    (hp : ∀ e ∈ parts, e.Legible) : ∀ e ∈ allArguments arguments parts, e.Legible := by
  intro e he
  unfold allArguments at he
  split at he
  · cases he
  · rcases List.mem_append.1 he with he | he
    · exact ha e he
    · obtain rfl := List.mem_singleton.1 he
      exact collapse_legible hp

/-- What a closing bracket makes of the parts. -/
theorem Level.close?_spec {l : Level} {parts parts' : List Expr} {t : Token} (ht : t.IsProper)
    (hl : l.Legible) (hp : ∀ e ∈ parts, e.Legible) (h : l.close? parts t = some parts') :
    wordsOf parts' = l.words ++ (wordsOf parts ++ [t.lexeme]) ∧ ∀ e ∈ parts', e.Legible := by
  obtain ⟨bracket, before⟩ := l
  obtain ⟨hbracket, hbefore⟩ := hl
  have hchain : ∀ {opening closing : String} {ko kc : Token.Kind},
      Token.Lexeme ko opening.toList → Token.Lexeme kc closing.toList →
      Expr.Kind.op.admits ko = true → Expr.Kind.op.admits kc = true →
      ∀ e ∈ before ++ [.chain (enclosed opening parts closing)], e.Legible := by
    intro opening closing ko kc ho hc hko hkc
    refine List.forall_mem_append.2 ⟨hbefore, List.forall_mem_singleton.2 ?_⟩
    exact .chain (enclosed_legible (leaf_legible ho hko) (leaf_legible hc hkc) hp)
  unfold close? at h
  split at h
  case h_1 hb hk =>
      cases h
      obtain rfl : bracket = .paren := hb
      have hopen : Token.Lexeme .lParen "(".toList := .punctuation rfl
      have hclose : Token.Lexeme .rParen ")".toList := .punctuation rfl
      refine ⟨?_, hchain hopen hclose rfl rfl⟩
      simp [words, Bracket.words, enclosed_words, ht.lexeme_eq hk rfl]
  case h_2 hb hk =>
      cases h
      obtain rfl : bracket = .square := hb
      refine ⟨?_, subscript_legible hbefore hp⟩
      simp [words, Bracket.words, subscript_words, ht.lexeme_eq hk rfl]
  case h_3 hb hk =>
      cases h
      obtain rfl : bracket = .brace := hb
      have hopen : Token.Lexeme .lBrace "\x7b".toList := .punctuation rfl
      have hclose : Token.Lexeme .rBrace "\x7d".toList := .punctuation rfl
      refine ⟨?_, hchain hopen hclose rfl rfl⟩
      simp [words, Bracket.words, enclosed_words, ht.lexeme_eq hk rfl]
  case h_4 callee arguments hb hk =>
      cases h
      obtain rfl : bracket = .call callee arguments := hb
      obtain ⟨⟨name, rfl, hname, hkind⟩, ha⟩ := hbracket
      refine ⟨?_, List.forall_mem_append.2 ⟨hbefore, List.forall_mem_singleton.2 ?_⟩⟩
      · simp [words, Bracket.words, allArguments_words, ht.lexeme_eq hk rfl]
      · exact .call hname hkind (allArguments_legible ha hp)
  case h_5 => cases h

/-- What a comma makes of a call. -/
theorem Level.nextArgument?_spec {l l' : Level} {parts : List Expr} {t : Token} (ht : t.IsProper)
    (hl : l.Legible) (hp : ∀ e ∈ parts, e.Legible) (h : l.nextArgument? parts t = some l') :
    l'.words = l.words ++ (wordsOf parts ++ [t.lexeme]) ∧ l'.Legible := by
  obtain ⟨bracket, before⟩ := l
  obtain ⟨hbracket, hbefore⟩ := hl
  unfold nextArgument? at h
  split at h
  case h_1 callee arguments hb hk =>
      cases h
      obtain rfl : bracket = .call callee arguments := hb
      refine ⟨?_, ⟨hbracket.1, ?_⟩, hbefore⟩
      · simp [words, Bracket.words, collapse_words, ht.lexeme_eq hk rfl]
      · exact List.forall_mem_append.2
          ⟨hbracket.2, List.forall_mem_singleton.2 (collapse_legible hp)⟩
  case h_2 => cases h

/-- A legible expression of the kind of names is a name. -/
theorem legible_ident {e : Expr} (h : e.Legible) (hkind : e.kind = .ident) :
    ∃ name, e = .ident name ∧ Token.IsLexeme name ∧ Token.kindOf name = .identifier := by
  cases h with
  | @leaf kind text ht hk =>
      obtain rfl : kind = .ident := hkind
      exact ⟨text, rfl, ht, by simpa [Expr.Kind.admits] using hk⟩
  | nil | chain | args | call => cases hkind

theorem openParen_spec {parts : List Expr} (hp : ∀ e ∈ parts, e.Legible) :
    (openParen parts).words = wordsOf parts ++ ["("] ∧ (openParen parts).Legible := by
  unfold openParen
  split
  · rename_i last hlast
    split
    · rename_i hkind
      obtain ⟨name, rfl, hname, hk⟩ := legible_ident (hp _ (List.mem_of_getLast? hlast)) hkind
      refine ⟨?_, ⟨⟨name, rfl, hname, hk⟩, by simp⟩, fun e he => hp e (List.dropLast_subset _ he)⟩
      have hparts := List.dropLast_append_getLast? _ hlast
      calc (⟨.call (.ident name) [], parts.dropLast⟩ : Level).words
          = wordsOf (parts.dropLast ++ [.ident name]) ++ ["("] := by
            simp [Level.words, Bracket.words]
        _ = wordsOf parts ++ ["("] := by rw [hparts]
    · exact ⟨rfl, trivial, hp⟩
  · exact ⟨rfl, trivial, hp⟩

/-- Inside an expression, the text of a token has been added. -/
structure Extended (levels : List Level) (parts : List Expr) (text : String)
    (levels' : List Level) (parts' : List Expr) : Prop where
  words : levelsWords levels' ++ wordsOf parts'
    = levelsWords levels ++ (wordsOf parts ++ [text])
  levels : ∀ l ∈ levels', l.Legible
  parts : ∀ e ∈ parts', e.Legible

section

variable {levels : List Level} {parts : List Expr} {t : Token} (ht : t.IsProper)
  (hl : ∀ l ∈ levels, l.Legible) (hp : ∀ e ∈ parts, e.Legible)
include ht hl hp

theorem extended_leaf {k : Expr.Kind} (hk : k.admits t.kind = true) :
    Extended levels parts t.lexeme levels (parts ++ [.leaf k t.lexeme]) where
  words := by simp [Expr.words_leaf hk (Token.Lexeme.isLexeme ht).ne_empty]
  levels := hl
  parts := List.forall_mem_append.2 ⟨hp, List.forall_mem_singleton.2 (leaf_legible ht hk)⟩

omit ht hp in
theorem extended_level {l : Level} (hwords : l.words = wordsOf parts ++ [t.lexeme])
    (hlegible : l.Legible) : Extended levels parts t.lexeme (l :: levels) [] where
  words := by simp [levelsWords, hwords]
  levels := List.forall_mem_cons.2 ⟨hlegible, hl⟩
  parts := by simp

/-- A token that closes nothing adds its text. -/
theorem shift_extended {levels' : List Level} {parts' : List Expr}
    (h : shift levels parts t = .ok (levels', parts')) :
    Extended levels parts t.lexeme levels' parts' := by
  unfold shift at h
  split at h
  case h_1 hk =>
      cases h
      exact extended_leaf ht hl hp (k := .ident) (by rw [hk]; rfl)
  case h_2 hk | h_3 hk | h_4 hk | h_5 hk =>
      cases h
      exact extended_leaf ht hl hp (k := .lit) (by rw [hk]; rfl)
  case h_6 hk =>
      split at h
      · cases h
      · cases h
        exact extended_leaf ht hl hp (k := .keyword) (by rw [hk]; rfl)
  case h_7 hk | h_8 hk =>
      cases h
      exact extended_leaf ht hl hp (k := .op) (by rw [hk]; rfl)
  case h_9 hk =>
      cases h
      obtain ⟨hwords, hlegible⟩ := openParen_spec hp
      exact extended_level hl (by rw [hwords, ht.lexeme_eq hk rfl]) hlegible
  case h_10 hk | h_11 hk =>
      cases h
      exact extended_level hl (by rw [ht.lexeme_eq hk rfl]; rfl) ⟨trivial, hp⟩
  all_goals cases h

end

theorem stepExpr_go {purpose : Purpose} {levels : List Level} {parts : List Expr}
    {context : Context} {t : Token} {state' : State}
    (h : stepExpr.go purpose levels parts context t = .ok state') :
    ∃ levels' parts', shift levels parts t = .ok (levels', parts')
      ∧ state' = .expr purpose levels' parts' context := by
  unfold stepExpr.go at h
  split at h
  · rename_i levels' parts' hshift
    cases h
    exact ⟨levels', parts', hshift, rfl⟩
  · cases h

theorem stepExpr_go_of_shift {purpose : Purpose} {levels levels' : List Level}
    {parts parts' : List Expr} {context : Context} {t : Token}
    (h : shift levels parts t = .ok (levels', parts')) :
    stepExpr.go purpose levels parts context t = .ok (.expr purpose levels' parts' context) := by
  unfold stepExpr.go
  rw [h]

/-- **One step inside an expression.**  Either the token ends the expression
or its text is added, in the same way for every purpose that the token does
not end. -/
theorem stepExpr_cases {purpose : Purpose} {levels : List Level} {parts : List Expr}
    {context : Context} {t : Token} {state' : State} (ht : t.IsProper)
    (hl : ∀ l ∈ levels, l.Legible) (hp : ∀ e ∈ parts, e.Legible)
    (h : stepExpr purpose levels parts context t = .ok state') :
    (levels = [] ∧ purpose.endsAt t = true ∧ state' = purpose.finish (collapse parts) context)
      ∨ ∃ levels' parts', state' = .expr purpose levels' parts' context
        ∧ Extended levels parts t.lexeme levels' parts'
        ∧ (levels = [] → t.kind ≠ .semicolon)
        ∧ ∀ other : Purpose, (levels = [] → other.endsAt t = false) →
          stepExpr other levels parts context t = .ok (.expr other levels' parts' context) := by
  cases levels with
  | nil =>
      simp only [stepExpr] at h ⊢
      split at h
      · rename_i hends
        cases h
        exact .inl ⟨trivial, hends, rfl⟩
      · refine .inr ?_
        obtain ⟨levels', parts', hshift, rfl⟩ := stepExpr_go h
        refine ⟨levels', parts', rfl, shift_extended ht hl hp hshift, ?_, ?_⟩
        · intro _ hkind
          simp [shift, hkind] at hshift
        · intro other hother
          rw [if_neg (by simp [hother])]
          exact stepExpr_go_of_shift hshift
  | cons l outer =>
      refine .inr ?_
      obtain ⟨hlevel, houter⟩ := List.forall_mem_cons.1 hl
      cases hclose : l.close? parts t with
      | some parts' =>
          simp only [stepExpr, hclose] at h ⊢
          cases h
          obtain ⟨hwords, hparts⟩ := l.close?_spec ht hlevel hp hclose
          refine ⟨outer, parts', rfl, ⟨?_, houter, hparts⟩, by simp, fun _ _ => rfl⟩
          simp [levelsWords, hwords]
      | none =>
          cases hnext : l.nextArgument? parts t with
          | some l' =>
              simp only [stepExpr, hclose, hnext] at h ⊢
              cases h
              obtain ⟨hwords, hlegible⟩ := l.nextArgument?_spec ht hlevel hp hnext
              refine ⟨l' :: outer, [], rfl, ⟨?_, ?_, by simp⟩, by simp, fun _ _ => rfl⟩
              · simp [levelsWords, hwords]
              · exact List.forall_mem_cons.2 ⟨hlegible, houter⟩
          | none =>
              simp only [stepExpr, hclose, hnext] at h ⊢
              obtain ⟨levels', parts', hshift, rfl⟩ := stepExpr_go h
              exact ⟨levels', parts', rfl, shift_extended ht hl hp hshift, by simp,
                fun _ _ => stepExpr_go_of_shift hshift⟩

/-! ## §5. One step. -/

section

variable {kind : Token.Kind} {text : String} {here there : Location} {state' : State}

theorem stepExpr_anywhere {purpose : Purpose} {levels : List Level} {parts : List Expr}
    {context : Context}
    (h : stepExpr purpose levels parts context ⟨kind, text, here⟩ = .ok state') :
    stepExpr purpose levels parts context ⟨kind, text, there⟩ = .ok state' := by
  have hgo : ∀ {levels : List Level},
      stepExpr.go purpose levels parts context ⟨kind, text, here⟩ = .ok state' →
      stepExpr.go purpose levels parts context ⟨kind, text, there⟩ = .ok state' := by
    intro levels h
    obtain ⟨levels', parts', hshift, rfl⟩ := stepExpr_go h
    exact stepExpr_go_of_shift hshift
  cases levels with
  | nil =>
      show (if purpose.endsAt ⟨kind, text, here⟩ then _ else _) = _
      by_cases hends : purpose.endsAt ⟨kind, text, here⟩ = true
      · rw [if_pos hends]
        simpa only [stepExpr, hends, if_true] using h
      · rw [if_neg hends]
        simp only [stepExpr, hends] at h
        exact hgo h
  | cons l outer =>
      have hclose : l.close? parts ⟨kind, text, there⟩ = l.close? parts ⟨kind, text, here⟩ := rfl
      have hnext : l.nextArgument? parts ⟨kind, text, there⟩
          = l.nextArgument? parts ⟨kind, text, here⟩ := rfl
      simp only [stepExpr, hclose, hnext] at h ⊢
      split at h
      · exact h
      · split at h
        · exact h
        · exact hgo h

theorem stepKeyword_anywhere {context : Context}
    (h : stepKeyword context ⟨kind, text, here⟩ = .ok state') :
    stepKeyword context ⟨kind, text, there⟩ = .ok state' := by
  unfold stepKeyword at h ⊢
  dsimp only at h ⊢
  split at h
  case h_7 | h_8 => cases h
  case h_9 => exact stepExpr_anywhere h
  all_goals exact h

theorem stepStart_anywhere {context : Context}
    (h : stepStart context ⟨kind, text, here⟩ = .ok state') :
    stepStart context ⟨kind, text, there⟩ = .ok state' := by
  unfold stepStart at h ⊢
  dsimp only at h ⊢
  split at h
  case h_4 => exact stepKeyword_anywhere h
  case h_7 => cases h
  case h_8 => exact stepExpr_anywhere h
  all_goals exact h

theorem stepDone_anywhere {s : Stmt} {context : Context}
    (h : stepDone s context ⟨kind, text, here⟩ = .ok state') :
    stepDone s context ⟨kind, text, there⟩ = .ok state' := by
  have helse : Token.isKeyword ⟨kind, text, there⟩ "else"
      = Token.isKeyword ⟨kind, text, here⟩ "else" := rfl
  unfold stepDone at h ⊢
  rw [helse]
  split at h
  · exact h
  · exact stepStart_anywhere h

/-- Where a token stands does not matter to a step that succeeds. -/
theorem step_anywhere {state : State} (h : step state ⟨kind, text, here⟩ = .ok state') :
    step state ⟨kind, text, there⟩ = .ok state' := by
  cases state with
  | start context => exact stepStart_anywhere h
  | head purpose context =>
      by_cases hk : kind = .lParen
      · simpa only [step, hk, if_true] using h
      · simp [step, hk] at h
  | expr purpose levels parts context => exact stepExpr_anywhere h
  | colon context =>
      by_cases hk : Token.isOperator ⟨kind, text, here⟩ ":" = true
      · have hk' : Token.isOperator ⟨kind, text, there⟩ ":" = true := hk
        simpa only [step, hk', hk, if_true] using h
      · simp [step, hk] at h
  | labelled label context =>
      by_cases hk : kind = .semicolon
      · simpa only [step, hk, if_true] using h
      · simp only [step, hk] at h ⊢
        exact stepDone_anywhere h
  | done s context => exact stepDone_anywhere h

end

theorem step_plain {state state' : State} {t : Token} (ht : t.IsProper)
    (h : step state t = .ok state') : step state (.plain t.lexeme) = .ok state' := by
  rw [ht.plain_lexeme]
  exact step_anywhere h

/-- The second state has some words more than the first, and reading these
leads from the first to the second. -/
def Replays (state state' : State) : Prop :=
  ∃ added, state'.words = state.words ++ added
    ∧ steps state.canonical (added.map .plain) = .ok state'.canonical

theorem steps_cons (state : State) (t : Token) (ts : List Token) :
    steps state (t :: ts) = step state t >>= fun state' => steps state' ts := rfl

theorem steps_one {state state' : State} {t : Token} (h : step state t = .ok state') :
    steps state [t] = .ok state' := by
  rw [steps_cons, h]
  rfl

/-- Where the tokens stand does not matter to steps that succeed. -/
theorem steps_anywhere {tokens : List Token} (ht : ∀ t ∈ tokens, t.IsProper) {state state' : State}
    (h : steps state ((tokens.map (·.lexeme)).map .plain) = .ok state') :
    steps state tokens = .ok state' := by
  induction tokens generalizing state with
  | nil => exact h
  | cons t ts ih =>
      obtain ⟨htoken, hts⟩ := List.forall_mem_cons.1 ht
      rw [List.map_cons, List.map_cons, steps_cons, htoken.plain_lexeme] at h
      rw [steps_cons]
      cases hstep : step state ⟨t.kind, t.lexeme, {}⟩ with
      | error e =>
          rw [hstep] at h
          cases h
      | ok middle =>
          rw [hstep] at h
          rw [show step state t = .ok middle from step_anywhere hstep]
          exact ih hts h

/-- A step between states that are read again as they are. -/
theorem replays_of_step {state state' : State} {t : Token} (ht : t.IsProper)
    (h : step state t = .ok state') (hstate : state.canonical = state)
    (hstate' : state'.canonical = state') (hwords : state'.words = state.words ++ [t.lexeme]) :
    Replays state state' := by
  refine ⟨[t.lexeme], hwords, ?_⟩
  rw [hstate, hstate']
  exact steps_one (step_plain ht h)

theorem keyword_legible {word : String} (h : word ∈ Stmt.keywords) : (Expr.keyword word).Legible :=
  leaf_legible (Stmt.keyword_lexeme h) rfl

theorem words_keyword {word : String} (h : word ∈ Stmt.keywords) :
    (Expr.keyword word).words = [word] :=
  Expr.words_leaf (k := .keyword) rfl (Stmt.keyword_lexeme h).isLexeme.ne_empty

theorem plain_keyword {word : String} (h : word ∈ Stmt.keywords) :
    Token.plain word = ⟨.keyword, word, {}⟩ := by
  unfold Token.plain
  rw [(Stmt.keyword_lexeme h).kindOf_eq]

theorem colon_legible : (Expr.op ":").Legible :=
  leaf_legible (.shortOperator (by decide)) rfl

theorem isNil_of_legible {e : Expr} (h : e.Legible) (hnil : e.isNil = true) : e = .nil := by
  cases h with
  | nil => rfl
  | @leaf kind text _ hk =>
      obtain rfl : kind = .nil := by simpa [Expr.isNil, Expr.leaf] using hnil
      cases hk
  | chain | args | call => cases hnil

/-- The end of an expression. -/
theorem finish_replays {purpose : Purpose} {parts : List Expr} {context : Context} {t : Token}
    (ht : t.IsProper) (hlegible : (State.expr purpose [] parts context).Legible)
    (hends : purpose.endsAt t = true) :
    (purpose.finish (collapse parts) context).Legible
      ∧ Replays (.expr purpose [] parts context) (purpose.finish (collapse parts) context) := by
  obtain ⟨hpurpose, _, hparts, hcontext⟩ := hlegible
  have he := collapse_legible hparts
  have hstep : step (.expr purpose [] parts context) t
      = .ok (purpose.finish (collapse parts) context) := by
    show (if purpose.endsAt t then _ else _) = _
    rw [if_pos hends]
  cases purpose with
  | statement =>
      have hsemi := ht.lexeme_eq (of_decide_eq_true hends) (show _ = some ";" from rfl)
      refine ⟨⟨?_, hcontext⟩, replays_of_step ht hstep rfl rfl ?_⟩
      · split
        · exact .empty
        · exact .basic he
      · show context.words ++ (if (collapse parts).isNil then Stmt.empty
            else .ofExpr (collapse parts)).words = _
        split
        · rename_i hnil
          have hwords : wordsOf parts = [] := by
            rw [← collapse_words, isNil_of_legible he hnil, Expr.words_nil]
          simp [State.words, Purpose.words, levelsWords, hwords, hsemi, Stmt.empty, Stmt.words]
        · simp [State.words, Purpose.words, levelsWords, hsemi, Stmt.ofExpr, Stmt.words,
            collapse_words]
  | decl =>
      have hsemi := ht.lexeme_eq (of_decide_eq_true hends) (show _ = some ";" from rfl)
      refine ⟨⟨he, by simp, by simp, hcontext⟩, replays_of_step ht hstep rfl rfl ?_⟩
      simp [Purpose.finish, State.words, Purpose.words, levelsWords, hsemi, collapse_words]
  | test d =>
      have hsemi := ht.lexeme_eq (of_decide_eq_true hends) (show _ = some ";" from rfl)
      refine ⟨⟨⟨hpurpose, he⟩, by simp, by simp, hcontext⟩, replays_of_step ht hstep rfl rfl ?_⟩
      simp [Purpose.finish, State.words, Purpose.words, levelsWords, hsemi, collapse_words]
  | increment d e =>
      have hparen := ht.lexeme_eq (of_decide_eq_true hends) (show _ = some ")" from rfl)
      refine ⟨⟨hpurpose.1, hpurpose.2, he, hcontext⟩, replays_of_step ht hstep rfl rfl ?_⟩
      simp [Purpose.finish, State.words, Context.words, Purpose.words, levelsWords, hparen,
        collapse_words]
  | onlyTest =>
      -- The third clause is written too: the parenthesis becomes a semicolon and a parenthesis.
      refine ⟨⟨.nil, he, .nil, hcontext⟩, [";", ")"], ?_, rfl⟩
      simp [Purpose.finish, State.words, Context.words, Purpose.words, levelsWords, collapse_words]
  | condition =>
      have hparen := ht.lexeme_eq (of_decide_eq_true hends) (show _ = some ")" from rfl)
      refine ⟨⟨he, hcontext⟩, replays_of_step ht hstep rfl rfl ?_⟩
      simp [Purpose.finish, State.words, Context.words, Purpose.words, levelsWords, hparen,
        collapse_words]
  | selector =>
      have hparen := ht.lexeme_eq (of_decide_eq_true hends) (show _ = some ")" from rfl)
      refine ⟨⟨he, hcontext⟩, replays_of_step ht hstep rfl rfl ?_⟩
      simp [Purpose.finish, State.words, Context.words, Purpose.words, levelsWords, hparen,
        collapse_words]
  | label =>
      -- A label is written with a semicolon, whether it was read with one or not.
      refine ⟨⟨.basic (.chain ?_), hcontext⟩, [":", ";"], ?_, rfl⟩
      · simp only [List.forall_mem_cons, List.not_mem_nil, false_imp_iff, implies_true, and_true]
        exact ⟨keyword_legible (by decide), he, colon_legible⟩
      · simp [Purpose.finish, State.words, Purpose.words, levelsWords, Stmt.ofExpr, Stmt.words,
          collapse_words, words_keyword (show "case" ∈ Stmt.keywords by decide)]

/-- A step inside an expression. -/
theorem stepExpr_replays {purpose : Purpose} {levels : List Level} {parts : List Expr}
    {context : Context} {t : Token} {state' : State} (ht : t.IsProper)
    (hlegible : (State.expr purpose levels parts context).Legible)
    (h : stepExpr purpose levels parts context t = .ok state') :
    state'.Legible ∧ Replays (.expr purpose levels parts context) state' := by
  obtain ⟨hpurpose, hlevels, hparts, hcontext⟩ := hlegible
  rcases stepExpr_cases ht hlevels hparts h with ⟨rfl, hends, rfl⟩ | ⟨levels', parts', rfl, hmore⟩
  · exact finish_replays ht ⟨hpurpose, hlevels, hparts, hcontext⟩ hends
  · obtain ⟨hext, hsemi, hother⟩ := hmore
    refine ⟨⟨hpurpose, hext.levels, hext.parts, hcontext⟩, [t.lexeme], ?_, ?_⟩
    · simp only [State.words, List.append_assoc, hext.words]
    · -- Only the test of a loop without other clauses is read for another purpose.
      cases purpose with
      | onlyTest =>
          have htest : step (.expr (.test .nil) levels parts context) t = _ :=
            hother (.test .nil) fun hnil => by simpa [Purpose.endsAt] using hsemi hnil
          exact steps_one (step_plain ht htest)
      | statement | decl | test | increment | condition | selector | label =>
          exact steps_one (step_plain ht h)

/-- A statement is put into its context. -/
theorem Context.attach_false {context : Context} {s : Stmt} (hs : s.Pristine)
    (hcontext : context.Legible) :
    ∃ context', context.attach false s = (context', false) ∧ context'.Legible
      ∧ context'.words = context.words ++ s.words := by
  induction context generalizing s with
  | top ss =>
      refine ⟨_, rfl, List.forall_mem_append.2 ⟨hcontext, List.forall_mem_singleton.2 hs⟩, ?_⟩
      simp [words]
  | block ss outer _ =>
      refine ⟨_, rfl, ⟨?_, hcontext.2⟩, ?_⟩
      · exact List.forall_mem_append.2 ⟨hcontext.1, List.forall_mem_singleton.2 hs⟩
      · simp [words]
  | loop d t i outer ih =>
      obtain ⟨hd, ht, hi, houter⟩ := hcontext
      obtain ⟨context', hattach, hlegible, hwords⟩ := ih (.loop hd ht hi hs) houter
      exact ⟨context', hattach, hlegible, by simp [hwords, words, Stmt.words, Stmt.words.clauses]⟩
  | yes c outer ih =>
      obtain ⟨hc, houter⟩ := hcontext
      have hcond : (Stmt.cond [c] s none {}).Pristine := .cond hc hs (by simp)
      obtain ⟨context', hattach, hlegible, hwords⟩ := ih hcond houter
      exact ⟨context', hattach, hlegible, by simp [hwords, words, Stmt.words]⟩
  | no c first outer ih =>
      obtain ⟨hc, hfirst, houter⟩ := hcontext
      have hcond : (Stmt.cond [c] first (some s) {}).Pristine := .cond hc hfirst (by simpa)
      obtain ⟨context', hattach, hlegible, hwords⟩ := ih hcond houter
      exact ⟨context', hattach, hlegible, by simp [hwords, words, Stmt.words]⟩
  | switch c outer ih =>
      obtain ⟨hc, houter⟩ := hcontext
      obtain ⟨context', hattach, hlegible, hwords⟩ := ih (.switch hc hs) houter
      exact ⟨context', hattach, hlegible, by simp [hwords, words, Stmt.words]⟩

/-- A statement is put into its context and an alternative follows. -/
theorem Context.attach_true {context context' : Context} {s : Stmt} (hs : s.Pristine)
    (hcontext : context.Legible) (h : context.attach true s = (context', true)) :
    context'.Legible ∧ context'.words = context.words ++ (s.words ++ ["else"]) := by
  induction context generalizing s with
  | top ss => cases h
  | block ss outer _ => cases h
  | loop d t i outer ih =>
      obtain ⟨hd, ht, hi, houter⟩ := hcontext
      obtain ⟨hlegible, hwords⟩ := ih (.loop hd ht hi hs) houter h
      exact ⟨hlegible, by simp [hwords, words, Stmt.words, Stmt.words.clauses]⟩
  | yes c outer _ =>
      cases h
      exact ⟨⟨hcontext.1, hs, hcontext.2⟩, by simp [words]⟩
  | no c first outer ih =>
      obtain ⟨hc, hfirst, houter⟩ := hcontext
      have hcond : (Stmt.cond [c] first (some s) {}).Pristine := .cond hc hfirst (by simpa)
      obtain ⟨hlegible, hwords⟩ := ih hcond houter h
      exact ⟨hlegible, by simp [hwords, words, Stmt.words]⟩
  | switch c outer ih =>
      obtain ⟨hc, houter⟩ := hcontext
      obtain ⟨hlegible, hwords⟩ := ih (.switch hc hs) houter h
      exact ⟨hlegible, by simp [hwords, words, Stmt.words]⟩

/-- The state is reached again from the start of a statement.  The first of
the words that are read is told apart: it may stand behind a complete
statement too. -/
def StartsAgain (context : Context) (state' : State) : Prop :=
  ∃ word more, state'.words = context.words ++ word :: more
    ∧ (Token.plain word).isKeyword "else" = false
    ∧ (stepStart context (.plain word) >>= fun state => steps state (more.map .plain))
      = .ok state'.canonical

section

variable {context : Context} {t : Token} {state' : State} (ht : t.IsProper)
  (hcontext : context.Legible) (h : stepStart context t = .ok state')
include ht h

theorem startsAgain_of_step (helse : t.isKeyword "else" = false)
    (hstate' : state'.canonical = state') (hwords : state'.words = context.words ++ [t.lexeme]) :
    StartsAgain context state' := by
  have hplain := ht.plain_lexeme
  refine ⟨t.lexeme, [], hwords, by rwa [hplain], ?_⟩
  rw [hplain, stepStart_anywhere h, hstate']
  rfl

include hcontext

theorem stepExpr_startsAgain (hexpr : stepExpr .statement [] [] context t = .ok state')
    (helse : t.isKeyword "else" = false) : state'.Legible ∧ StartsAgain context state' := by
  rcases stepExpr_cases ht (by simp) (by simp) hexpr with
    ⟨_, hends, rfl⟩ | ⟨levels', parts', rfl, hext, _⟩
  · have hsemi := ht.lexeme_eq (of_decide_eq_true hends) (show _ = some ";" from rfl)
    refine ⟨⟨.empty, hcontext⟩, startsAgain_of_step ht h helse rfl ?_⟩
    rw [hsemi]
    rfl
  · refine ⟨⟨trivial, hext.levels, hext.parts, hcontext⟩, startsAgain_of_step ht h helse rfl ?_⟩
    have hwords := hext.words
    simp only [levelsWords, Expr.wordsOf_nil, List.nil_append] at hwords
    simp only [State.words, Purpose.words, List.nil_append, hwords]

theorem stepKeyword_startsAgain (hkeyword : stepKeyword context t = .ok state') :
    state'.Legible ∧ StartsAgain context state' := by
  have helse : t.lexeme ≠ "else" → t.isKeyword "else" = false := by
    intro hne
    simp [Token.isKeyword, hne]
  unfold stepKeyword at hkeyword
  split at hkeyword
  case h_1 hfor =>
      cases hkeyword
      refine ⟨⟨rfl, hcontext⟩, startsAgain_of_step ht h (helse (by simp [hfor])) rfl ?_⟩
      rw [hfor]
      rfl
  case h_2 hwhile =>
      -- `while` is written as `for`, and its first clause is empty.
      cases hkeyword
      refine ⟨⟨rfl, hcontext⟩, "for", ["("], rfl, rfl, ?_⟩
      rw [plain_keyword (show "for" ∈ Stmt.keywords by decide)]
      rfl
  case h_3 hif =>
      cases hkeyword
      refine ⟨⟨rfl, hcontext⟩, startsAgain_of_step ht h (helse (by simp [hif])) rfl ?_⟩
      rw [hif]
      rfl
  case h_4 hswitch =>
      cases hkeyword
      refine ⟨⟨rfl, hcontext⟩, startsAgain_of_step ht h (helse (by simp [hswitch])) rfl ?_⟩
      rw [hswitch]
      rfl
  case h_5 hcase =>
      cases hkeyword
      refine ⟨⟨trivial, by simp, by simp, hcontext⟩,
        startsAgain_of_step ht h (helse (by simp [hcase])) rfl ?_⟩
      rw [hcase]
      rfl
  case h_6 hdefault =>
      cases hkeyword
      refine ⟨hcontext, startsAgain_of_step ht h (helse (by simp [hdefault])) rfl ?_⟩
      rw [hdefault]
      rfl
  case h_7 | h_8 => cases hkeyword
  case h_9 => exact stepExpr_startsAgain ht hcontext h hkeyword (helse ‹_›)

/-- The start of a statement, or the end of a block. -/
theorem stepStart_startsAgain : state'.Legible ∧ StartsAgain context state' := by
  have helse : t.kind ≠ .keyword → t.isKeyword "else" = false := by
    intro hne
    simp [Token.isKeyword, hne]
  have hstart := h
  unfold stepStart at hstart
  split at hstart
  case h_1 hk =>
      cases hstart
      refine ⟨⟨by simp, hcontext⟩, startsAgain_of_step ht h (helse (by simp [hk])) rfl ?_⟩
      rw [ht.lexeme_eq hk rfl]
      rfl
  case h_2 hk =>
      cases hstart
      refine ⟨⟨.empty, hcontext⟩, startsAgain_of_step ht h (helse (by simp [hk])) rfl ?_⟩
      rw [ht.lexeme_eq hk rfl]
      rfl
  case h_3 hk =>
      cases hstart
      refine ⟨⟨.raw (hk ▸ ht), hcontext⟩, startsAgain_of_step ht h (helse (by simp [hk])) rfl ?_⟩
      simp [State.words, Stmt.words]
  case h_4 => exact stepKeyword_startsAgain ht hcontext h hstart
  case h_5 ss outer hk =>
      cases hstart
      refine ⟨⟨.block hcontext.1, hcontext.2⟩,
        startsAgain_of_step ht h (helse (by simp [hk])) rfl ?_⟩
      rw [ht.lexeme_eq hk rfl]
      simp [State.words, Context.words, Stmt.words, Stmt.ofBlock]
  case h_6 hk => exact absurd hk (Token.Lexeme.kind_ne_eof ht)
  case h_7 => cases hstart
  case h_8 =>
      exact stepExpr_startsAgain ht hcontext h hstart (helse ‹_›)

end

/-- The token behind a complete statement. -/
theorem stepDone_replays {s : Stmt} {context : Context} {t : Token} {state' : State}
    (ht : t.IsProper) (hlegible : (State.done s context).Legible)
    (h : stepDone s context t = .ok state') :
    state'.Legible ∧ Replays (.done s context) state' := by
  obtain ⟨hs, hcontext⟩ := hlegible
  obtain ⟨context', hattach, hcontext', hwords⟩ := Context.attach_false hs hcontext
  have hstep := h
  unfold stepDone at hstep
  by_cases helse : t.isKeyword "else" = true
  · rw [helse] at hstep
    obtain ⟨hkind, hlexeme⟩ : t.kind = .keyword ∧ t.lexeme = "else" := by
      simpa [Token.isKeyword] using helse
    split at hstep
    · rename_i context' hattach'
      cases hstep
      obtain ⟨hcontext', hwords'⟩ := Context.attach_true hs hcontext hattach'
      refine ⟨hcontext', replays_of_step ht h rfl rfl ?_⟩
      rw [hlexeme]
      simpa [State.words] using hwords'
    · simp [stepStart, hkind, stepKeyword, hlexeme] at hstep
  · rw [Bool.not_eq_true] at helse
    rw [helse, hattach] at hstep
    obtain ⟨hlegible', word, more, hword, hnot, hsteps⟩ := stepStart_startsAgain ht hcontext' hstep
    refine ⟨hlegible', word :: more, ?_, ?_⟩
    · rw [hword, hwords]
      rfl
    · rw [List.map_cons, steps_cons]
      show stepDone s context (.plain word) >>= _ = _
      unfold stepDone
      rw [hnot, hattach]
      exact hsteps

/-- **One step of the reader.**  What it leaves is legible, and the words
that it adds are read again with the same outcome. -/
theorem step_replays {state state' : State} {t : Token} (ht : t.IsProper)
    (hlegible : state.Legible) (h : step state t = .ok state') :
    state'.Legible ∧ Replays state state' := by
  cases state with
  | start context =>
      obtain ⟨hlegible', word, more, hword, _, hsteps⟩ := stepStart_startsAgain ht hlegible h
      exact ⟨hlegible', word :: more, hword, hsteps⟩
  | head purpose context =>
      obtain ⟨hhead, hcontext⟩ := hlegible
      simp only [step] at h
      split at h
      · rename_i hkind
        cases h
        have hparen := ht.lexeme_eq hkind (show _ = some "(" from rfl)
        have hstep : step (.head purpose context) t = .ok (.expr purpose [] [] context) := by
          simp [step, hkind]
        cases purpose with
        | decl | condition | selector =>
            refine ⟨⟨trivial, by simp, by simp, hcontext⟩, replays_of_step ht hstep rfl rfl ?_⟩
            simp [State.words, Purpose.words, levelsWords, hparen]
        | onlyTest =>
            -- The parenthesis has been written already; the empty clause ends here.
            refine ⟨⟨trivial, by simp, by simp, hcontext⟩, [";"], ?_, rfl⟩
            simp [State.words, Purpose.words, levelsWords]
        | statement | test | increment | label => cases hhead
      · cases h
  | expr purpose levels parts context => exact stepExpr_replays ht hlegible h
  | colon context =>
      simp only [step] at h
      split at h
      · cases h
        refine ⟨⟨.basic (.chain ?_), hlegible⟩, [":", ";"], ?_, rfl⟩
        · simp only [List.forall_mem_cons, List.not_mem_nil, false_imp_iff, implies_true, and_true]
          exact ⟨keyword_legible (by decide), colon_legible⟩
        · simp [State.words, Stmt.ofExpr, Stmt.words,
            words_keyword (show "default" ∈ Stmt.keywords by decide)]
      · cases h
  | labelled label context =>
      simp only [step] at h
      split at h
      · -- The semicolon has been written already.
        cases h
        exact ⟨hlegible, [], by simp [State.words], rfl⟩
      · exact stepDone_replays ht hlegible h
  | done s context => exact stepDone_replays ht hlegible h

/-! ## §6. A run. -/

/-- **Reading the words of what was read leads to the same place.** -/
theorem replay {tokens : List Token} {state state' : State} (ht : ∀ t ∈ tokens, t.IsProper)
    (hlegible : state.Legible) (h : steps state tokens = .ok state') :
    state'.Legible ∧ Replays state state' := by
  induction tokens generalizing state with
  | nil =>
      cases h
      exact ⟨hlegible, [], by simp, rfl⟩
  | cons t ts ih =>
      obtain ⟨htoken, hts⟩ := List.forall_mem_cons.1 ht
      rw [steps_cons] at h
      cases hstep : step state t with
      | error e =>
          rw [hstep] at h
          cases h
      | ok middle =>
          rw [hstep] at h
          obtain ⟨hmiddle, added, hwords, hsteps⟩ := step_replays htoken hlegible hstep
          obtain ⟨hlegible', added', hwords', hsteps'⟩ := ih hts hmiddle h
          refine ⟨hlegible', added ++ added', by rw [hwords', hwords, List.append_assoc], ?_⟩
          rw [List.map_append, steps_append, hsteps]
          exact hsteps'

end Parse
end RuleBody
