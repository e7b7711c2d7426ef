/-
  RuleBody.Proofs.Parts
  ─────────────────────
  **WHAT EXPRESSIONS ARE MADE OF.**

  The reader makes an expression of parts: leaves, brackets with parts in
  them, subscripts behind a part, and calls.  So the words of what was read
  are paired, every bracket has its match (`Part.paired`).  The other
  way around, the reader accepts all words that are paired
  (`Paired.spelt`), whatever else they are.

  §1  parts;
  §2  what is spelt is made of parts;
  §3  paired words;
  §4  paired words are accepted.
-/
import RuleBody.Proofs.Tidy

namespace RuleBody

open Parse (collapse enclosed Level Grows leafKind?)
open Token (IsLexeme kindOf)
open RuleBody.Expr (wordsOf)

/-! ## §1. Parts. -/

/-- The brackets and their matches. -/
def Parse.brackets : List (String × String) := [("(", ")"), ("[", "]"), ("\x7b", "\x7d")]

/-- The brackets, opening and closing. -/
def Parse.marks : List String := ["(", ")", "[", "]", "\x7b", "\x7d"]

open Parse (brackets marks)

/-- A part of an expression, as the reader makes it. -/
inductive Expr.Part : Expr → Prop where
  | leaf {kind : Expr.Kind} {text : String} : IsLexeme text →
      leafKind? (.plain text) = some kind → Part (.leaf kind text)
  | enclosed {opening closing : String} {inner : List Expr} : (opening, closing) ∈ brackets →
      (∀ p ∈ inner, Part p) → Part (.chain (enclosed opening inner closing))
  | subscript {operand : Expr} {inner : List Expr} : Part operand → operand.kind ≠ .op →
      (∀ p ∈ inner, Part p) → Part (.chain (operand :: Parse.enclosed "[" inner "]"))
  | call {name : String} {arguments : List (List Expr)} : IsLexeme name →
      kindOf name = .identifier → (∀ ps ∈ arguments, ∀ p ∈ ps, Part p) →
      Part (.call (.ident name) (.args (arguments.map collapse)))

open RuleBody.Expr (Part)

namespace Parse

/-- The kind of a leaf is that of its token. -/
theorem leafKind?_ident {text : String} (h : leafKind? (.plain text) = some .ident) :
    kindOf text = .identifier := by
  unfold leafKind? at h
  split at h
  case h_1 hk => exact hk
  all_goals first
    | cases h
    | (split at h <;> cases h)

theorem leafKind?_of_identifier {text : String} (h : kindOf text = .identifier) :
    leafKind? (.plain text) = some .ident := by
  unfold leafKind?
  rw [show (Token.plain text).kind = .identifier from h]

theorem leafKind?_admits {kind : Expr.Kind} {text : String}
    (h : leafKind? (.plain text) = some kind) : kind.admits (kindOf text) = true := by
  have hkind : (Token.plain text).kind = kindOf text := rfl
  unfold leafKind? at h
  rw [hkind] at h
  split at h
  case h_6 hk =>
      split at h
      · cases h
      · cases h
        rw [hk]
        rfl
  case h_9 => cases h
  all_goals
    rename_i hk
    cases h
    rw [hk]
    rfl

theorem mem_marks {opening closing : String} (h : (opening, closing) ∈ brackets) :
    opening ∈ marks ∧ closing ∈ marks := by
  have hall : ∀ pair ∈ brackets, pair.1 ∈ marks ∧ pair.2 ∈ marks := by decide
  exact hall _ h

/-- A bracket is one character, and a token by itself. -/
theorem mark_char {mark : String} (h : mark ∈ marks) :
    ∃ c kind, mark = String.ofList [c] ∧ Token.punctuation? c = some kind := by
  simp only [marks, List.mem_cons, List.not_mem_nil, or_false] at h
  rcases h with rfl | rfl | rfl | rfl | rfl | rfl
  · exact ⟨'(', _, rfl, rfl⟩
  · exact ⟨')', _, rfl, rfl⟩
  · exact ⟨'[', _, rfl, rfl⟩
  · exact ⟨']', _, rfl, rfl⟩
  · exact ⟨'\x7b', _, rfl, rfl⟩
  · exact ⟨'\x7d', _, rfl, rfl⟩

theorem mark_lexeme {mark : String} (h : mark ∈ marks) : IsLexeme mark := by
  obtain ⟨c, kind, rfl, hc⟩ := mark_char h
  have hlexeme : Token.Lexeme kind (String.ofList [c]).toList := by
    rw [String.toList_ofList]
    exact .punctuation hc
  exact hlexeme.isLexeme

theorem mark_admits {mark : String} (h : mark ∈ marks) :
    Expr.Kind.op.admits (kindOf mark) = true := by
  have hall : ∀ mark ∈ marks, Expr.Kind.op.admits (kindOf mark) = true := by decide
  exact hall mark h

theorem mark_legible {mark : String} (h : mark ∈ marks) : (Expr.op mark).Legible :=
  .leaf (mark_lexeme h) (mark_admits h)

/-- A bracket is no leaf. -/
theorem leafKind?_mark {mark : String} (h : mark ∈ marks) : leafKind? (.plain mark) = none := by
  have hall : ∀ mark ∈ marks, leafKind? (.plain mark) = none := by decide
  exact hall mark h

end Parse

theorem Expr.Part.legible {p : Expr} (h : p.Part) : p.Legible := by
  induction h with
  | leaf ht hkind => exact .leaf ht (Parse.leafKind?_admits hkind)
  | enclosed hmem _ ih =>
      obtain ⟨ho, hc⟩ := Parse.mem_marks hmem
      exact .chain (Parse.enclosed_legible (Parse.mark_legible ho) (Parse.mark_legible hc) ih)
  | subscript _ _ _ ihoperand ih =>
      refine .chain (List.forall_mem_cons.2 ⟨ihoperand, Parse.enclosed_legible ?_ ?_ ih⟩)
      · exact Parse.mark_legible (by decide)
      · exact Parse.mark_legible (by decide)
  | call hname hkind _ ih =>
      refine .call hname hkind fun e he => ?_
      obtain ⟨ps, hps, rfl⟩ := List.mem_map.1 he
      exact Parse.collapse_legible (ih ps hps)

/-- The only part that is a name is a leaf. -/
theorem Expr.Part.of_ident {p : Expr} (h : p.Part) (hkind : p.kind = .ident) :
    ∃ name, p = .ident name ∧ IsLexeme name ∧ kindOf name = .identifier := by
  cases h with
  | @leaf kind text ht hleaf =>
      obtain rfl : kind = .ident := hkind
      exact ⟨text, rfl, ht, Parse.leafKind?_ident hleaf⟩
  | enclosed | subscript | call => cases hkind

/-! ## §2. What is spelt is made of parts. -/

namespace Parse

/-- What stands in and before an open bracket is made of parts. -/
structure Level.Made (l : Level) : Prop where
  before : ∀ p ∈ l.before, p.Part
  call : ∀ callee arguments, l.bracket = .call callee arguments →
    (∃ name, callee = .ident name ∧ IsLexeme name ∧ kindOf name = .identifier)
      ∧ ∃ lists : List (List Expr), (∀ ps ∈ lists, ∀ p ∈ ps, p.Part)
        ∧ arguments = lists.map collapse

theorem openParen_made {parts : List Expr} (h : ∀ p ∈ parts, p.Part) : (openParen parts).Made := by
  unfold openParen
  cases hlast : parts.getLast? with
  | none => exact ⟨h, nofun⟩
  | some last =>
      dsimp only
      split
      · rename_i hkind
        refine ⟨fun p hp => h p (List.dropLast_subset _ hp), ?_⟩
        rintro callee arguments ⟨⟩
        exact ⟨(h last (List.mem_of_getLast? hlast)).of_ident hkind, [], by simp, rfl⟩
      · exact ⟨h, nofun⟩

theorem subscript_parts {before inner : List Expr} (hbefore : ∀ p ∈ before, p.Part)
    (hinner : ∀ p ∈ inner, p.Part) : ∀ p ∈ subscript before inner, p.Part := by
  have hmarks : (Expr.chain (enclosed "[" inner "]")).Part := .enclosed (by decide) hinner
  unfold subscript
  cases hlast : before.getLast? with
  | none => exact List.forall_mem_singleton.2 hmarks
  | some operand =>
      dsimp only
      split
      · exact List.forall_mem_append.2 ⟨hbefore, List.forall_mem_singleton.2 hmarks⟩
      · rename_i hkind
        refine List.forall_mem_append.2 ⟨fun p hp => hbefore p (List.dropLast_subset _ hp),
          List.forall_mem_singleton.2 ?_⟩
        exact .subscript (hbefore operand (List.mem_of_getLast? hlast)) hkind hinner

/-- The lists behind the arguments of a call once its parenthesis closes. -/
theorem allArguments_parts {lists : List (List Expr)} {parts : List Expr}
    (hlists : ∀ ps ∈ lists, ∀ p ∈ ps, p.Part) (hparts : ∀ p ∈ parts, p.Part) :
    ∃ lists' : List (List Expr), (∀ ps ∈ lists', ∀ p ∈ ps, p.Part)
      ∧ allArguments (lists.map collapse) parts = lists'.map collapse := by
  unfold allArguments
  split
  · exact ⟨[], by simp, rfl⟩
  · refine ⟨lists ++ [parts], ?_, by simp⟩
    exact List.forall_mem_append.2 ⟨hlists, List.forall_mem_singleton.2 hparts⟩

/-- **A token makes parts of parts.** -/
theorem Grows.made {word : String} {levels levels' : List Level} {parts parts' : List Expr}
    (h : Grows (.plain word) levels parts levels' parts') (hword : IsLexeme word)
    (hlevels : ∀ l ∈ levels, l.Made) (hparts : ∀ p ∈ parts, p.Part) :
    (∀ l ∈ levels', l.Made) ∧ ∀ p ∈ parts', p.Part := by
  cases h with
  | leaf hkind _ =>
      exact ⟨hlevels, List.forall_mem_append.2
        ⟨hparts, List.forall_mem_singleton.2 (.leaf hword hkind)⟩⟩
  | openParen => exact ⟨List.forall_mem_cons.2 ⟨openParen_made hparts, hlevels⟩, by simp⟩
  | openSquare | openBrace => exact ⟨List.forall_mem_cons.2 ⟨⟨hparts, nofun⟩, hlevels⟩, by simp⟩
  | closeParen | closeBrace =>
      obtain ⟨hl, houter⟩ := List.forall_mem_cons.1 hlevels
      exact ⟨houter, List.forall_mem_append.2
        ⟨hl.before, List.forall_mem_singleton.2 (.enclosed (by decide) hparts)⟩⟩
  | closeSquare =>
      obtain ⟨hl, houter⟩ := List.forall_mem_cons.1 hlevels
      exact ⟨houter, subscript_parts hl.before hparts⟩
  | closeCall =>
      obtain ⟨hl, houter⟩ := List.forall_mem_cons.1 hlevels
      obtain ⟨⟨name, rfl, hname, hkind⟩, lists, hlists, rfl⟩ := hl.call _ _ rfl
      obtain ⟨lists', hlists', hall⟩ := allArguments_parts hlists hparts
      refine ⟨houter, List.forall_mem_append.2 ⟨hl.before, List.forall_mem_singleton.2 ?_⟩⟩
      rw [hall]
      exact .call hname hkind hlists'
  | nextArgument =>
      obtain ⟨hl, houter⟩ := List.forall_mem_cons.1 hlevels
      obtain ⟨hcallee, lists, hlists, rfl⟩ := hl.call _ _ rfl
      refine ⟨List.forall_mem_cons.2 ⟨⟨hl.before, ?_⟩, houter⟩, by simp⟩
      rintro _ _ ⟨⟩
      refine ⟨hcallee, lists ++ [parts], ?_, by simp⟩
      exact List.forall_mem_append.2 ⟨hlists, List.forall_mem_singleton.2 hparts⟩

theorem Spelt.made {purpose : Purpose} {words : List String} {levels : List Level}
    {parts : List Expr} (h : Spelt purpose words levels parts) :
    (∀ l ∈ levels, l.Made) ∧ ∀ p ∈ parts, p.Part := by
  induction h with
  | nil => simp
  | snoc _ hword _ hgrows ih => exact hgrows.made hword ih.1 ih.2

end Parse

/-- **What is spelt is made of parts.** -/
theorem Expr.IsSpelt.parts {purpose : Parse.Purpose} {e : Expr} (h : e.IsSpelt purpose) :
    ∃ parts, (∀ p ∈ parts, p.Part) ∧ e = collapse parts := by
  obtain ⟨words, parts, hspelt, rfl⟩ := h
  exact ⟨parts, hspelt.made.2, rfl⟩

/-! ## §3. Paired words. -/

/-- Every bracket among the words has its match. -/
inductive Parse.Paired : List String → Prop where
  | nil : Paired []
  | leaf {word : String} {words : List String} {kind : Expr.Kind} : IsLexeme word →
      leafKind? (.plain word) = some kind → Paired words → Paired (word :: words)
  | bracket {opening closing : String} {inner words : List String} :
      (opening, closing) ∈ brackets → Paired inner → Paired words →
      Paired (opening :: (inner ++ closing :: words))

open Parse (Paired)

namespace Parse.Paired

theorem append {xs ys : List String} (hx : Paired xs) (hy : Paired ys) :
    Paired (xs ++ ys) := by
  induction hx with
  | nil => exact hy
  | leaf hword hkind _ ih => exact .leaf hword hkind ih
  | bracket hmem hinner _ _ ih =>
      rw [List.cons_append, List.append_assoc, List.cons_append]
      exact .bracket hmem hinner ih

theorem one {word : String} {kind : Expr.Kind} (hword : IsLexeme word)
    (hkind : leafKind? (.plain word) = some kind) : Paired [word] := .leaf hword hkind .nil

theorem wrapped {opening closing : String} {inner : List String}
    (hmem : (opening, closing) ∈ brackets) (hinner : Paired inner) :
    Paired (opening :: (inner ++ [closing])) := .bracket hmem hinner .nil

theorem flatten {lists : List (List String)} (h : ∀ words ∈ lists, Paired words) :
    Paired lists.flatten := by
  induction lists with
  | nil => exact .nil
  | cons words lists ih =>
      obtain ⟨hwords, hlists⟩ := List.forall_mem_cons.1 h
      exact hwords.append (ih hlists)

end Parse.Paired

/-- The words of a bracket and of what stands in it. -/
theorem Parse.words_bracket {opening closing : String} (hmem : (opening, closing) ∈ brackets)
    (inner : List Expr) :
    wordsOf (enclosed opening inner closing) = opening :: (wordsOf inner ++ [closing]) := by
  have hne : ∀ pair ∈ brackets, pair.1 ≠ "" ∧ pair.2 ≠ "" := by decide
  obtain ⟨ho, hc⟩ := hne _ hmem
  exact enclosed_words opening closing inner ho hc

namespace Expr

theorem paired_wordsOf {ps : List Expr} (h : ∀ p ∈ ps, Paired p.words) :
    Paired (wordsOf ps) := by
  unfold wordsOf
  rw [List.flatMap_def]
  refine .flatten fun words hwords => ?_
  obtain ⟨p, hp, rfl⟩ := List.mem_map.1 hwords
  exact h p hp

theorem paired_wordsJoined {es : List Expr} (h : ∀ e ∈ es, Paired e.words) :
    Paired (wordsJoined [","] es) := by
  have hcomma : IsLexeme "," ∧ leafKind? (.plain ",") = some .op := by
    have hmark : Token.Lexeme .comma ",".toList := .punctuation rfl
    exact ⟨hmark.isLexeme, by decide⟩
  induction es with
  | nil => exact .nil
  | cons e es ih =>
      obtain ⟨he, hes⟩ := List.forall_mem_cons.1 h
      cases es with
      | nil => exact he
      | cons f fs => exact he.append (.leaf hcomma.1 hcomma.2 (ih hes))

/-- The words of a leaf. -/
theorem words_of_leafKind? {kind : Expr.Kind} {text : String} (ht : IsLexeme text)
    (h : leafKind? (.plain text) = some kind) : (leaf kind text).words = [text] :=
  words_leaf (Parse.leafKind?_admits h) ht.ne_empty

/-- **The words of a part are paired.** -/
theorem Part.paired {p : Expr} (h : p.Part) : Paired p.words := by
  induction h with
  | leaf ht hkind =>
      rw [words_of_leafKind? ht hkind]
      exact .one ht hkind
  | enclosed hmem _ ih =>
      rw [words_chain, Parse.words_bracket hmem]
      exact .wrapped hmem (paired_wordsOf ih)
  | subscript _ _ _ ihoperand ih =>
      rw [words_chain, wordsOf_cons, Parse.words_bracket (by decide)]
      exact ihoperand.append (.wrapped (by decide) (paired_wordsOf ih))
  | @call name arguments hname hkind _ ih =>
      have hleaf := Parse.leafKind?_of_identifier hkind
      rw [words_call, show (ident name).words = [name] from words_of_leafKind? hname hleaf,
        words_args]
      refine .leaf hname hleaf (.wrapped (by decide) (paired_wordsJoined fun e he => ?_))
      obtain ⟨ps, hps, rfl⟩ := List.mem_map.1 he
      rw [Parse.collapse_words]
      exact paired_wordsOf (ih ps hps)

end Expr

/-! ## §4. Paired words are accepted. -/

namespace Parse

/-- The kind of the mark that closes an open bracket. -/
def Level.closing (l : Level) : Token.Kind :=
  match l.bracket with
  | .paren | .call _ _ => .rParen
  | .square => .rBracket
  | .brace => .rBrace

/-- A leaf goes on anywhere; a comma may separate arguments. -/
theorem exists_grows_leaf {word : String} {kind : Expr.Kind}
    (hkind : leafKind? (.plain word) = some kind) (levels : List Level) (parts : List Expr) :
    ∃ levels' parts', Grows (.plain word) levels parts levels' parts'
      ∧ levels'.map Level.closing = levels.map Level.closing := by
  by_cases hcomma : ∀ l ∈ levels.head?, l.bracket.isCall = true → (Token.plain word).kind ≠ .comma
  · exact ⟨_, _, .leaf hkind hcomma, rfl⟩
  · cases levels with
    | nil => exact absurd (by simp) hcomma
    | cons l outer =>
        obtain ⟨bracket, before⟩ := l
        cases bracket with
        | call callee arguments =>
            have hk : (Token.plain word).kind = .comma := by simpa [Bracket.isCall] using hcomma
            exact ⟨_, _, .nextArgument hk, rfl⟩
        | paren | square | brace => exact absurd (by simp [Bracket.isCall]) hcomma

theorem exists_grows_open {opening closing : String} (hmem : (opening, closing) ∈ brackets)
    (levels : List Level) (parts : List Expr) :
    ∃ l, Grows (.plain opening) levels parts (l :: levels) [] ∧ l.closing = kindOf closing := by
  simp only [brackets, List.mem_cons, List.not_mem_nil, or_false, Prod.mk.injEq] at hmem
  rcases hmem with ⟨rfl, rfl⟩ | ⟨rfl, rfl⟩ | ⟨rfl, rfl⟩
  · refine ⟨_, .openParen (by decide), ?_⟩
    unfold openParen
    split
    · split <;> rfl
    · rfl
  · exact ⟨_, .openSquare (by decide), rfl⟩
  · exact ⟨_, .openBrace (by decide), rfl⟩

theorem exists_grows_close {closing : String} {l : Level} (hl : l.closing = kindOf closing)
    (outer : List Level) (parts : List Expr) :
    ∃ parts', Grows (.plain closing) (l :: outer) parts outer parts' := by
  obtain ⟨bracket, before⟩ := l
  have hkind : (Token.plain closing).kind = kindOf closing := rfl
  rw [← hl] at hkind
  cases bracket with
  | paren => exact ⟨_, .closeParen hkind⟩
  | square => exact ⟨_, .closeSquare hkind⟩
  | brace => exact ⟨_, .closeBrace hkind⟩
  | call callee arguments => exact ⟨_, .closeCall hkind⟩

/-- One more word of an expression that ends at a semicolon or at a
parenthesis. -/
theorem Spelt.grow {purpose : Purpose} (hpurpose : purpose ≠ .label) {words : List String}
    {levels levels' : List Level} {parts parts' : List Expr} {word : String}
    (h : Spelt purpose words levels parts) (hword : IsLexeme word)
    (hgrows : Grows (.plain word) levels parts levels' parts') :
    Spelt purpose (words ++ [word]) levels' parts' := by
  refine h.snoc hword ?_ hgrows
  rintro rfl
  exact hgrows.not_endsAt hpurpose

/-- **Paired words are accepted, and leave the open brackets open.** -/
theorem Paired.continues {purpose : Purpose} (hpurpose : purpose ≠ .label) {more : List String}
    (hmore : Paired more) {words : List String} {levels : List Level} {parts : List Expr}
    (h : Spelt purpose words levels parts) :
    ∃ levels' parts', Spelt purpose (words ++ more) levels' parts'
      ∧ levels'.map Level.closing = levels.map Level.closing := by
  induction hmore generalizing words levels parts with
  | nil => exact ⟨levels, parts, by rwa [List.append_nil], rfl⟩
  | @leaf word _ _ hword hkind _ ih =>
      obtain ⟨levels₁, parts₁, hgrows, hclosing₁⟩ := exists_grows_leaf hkind levels parts
      obtain ⟨levels', parts', hspelt, hclosing⟩ := ih (h.grow hpurpose hword hgrows)
      refine ⟨levels', parts', ?_, hclosing.trans hclosing₁⟩
      rwa [List.append_assoc] at hspelt
  | @bracket opening closing inner rest hmem _ _ ihinner ihrest =>
      obtain ⟨hopening, hclosing⟩ := mem_marks hmem
      obtain ⟨l, hopen, hl⟩ := exists_grows_open hmem levels parts
      obtain ⟨levels₁, parts₁, hspelt₁, hlevels₁⟩ := ihinner
        (h.grow hpurpose (mark_lexeme hopening) hopen)
      -- The level that was opened is still the innermost one.
      obtain ⟨l', outer, rfl, hl', houter⟩ := List.map_eq_cons_iff.1 hlevels₁
      obtain ⟨parts₂, hclose⟩ := exists_grows_close (hl'.trans hl) outer parts₁
      obtain ⟨levels', parts', hspelt, hlevels'⟩ :=
        ihrest (hspelt₁.grow hpurpose (mark_lexeme hclosing) hclose)
      refine ⟨levels', parts', ?_, hlevels'.trans houter⟩
      simpa only [List.append_assoc, List.cons_append, List.nil_append] using hspelt

theorem Paired.spelt {words : List String} (h : Paired words) :
    ∃ parts, Spelt .statement words [] parts := by
  have hnone : Spelt .statement [] [] [] := .nil
  obtain ⟨levels, parts, hspelt, hlevels⟩ := h.continues (by decide) hnone
  obtain rfl : levels = [] := List.map_eq_nil_iff.1 hlevels
  exact ⟨parts, hspelt⟩

end Parse

end RuleBody
