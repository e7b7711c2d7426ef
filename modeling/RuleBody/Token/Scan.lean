/-
  RuleBody.Token.Scan
  ───────────────────
  **FROM TEXT TO TOKENS.**

  A text is read piece by piece.  `piece` cuts the first piece off: a token
  of some kind, or a blank or comment, which has no kind.  It neither drops
  nor adds a character (`piece_opens`) and always makes progress
  (`piece_rest_length_lt`), so `scanFrom` ends.

  A token is located on the line where it ENDS, at the column of that end
  less its own length, never below zero; its index is that of its first
  character.
-/
import RuleBody.Token
import RuleBody.Text.Letter

namespace RuleBody.Token

/-! ## §1. What can go wrong. -/

/-- Why a text cannot be read into tokens. -/
inductive Trouble where
  /-- A literal without its closing quote. -/
  | openLiteral (quote : Char)
  /-- A comment without its closing mark. -/
  | openComment
  /-- A character that starts no token. -/
  | stray (c : Char)
  deriving DecidableEq, Repr

/-- The words for a trouble. -/
def Trouble.message : Trouble → String
  | .openLiteral quote => "Unterminated literal starting with " ++ quote.toString
  | .openComment => "Unterminated block comment"
  | .stray c => "Scanning failed starting at: " ++ c.toString

/-- A trouble and the place to show it at. -/
structure ScanError where
  trouble : Trouble
  location : Location
  deriving DecidableEq, Repr

/-! ## §2. Character classes and fixed words. -/

/-- Blanks between tokens. -/
def isBlank (c : Char) : Bool :=
  c == ' ' || c == '\r' || c == '\t' || c == '\n'

/-- The kind of a character that is a token by itself. -/
def punctuation? : Char → Option Kind
  | '(' => some .lParen
  | ')' => some .rParen
  | '[' => some .lBracket
  | ']' => some .rBracket
  | '\x7b' => some .lBrace
  | '\x7d' => some .rBrace
  | ';' => some .semicolon
  | ',' => some .comma
  | _ => none

/-- Words that are not identifiers. -/
def keywords : List String :=
  ["break", "case", "continue", "default", "delete", "do", "else", "for", "goto", "if", "new",
    "return", "sizeof", "switch", "while"]

/-- Operators of several characters; the longer ones come first, so that
the longest one wins. -/
def longOperators : List (List Char) :=
  [['<', '<', '='], ['>', '>', '='], ['.', '.', '.'], ['+', '+'], ['-', '-'], ['+', '='],
    ['-', '='], ['*', '='], ['/', '='], ['%', '='], ['&', '='], ['|', '='], ['^', '='],
    ['=', '='], ['!', '='], ['>', '='], ['<', '='], ['&', '&'], ['|', '|'], ['<', '<'],
    ['>', '>'], ['-', '>'], [':', ':']]

/-- Operators of one character. -/
def shortOperators : List Char :=
  ['+', '-', '*', '/', '%', '=', '<', '>', '!', '&', '|', '^', '~', '?', ':', '.']

/-! ## §3. The first piece of a text. -/

/-- The first piece of a text and what follows it. -/
structure Piece where
  /-- The kind of the token; none for blanks and comments. -/
  kind : Option Kind
  chars : List Char
  rest : List Char
  deriving DecidableEq, Repr

/-- The piece that opens with some characters and runs on while `p` holds. -/
def Piece.run (kind : Option Kind) (opening : List Char) (p : Char → Bool) (cs : List Char) :
    Piece :=
  ⟨kind, opening ++ cs.takeWhile p, cs.dropWhile p⟩

/-- The remainder of a literal up to and with its closing quote, and what
follows.  A backslash takes the next character with it. -/
def closeLiteral (quote : Char) : List Char → Option (List Char × List Char)
  | [] => none
  | '\\' :: [] => none
  | '\\' :: c :: cs => (closeLiteral quote cs).map fun r => ('\\' :: c :: r.1, r.2)
  | c :: cs =>
      if c = quote then some ([c], cs)
      else (closeLiteral quote cs).map fun r => (c :: r.1, r.2)

/-- The remainder of a comment up to and with its closing mark, and what
follows. -/
def closeComment : List Char → Option (List Char × List Char)
  | [] => none
  | '*' :: '/' :: cs => some (['*', '/'], cs)
  | c :: cs => (closeComment cs).map fun r => (c :: r.1, r.2)

/-- The number that opens with some digits: an optional fraction, then an
optional suffix of letters. -/
def number (digits cs : List Char) : Piece :=
  match cs with
  | '.' :: d :: ds =>
      if d.isDigit then
        Piece.run (some .float) (digits ++ '.' :: d :: ds.takeWhile Char.isDigit) Char.isAlpha
          (ds.dropWhile Char.isDigit)
      else Piece.run (some .integer) digits Char.isAlpha cs
  | _ => Piece.run (some .integer) digits Char.isAlpha cs

/-- The kind of a name. -/
def nameKind (name : List Char) : Kind :=
  if keywords.contains (String.ofList name) then .keyword else .identifier

/-- The literal that opens with `quote`. -/
def literal (kind : Kind) (quote : Char) (cs : List Char) : Except Trouble Piece :=
  match closeLiteral quote cs with
  | none => .error (.openLiteral quote)
  | some (body, rest) => .ok ⟨some kind, quote :: body, rest⟩

/-- The operator that `c` starts, the longest that fits. -/
def operator (c : Char) (cs : List Char) : Except Trouble Piece :=
  match longOperators.find? fun op => op.isPrefixOf (c :: cs) with
  | some op => .ok ⟨some .operator, op, (c :: cs).drop op.length⟩
  | none =>
      if shortOperators.contains c then .ok ⟨some .operator, [c], cs⟩
      else .error (.stray c)

/-- The comment or operator that a slash starts. -/
def slash (cs : List Char) : Except Trouble Piece :=
  match cs with
  | '/' :: _ => .ok (Piece.run none ['/'] (· != '\n') cs)
  | '*' :: ds =>
      match closeComment ds with
      | none => .error .openComment
      | some (body, rest) => .ok ⟨none, '/' :: '*' :: body, rest⟩
  | _ => operator '/' cs

/-- Cut the first piece off the text `c :: cs`. -/
def piece (c : Char) (cs : List Char) : Except Trouble Piece :=
  match punctuation? c with
  | some kind => .ok ⟨some kind, [c], cs⟩
  | none =>
      if isBlank c then .ok ⟨none, [c], cs⟩
      else if c = '#' then .ok (Piece.run (some .directive) [c] (· != '\n') cs)
      else if c = '"' then literal .string c cs
      else if c = '\'' then literal .char c cs
      else if c = '/' then slash cs
      else if c.isDigit then
        .ok (number (c :: cs.takeWhile Char.isDigit) (cs.dropWhile Char.isDigit))
      else if Text.startsName c then
        let name := c :: cs.takeWhile Text.continuesName
        .ok ⟨some (nameKind name), name, cs.dropWhile Text.continuesName⟩
      else operator c cs

/-! ## §4. Nothing is lost, and there is progress. -/

/-- The piece opens the text: its characters, of which there is at least
one, and the rest make up the whole. -/
def Piece.Opens (p : Piece) (cs : List Char) : Prop :=
  p.chars ++ p.rest = cs ∧ p.chars ≠ []

theorem closeLiteral_append {quote : Char} {cs body rest : List Char}
    (h : closeLiteral quote cs = some (body, rest)) : body ++ rest = cs := by
  fun_induction closeLiteral quote cs generalizing body rest with
  | case1 => simp at h
  | case2 => simp at h
  | case3 c cs ih =>
      obtain ⟨r, hr, hb⟩ := Option.map_eq_some_iff.1 h
      obtain ⟨rfl, rfl⟩ := Prod.mk.inj hb
      simp [ih hr]
  | case4 cs =>
      obtain ⟨rfl, rfl⟩ := Prod.mk.inj (Option.some.inj h)
      rfl
  | case5 c cs _ _ _ ih =>
      obtain ⟨r, hr, hb⟩ := Option.map_eq_some_iff.1 h
      obtain ⟨rfl, rfl⟩ := Prod.mk.inj hb
      simp [ih hr]

theorem closeComment_append {cs body rest : List Char}
    (h : closeComment cs = some (body, rest)) : body ++ rest = cs := by
  fun_induction closeComment cs generalizing body rest with
  | case1 => simp at h
  | case2 cs =>
      obtain ⟨rfl, rfl⟩ := Prod.mk.inj (Option.some.inj h)
      rfl
  | case3 c cs _ ih =>
      obtain ⟨r, hr, hb⟩ := Option.map_eq_some_iff.1 h
      obtain ⟨rfl, rfl⟩ := Prod.mk.inj hb
      simp [ih hr]

theorem Piece.run_opens (kind : Option Kind) (c : Char) (opening : List Char)
    (p : Char → Bool) (cs : List Char) :
    (Piece.run kind (c :: opening) p cs).Opens (c :: opening ++ cs) :=
  ⟨by simp [Piece.run, List.takeWhile_append_dropWhile], by simp [Piece.run]⟩

theorem number_opens (d : Char) (digits cs : List Char) :
    (number (d :: digits) cs).Opens (d :: digits ++ cs) := by
  unfold number
  split
  · split
    · exact ⟨by simp [Piece.run, List.takeWhile_append_dropWhile], by simp [Piece.run]⟩
    · exact Piece.run_opens ..
  · exact Piece.run_opens ..

theorem literal_opens {kind : Kind} {quote : Char} {cs : List Char} {p : Piece}
    (h : literal kind quote cs = .ok p) : p.Opens (quote :: cs) := by
  unfold literal at h
  split at h
  · cases h
  · rename_i body rest hclose
    cases h
    exact ⟨by simp [closeLiteral_append hclose], by simp⟩

theorem operator_opens {c : Char} {cs : List Char} {p : Piece}
    (h : operator c cs = .ok p) : p.Opens (c :: cs) := by
  unfold operator at h
  split at h
  · rename_i op hfind
    cases h
    have hmem := List.mem_of_find?_eq_some hfind
    have hfits := List.find?_some hfind
    refine ⟨(List.prefix_iff_eq_append.1 (List.isPrefixOf_iff_prefix.1 hfits)), ?_⟩
    rintro rfl
    simp [longOperators] at hmem
  · split at h
    · cases h
      exact ⟨rfl, by simp⟩
    · cases h

theorem slash_opens {cs : List Char} {p : Piece} (h : slash cs = .ok p) :
    p.Opens ('/' :: cs) := by
  unfold slash at h
  split at h
  · cases h
    exact Piece.run_opens ..
  · split at h
    · cases h
    · rename_i body rest hclose
      cases h
      exact ⟨by simp [closeComment_append hclose], by simp⟩
  · exact operator_opens h

/-- **A piece opens the text it was cut from.** -/
theorem piece_opens {c : Char} {cs : List Char} {p : Piece}
    (h : piece c cs = .ok p) : p.Opens (c :: cs) := by
  unfold piece at h
  split at h
  · cases h
    exact ⟨rfl, by simp⟩
  split at h
  · cases h
    exact ⟨rfl, by simp⟩
  split at h
  · cases h
    exact Piece.run_opens ..
  split at h
  · exact literal_opens h
  split at h
  · exact literal_opens h
  split at h
  · rename_i hslash
    subst hslash
    exact slash_opens h
  split at h
  · cases h
    have := number_opens c (cs.takeWhile Char.isDigit) (cs.dropWhile Char.isDigit)
    rwa [List.cons_append, List.takeWhile_append_dropWhile] at this
  split at h
  · cases h
    exact ⟨by simp [List.takeWhile_append_dropWhile], by simp⟩
  · exact operator_opens h

/-- What follows a piece is shorter than the text it was cut from. -/
theorem piece_rest_length_lt {c : Char} {cs : List Char} {p : Piece}
    (h : piece c cs = .ok p) : p.rest.length < (c :: cs).length := by
  obtain ⟨hsplit, hne⟩ := piece_opens h
  have hlength := congrArg List.length hsplit
  have hpos := List.length_pos_iff.2 hne
  rw [List.length_append] at hlength
  omega

/-! ## §5. All tokens of a text. -/

/-- The token of some kind whose characters begin at `here`. -/
def ofPiece (here : Location) (kind : Kind) (chars : List Char) : Token :=
  let stop := here.past chars
  ⟨kind, String.ofList chars, ⟨stop.line, stop.column - chars.length, here.start⟩⟩

/-- The token that ends every text. -/
def eof (here : Location) : Token :=
  ⟨.eof, "", here⟩

/-- Where a trouble is shown: a stray character where it stands, the others
at the end of the text. -/
def Trouble.place (here : Location) (cs : List Char) : Trouble → Location
  | .stray _ => here
  | .openLiteral _ | .openComment => { here.past cs with start := here.start }

/-- The tokens of the text `cs` whose first character stands at `here`. -/
def scanFrom (here : Location) : List Char → Except ScanError (List Token)
  | [] => .ok [eof here]
  | c :: cs =>
      match _h : piece c cs with
      | .error trouble => .error ⟨trouble, trouble.place here (c :: cs)⟩
      | .ok p =>
          match p.kind with
          | none => scanFrom (here.past p.chars) p.rest
          | some kind =>
              match scanFrom (here.past p.chars) p.rest with
              | .error e => .error e
              | .ok tokens => .ok (ofPiece here kind p.chars :: tokens)
termination_by cs => cs.length
decreasing_by all_goals exact piece_rest_length_lt _h

/-- The tokens of a text; the last one, and only that, marks its end. -/
def scan (src : String) : Except ScanError (List Token) :=
  scanFrom {} src.toList

end RuleBody.Token
