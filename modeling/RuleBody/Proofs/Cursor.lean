/-
  RuleBody.Proofs.Cursor
  ──────────────────────
  **SCANNING WITH A CURSOR.**

  `Token.scan` cuts pieces off the front of a list, so it has no place to
  look at that is not there.  Here a text is scanned in place: characters are
  taken by their index, a lexeme is a slice of the text, and a message quotes
  a line by its number.  An index out of range is a fault.

      advance    — the character at the cursor; a fault at the end
      peekN      — a character further on; at the end there is none
      lexeme     — what lies between the start of the token and the cursor

  Every place that the scanner takes is there, its loops come to an end, and
  what it finds are the tokens, or the message, of `Token.scan`
  (`Scanner.scan_eq`).

  §1  checked access;
  §2  the scanner;
  §3  where it stands;
  §4  loops;
  §5  one piece;
  §6  all tokens.
-/
import RuleBody.Error
import RuleBody.Fault
import RuleBody.Proofs.Layout
import RuleBody.Run

namespace RuleBody

open Token (Kind Piece Trouble)

/-! ## §1. Checked access. -/

namespace Checked

variable {α : Type}

/-- The element at a place of a list. -/
def get (xs : List α) (i : Nat) : Except Fault α :=
  match xs[i]? with
  | some x => .ok x
  | none => .error (.outOfRange i xs.length)

/-- The elements of a list from one place up to another. -/
def slice (xs : List α) (first past : Nat) : Except Fault (List α) :=
  if first ≤ past ∧ past ≤ xs.length then .ok ((xs.take past).drop first)
  else .error (.outOfRange past xs.length)

/-- A difference of numbers. -/
def sub (n k : Nat) : Except Fault Nat :=
  if k ≤ n then .ok (n - k) else .error .underflow

theorem get_eq_ok {xs : List α} {i : Nat} {x : α} (h : xs[i]? = some x) : get xs i = .ok x := by
  unfold get
  rw [h]

theorem slice_append (before chars rest : List α) :
    slice (before ++ (chars ++ rest)) before.length (before ++ chars).length = .ok chars := by
  unfold slice
  rw [if_pos (by simp), ← List.append_assoc, List.take_left, List.drop_left]

theorem sub_eq_ok {n k : Nat} (h : k ≤ n) : sub n k = .ok (n - k) := if_pos h

end Checked

/-- The line before the one that is shown, with its number. -/
def Location.lineBefore (lines : List String) (n : Nat) : Except Fault String := do
  if n = 0 then return ""
  else
    let k ← Checked.sub n 1
    return "\n" ++ toString k ++ "  | " ++ (← Checked.get lines k)

/-- The picture of a message, whose lines are taken by their numbers. -/
def Location.pictured (src : String) (l : Location) (message : String) : Except Fault String := do
  let lines := (Text.splitLines src.toList).map String.ofList
  let n := min l.line (lines.length - 1)
  let before ← lineBefore lines n
  let number := toString n
  return "```" ++ before ++ "\n" ++ number ++ "  | " ++ lines.getD n ""
    ++ "\n" ++ String.ofList (List.replicate (l.column + (4 + number.length)) ' ')
    ++ "^ " ++ message ++ "\n```"

theorem Location.lineBefore_eq {lines : List String} {n : Nat} (hn : n ≤ lines.length - 1) :
    lineBefore lines n = .ok
      (if n = 0 then "" else "\n" ++ toString (n - 1) ++ "  | " ++ lines.getD (n - 1) "") := by
  unfold lineBefore
  by_cases hzero : n = 0
  · rw [if_pos hzero, if_pos hzero]
    rfl
  · have hk : n - 1 < lines.length := by omega
    rw [if_neg hzero, if_neg hzero, Checked.sub_eq_ok (Nat.pos_of_ne_zero hzero),
      List.getD_eq_getElem?_getD, List.getElem?_eq_getElem hk]
    show (Checked.get lines (n - 1) >>= _ : Except Fault String) = _
    rw [Checked.get_eq_ok (List.getElem?_eq_getElem hk)]
    rfl

/-- A message can always be shown. -/
theorem Location.pictured_eq (src : String) (l : Location) (message : String) :
    l.pictured src message = .ok (l.picture src message) := by
  unfold pictured
  dsimp only
  rw [lineBefore_eq (Nat.min_le_right _ _)]
  rfl

/-! ## §2. The scanner. -/

/-- A text, the tokens that were found in it, where the current token starts
and where the cursor stands. -/
structure Scanner where
  source : List Char
  tokens : List Token := []
  start : Nat := 0
  current : Nat := 0
  line : Nat := 0
  column : Nat := 0

namespace Scanner

/-- Whether the cursor stands behind the last character. -/
def isAtEnd (s : Scanner) : Bool := decide (s.source.length ≤ s.current)

/-- The character some places behind the cursor; the null character where
there is none. -/
def peekN (s : Scanner) (n : Nat) : Char := (s.source[s.current + n]?).getD '\x00'

/-- The character at the cursor, which moves behind it. -/
def advance (s : Scanner) : Except Fault (Char × Scanner) := do
  let c ← Checked.get s.source s.current
  if c = '\n' then
    return (c, { s with current := s.current + 1, line := s.line + 1, column := 0 })
  else
    return (c, { s with current := s.current + 1, column := s.column + 1 })

/-- Pass over one character. -/
def skip (s : Scanner) : Except Fault Scanner := do
  return (← s.advance).2

/-- The text of the current token. -/
def lexeme (s : Scanner) : Except Fault String := do
  return String.ofList (← Checked.slice s.source s.start s.current)

/-- Add the current token. -/
def addToken (s : Scanner) (kind : Kind) : Except Fault Scanner := do
  let lexeme ← if kind = .eof then pure "" else s.lexeme
  let place : Location := ⟨s.line, s.column - lexeme.length, s.start⟩
  return { s with tokens := s.tokens ++ [⟨kind, lexeme, place⟩] }

/-- The message of a trouble at a place. -/
def report (s : Scanner) (place : Location) (trouble : Trouble) : Except Fault String :=
  place.pictured (String.ofList s.source) trouble.message

/-- The message of a trouble that shows at the cursor. -/
def reportHere (s : Scanner) (trouble : Trouble) : Except Fault String :=
  s.report ⟨s.line, s.column, s.start⟩ trouble

/-- Pass over characters as long as a test of the scanner holds. -/
def skipWhile (go : Scanner → Bool) : Nat → Scanner → Except Fault Scanner
  | 0, _ => .error .exhausted
  | fuel + 1, s => if go s then do skipWhile go fuel (← s.skip) else return s

/-- Enough steps for every loop over the text. -/
def steps (s : Scanner) : Nat := s.source.length + 1

/-- Pass over the characters of a class. -/
def skipClass (s : Scanner) (p : Char → Bool) : Except Fault Scanner :=
  skipWhile (fun s => p (s.peekN 0)) s.steps s

/-- Pass over the rest of the line. -/
def skipLine (s : Scanner) : Except Fault Scanner :=
  skipWhile (fun s => s.peekN 0 != '\n' && !s.isAtEnd) s.steps s

/-- A number: digits, perhaps a fraction, perhaps a suffix. -/
def number (s : Scanner) : Except Fault Scanner := do
  let s ← s.skipClass Char.isDigit
  if s.peekN 0 = '.' ∧ (s.peekN 1).isDigit then
    let s ← (← s.skip).skipClass Char.isDigit
    (← s.skipClass Char.isAlpha).addToken .float
  else (← s.skipClass Char.isAlpha).addToken .integer

/-- A name or a keyword. -/
def name (s : Scanner) : Except Fault Scanner := do
  let s ← s.skipClass Text.continuesName
  let lexeme ← s.lexeme
  s.addToken (if Token.keywords.contains lexeme then .keyword else .identifier)

/-- Pass over a literal, up to its closing quote or the end of the text. -/
def skipLiteral (quote : Char) : Nat → Scanner → Except Fault Scanner
  | 0, _ => .error .exhausted
  | fuel + 1, s =>
      if s.peekN 0 ≠ quote ∧ s.isAtEnd = false then do
        if s.peekN 0 = '\\' then
          let s ← s.skip
          if s.isAtEnd then return s else skipLiteral quote fuel (← s.skip)
        else skipLiteral quote fuel (← s.skip)
      else return s

/-- A literal. -/
def quoted (s : Scanner) (quote : Char) (kind : Kind) : Except Fault (Except String Scanner) := do
  let s ← skipLiteral quote s.steps s
  if s.isAtEnd then return .error (← s.reportHere (.openLiteral quote))
  else return .ok (← (← s.skip).addToken kind)

/-- Pass over a comment, up to its closing mark. -/
def skipComment : Nat → Scanner → Except Fault (Except String Scanner)
  | 0, _ => .error .exhausted
  | fuel + 1, s =>
      if s.peekN 0 = '*' ∧ s.peekN 1 = '/' then return .ok s
      else if s.isAtEnd then do return .error (← s.reportHere .openComment)
      else do skipComment fuel (← s.skip)

/-- A comment; the cursor stands on the star of its opening mark. -/
def comment (s : Scanner) : Except Fault (Except String Scanner) := do
  match ← skipComment s.steps (← s.skip) with
  | .error message => return .error message
  | .ok s => return .ok (← (← s.skip).skip)

/-- Whether an operator of several characters stands here, of which the
first was taken. -/
def meets (s : Scanner) (c : Char) : List Char → Bool
  | [] => false
  | d :: ds => d == c && (ds.zipIdx.all fun x => s.peekN x.2 == x.1)

/-- Pass over some characters. -/
def skipMany : Nat → Scanner → Except Fault Scanner
  | 0, s => return s
  | n + 1, s => do skipMany n (← s.skip)

/-- An operator whose first character was taken. -/
def operator (s : Scanner) (c : Char) : Except Fault (Except String Scanner) := do
  match Token.longOperators.find? (s.meets c) with
  | some op => return .ok (← (← skipMany (op.length - 1) s).addToken .operator)
  | none =>
      if Token.shortOperators.contains c then return .ok (← s.addToken .operator)
      else return .error (← s.report ⟨s.line, s.column - 1, s.start⟩ (.stray c))

/-- The token, blank or comment whose first character was taken. -/
def piece (s : Scanner) (c : Char) : Except Fault (Except String Scanner) := do
  match Token.punctuation? c with
  | some kind => return .ok (← s.addToken kind)
  | none =>
      if Token.isBlank c then return .ok s
      else if c = '#' then return .ok (← (← s.skipLine).addToken .directive)
      else if c = '"' then s.quoted c .string
      else if c = '\'' then s.quoted c .char
      else if c = '/' ∧ s.peekN 0 = '/' then return .ok (← s.skipLine)
      else if c = '/' ∧ s.peekN 0 = '*' then s.comment
      else if c.isDigit then return .ok (← s.number)
      else if Text.startsName c then return .ok (← s.name)
      else s.operator c

/-- The token, blank or comment at the cursor. -/
def scanToken (s : Scanner) : Except Fault (Except String Scanner) := do
  let (c, s) ← s.advance
  s.piece c

/-- All tokens from the cursor on. -/
def scanTokens : Nat → Scanner → Except Fault (Except String Scanner)
  | 0, _ => .error .exhausted
  | fuel + 1, s =>
      let s := { s with start := s.current }
      if s.isAtEnd then do return .ok (← s.addToken .eof)
      else do
        match ← s.scanToken with
        | .error message => return .error message
        | .ok s => scanTokens fuel s

/-- The tokens of a text, or why it has none. -/
def scan (src : String) : Except Fault (Except String (List Token)) :=
  let s : Scanner := { source := src.toList }
  (scanTokens s.steps s).map (·.map (·.tokens))

/-! ## §3. Where it stands. -/

/-- The scanner stands between `chars`, which it took for the current token,
and `rest`; before the token lies `before`. -/
structure Stands (s : Scanner) (before chars rest : List Char) : Prop where
  source : s.source = before ++ (chars ++ rest)
  start : s.start = before.length
  place : (⟨s.line, s.column, s.current⟩ : Location) = .behind (before ++ chars)

/-- A computation of the scanner leads there, with these tokens. -/
def Reaches (x : Except Fault Scanner) (before chars rest : List Char) (tokens : List Token) :
    Prop :=
  ∃ s, x = .ok s ∧ Stands s before chars rest ∧ s.tokens = tokens

section

variable {s : Scanner} {before chars rest : List Char} {tokens : List Token}

theorem Stands.current (h : Stands s before chars rest) :
    s.current = (before ++ chars).length :=
  congrArg Location.start h.place

theorem Stands.peekN (h : Stands s before chars rest) (n : Nat) :
    s.peekN n = (rest[n]?).getD '\x00' := by
  unfold Scanner.peekN
  rw [h.source, h.current, ← List.append_assoc, List.getElem?_append_right (Nat.le_add_right _ _),
    Nat.add_sub_cancel_left]

theorem Stands.isAtEnd (h : Stands s before chars rest) : s.isAtEnd = rest.isEmpty := by
  have hlength : s.source.length ≤ s.current ↔ rest = [] := by
    rw [h.source, h.current, ← List.length_eq_zero_iff]
    simp only [List.length_append]
    omega
  unfold Scanner.isAtEnd
  rw [Bool.eq_iff_iff, decide_eq_true_iff, List.isEmpty_iff]
  exact hlength

theorem Stands.advance {c : Char} (h : Stands s before chars (c :: rest)) :
    ∃ s', s.advance = .ok (c, s') ∧ Stands s' before (chars ++ [c]) rest
      ∧ s'.tokens = s.tokens := by
  have hget : Checked.get s.source s.current = .ok c := by
    refine Checked.get_eq_ok ?_
    rw [h.source, h.current, ← List.append_assoc, List.getElem?_append_right (Nat.le_refl _),
      Nat.sub_self]
    rfl
  have hsource : s.source = before ++ (chars ++ [c] ++ rest) := by
    rw [h.source, List.append_assoc]
    rfl
  have hplace : (⟨s.line, s.column, s.current⟩ : Location).next c
      = .behind (before ++ (chars ++ [c])) := by
    rw [h.place, Location.next_behind, List.append_assoc]
  unfold Scanner.advance
  rw [hget]
  by_cases hc : c = '\n'
  · refine ⟨{ s with current := s.current + 1, line := s.line + 1, column := 0 }, ?_,
      ⟨hsource, h.start, ?_⟩, rfl⟩
    · show (if c = '\n' then _ else _ : Except Fault (Char × Scanner)) = _
      rw [if_pos hc]
      rfl
    · rw [← hplace, Location.next, if_pos hc]
  · refine ⟨{ s with current := s.current + 1, column := s.column + 1 }, ?_,
      ⟨hsource, h.start, ?_⟩, rfl⟩
    · show (if c = '\n' then _ else _ : Except Fault (Char × Scanner)) = _
      rw [if_neg hc]
      rfl
    · rw [← hplace, Location.next, if_neg hc]

theorem Stands.skip {c : Char} (h : Stands s before chars (c :: rest)) :
    Reaches s.skip before (chars ++ [c]) rest s.tokens := by
  obtain ⟨s', hadvance, hs', htokens⟩ := h.advance
  refine ⟨s', ?_, hs', htokens⟩
  unfold Scanner.skip
  rw [hadvance]
  rfl

theorem Stands.lexeme (h : Stands s before chars rest) : s.lexeme = .ok (String.ofList chars) := by
  unfold Scanner.lexeme
  rw [h.source, h.start, h.current, Checked.slice_append]
  rfl

theorem Stands.addToken (h : Stands s before chars rest) {kind : Kind} (hkind : kind ≠ .eof) :
    Reaches (s.addToken kind) before chars rest
      (s.tokens ++ [.ofPiece (.behind before) kind chars]) := by
  refine ⟨{ s with tokens := s.tokens ++ [.ofPiece (.behind before) kind chars] }, ?_,
    ⟨h.source, h.start, h.place⟩, rfl⟩
  have htoken : Token.ofPiece (.behind before) kind chars = ⟨kind, String.ofList chars,
      ⟨s.line, s.column - (String.ofList chars).length, s.start⟩⟩ := by
    unfold Token.ofPiece
    rw [Location.past_behind, ← h.place, h.start, String.length_ofList]
    rfl
  unfold Scanner.addToken
  rw [if_neg hkind, h.lexeme, htoken]
  rfl

theorem reaches_pure (h : Stands s before chars rest) :
    Reaches (pure s) before chars rest s.tokens :=
  ⟨s, rfl, h, rfl⟩

theorem Reaches.bind {x : Except Fault Scanner} (h : Reaches x before chars rest tokens)
    {f : Scanner → Except Fault Scanner} {chars' rest' : List Char} {tokens' : List Token}
    (hf : ∀ s, Stands s before chars rest → s.tokens = tokens →
      Reaches (f s) before chars' rest' tokens') :
    Reaches (x >>= f) before chars' rest' tokens' := by
  obtain ⟨s, rfl, hs, htokens⟩ := h
  exact hf s hs htokens

end

/-! ## §4. Loops. -/

section

variable {s : Scanner} {before chars rest : List Char}

theorem Stands.length_lt_steps (h : Stands s before chars rest) : rest.length < s.steps := by
  unfold steps
  rw [h.source]
  simp only [List.length_append]
  omega

/-- A loop passes over the characters for which its test holds. -/
theorem Stands.skipWhile {go : Scanner → Bool} {p : Char → Bool}
    (hgo : ∀ {s : Scanner} {chars rest : List Char}, Stands s before chars rest →
      go s = rest.head?.any p)
    (h : Stands s before chars rest) {fuel : Nat} (hfuel : rest.length < fuel) :
    Reaches (Scanner.skipWhile go fuel s) before (chars ++ rest.takeWhile p) (rest.dropWhile p)
      s.tokens := by
  induction fuel generalizing s chars rest with
  | zero => omega
  | succ fuel ih =>
      unfold Scanner.skipWhile
      rw [hgo h]
      cases rest with
      | nil =>
          rw [List.takeWhile_nil, List.append_nil]
          exact reaches_pure h
      | cons c rest =>
          by_cases hc : p c = true
          · rw [if_pos (show (c :: rest).head?.any p = true from hc),
              List.takeWhile_cons_of_pos hc, List.dropWhile_cons_of_pos hc]
            refine h.skip.bind fun s' hs' htokens => ?_
            have hrest := ih hs' (Nat.lt_of_succ_lt_succ hfuel)
            rwa [htokens, List.append_assoc] at hrest
          · rw [if_neg (show ¬ (c :: rest).head?.any p = true from hc),
              List.takeWhile_cons_of_neg hc, List.dropWhile_cons_of_neg hc, List.append_nil]
            exact reaches_pure h

theorem Stands.skipClass {p : Char → Bool} (hp : p '\x00' = false)
    (h : Stands s before chars rest) :
    Reaches (s.skipClass p) before (chars ++ rest.takeWhile p) (rest.dropWhile p) s.tokens := by
  refine h.skipWhile (fun {s chars rest} h => ?_) h.length_lt_steps
  rw [h.peekN]
  cases rest with
  | nil => exact hp
  | cons c rest => rfl

theorem Stands.skipLine (h : Stands s before chars rest) :
    Reaches s.skipLine before (chars ++ rest.takeWhile (· != '\n')) (rest.dropWhile (· != '\n'))
      s.tokens := by
  refine h.skipWhile (fun {s chars rest} h => ?_) h.length_lt_steps
  rw [h.peekN, h.isAtEnd]
  cases rest with
  | nil => rfl
  | cons c rest => exact Bool.and_true _

/-- What is passed over of a literal and what is left, at its closing quote or
at the end of the text. -/
def Closes (quote : Char) (text inner behind : List Char) : Prop :=
  inner ++ behind = text
    ∧ ((behind = [] ∧ Token.closeLiteral quote text = none)
      ∨ ∃ rest, behind = quote :: rest
        ∧ Token.closeLiteral quote text = some (inner ++ [quote], rest))

theorem Closes.append {quote : Char} {text inner behind front : List Char}
    (h : Closes quote text inner behind)
    (hfront : Token.closeLiteral quote (front ++ text)
      = (Token.closeLiteral quote text).map fun r => (front ++ r.1, r.2)) :
    Closes quote (front ++ text) (front ++ inner) behind := by
  obtain ⟨hsplit, hclose⟩ := h
  refine ⟨by rw [List.append_assoc, hsplit], ?_⟩
  rw [hfront]
  rcases hclose with ⟨hbehind, hnone⟩ | ⟨rest, hbehind, hsome⟩
  · exact .inl ⟨hbehind, by rw [hnone]; rfl⟩
  · refine .inr ⟨rest, hbehind, ?_⟩
    rw [hsome, List.append_assoc]
    rfl

/-- A literal is passed over up to its closing quote, if there is one. -/
theorem Stands.skipLiteral {quote : Char} (hquote : quote ≠ '\\')
    (h : Stands s before chars rest) {fuel : Nat} (hfuel : rest.length < fuel) :
    ∃ inner behind, Closes quote rest inner behind
      ∧ Reaches (Scanner.skipLiteral quote fuel s) before (chars ++ inner) behind s.tokens := by
  induction fuel generalizing s chars rest with
  | zero => omega
  | succ fuel ih =>
      unfold Scanner.skipLiteral
      rw [h.peekN, h.isAtEnd]
      cases rest with
      | nil =>
          rw [if_neg (by simp)]
          refine ⟨[], [], ⟨rfl, .inl ⟨rfl, rfl⟩⟩, ?_⟩
          rw [List.append_nil]
          exact reaches_pure h
      | cons c rest =>
          show ∃ inner behind, _ ∧ Reaches (if c ≠ quote ∧ false = false then _ else _) _ _ _ _
          by_cases hc : c = quote
          -- The closing quote.
          · subst hc
            rw [if_neg (by simp)]
            refine ⟨[], c :: rest, ⟨rfl, .inr ⟨rest, rfl, ?_⟩⟩, ?_⟩
            · rw [Token.closeLiteral_cons hquote]
              exact if_pos rfl
            · rw [List.append_nil]
              exact reaches_pure h
          rw [if_pos ⟨hc, rfl⟩]
          show ∃ inner behind, _ ∧ Reaches (if c = '\\' then _ else _) _ _ _ _
          by_cases hslash : c = '\\'
          · subst hslash
            rw [if_pos rfl]
            cases rest with
            -- A backslash at the end of the text.
            | nil =>
                refine ⟨['\\'], [], ⟨rfl, .inl ⟨rfl, rfl⟩⟩, h.skip.bind fun s' hs' htokens => ?_⟩
                rw [hs'.isAtEnd, ← htokens]
                exact reaches_pure hs'
            -- A backslash takes the next character with it.
            | cons d rest =>
                obtain ⟨s₁, hskip, hs₁, htokens⟩ := h.skip
                obtain ⟨s₂, hskip', hs₂, htokens'⟩ := hs₁.skip
                obtain ⟨inner, behind, hcloses, hreaches⟩ :=
                  ih hs₂ (by simp only [List.length_cons] at hfuel; omega)
                refine ⟨['\\', d] ++ inner, behind, hcloses.append rfl, ?_⟩
                rw [hskip]
                show Reaches (if s₁.isAtEnd = true then _ else s₁.skip >>= _) _ _ _ _
                rw [hs₁.isAtEnd, if_neg (by simp), hskip']
                rwa [htokens', htokens, List.append_assoc, List.append_assoc] at hreaches
          · rw [if_neg hslash]
            obtain ⟨s₁, hskip, hs₁, htokens⟩ := h.skip
            obtain ⟨inner, behind, hcloses, hreaches⟩ := ih hs₁ (Nat.lt_of_succ_lt_succ hfuel)
            have hother : Token.closeLiteral quote ([c] ++ rest)
                = (Token.closeLiteral quote rest).map fun r => ([c] ++ r.1, r.2) :=
              (Token.closeLiteral_cons hslash rest).trans (if_neg hc)
            refine ⟨[c] ++ inner, behind, hcloses.append hother, ?_⟩
            rw [hskip]
            rwa [htokens, List.append_assoc] at hreaches

/-- A comment is passed over up to its closing mark, or there is none. -/
theorem Stands.skipComment (h : Stands s before chars rest) {fuel : Nat}
    (hfuel : rest.length < fuel) :
    (∃ inner rest', Token.closeComment rest = some (inner ++ ['*', '/'], rest')
      ∧ ∃ s', Scanner.skipComment fuel s = .ok (.ok s')
        ∧ Stands s' before (chars ++ inner) ('*' :: '/' :: rest') ∧ s'.tokens = s.tokens)
    ∨ (Token.closeComment rest = none ∧ ∃ s', Stands s' before (chars ++ rest) []
        ∧ Scanner.skipComment fuel s
          = (s'.reportHere .openComment).map fun message => .error message) := by
  induction fuel generalizing s chars rest with
  | zero => omega
  | succ fuel ih =>
      unfold Scanner.skipComment
      rw [h.peekN, h.peekN, h.isAtEnd]
      cases rest with
      | nil =>
          refine .inr ⟨rfl, s, by rwa [List.append_nil], ?_⟩
          rw [if_neg (by simp)]
          rfl
      | cons c rest =>
          by_cases hmark : c = '*' ∧ (rest[0]?).getD '\x00' = '/'
          · obtain ⟨rfl, hslash⟩ := hmark
            cases rest with
            | nil => exact absurd (show '\x00' = '/' from hslash) (by decide)
            | cons d rest =>
                obtain rfl : d = '/' := hslash
                exact .inl ⟨[], rest, rfl, s, if_pos ⟨rfl, rfl⟩, by rwa [List.append_nil], rfl⟩
          · have hclose : Token.closeComment (c :: rest)
                = (Token.closeComment rest).map fun r => (c :: r.1, r.2) := by
              rw [Token.closeComment]
              rintro cs rfl rfl
              exact hmark ⟨rfl, rfl⟩
            have hgoes : ¬ (((c :: rest)[0]?).getD '\x00' = '*'
                ∧ ((c :: rest)[1]?).getD '\x00' = '/') := hmark
            obtain ⟨s₁, hskip, hs₁, htokens⟩ := h.skip
            rw [if_neg hgoes, hskip, hclose]
            rcases ih hs₁ (Nat.lt_of_succ_lt_succ hfuel) with
              ⟨inner, rest', hsome, s', hs', hstands, htokens'⟩ | ⟨hnone, s', hstands, hs'⟩
            · refine .inl ⟨c :: inner, rest', by rw [hsome]; rfl, s', hs', ?_, ?_⟩
              · rwa [List.append_assoc] at hstands
              · rw [htokens', htokens]
            · refine .inr ⟨by rw [hnone]; rfl, s', ?_, hs'⟩
              rwa [List.append_assoc] at hstands

theorem Stands.skipMany {ds : List Char} (h : Stands s before chars (ds ++ rest)) :
    Reaches (Scanner.skipMany ds.length s) before (chars ++ ds) rest s.tokens := by
  induction ds generalizing s chars with
  | nil =>
      rw [List.append_nil]
      exact reaches_pure h
  | cons d ds ih =>
      refine Reaches.bind (Stands.skip h) fun s' hs' htokens => ?_
      have hrest := ih hs'
      rwa [htokens, List.append_assoc] at hrest

/-- What is compared character by character stands next. -/
theorem Stands.all_peekN (h : Stands s before chars rest) {ds : List Char} (hds : '\x00' ∉ ds)
    (k : Nat) : ((ds.zipIdx k).all fun x => s.peekN x.2 == x.1) = ds.isPrefixOf (rest.drop k) := by
  induction ds generalizing k with
  | nil => rfl
  | cons d ds ih =>
      rw [List.zipIdx_cons, List.all_cons, ih (fun hd => hds (List.mem_cons_of_mem d hd)), h.peekN]
      by_cases hk : k < rest.length
      · rw [List.drop_eq_getElem_cons hk, List.getElem?_eq_getElem hk, List.isPrefixOf_cons_cons]
        exact congrArg (· && _) BEq.comm
      · rw [List.drop_eq_nil_of_le (Nat.le_of_not_lt hk),
          List.getElem?_eq_none (Nat.le_of_not_lt hk)]
        have hd : ('\x00' == d) = false := beq_false_of_ne fun hd => hds (hd ▸ List.mem_cons_self)
        show ('\x00' == d && _) = false
        rw [hd, Bool.false_and]

end

/-! ## §5. One piece. -/

/-- The scanner cuts a piece off what follows `before`, and adds its token;
or it reports the trouble that stands there. -/
def Cuts (x : Except Fault (Except String Scanner)) (before text : List Char)
    (tokens : List Token) : Except Trouble Piece → Prop
  | .ok p => ∃ s, x = .ok (.ok s) ∧ Stands s before p.chars p.rest
      ∧ s.tokens = tokens ++ (p.kind.map fun kind => .ofPiece (.behind before) kind p.chars).toList
  | .error trouble => x = .ok (.error ((trouble.place (.behind before) text).picture
      (String.ofList (before ++ text)) trouble.message))

section

variable {s : Scanner} {before chars rest text : List Char} {tokens : List Token}

/-- What reaches the end of a blank or comment adds nothing. -/
theorem Reaches.cuts_gap {x : Except Fault Scanner} (h : Reaches x before chars rest tokens) :
    Cuts (x >>= fun s => pure (.ok s)) before text tokens (.ok ⟨none, chars, rest⟩) := by
  obtain ⟨s, rfl, hs, htokens⟩ := h
  exact ⟨s, rfl, hs, htokens.trans (List.append_nil tokens).symm⟩

/-- What reaches the end of a token adds it. -/
theorem Reaches.cuts_token {x : Except Fault Scanner} (h : Reaches x before chars rest tokens)
    {kind : Kind} (hkind : kind ≠ .eof) :
    Cuts (x >>= fun s => s.addToken kind >>= fun s => pure (.ok s)) before text tokens
      (.ok ⟨some kind, chars, rest⟩) := by
  obtain ⟨s, rfl, hs, htokens⟩ := h
  obtain ⟨s', hadd, hs', htokens'⟩ := hs.addToken hkind
  refine ⟨s', ?_, hs', by rw [htokens', htokens]; rfl⟩
  show s.addToken kind >>= _ = _
  rw [hadd]
  rfl

theorem Stands.report (h : Stands s before chars rest) (place : Location) (trouble : Trouble) :
    s.report place trouble
      = .ok (place.picture (String.ofList (before ++ (chars ++ rest))) trouble.message) := by
  unfold Scanner.report
  rw [h.source, Location.pictured_eq]

/-- A trouble that shows at the end of the text. -/
theorem Stands.reportHere (h : Stands s before text []) {trouble : Trouble}
    (hplace : trouble.place (.behind before) text
      = { (Location.behind before).past text with start := before.length }) :
    s.reportHere trouble = .ok ((trouble.place (.behind before) text).picture
      (String.ofList (before ++ text)) trouble.message) := by
  unfold Scanner.reportHere
  rw [h.report, List.append_nil, hplace, Location.past_behind, ← h.place, h.start]

theorem Stands.quoted {quote : Char} (hquote : quote ≠ '\\') {kind : Kind} (hkind : kind ≠ .eof)
    (h : Stands s before [quote] rest) :
    Cuts (s.quoted quote kind) before (quote :: rest) s.tokens
      (Token.literal kind quote rest) := by
  obtain ⟨inner, behind, ⟨hsplit, hclose⟩, s', hskip, hs', htokens⟩ :=
    h.skipLiteral hquote h.length_lt_steps
  unfold Scanner.quoted Token.literal
  rw [hskip]
  show Cuts (if s'.isAtEnd = true then _ else _) _ _ _ _
  rw [hs'.isAtEnd]
  rcases hclose with ⟨rfl, hnone⟩ | ⟨rest', rfl, hsome⟩
  · rw [hnone]
    rw [List.append_nil] at hsplit
    subst hsplit
    show s'.reportHere (.openLiteral quote) >>= _ = _
    rw [hs'.reportHere rfl]
    rfl
  · rw [hsome]
    show Cuts (s'.skip >>= fun s => s.addToken kind >>= fun s => pure (.ok s)) _ _ _ _
    rw [← htokens]
    have hskip' := hs'.skip
    rw [List.append_assoc] at hskip'
    exact hskip'.cuts_token hkind

theorem Stands.comment (h : Stands s before ['/'] ('*' :: rest)) :
    Cuts s.comment before ('/' :: '*' :: rest) s.tokens (Token.slash ('*' :: rest)) := by
  obtain ⟨s₁, hskip, hs₁, htokens⟩ := h.skip
  have hfuel : rest.length < s.steps := Nat.lt_of_succ_lt h.length_lt_steps
  unfold Scanner.comment Token.slash
  rw [hskip]
  rcases hs₁.skipComment hfuel with
    ⟨inner, rest', hsome, s₂, hs₂, hstands, htokens'⟩ | ⟨hnone, s₂, hstands, hs₂⟩
  · simp only [hsome]
    show Cuts (Scanner.skipComment s.steps s₁ >>= _) _ _ _ _
    rw [hs₂]
    show Cuts (s₂.skip >>= fun s => s.skip >>= fun s => pure (.ok s)) _ _ _
      (.ok ⟨none, _, rest'⟩)
    obtain ⟨s₃, hskip', hs₃, htokens₃⟩ := hstands.skip
    rw [hskip', ← htokens, ← htokens', ← htokens₃]
    have hlast := hs₃.skip
    rw [List.append_assoc, List.append_assoc] at hlast
    exact hlast.cuts_gap
  · simp only [hnone]
    show Scanner.skipComment s.steps s₁ >>= _ = _
    rw [hs₂, hstands.reportHere rfl]
    rfl

theorem number_eq_integer {digits more : List Char}
    (h : ¬ ∃ d ds, more = '.' :: d :: ds ∧ d.isDigit = true) :
    Token.number digits more = Piece.run (some .integer) digits Char.isAlpha more := by
  unfold Token.number
  split
  · rename_i d ds
    exact if_neg fun hd => h ⟨d, ds, rfl, hd⟩
  · rfl

theorem Stands.number {c : Char} (h : Stands s before [c] rest) :
    Cuts (s.number >>= fun s => pure (.ok s)) before text s.tokens
      (.ok (Token.number (c :: rest.takeWhile Char.isDigit) (rest.dropWhile Char.isDigit))) := by
  have halpha : Char.isAlpha '\x00' = false := by decide
  have hdigit : Char.isDigit '\x00' = false := by decide
  obtain ⟨s₁, hdigits, hs₁, htokens⟩ := h.skipClass hdigit
  unfold Scanner.number
  rw [hdigits, ← htokens]
  show Cuts ((if s₁.peekN 0 = '.' ∧ (s₁.peekN 1).isDigit = true then _ else _) >>= _) _ _ _ _
  rw [hs₁.peekN, hs₁.peekN]
  generalize rest.dropWhile Char.isDigit = more at hs₁
  by_cases hpoint : ∃ d ds, more = '.' :: d :: ds ∧ d.isDigit = true
  · obtain ⟨d, ds, rfl, hd⟩ := hpoint
    rw [if_pos ⟨rfl, hd⟩]
    obtain ⟨s₂, hskip, hs₂, htokens₂⟩ := hs₁.skip
    obtain ⟨s₃, hdigits₃, hs₃, htokens₃⟩ := hs₂.skipClass hdigit
    have hlast := hs₃.skipClass halpha
    rw [List.takeWhile_cons_of_pos hd, List.dropWhile_cons_of_pos hd] at hlast
    have hfloat : Token.number (c :: rest.takeWhile Char.isDigit) ('.' :: d :: ds)
        = ⟨some .float,
          [c] ++ rest.takeWhile Char.isDigit ++ ['.'] ++ (d :: ds.takeWhile Char.isDigit)
            ++ (ds.dropWhile Char.isDigit).takeWhile Char.isAlpha,
          (ds.dropWhile Char.isDigit).dropWhile Char.isAlpha⟩ := by
      unfold Token.number
      simp [hd, Piece.run]
    rw [hskip, hfloat, ← htokens₂, ← htokens₃]
    show Cuts ((s₂.skipClass Char.isDigit >>= _) >>= _) _ _ _ _
    rw [hdigits₃]
    show Cuts ((s₃.skipClass Char.isAlpha >>= fun s => s.addToken .float) >>= _) _ _ _ _
    rw [bind_assoc]
    exact hlast.cuts_token (by decide)
  · rw [number_eq_integer hpoint, if_neg]
    · rw [bind_assoc]
      exact (hs₁.skipClass halpha).cuts_token (by decide)
    · rintro ⟨hdot, hd⟩
      cases more with
      | nil => exact absurd (show '\x00' = '.' from hdot) (by decide)
      | cons e more =>
          cases more with
          | nil => exact absurd (show Char.isDigit '\x00' = true from hd) (by decide)
          | cons d ds => exact hpoint ⟨d, ds, congrArg (· :: d :: ds) hdot, hd⟩

theorem Stands.name {c : Char} (h : Stands s before [c] rest) :
    Cuts (s.name >>= fun s => pure (.ok s)) before text s.tokens
      (.ok ⟨some (Token.nameKind (c :: rest.takeWhile Text.continuesName)),
        c :: rest.takeWhile Text.continuesName, rest.dropWhile Text.continuesName⟩) := by
  obtain ⟨s₁, hskip, hs₁, htokens⟩ := h.skipClass (show Text.continuesName '\x00' = false by decide)
  have hkind : Token.nameKind (c :: rest.takeWhile Text.continuesName) ≠ .eof := by
    unfold Token.nameKind
    split <;> decide
  obtain ⟨s₂, hadd, hs₂, htokens₂⟩ := hs₁.addToken hkind
  refine ⟨s₂, ?_, hs₂, by rw [htokens₂, htokens]; rfl⟩
  unfold Scanner.name
  rw [hskip]
  show (s₁.lexeme >>= _) >>= _ = _
  rw [hs₁.lexeme]
  show s₁.addToken (Token.nameKind (c :: rest.takeWhile Text.continuesName)) >>= _ = _
  rw [hadd]
  rfl

/-- The operators of several characters are compared with what stands next. -/
theorem Stands.meets {c : Char} (h : Stands s before [c] rest) :
    Token.longOperators.find? (s.meets c)
      = Token.longOperators.find? fun op => op.isPrefixOf (c :: rest) := by
  have hnull : ∀ op ∈ Token.longOperators, '\x00' ∉ op := by decide
  refine List.find?_congr fun op hop => ?_
  cases op with
  | nil => exact absurd hop (by decide)
  | cons d ds =>
      show (d == c && _) = _
      rw [h.all_peekN (fun hd => hnull _ hop (List.mem_cons_of_mem d hd)), List.drop_zero]
      rfl

theorem Stands.operator {c : Char} (hc : c ≠ '\n') (h : Stands s before [c] rest) :
    Cuts (s.operator c) before (c :: rest) s.tokens (Token.operator c rest) := by
  unfold Scanner.operator Token.operator
  rw [h.meets]
  cases hfind : Token.longOperators.find? fun op => op.isPrefixOf (c :: rest) with
  | some op =>
      have hfits := List.find?_some hfind
      obtain ⟨more, hmore⟩ := List.isPrefixOf_iff_prefix.1 hfits
      cases op with
      | nil => exact absurd (List.mem_of_find?_eq_some hfind) (by decide)
      | cons d ds =>
          obtain ⟨rfl, rfl⟩ := List.cons.inj hmore
          show Cuts (Scanner.skipMany ds.length s >>= fun s => s.addToken .operator
            >>= fun s => pure (.ok s)) _ _ _ (.ok ⟨_, _, (d :: ds ++ more).drop _⟩)
          rw [List.drop_left]
          exact h.skipMany.cuts_token (by decide)
  | none =>
      show Cuts (if Token.shortOperators.contains c = true then s.addToken .operator >>= _
        else s.report _ _ >>= _) _ _ _ (if Token.shortOperators.contains c = true then _ else _)
      by_cases hshort : Token.shortOperators.contains c = true
      · rw [if_pos hshort, if_pos hshort]
        exact (reaches_pure h).cuts_token (by decide)
      · have hplace : (⟨s.line, s.column - 1, s.start⟩ : Location) = .behind before := by
          have hnext : (⟨s.line, s.column, s.current⟩ : Location)
              = (Location.behind before).next c := by rw [h.place, Location.next_behind]
          rw [Location.next, if_neg hc] at hnext
          obtain ⟨hline, hcolumn, _⟩ := Location.mk.inj hnext
          rw [hline, hcolumn, h.start]
          rfl
        rw [if_neg hshort, if_neg hshort, h.report, hplace]
        rfl

/-- A slash starts a comment or an operator. -/
theorem Stands.slash (h : Stands s before ['/'] rest) :
    Cuts (if '/' = '/' ∧ s.peekN 0 = '/' then s.skipLine >>= fun s => pure (.ok s)
      else if '/' = '/' ∧ s.peekN 0 = '*' then s.comment
      else s.operator '/') before ('/' :: rest) s.tokens (Token.slash rest) := by
  rw [h.peekN]
  cases rest with
  | nil => exact h.operator (by decide)
  | cons d rest =>
      show Cuts (if '/' = '/' ∧ d = '/' then _ else if '/' = '/' ∧ d = '*' then _ else _) _ _ _ _
      by_cases hline : d = '/'
      · subst hline
        rw [if_pos ⟨rfl, rfl⟩]
        exact h.skipLine.cuts_gap
      · by_cases hstar : d = '*'
        · subst hstar
          rw [if_neg (by decide), if_pos ⟨rfl, rfl⟩]
          exact h.comment
        · have hslash : Token.slash (d :: rest) = Token.operator '/' (d :: rest) := by
            unfold Token.slash
            split
            · rename_i hd
              exact absurd (List.cons.inj hd).1 hline
            · rename_i hd
              exact absurd (List.cons.inj hd).1 hstar
            · rfl
          rw [if_neg fun h => hline h.2, if_neg fun h => hstar h.2, hslash]
          exact h.operator (by decide)

theorem Stands.piece {c : Char} (h : Stands s before [c] rest) :
    Cuts (s.piece c) before (c :: rest) s.tokens (Token.piece c rest) := by
  unfold Scanner.piece Token.piece
  cases hpunctuation : Token.punctuation? c with
  | some kind =>
      have hkind : kind ≠ .eof := by
        rintro rfl
        unfold Token.punctuation? at hpunctuation
        split at hpunctuation <;> cases hpunctuation
      exact (reaches_pure h).cuts_token hkind
  | none =>
      dsimp only
      by_cases hblank : Token.isBlank c = true
      · rw [if_pos hblank, if_pos hblank]
        exact (reaches_pure h).cuts_gap
      rw [if_neg hblank, if_neg hblank]
      by_cases hhash : c = '#'
      · rw [if_pos hhash, if_pos hhash]
        exact h.skipLine.cuts_token (by decide)
      rw [if_neg hhash, if_neg hhash]
      by_cases hstring : c = '"'
      · rw [if_pos hstring, if_pos hstring]
        exact h.quoted (by rw [hstring]; decide) (by decide)
      rw [if_neg hstring, if_neg hstring]
      by_cases hchar : c = '\''
      · rw [if_pos hchar, if_pos hchar]
        exact h.quoted (by rw [hchar]; decide) (by decide)
      rw [if_neg hchar, if_neg hchar]
      have hnewline : c ≠ '\n' := by
        rintro rfl
        exact hblank (by decide)
      by_cases hslash : c = '/'
      · subst hslash
        rw [if_pos rfl, if_neg (show ¬ Char.isDigit '/' = true by decide),
          if_neg (show ¬ Text.startsName '/' = true by decide)]
        exact h.slash
      rw [if_neg fun h => hslash h.1, if_neg fun h => hslash h.1, if_neg hslash]
      by_cases hdigit : c.isDigit = true
      · rw [if_pos hdigit, if_pos hdigit]
        exact h.number
      rw [if_neg hdigit, if_neg hdigit]
      by_cases hname : Text.startsName c = true
      · rw [if_pos hname, if_pos hname]
        exact h.name
      rw [if_neg hname, if_neg hname]
      exact h.operator hnewline

/-- **The scanner cuts off the first piece of the text.** -/
theorem Stands.scanToken {c : Char} (h : Stands s before [] (c :: rest)) :
    Cuts s.scanToken before (c :: rest) s.tokens (Token.piece c rest) := by
  obtain ⟨s₁, hadvance, hs₁, htokens⟩ := h.advance
  unfold Scanner.scanToken
  rw [hadvance, ← htokens]
  exact Stands.piece hs₁

end

/-! ## §6. All tokens. -/

/-- The tokens that are found from a place on are those of what stands there. -/
theorem scanTokens_eq {s : Scanner} {before rest : List Char} (hsource : s.source = before ++ rest)
    (hplace : (⟨s.line, s.column, s.current⟩ : Location) = .behind before) {fuel : Nat}
    (hfuel : rest.length < fuel) :
    (scanTokens fuel s).map (·.map (·.tokens))
      = .ok (((Token.scanFrom (.behind before) rest).map (s.tokens ++ ·)).mapError fun e =>
          (Error.scan (String.ofList (before ++ rest)) e).message) := by
  induction fuel generalizing s before rest with
  | zero => omega
  | succ fuel ih =>
      have hs : Stands { s with start := s.current } before [] rest :=
        ⟨hsource, congrArg Location.start hplace, by rwa [List.append_nil]⟩
      unfold scanTokens
      dsimp only
      rw [hs.isAtEnd]
      cases rest with
      | nil =>
          have heof : Scanner.addToken { s with start := s.current } .eof = .ok { s with
              start := s.current, tokens := s.tokens ++ [.eof (.behind before)] } := by
            rw [← hplace]
            rfl
          rw [if_pos (show ([] : List Char).isEmpty = true from rfl), heof, Token.scanFrom]
          rfl
      | cons c rest =>
          rw [if_neg (by simp)]
          have hcuts := hs.scanToken
          cases hpiece : Token.piece c rest with
          | error trouble =>
              rw [hpiece] at hcuts
              rw [Token.scanFrom_of_trouble hpiece, show _ = _ from hcuts]
              rfl
          | ok p =>
              rw [hpiece] at hcuts
              obtain ⟨s', hscan, hs', htokens⟩ := hcuts
              have hshorter : p.rest.length < fuel := by
                have hlt := Token.piece_rest_length_lt hpiece
                omega
              have hrest := ih (hs'.source.trans (List.append_assoc _ _ _).symm) hs'.place hshorter
              rw [List.append_assoc, (Token.piece_opens hpiece).1, ← Location.past_behind,
                htokens] at hrest
              rw [hscan]
              refine hrest.trans (congrArg Except.ok ?_)
              cases hkind : p.kind with
              | none =>
                  rw [Token.scanFrom_of_gap hpiece hkind]
                  simp
              | some kind =>
                  rw [Token.scanFrom_of_token hpiece hkind]
                  cases Token.scanFrom ((Location.behind before).past p.chars) p.rest with
                  | error e => rfl
                  | ok tokens => simp [Except.map, Except.mapError]

/-- **Scanning in place never leaves the text**, and finds the tokens of the
text, or the message of its trouble. -/
theorem scan_eq (src : String) :
    Scanner.scan src = .ok ((Token.scan src).mapError fun e => (Error.scan src e).message) := by
  have hsource : ({ source := src.toList } : Scanner).source = [] ++ src.toList := rfl
  have htokens := scanTokens_eq hsource rfl (Nat.lt_succ_self _)
  rw [List.nil_append, String.ofList_toList] at htokens
  refine htokens.trans (congrArg Except.ok ?_)
  show Except.mapError _ (Except.map _ (Token.scan src)) = _
  cases Token.scan src <;> rfl

end Scanner
end RuleBody
