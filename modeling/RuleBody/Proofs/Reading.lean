/-
  RuleBody.Proofs.Reading
  ───────────────────────
  **A TEXT AS A LIST OF WORDS.**

  The words of a text are the texts of its tokens.  `Reads cs words` says so
  without places; it holds exactly if `scanFrom` succeeds with these words
  (`Reads.of_scanFrom`, `Reads.scanFrom`), and it is put together piece by
  piece: a blank adds nothing, and a lexeme adds itself if what follows does
  not run on with it (`Reads.lexeme`).
-/
import RuleBody.Proofs.Lexeme

namespace RuleBody.Token

/-! ## §1. The kind of a text. -/

/-- The kind of the token that a text is. -/
def kindOf (text : String) : Kind :=
  match text.toList with
  | [] => .eof
  | c :: cs =>
      match piece c cs with
      | .ok p => p.kind.getD .eof
      | .error _ => .eof

/-- A text that is a token. -/
def IsLexeme (text : String) : Prop := Lexeme (kindOf text) text.toList

/-- The token that a text is, at no particular place. -/
def plain (text : String) : Token := ⟨kindOf text, text, {}⟩

theorem Lexeme.kindOf_eq {kind : Kind} {text : String} (h : Lexeme kind text.toList) :
    kindOf text = kind := by
  unfold kindOf
  generalize text.toList = chars at h
  cases chars with
  | nil => exact absurd rfl h.ne_nil
  | cons c cs =>
      have hpiece : piece c (cs ++ []) = _ := h.piece_append (Kind.stops_nil kind)
      rw [List.append_nil] at hpiece
      simp only [hpiece, Option.getD_some]

theorem Lexeme.isLexeme {kind : Kind} {text : String} (h : Lexeme kind text.toList) :
    IsLexeme text := by
  unfold IsLexeme
  rwa [h.kindOf_eq]

theorem IsLexeme.ne_empty {text : String} (h : IsLexeme text) : text ≠ "" := by
  rintro rfl
  exact h.ne_nil rfl

/-! ## §2. Words. -/

/-- The words of some characters. -/
inductive Reads : List Char → List String → Prop where
  | done : Reads [] []
  | skip {c : Char} {cs : List Char} {p : Piece} {words : List String} :
      piece c cs = .ok p → p.kind = none → Reads p.rest words → Reads (c :: cs) words
  | word {c : Char} {cs : List Char} {p : Piece} {kind : Kind} {words : List String} :
      piece c cs = .ok p → p.kind = some kind → Reads p.rest words →
      Reads (c :: cs) (String.ofList p.chars :: words)

/-- A blank adds no word. -/
theorem Reads.blank {c : Char} {cs : List Char} {words : List String} (hc : isBlank c = true)
    (h : Reads cs words) : Reads (c :: cs) words := by
  have hnone : punctuation? c = none := by
    unfold punctuation?
    split <;> first | rfl | exact absurd hc (by decide)
  have hpiece : piece c cs = .ok ⟨none, [c], cs⟩ := by
    unfold piece
    rw [hnone]
    simp only [hc, ↓reduceIte]
  exact .skip hpiece rfl h

/-- A lexeme adds itself. -/
theorem Reads.lexeme {kind : Kind} {text : String} {rest : List Char} {words : List String}
    (ht : Lexeme kind text.toList) (hstop : kind.stops rest = true) (h : Reads rest words) :
    Reads (text.toList ++ rest) (text :: words) := by
  generalize hchars : text.toList = chars at ht
  cases chars with
  | nil => exact absurd rfl ht.ne_nil
  | cons c cs =>
      have hword := Reads.word (ht.piece_append hstop) rfl h
      rwa [← hchars, String.ofList_toList] at hword

/-- A mark adds itself, whatever follows. -/
theorem Reads.mark {c : Char} {kind : Kind} {rest : List Char} {words : List String}
    (hc : punctuation? c = some kind) (h : Reads rest words) :
    Reads (c :: rest) (String.ofList [c] :: words) := by
  have hpiece : piece c rest = .ok ⟨some kind, [c], rest⟩ := by
    unfold piece
    rw [hc]
  exact .word hpiece rfl h

/-- No word but a directive runs on with the rest. -/
def EndsWord (rest : List Char) : Prop :=
  ∀ c ∈ rest.head?, Text.continuesName c = false ∧ c ∉ shortOperators

theorem EndsWord.stops {rest : List Char} (h : EndsWord rest) {kind : Kind}
    (hkind : kind ≠ .directive) : kind.stops rest = true := by
  cases rest with
  | nil => exact Kind.stops_nil kind
  | cons c rest =>
      obtain ⟨hname, hop⟩ := h c rfl
      have hparts := hname
      simp only [Text.continuesName, Text.isLetter, Text.isNumeral, Bool.or_eq_false_iff] at hparts
      obtain ⟨⟨⟨halpha, _⟩, hdigit, _⟩, _⟩ := hparts
      have hpoint : c ≠ '.' := by
        rintro rfl
        exact hop (by decide)
      cases kind <;> simp_all [Kind.stops]

theorem endsWord_cons {c : Char} (rest : List Char) (hname : Text.continuesName c = false)
    (hop : c ∉ shortOperators) : EndsWord (c :: rest) := by
  intro d hd
  obtain rfl : c = d := by simpa using hd
  exact ⟨hname, hop⟩

/-! ## §3. Words and tokens. -/

/-- A token whose text is a lexeme of its kind. -/
def IsProper (t : Token) : Prop := Lexeme t.kind t.lexeme.toList

theorem ofPiece_isProper {c : Char} {cs : List Char} {p : Piece} {kind : Kind} (here : Location)
    (hpiece : piece c cs = .ok p) (hkind : p.kind = some kind) :
    (ofPiece here kind p.chars).IsProper := by
  show Lexeme kind (String.ofList p.chars).toList
  rw [String.toList_ofList]
  exact piece_lexeme hpiece hkind

section

variable {here : Location} {c : Char} {cs : List Char} {p : Piece}

theorem scanFrom_of_trouble {trouble : Trouble} (hpiece : piece c cs = .error trouble) :
    scanFrom here (c :: cs) = .error ⟨trouble, trouble.place here (c :: cs)⟩ := by
  rw [scanFrom, hpiece]

theorem scanFrom_of_gap (hpiece : piece c cs = .ok p) (hkind : p.kind = none) :
    scanFrom here (c :: cs) = scanFrom (here.past p.chars) p.rest := by
  rw [scanFrom, hpiece]
  simp only [hkind]

theorem scanFrom_of_token {kind : Kind} (hpiece : piece c cs = .ok p) (hkind : p.kind = some kind) :
    scanFrom here (c :: cs)
      = (scanFrom (here.past p.chars) p.rest).map (ofPiece here kind p.chars :: ·) := by
  rw [scanFrom, hpiece]
  simp only [hkind]
  cases scanFrom (here.past p.chars) p.rest <;> rfl

end

/-- **What is scanned are the words of the text**, each a lexeme of its
kind, and the mark of the end. -/
theorem Reads.of_scanFrom {here : Location} {cs : List Char} {tokens : List Token}
    (h : scanFrom here cs = .ok tokens) :
    ∃ ts stop, tokens = ts ++ [eof stop] ∧ Reads cs (ts.map (·.lexeme))
      ∧ ∀ t ∈ ts, t.IsProper := by
  fun_induction scanFrom here cs generalizing tokens with
  | case1 here =>
      cases h
      exact ⟨[], here, rfl, .done, by simp⟩
  | case2 here c cs trouble hpiece => cases h
  | case3 here c cs p hpiece hkind ih =>
      obtain ⟨ts, stop, rfl, hreads, hproper⟩ := ih h
      exact ⟨ts, stop, rfl, .skip hpiece hkind hreads, hproper⟩
  | case4 here c cs p hpiece kind hkind e hscan ih => cases h
  | case5 here c cs p hpiece kind hkind tokens' hscan ih =>
      cases h
      obtain ⟨ts, stop, rfl, hreads, hproper⟩ := ih hscan
      refine ⟨ofPiece here kind p.chars :: ts, stop, rfl, .word hpiece hkind hreads, ?_⟩
      intro t ht
      rcases List.mem_cons.1 ht with rfl | ht
      · exact ofPiece_isProper here hpiece hkind
      · exact hproper t ht

/-- **A text is scanned as its words.** -/
theorem Reads.scanFrom {cs : List Char} {words : List String} (h : Reads cs words) :
    ∀ here : Location, ∃ ts stop, Token.scanFrom here cs = .ok (ts ++ [eof stop])
      ∧ ts.map (·.lexeme) = words ∧ ∀ t ∈ ts, t.IsProper := by
  induction h with
  | done =>
      intro here
      exact ⟨[], here, by rw [Token.scanFrom]; rfl, rfl, by simp⟩
  | @skip c cs p words hpiece hkind _ ih =>
      intro here
      obtain ⟨ts, stop, hscan, hwords, hproper⟩ := ih (here.past p.chars)
      exact ⟨ts, stop, by rw [scanFrom_of_gap hpiece hkind, hscan], hwords, hproper⟩
  | @word c cs p kind words hpiece hkind _ ih =>
      intro here
      obtain ⟨ts, stop, hscan, hwords, hproper⟩ := ih (here.past p.chars)
      refine ⟨ofPiece here kind p.chars :: ts, stop, ?_, ?_, ?_⟩
      · rw [scanFrom_of_token hpiece hkind, hscan]
        rfl
      · rw [List.map_cons, hwords]
        rfl
      · intro t ht
        rcases List.mem_cons.1 ht with rfl | ht
        · exact ofPiece_isProper here hpiece hkind
        · exact hproper t ht

end RuleBody.Token
