/-
  RuleBody.Proofs.Lexeme
  ──────────────────────
  **WHAT A TOKEN LOOKS LIKE, AND WHEN IT ENDS.**

  `Lexeme` says, kind by kind, which characters make a token.  The first
  piece of a text, if it is a token, is a lexeme (`piece_lexeme`), and a
  lexeme is cut off again wherever it is followed by something that does not
  run on with it (`Lexeme.piece_append`).  So the kind of a token is a
  function of its text (`kindOf`), and a text that is put together from
  lexemes and blanks reads as those lexemes (`Reads`).
-/
import Mathlib.Data.List.Find
import Mathlib.Data.List.TakeWhile
import RuleBody.Token.Scan

namespace RuleBody.Token

/-! ## §1. Lexemes. -/

/-- The characters of a token of a kind. -/
inductive Lexeme : Kind → List Char → Prop where
  | punctuation {c : Char} {kind : Kind} : punctuation? c = some kind → Lexeme kind [c]
  | directive {body : List Char} :
      (∀ c ∈ body, (c != '\n') = true) → Lexeme .directive ('#' :: body)
  | string {body : List Char} :
      closeLiteral '"' body = some (body, []) → Lexeme .string ('"' :: body)
  | char {body : List Char} :
      closeLiteral '\'' body = some (body, []) → Lexeme .char ('\'' :: body)
  | integer {d : Char} {ds suffix : List Char} : d.isDigit = true →
      (∀ c ∈ ds, c.isDigit = true) → (∀ c ∈ suffix, c.isAlpha = true) →
      Lexeme .integer (d :: (ds ++ suffix))
  | float {d f : Char} {ds fs suffix : List Char} : d.isDigit = true →
      (∀ c ∈ ds, c.isDigit = true) → f.isDigit = true → (∀ c ∈ fs, c.isDigit = true) →
      (∀ c ∈ suffix, c.isAlpha = true) →
      Lexeme .float (d :: (ds ++ '.' :: f :: (fs ++ suffix)))
  | name {c : Char} {cs : List Char} : Text.startsName c = true →
      (∀ d ∈ cs, Text.continuesName d = true) → Lexeme (nameKind (c :: cs)) (c :: cs)
  | longOperator {op : List Char} : op ∈ longOperators → Lexeme .operator op
  | shortOperator {c : Char} : c ∈ shortOperators → Lexeme .operator [c]

/-- A token of the kind ends where the rest of the text begins: the rest
does not run on with it. -/
def Kind.stops : Kind → List Char → Bool
  | _, [] => true
  | .identifier, c :: _ | .keyword, c :: _ => !Text.continuesName c
  | .integer, c :: _ => !c.isDigit && !c.isAlpha && c != '.'
  | .float, c :: _ => !c.isDigit && !c.isAlpha
  | .operator, c :: _ => !shortOperators.contains c
  | .directive, c :: _ => c == '\n'
  | _, _ :: _ => true

@[simp] theorem Kind.stops_nil (kind : Kind) : kind.stops [] = true := by
  cases kind <;> rfl

theorem Lexeme.ne_nil {kind : Kind} {chars : List Char} (h : Lexeme kind chars) : chars ≠ [] := by
  cases h with
  | longOperator h =>
      rintro rfl
      simp [longOperators] at h
  | _ => simp

theorem Lexeme.kind_ne_eof {kind : Kind} {chars : List Char} (h : Lexeme kind chars) :
    kind ≠ .eof := by
  cases h with
  | punctuation hc =>
      unfold punctuation? at hc
      split at hc <;> cases hc <;> decide
  | name =>
      unfold nameKind
      split <;> decide
  | directive | string | char | integer | float | longOperator | shortOperator => decide

/-! ## §2. Where a run ends. -/

section

variable {α : Type} {p : α → Bool}

theorem takeWhile_append_stop {xs : List α} (hxs : ∀ x ∈ xs, p x = true) {rest : List α}
    (hrest : ∀ x ∈ rest.head?, p x = false) : (xs ++ rest).takeWhile p = xs := by
  rw [List.takeWhile_append_of_pos hxs]
  cases rest with
  | nil => simp
  | cons x rest => simp [hrest x rfl]

theorem dropWhile_append_stop {xs : List α} (hxs : ∀ x ∈ xs, p x = true) {rest : List α}
    (hrest : ∀ x ∈ rest.head?, p x = false) : (xs ++ rest).dropWhile p = rest := by
  rw [List.dropWhile_append_of_pos hxs]
  cases rest with
  | nil => simp
  | cons x rest => simp [hrest x rfl]

end

theorem Piece.run_append {kind : Option Kind} {opening xs rest : List Char} {p : Char → Bool}
    (hxs : ∀ x ∈ xs, p x = true) (hrest : ∀ x ∈ rest.head?, p x = false) :
    Piece.run kind opening p (xs ++ rest) = ⟨kind, opening ++ xs, rest⟩ := by
  rw [Piece.run, takeWhile_append_stop hxs hrest, dropWhile_append_stop hxs hrest]

/-! ## §3. Which branch reads a character. -/

/-- The characters that open a token by themselves: marks, blanks, quotes,
the sign of a directive and the slash. -/
def openers : List Char :=
  ['(', ')', '[', ']', '\x7b', '\x7d', ';', ',', ' ', '\r', '\t', '\n', '#', '"', '\'', '/']

theorem punctuation?_eq_none {c : Char} (h : c ∉ openers) : punctuation? c = none := by
  unfold punctuation?
  split <;> first | rfl | exact absurd (by decide) h

/-- A character that opens nothing by itself is a digit, starts a name or
starts an operator. -/
theorem piece_of_not_opener {c : Char} (h : c ∉ openers) (cs : List Char) :
    piece c cs =
      if c.isDigit then .ok (number (c :: cs.takeWhile Char.isDigit) (cs.dropWhile Char.isDigit))
      else if Text.startsName c then
        .ok ⟨some (nameKind (c :: cs.takeWhile Text.continuesName)),
          c :: cs.takeWhile Text.continuesName, cs.dropWhile Text.continuesName⟩
      else operator c cs := by
  have hne : ∀ d ∈ openers, c ≠ d := fun d hd hcd => h (hcd ▸ hd)
  have hblank : isBlank c = false := by
    simp [isBlank, hne ' ' (by decide), hne '\r' (by decide), hne '\t' (by decide),
      hne '\n' (by decide)]
  unfold piece
  rw [punctuation?_eq_none h]
  simp only [hblank, Bool.false_eq_true, ↓reduceIte, hne '#' (by decide), hne '"' (by decide),
    hne '\'' (by decide), hne '/' (by decide)]

theorem not_opener_of_isDigit {c : Char} (h : c.isDigit = true) : c ∉ openers := by
  have key : openers.all (fun d => !d.isDigit) = true := by decide
  intro hc
  simpa [h] using List.all_eq_true.1 key c hc

theorem not_opener_of_startsName {c : Char} (h : Text.startsName c = true) : c ∉ openers := by
  have key : openers.all (fun d => !Text.startsName d) = true := by decide
  intro hc
  simpa [h] using List.all_eq_true.1 key c hc

private theorem isDigit_range {c : Char} (h : c.isDigit = true) :
    48 ≤ c.toNat ∧ c.toNat ≤ 57 := by
  simp only [Char.isDigit, Bool.and_eq_true, decide_eq_true_eq, ge_iff_le] at h
  exact ⟨UInt32.le_iff_toNat_le.1 h.1, UInt32.le_iff_toNat_le.1 h.2⟩

private theorem isAlpha_range {c : Char} (h : c.isAlpha = true) :
    65 ≤ c.toNat ∧ c.toNat ≤ 122 := by
  have h : (c.isUpper || c.isLower) = true := h
  rcases Bool.or_eq_true_iff.1 h with h | h
  · obtain ⟨h1, h2⟩ := of_decide_eq_true h
    have h1 : 65 ≤ c.toNat := UInt32.le_iff_toNat_le.1 h1
    have h2 : c.toNat ≤ 90 := UInt32.le_iff_toNat_le.1 h2
    omega
  · obtain ⟨h1, h2⟩ := Bool.and_eq_true_iff.1 h
    have h1 : 97 ≤ c.toNat := UInt32.le_iff_toNat_le.1 (of_decide_eq_true h1)
    have h2 : c.toNat ≤ 122 := UInt32.le_iff_toNat_le.1 (of_decide_eq_true h2)
    omega

theorem isDigit_eq_false_of_startsName {c : Char} (h : Text.startsName c = true) :
    c.isDigit = false := by
  rw [Bool.eq_false_iff]
  intro hd
  obtain ⟨hlow, hhigh⟩ := isDigit_range hd
  simp only [Text.startsName, Text.isLetter, Bool.or_eq_true, Bool.and_eq_true, beq_iff_eq,
    decide_eq_true_eq] at h
  rcases h with (h | ⟨h, _⟩) | rfl
  · have := isAlpha_range h
    omega
  · omega
  · exact absurd hd (by decide)

/-! ## §4. The first piece of a text is a lexeme. -/

theorem closeLiteral_cons {quote c : Char} (h : c ≠ '\\') (cs : List Char) :
    closeLiteral quote (c :: cs) =
      if c = quote then some ([c], cs)
      else (closeLiteral quote cs).map fun r => (c :: r.1, r.2) := by
  rw [closeLiteral.eq_def]
  split <;> simp_all

private theorem ne_backslash {c : Char} {cs : List Char} (h1 : c = '\\' → cs = [] → False)
    (h2 : ∀ d ds, c = '\\' → cs = d :: ds → False) : c ≠ '\\' := by
  rintro rfl
  cases cs with
  | nil => exact h1 rfl rfl
  | cons d ds => exact h2 d ds rfl rfl

/-- The remainder of a literal closes by itself, whatever follows it. -/
theorem closeLiteral_self {quote : Char} {cs body rest : List Char}
    (h : closeLiteral quote cs = some (body, rest)) (more : List Char) :
    closeLiteral quote (body ++ more) = some (body, more) := by
  fun_induction closeLiteral quote cs generalizing body rest with
  | case1 => simp at h
  | case2 => simp at h
  | case3 c cs ih =>
      obtain ⟨r, hr, hb⟩ := Option.map_eq_some_iff.1 h
      obtain ⟨rfl, rfl⟩ := Prod.mk.inj hb
      simp [closeLiteral, ih hr]
  | case4 cs h1 h2 =>
      obtain ⟨rfl, rfl⟩ := Prod.mk.inj (Option.some.inj h)
      rw [List.singleton_append, closeLiteral_cons (ne_backslash h1 h2), if_pos rfl]
  | case5 c cs h1 h2 h3 ih =>
      obtain ⟨r, hr, hb⟩ := Option.map_eq_some_iff.1 h
      obtain ⟨rfl, rfl⟩ := Prod.mk.inj hb
      rw [List.cons_append, closeLiteral_cons (ne_backslash h1 h2), if_neg h3, ih hr]
      rfl

theorem literal_lexeme {kind : Kind} {quote : Char} {cs : List Char} {p : Piece}
    (h : literal kind quote cs = .ok p) :
    ∃ body, p.kind = some kind ∧ p.chars = quote :: body
      ∧ closeLiteral quote body = some (body, []) := by
  unfold literal at h
  split at h
  · cases h
  · rename_i body rest hclose
    cases h
    refine ⟨body, rfl, rfl, ?_⟩
    simpa using closeLiteral_self hclose []

theorem number_lexeme {d : Char} {ds : List Char} (cs : List Char) (hd : d.isDigit = true)
    (hds : ∀ c ∈ ds, c.isDigit = true) :
    ∃ kind, (number (d :: ds) cs).kind = some kind ∧ Lexeme kind (number (d :: ds) cs).chars := by
  unfold number
  split
  · split
    · rename_i f fs hf
      refine ⟨.float, rfl, ?_⟩
      have h := Lexeme.float hd hds hf (fun c hc => List.mem_takeWhile_imp (l := fs) hc)
        (fun c hc => List.mem_takeWhile_imp (l := fs.dropWhile Char.isDigit) hc)
      simpa [Piece.run] using h
    · exact ⟨.integer, rfl, .integer hd hds fun c hc => List.mem_takeWhile_imp hc⟩
  · exact ⟨.integer, rfl, .integer hd hds fun c hc => List.mem_takeWhile_imp hc⟩

theorem operator_lexeme {c : Char} {cs : List Char} {p : Piece} (h : operator c cs = .ok p) :
    p.kind = some .operator ∧ Lexeme .operator p.chars := by
  unfold operator at h
  split at h
  · rename_i op hfind
    cases h
    exact ⟨rfl, .longOperator (List.mem_of_find?_eq_some hfind)⟩
  · split at h
    · rename_i hc
      cases h
      exact ⟨rfl, .shortOperator (by simpa using hc)⟩
    · cases h

theorem slash_lexeme {cs : List Char} {p : Piece} {kind : Kind} (h : slash cs = .ok p)
    (hkind : p.kind = some kind) : Lexeme kind p.chars := by
  unfold slash at h
  split at h
  · cases h
    cases hkind
  · split at h
    · cases h
    · cases h
      cases hkind
  · obtain ⟨hk, hl⟩ := operator_lexeme h
    rw [hk] at hkind
    cases hkind
    exact hl

/-- **What is cut off as a token is a lexeme of its kind.** -/
theorem piece_lexeme {c : Char} {cs : List Char} {p : Piece} {kind : Kind}
    (h : piece c cs = .ok p) (hkind : p.kind = some kind) : Lexeme kind p.chars := by
  unfold piece at h
  split at h
  · rename_i k hk
    cases h
    cases hkind
    exact .punctuation hk
  split at h
  · cases h
    cases hkind
  split at h
  · rename_i hc
    subst hc
    cases h
    cases hkind
    exact .directive fun d hd => List.mem_takeWhile_imp (p := (· != '\n')) hd
  split at h
  · rename_i hc
    subst hc
    obtain ⟨body, hk, hchars, hclose⟩ := literal_lexeme h
    rw [hk] at hkind
    cases hkind
    rw [hchars]
    exact .string hclose
  split at h
  · rename_i hc
    subst hc
    obtain ⟨body, hk, hchars, hclose⟩ := literal_lexeme h
    rw [hk] at hkind
    cases hkind
    rw [hchars]
    exact .char hclose
  split at h
  · exact slash_lexeme h hkind
  split at h
  · rename_i hd
    cases h
    obtain ⟨k, hk, hl⟩ := number_lexeme (cs.dropWhile Char.isDigit) hd
      fun c hc => List.mem_takeWhile_imp (l := cs) hc
    rw [hk] at hkind
    cases hkind
    exact hl
  split at h
  · rename_i hc
    cases h
    cases hkind
    exact .name hc fun d hd => List.mem_takeWhile_imp hd
  · obtain ⟨hk, hl⟩ := operator_lexeme h
    rw [hk] at hkind
    cases hkind
    exact hl

/-! ## §5. A lexeme is cut off again. -/

/-- An operator that fits the text up to the rest fits without the rest: it
cannot take the first character of the rest. -/
theorem isPrefixOf_append_stop {rest : List Char} (hrest : Kind.operator.stops rest = true) :
    ∀ {op xs : List Char}, (∀ c ∈ op, c ∈ shortOperators) →
      op.isPrefixOf (xs ++ rest) = op.isPrefixOf xs := by
  intro op
  induction op with
  | nil => intro xs _; simp
  | cons c op ih =>
      intro xs hop
      cases xs with
      | cons x xs =>
          rw [List.cons_append, List.isPrefixOf_cons_cons, List.isPrefixOf_cons_cons,
            ih fun d hd => hop d (List.mem_cons_of_mem c hd)]
      | nil =>
          cases rest with
          | nil => rfl
          | cons d rest =>
              have hne : c ≠ d := by
                rintro rfl
                simp [Kind.stops, hop c (List.mem_cons_self)] at hrest
              simp [List.isPrefixOf_cons_cons, hne]

theorem longOperators_short : ∀ op ∈ longOperators, ∀ c ∈ op, c ∈ shortOperators := by
  have key : longOperators.all (fun op => op.all shortOperators.contains) = true := by decide
  intro op hop c hc
  exact List.contains_iff_mem.1 (List.all_eq_true.1 (List.all_eq_true.1 key op hop) c hc)

/-- An operator is no digit and starts no name. -/
theorem shortOperators_plain {c : Char} (hc : c ∈ shortOperators) :
    c.isDigit = false ∧ Text.startsName c = false := by
  have key : shortOperators.all (fun d => !d.isDigit && !Text.startsName d) = true := by decide
  simpa using List.all_eq_true.1 key c hc

theorem find?_append_stop (xs : List Char) {rest : List Char}
    (hrest : Kind.operator.stops rest = true) :
    (longOperators.find? fun op => op.isPrefixOf (xs ++ rest))
      = longOperators.find? fun op => op.isPrefixOf xs := by
  apply List.find?_congr
  intro op hop
  exact isPrefixOf_append_stop hrest (longOperators_short op hop)

theorem operator_longOperator {c : Char} {cs rest : List Char} (hop : c :: cs ∈ longOperators)
    (hrest : Kind.operator.stops rest = true) :
    operator c (cs ++ rest) = .ok ⟨some .operator, c :: cs, rest⟩ := by
  -- No operator of the table starts a longer one that stands behind it.
  have hfirst : ∀ op ∈ longOperators,
      (longOperators.find? fun o => o.isPrefixOf op) = some op := by decide
  have hfind := (find?_append_stop (c :: cs) hrest).trans (hfirst _ hop)
  rw [List.cons_append] at hfind
  unfold operator
  rw [hfind]
  simp

theorem operator_shortOperator {c : Char} {rest : List Char} (hc : c ∈ shortOperators)
    (hrest : Kind.operator.stops rest = true) :
    operator c rest = .ok ⟨some .operator, [c], rest⟩ := by
  have hlong : shortOperators.all
      (fun d => (longOperators.find? fun o => o.isPrefixOf [d]).isNone) = true := by decide
  have hnone := Option.isNone_iff_eq_none.1 (List.all_eq_true.1 hlong c hc)
  have hfind := (find?_append_stop [c] hrest).trans hnone
  rw [List.singleton_append] at hfind
  unfold operator
  rw [hfind]
  simp [hc]

theorem slash_eq_operator {rest : List Char} (h1 : ∀ ds, rest ≠ '/' :: ds)
    (h2 : ∀ ds, rest ≠ '*' :: ds) : slash rest = operator '/' rest := by
  unfold slash
  split
  · exact absurd rfl (h1 _)
  · exact absurd rfl (h2 _)
  · rfl

/-- The character that starts an operator is read by `operator`, a slash
also if neither a slash nor a star follows. -/
theorem piece_eq_operator {c : Char} {cs : List Char} (hc : c ∈ shortOperators)
    (h1 : c = '/' → ∀ ds, cs ≠ '/' :: ds) (h2 : c = '/' → ∀ ds, cs ≠ '*' :: ds) :
    piece c cs = operator c cs := by
  by_cases hslash : c = '/'
  · subst hslash
    rw [← slash_eq_operator (h1 rfl) (h2 rfl)]
    rfl
  · have key : shortOperators.all (fun d => d == '/' || !openers.contains d) = true := by decide
    have ho : c ∉ openers := by simpa [hslash] using List.all_eq_true.1 key c hc
    obtain ⟨hd, hs⟩ := shortOperators_plain hc
    rw [piece_of_not_opener ho, hd, hs]
    rfl

theorem nameKind_stops {name rest : List Char} (h : (nameKind name).stops rest = true) :
    ∀ c ∈ rest.head?, Text.continuesName c = false := by
  intro c hc
  cases rest with
  | nil => simp at hc
  | cons d rest =>
      obtain rfl : d = c := by simpa using hc
      unfold nameKind at h
      split at h <;> simpa [Kind.stops] using h

theorem isDigit_eq_false_of_isAlpha {c : Char} (h : c.isAlpha = true) : c.isDigit = false := by
  have halpha := isAlpha_range h
  rw [Bool.eq_false_iff]
  intro hd
  have := isDigit_range hd
  omega

/-- Behind the digits of a number comes its suffix or the rest, so no digit. -/
theorem suffix_stop {suffix rest : List Char} (hs : ∀ c ∈ suffix, c.isAlpha = true)
    (hrest : ∀ c ∈ rest.head?, c.isDigit = false) :
    ∀ c ∈ (suffix ++ rest).head?, c.isDigit = false := by
  intro c hc
  cases suffix with
  | nil => exact hrest c hc
  | cons d suffix =>
      obtain rfl : d = c := by simpa using hc
      exact isDigit_eq_false_of_isAlpha (hs d List.mem_cons_self)

theorem float_stops {rest : List Char} (h : Kind.float.stops rest = true) :
    ∀ c ∈ rest.head?, c.isDigit = false ∧ c.isAlpha = false := by
  intro c hc
  cases rest with
  | nil => simp at hc
  | cons d rest =>
      obtain rfl : d = c := by simpa using hc
      simpa [Kind.stops] using h

theorem float_stops_of_integer_stops {rest : List Char} (h : Kind.integer.stops rest = true) :
    Kind.float.stops rest = true := by
  cases rest with
  | nil => rfl
  | cons c rest =>
      simp only [Kind.stops, Bool.and_eq_true] at h ⊢
      exact h.1

theorem number_integer {digits suffix rest : List Char} (hs : ∀ c ∈ suffix, c.isAlpha = true)
    (hrest : Kind.integer.stops rest = true) :
    number digits (suffix ++ rest) = ⟨some .integer, digits ++ suffix, rest⟩ := by
  have hstop := float_stops (float_stops_of_integer_stops hrest)
  -- No point follows the digits: it is no letter, and the rest does not start with one.
  have hpoint : ∀ ds, suffix ++ rest ≠ '.' :: ds := by
    intro ds heq
    cases suffix with
    | cons c suffix =>
        obtain rfl : c = '.' := (List.cons.inj heq).1
        exact absurd (hs '.' List.mem_cons_self) (by decide)
    | nil =>
        rw [List.nil_append] at heq
        subst heq
        simp [Kind.stops] at hrest
  unfold number
  split
  · rename_i d ds heq
    exact absurd heq (hpoint _)
  · exact Piece.run_append hs fun c hc => (hstop c hc).2

theorem number_float {digits fs suffix rest : List Char} {f : Char} (hf : f.isDigit = true)
    (hfs : ∀ c ∈ fs, c.isDigit = true) (hs : ∀ c ∈ suffix, c.isAlpha = true)
    (hrest : Kind.float.stops rest = true) :
    number digits ('.' :: f :: (fs ++ (suffix ++ rest)))
      = ⟨some .float, digits ++ '.' :: f :: (fs ++ suffix), rest⟩ := by
  have hstop := float_stops hrest
  have hdigit := suffix_stop hs fun c hc => (hstop c hc).1
  show (if f.isDigit then _ else _) = _
  rw [if_pos hf, takeWhile_append_stop hfs hdigit, dropWhile_append_stop hfs hdigit,
    Piece.run_append hs fun c hc => (hstop c hc).2]
  simp

/-- Digits that something else follows are read by `number`. -/
theorem piece_eq_number {d : Char} {ds rest : List Char} (hd : d.isDigit = true)
    (hds : ∀ c ∈ ds, c.isDigit = true) (hrest : ∀ c ∈ rest.head?, c.isDigit = false) :
    piece d (ds ++ rest) = .ok (number (d :: ds) rest) := by
  rw [piece_of_not_opener (not_opener_of_isDigit hd), if_pos hd, takeWhile_append_stop hds hrest,
    dropWhile_append_stop hds hrest]

theorem operator_stops {rest : List Char} (h : Kind.operator.stops rest = true) {c : Char}
    (hc : c ∈ shortOperators) (ds : List Char) : rest ≠ c :: ds := by
  rintro rfl
  simp [Kind.stops, hc] at h

/-- **A lexeme is cut off again** wherever what follows does not run on
with it. -/
theorem Lexeme.piece_append {kind : Kind} {c : Char} {cs rest : List Char}
    (h : Lexeme kind (c :: cs)) (hrest : kind.stops rest = true) :
    piece c (cs ++ rest) = .ok ⟨some kind, c :: cs, rest⟩ := by
  generalize hchars : c :: cs = chars at h
  cases h with
  | punctuation hk =>
      obtain ⟨rfl, rfl⟩ := List.cons.inj hchars
      unfold piece
      rw [hk]
      rfl
  | directive hbody =>
      obtain ⟨rfl, rfl⟩ := List.cons.inj hchars
      have hstop : ∀ d ∈ rest.head?, (d != '\n') = false := by
        intro d hd
        cases rest with
        | nil => simp at hd
        | cons e rest =>
            obtain rfl : e = d := by simpa using hd
            simpa [Kind.stops] using hrest
      show Except.ok (Piece.run (some .directive) ['#'] (· != '\n') (cs ++ rest)) = _
      rw [Piece.run_append hbody hstop]
      rfl
  | string hclose =>
      obtain ⟨rfl, rfl⟩ := List.cons.inj hchars
      show literal .string '"' (cs ++ rest) = _
      unfold literal
      rw [closeLiteral_self hclose]
  | char hclose =>
      obtain ⟨rfl, rfl⟩ := List.cons.inj hchars
      show literal .char '\'' (cs ++ rest) = _
      unfold literal
      rw [closeLiteral_self hclose]
  | integer hd hds hs =>
      obtain ⟨rfl, rfl⟩ := List.cons.inj hchars
      have hstop := float_stops (float_stops_of_integer_stops hrest)
      rw [List.append_assoc, piece_eq_number hd hds (suffix_stop hs fun c hc => (hstop c hc).1),
        number_integer hs hrest]
      rfl
  | float hd hds hf hfs hs =>
      obtain ⟨rfl, rfl⟩ := List.cons.inj hchars
      have hpoint : ∀ xs, ∀ x ∈ ('.' :: xs).head?, x.isDigit = false := by
        intro xs x hx
        obtain rfl : '.' = x := by simpa using hx
        decide
      simp only [List.append_assoc, List.cons_append]
      rw [piece_eq_number hd hds (hpoint _), number_float hf hfs hs hrest]
      rfl
  | name hc hcs =>
      obtain ⟨rfl, rfl⟩ := List.cons.inj hchars
      rw [piece_of_not_opener (not_opener_of_startsName hc), isDigit_eq_false_of_startsName hc, hc,
        takeWhile_append_stop hcs (nameKind_stops hrest),
        dropWhile_append_stop hcs (nameKind_stops hrest)]
      rfl
  | longOperator hop =>
      subst hchars
      have hslash : ∀ op ∈ longOperators, op.head? = some '/' → op = ['/', '='] := by decide
      have hequal : c = '/' → cs = ['='] := fun hc =>
        (List.cons.inj (hslash (c :: cs) hop (by simp [hc]))).2
      rw [piece_eq_operator (longOperators_short _ hop c List.mem_cons_self)
        (fun hc => by simp [hequal hc]) (fun hc => by simp [hequal hc]),
        operator_longOperator hop hrest]
  | shortOperator hc =>
      obtain ⟨rfl, rfl⟩ := List.cons.inj hchars
      rw [List.nil_append, piece_eq_operator hc (fun _ => operator_stops hrest (by decide))
        (fun _ => operator_stops hrest (by decide)), operator_shortOperator hc hrest]

/-- Only operators start with the character of an operator. -/
theorem Lexeme.head_not_operator {kind : Kind} {chars : List Char} (h : Lexeme kind chars)
    (hkind : kind ≠ .operator) : ∀ c ∈ chars.head?, c ∉ shortOperators := by
  intro c hc hoperator
  obtain ⟨hdigit, hname⟩ := shortOperators_plain hoperator
  cases h with
  | punctuation hp =>
      obtain rfl := Option.some.inj hc
      have hmarks : shortOperators.all (fun c => (punctuation? c).isNone) = true := by decide
      rw [Option.isNone_iff_eq_none.1 (List.all_eq_true.1 hmarks _ hoperator)] at hp
      cases hp
  | directive | string | char =>
      obtain rfl := Option.some.inj hc
      exact absurd hoperator (by decide)
  | integer hd | float hd =>
      obtain rfl := Option.some.inj hc
      rw [hdigit] at hd
      cases hd
  | name hstart =>
      obtain rfl := Option.some.inj hc
      rw [hname] at hstart
      cases hstart
  | longOperator | shortOperator => exact hkind rfl

/-- An operator ends where another lexeme starts. -/
theorem Lexeme.operator_stops {kind : Kind} {chars : List Char} (h : Lexeme kind chars)
    (hkind : kind ≠ .operator) (rest : List Char) :
    Kind.operator.stops (chars ++ rest) = true := by
  have hhead := h.head_not_operator hkind
  cases chars with
  | nil => exact absurd rfl h.ne_nil
  | cons c cs => simpa [Kind.stops] using hhead c rfl

end RuleBody.Token
