/-
  RuleBody.Proofs.Layout
  ──────────────────────
  **HOW THE TOKENS OF A TEXT LIE IN IT.**

  A text is blanks and comments, a token, blanks and comments, a token, and so
  on to its end.  The scanner looks at it from one place only and moves that
  place along; what it says of a token at last is a line, a column and an
  index.  From these the text can be put together again: no character is
  dropped or read twice, and what stands between two tokens is nothing but
  blanks and complete comments (`scanning_loses_nothing`).

  The index is that of the first character.  Line and column are taken where
  the token ends and are moved back over its characters, but not over a line
  feed:

      x = "ab";       — `"ab"` at line 0, column 4
      x = "a          — `"a⏎b"`, a literal with a line feed in it, at line 1,
      b";               column 0

  So a token stands at its place exactly if it has no line feed in it, and
  only literals can have one (`token_located_iff_on_one_line`).

  §1  places;
  §2  the place of a token;
  §3  blanks and comments;
  §4  what is read first;
  §5  where tokens stand;
  §6  nothing is lost.
-/
import RuleBody.Proofs.Reading

namespace RuleBody

/-! ## §1. Places. -/

namespace Location

/-- The place behind the first characters of a text: the number of line feeds
among them, of characters behind the last line feed, and of characters. -/
def behind (cs : List Char) : Location :=
  ⟨cs.count '\n', (cs.reverse.takeWhile (· != '\n')).length, cs.length⟩

theorem next_behind (cs : List Char) (c : Char) : (behind cs).next c = behind (cs ++ [c]) := by
  unfold next behind
  by_cases hc : c = '\n'
  · subst hc
    simp
  · simp [hc]

/-- Moving over characters leads behind them. -/
theorem past_behind (cs ds : List Char) : (behind cs).past ds = behind (cs ++ ds) := by
  induction ds generalizing cs with
  | nil => rw [past_nil, List.append_nil]
  | cons d ds ih =>
      rw [past_cons, next_behind, ih]
      simp

/-- On the same line the column grows with the text. -/
theorem column_behind_append {cs ds : List Char} (h : '\n' ∉ ds) :
    (behind (cs ++ ds)).column = (behind cs).column + ds.length := by
  have hds : ∀ c ∈ ds.reverse, (c != '\n') = true := by
    intro c hc
    rw [bne_iff_ne]
    rintro rfl
    exact h (List.mem_reverse.1 hc)
  show ((cs ++ ds).reverse.takeWhile (· != '\n')).length = _
  rw [List.reverse_append, List.takeWhile_append_of_pos hds, List.length_append,
    List.length_reverse]
  exact Nat.add_comm _ _

/-- On another line the column is smaller than the number of characters that
were moved over. -/
theorem column_behind_lt {cs ds : List Char} (h : '\n' ∈ ds) :
    (behind (cs ++ ds)).column < ds.length := by
  show ((cs ++ ds).reverse.takeWhile (· != '\n')).length < ds.length
  have hbegins := List.takeWhile_prefix (l := ds.reverse) (· != '\n')
  have hlength := hbegins.length_le
  rw [List.reverse_append, List.takeWhile_append]
  by_cases hall : (ds.reverse.takeWhile (· != '\n')).length = ds.reverse.length
  · have hself := List.takeWhile_eq_self_iff.1 (hbegins.eq_of_length hall)
    exact absurd (hself '\n' (List.mem_reverse.2 h)) (by decide)
  · rw [if_neg hall]
    rw [List.length_reverse] at hall hlength
    omega

end Location

namespace Token

open Location (behind past_behind)

/-! ## §2. The place of a token. -/

theorem Lexeme.eq_literal_of_newline {kind : Kind} {chars : List Char} (h : Lexeme kind chars)
    (hnewline : '\n' ∈ chars) : kind = .string ∨ kind = .char := by
  have hdigit : ¬ '\n'.isDigit = true := by decide
  have halpha : ¬ '\n'.isAlpha = true := by decide
  cases h with
  | string => exact .inl rfl
  | char => exact .inr rfl
  | punctuation hkind =>
      obtain rfl := List.mem_singleton.1 hnewline
      cases hkind
  | directive hbody =>
      rcases List.mem_cons.1 hnewline with h | h
      · cases h
      · exact absurd (hbody _ h) (by decide)
  | integer hd hds hs =>
      simp only [List.mem_cons, List.mem_append] at hnewline
      rcases hnewline with rfl | h | h
      · exact absurd hd hdigit
      · exact absurd (hds _ h) hdigit
      · exact absurd (hs _ h) halpha
  | float hd hds hf hfs hs =>
      simp only [List.mem_cons, List.mem_append] at hnewline
      rcases hnewline with rfl | h | h | rfl | h | h
      · exact absurd hd hdigit
      · exact absurd (hds _ h) hdigit
      · cases h
      · exact absurd hf hdigit
      · exact absurd (hfs _ h) hdigit
      · exact absurd (hs _ h) halpha
  | name hc hcs =>
      rcases List.mem_cons.1 hnewline with rfl | h
      · exact absurd hc (by decide)
      · exact absurd (hcs _ h) (by decide)
  | longOperator hop => exact absurd (longOperators_short _ hop _ hnewline) (by decide)
  | shortOperator hc =>
      obtain rfl := List.mem_singleton.1 hnewline
      exact absurd hc (by decide)

section

variable {before chars : List Char} {kind : Kind}

theorem location_ofPiece : (ofPiece (behind before) kind chars).location
    = ⟨(before ++ chars).count '\n', (behind (before ++ chars)).column - chars.length,
        before.length⟩ := by
  unfold ofPiece
  rw [past_behind]
  rfl

/-- A token on one line is located where it starts. -/
theorem location_ofPiece_of_not_mem (h : '\n' ∉ chars) :
    (ofPiece (behind before) kind chars).location = behind before := by
  rw [location_ofPiece, Location.column_behind_append h, List.count_append,
    List.count_eq_zero.2 h, Nat.add_sub_cancel]
  rfl

/-- A token with a line feed is located at the start of its last line. -/
theorem location_ofPiece_of_mem (h : '\n' ∈ chars) :
    (ofPiece (behind before) kind chars).location
      = ⟨(before ++ chars).count '\n', 0, before.length⟩ := by
  have hcolumn : (behind (before ++ chars)).column < chars.length := Location.column_behind_lt h
  rw [location_ofPiece, Nat.sub_eq_zero_of_le (Nat.le_of_lt hcolumn)]

theorem location_ofPiece_eq_iff :
    (ofPiece (behind before) kind chars).location = behind before ↔ '\n' ∉ chars := by
  refine ⟨fun h hnewline => ?_, location_ofPiece_of_not_mem⟩
  have hline : (before ++ chars).count '\n' = before.count '\n' := by
    rw [location_ofPiece] at h
    exact congrArg Location.line h
  have hpos := List.count_pos_iff.2 hnewline
  rw [List.count_append] at hline
  omega

end

/-- A token that was read behind some characters: the mark of the end, or a
lexeme. -/
inductive ReadBehind (before : List Char) : Token → Prop where
  | stop : ReadBehind before (eof (behind before))
  | lexeme {kind : Kind} {chars : List Char} : Lexeme kind chars →
      ReadBehind before (ofPiece (behind before) kind chars)

namespace ReadBehind

variable {before : List Char} {t : Token}

theorem start (h : ReadBehind before t) : t.location.start = before.length := by
  cases h <;> rfl

theorem location_eq_iff (h : ReadBehind before t) :
    t.location = behind before ↔ '\n' ∉ t.lexeme.toList := by
  cases h with
  | stop =>
      show behind before = behind before ↔ '\n' ∉ []
      simp
  | lexeme =>
      show _ ↔ '\n' ∉ (String.ofList _).toList
      rw [String.toList_ofList]
      exact location_ofPiece_eq_iff

theorem of_newline (h : ReadBehind before t) (hnewline : '\n' ∈ t.lexeme.toList) :
    (t.kind = .string ∨ t.kind = .char)
      ∧ t.location = ⟨(before ++ t.lexeme.toList).count '\n', 0, before.length⟩ := by
  cases h with
  | stop => cases hnewline
  | @lexeme kind chars hlexeme =>
      have hchars : (ofPiece (behind before) kind chars).lexeme.toList = chars :=
        String.toList_ofList
      rw [hchars] at hnewline ⊢
      exact ⟨hlexeme.eq_literal_of_newline hnewline, location_ofPiece_of_mem hnewline⟩

end ReadBehind

/-! ## §3. Blanks and comments. -/

/-- Blanks and complete comments that stand before some text.  A comment of
one line goes on to the end of the line or of the text, and one in marks to
the first closing mark. -/
inductive Gap (after : List Char) : List Char → Prop where
  | nil : Gap after []
  | blank {c : Char} {cs : List Char} : c ∈ [' ', '\r', '\t', '\n'] → Gap after cs →
      Gap after (c :: cs)
  | line {body cs : List Char} : '\n' ∉ body → (∀ c ∈ (cs ++ after).head?, c = '\n') →
      Gap after cs → Gap after ('/' :: '/' :: (body ++ cs))
  | marks {body cs : List Char} : ¬ ['*', '/'] <:+: body → Gap after cs →
      Gap after ('/' :: '*' :: (body ++ '*' :: '/' :: cs))

/-- A comment is closed by the first mark that can close it. -/
theorem closeComment_spec {cs body rest : List Char} (h : closeComment cs = some (body, rest)) :
    ∃ inside, body = inside ++ ['*', '/'] ∧ ¬ ['*', '/'] <:+: inside := by
  fun_induction closeComment cs generalizing body rest with
  | case1 => cases h
  | case2 cs =>
      obtain ⟨rfl, rfl⟩ := Prod.mk.inj (Option.some.inj h)
      exact ⟨[], rfl, by simp⟩
  | case3 c cs hmark ih =>
      obtain ⟨r, hr, hb⟩ := Option.map_eq_some_iff.1 h
      obtain ⟨rfl, rfl⟩ := Prod.mk.inj hb
      obtain ⟨inside, hinside, hnone⟩ := ih hr
      refine ⟨c :: inside, by rw [hinside]; rfl, fun hclosed => ?_⟩
      rcases List.infix_cons_iff.1 hclosed with hstart | hlater
      · -- The mark would start right here, where it was not found.
        obtain ⟨more, hmore⟩ := hstart
        obtain ⟨rfl, hcons⟩ := List.cons.inj hmore
        refine hmark (more ++ ['*', '/'] ++ r.2) rfl ?_
        rw [← closeComment_append hr, hinside, ← hcons]
        simp
      · exact hnone hlater

theorem isBlank_iff {c : Char} : isBlank c = true ↔ c ∈ [' ', '\r', '\t', '\n'] := by
  simp [isBlank, or_assoc]

/-- The comment that a slash starts goes before a gap. -/
theorem slash_gap {cs : List Char} {p : Piece} (h : slash cs = .ok p) (hkind : p.kind = none)
    {gap after : List Char} (hrest : p.rest = gap ++ after) (hgap : Gap after gap) :
    Gap after (p.chars ++ gap) := by
  unfold slash at h
  split at h
  · rename_i ds
    cases h
    have hbody : '\n' ∉ ds.takeWhile (· != '\n') := fun hmem =>
      absurd (List.mem_takeWhile_imp hmem) (by decide)
    have hstop : ∀ c ∈ (gap ++ after).head?, c = '\n' := by
      rw [← hrest]
      intro c hc
      have hhead := List.head?_dropWhile_not (· != '\n') ('/' :: ds)
      change ((('/' :: ds).dropWhile (· != '\n')).head?) = some c at hc
      rw [hc] at hhead
      simpa using hhead
    exact .line hbody hstop hgap
  · split at h
    · cases h
    · rename_i body rest hclose
      cases h
      obtain ⟨inside, rfl, hnone⟩ := closeComment_spec hclose
      have hmarks := Gap.marks hnone hgap
      simpa using hmarks
  · obtain ⟨hoperator, _⟩ := operator_lexeme h
    rw [hkind] at hoperator
    cases hoperator

/-- What has no kind is a blank or a comment, and goes before a gap. -/
theorem piece_gap {c : Char} {cs : List Char} {p : Piece} (h : piece c cs = .ok p)
    (hkind : p.kind = none) {gap after : List Char} (hrest : p.rest = gap ++ after)
    (hgap : Gap after gap) : Gap after (p.chars ++ gap) := by
  unfold piece at h
  split at h
  · cases h
    cases hkind
  split at h
  · rename_i hblank
    cases h
    exact .blank (isBlank_iff.1 hblank) hgap
  split at h
  · cases h
    cases hkind
  split at h
  · obtain ⟨_, hliteral, _⟩ := literal_lexeme h
    rw [hkind] at hliteral
    cases hliteral
  split at h
  · obtain ⟨_, hliteral, _⟩ := literal_lexeme h
    rw [hkind] at hliteral
    cases hliteral
  split at h
  · exact slash_gap h hkind hrest hgap
  split at h
  · rename_i hd
    cases h
    obtain ⟨_, hnumber, _⟩ := number_lexeme (cs.dropWhile Char.isDigit) hd
      fun c hc => List.mem_takeWhile_imp (l := cs) hc
    rw [hkind] at hnumber
    cases hnumber
  split at h
  · cases h
    cases hkind
  · obtain ⟨hoperator, _⟩ := operator_lexeme h
    rw [hkind] at hoperator
    cases hoperator

/-! ## §4. What is read first. -/

/-- What the scanner finds behind some characters: a gap, then the end of the
text, or a lexeme and the tokens of the rest. -/
inductive Begins (before : List Char) : List Char → List Token → Prop where
  | stop {gap : List Char} : Gap [] gap → Begins before gap [eof (behind (before ++ gap))]
  | lexeme {gap chars rest : List Char} {kind : Kind} {ts : List Token} :
      Gap (chars ++ rest) gap → Lexeme kind chars →
      scanFrom (behind (before ++ gap)) (chars ++ rest)
        = .ok (ofPiece (behind (before ++ gap)) kind chars :: ts) →
      scanFrom (behind (before ++ gap ++ chars)) rest = .ok ts →
      Begins before (gap ++ (chars ++ rest))
        (ofPiece (behind (before ++ gap)) kind chars :: ts)

/-- **The scanner passes over a gap and reads one token**, and then the
tokens of the rest. -/
theorem scanFrom_begins {before cs : List Char} {tokens : List Token}
    (h : scanFrom (behind before) cs = .ok tokens) : Begins before cs tokens := by
  generalize hhere : behind before = here at h
  fun_induction scanFrom here cs generalizing before tokens with
  | case1 here =>
      cases h
      subst hhere
      have hstop : Begins before [] [eof (behind (before ++ []))] := .stop .nil
      rwa [List.append_nil] at hstop
  | case2 here c cs trouble hpiece => cases h
  | case3 here c cs p hpiece hkind ih =>
      -- A blank or a comment: the gap before the token begins with it.
      subst hhere
      obtain ⟨hsplit, _⟩ := piece_opens hpiece
      have hrest := ih (past_behind before p.chars).symm h
      rw [← hsplit]
      generalize hp : p.rest = rest at hrest
      cases hrest with
      | stop hgap =>
          have hstop : Begins before (p.chars ++ rest)
              [eof (behind (before ++ (p.chars ++ rest)))] :=
            .stop (piece_gap hpiece hkind (hp.trans (List.append_nil _).symm) hgap)
          rwa [← List.append_assoc] at hstop
      | lexeme hgap hlexeme hscan hbehind =>
          rw [List.append_assoc before] at hscan hbehind ⊢
          rw [← List.append_assoc p.chars]
          exact .lexeme (piece_gap hpiece hkind hp hgap) hlexeme hscan hbehind
  | case4 here c cs p hpiece kind hkind e hscan ih => cases h
  | case5 here c cs p hpiece kind hkind tokens' hscan ih =>
      subst hhere
      obtain ⟨hsplit, _⟩ := piece_opens hpiece
      have hfirst : scanFrom (behind before) (p.chars ++ p.rest)
          = .ok (ofPiece (behind before) kind p.chars :: tokens') := by
        rw [hsplit, scanFrom_of_token hpiece hkind, hscan]
        rfl
      cases h
      have hlexeme : Begins before ([] ++ (p.chars ++ p.rest))
          (ofPiece (behind (before ++ [])) kind p.chars :: tokens') :=
        .lexeme .nil (piece_lexeme hpiece hkind) (by rwa [List.append_nil])
          (by rwa [List.append_nil, ← past_behind])
      rwa [List.append_nil, List.nil_append, hsplit] at hlexeme

/-! ## §5. Where tokens stand. -/

/-- The text from a token on is read as that token and those behind it. -/
theorem scanFrom_split {before cs : List Char} {front back : List Token} {t : Token}
    (h : scanFrom (behind before) cs = .ok (front ++ t :: back)) :
    ∃ passed after, cs = passed ++ (t.lexeme.toList ++ after)
      ∧ scanFrom (behind (before ++ passed)) (t.lexeme.toList ++ after) = .ok (t :: back)
      ∧ ReadBehind (before ++ passed) t := by
  induction front generalizing before cs with
  | nil =>
      generalize htokens : [] ++ t :: back = tokens at h
      cases scanFrom_begins h with
      | stop hgap =>
          obtain ⟨rfl, rfl⟩ := List.cons.inj htokens
          refine ⟨cs, [], (List.append_nil cs).symm, ?_, .stop⟩
          show scanFrom _ [] = _
          rw [scanFrom]
      | @lexeme gap chars rest kind ts _ hlexeme hscan _ =>
          obtain ⟨rfl, rfl⟩ := List.cons.inj htokens
          refine ⟨gap, rest, ?_, ?_, .lexeme hlexeme⟩
          · show _ = gap ++ ((String.ofList chars).toList ++ rest)
            rw [String.toList_ofList]
          · show scanFrom _ ((String.ofList chars).toList ++ rest) = _
            rw [String.toList_ofList]
            exact hscan
  | cons u front ih =>
      generalize htokens : (u :: front) ++ t :: back = tokens at h
      cases scanFrom_begins h with
      | stop hgap =>
          obtain ⟨_, hnil⟩ := List.cons.inj htokens
          exact absurd hnil (by simp)
      | @lexeme gap chars rest kind ts _ _ _ hbehind =>
          obtain ⟨rfl, rfl⟩ := List.cons.inj htokens
          obtain ⟨passed, after, hrest, hscan, hread⟩ := ih hbehind
          refine ⟨gap ++ chars ++ passed, after, ?_, ?_, ?_⟩
          · rw [hrest]
            simp
          · simpa [List.append_assoc] using hscan
          · simpa [List.append_assoc] using hread

/-- **A token is located where it starts exactly if it stands on one line.**
The index of a token is always that of its first character, from where on the
text is read as the token and those behind it.  Line and column are those of
its first character if there is no line feed in it; if there is, the token is
a literal and is located at the start of its last line. -/
theorem token_located_iff_on_one_line {src : String} {front back : List Token} {t : Token}
    (h : scan src = .ok (front ++ t :: back)) :
    ∃ before after, src.toList = before ++ (t.lexeme.toList ++ after)
      ∧ scanFrom (behind before) (t.lexeme.toList ++ after) = .ok (t :: back)
      ∧ t.location.start = before.length
      ∧ (t.location = behind before ↔ '\n' ∉ t.lexeme.toList)
      ∧ ('\n' ∈ t.lexeme.toList → (t.kind = .string ∨ t.kind = .char)
          ∧ t.location = ⟨(before ++ t.lexeme.toList).count '\n', 0, before.length⟩) := by
  have hscan : scanFrom (behind []) src.toList = .ok (front ++ t :: back) := h
  obtain ⟨before, after, hsplit, hfrom, hread⟩ := scanFrom_split hscan
  rw [List.nil_append] at hfrom hread
  exact ⟨before, after, hsplit, hfrom, hread.start, hread.location_eq_iff, hread.of_newline⟩

/-- An operator behind a literal and a comment that have two lines each. -/
theorem token_located_iff_on_one_line_third :
    let front : List Token := [⟨.identifier, "s", ⟨0, 0, 0⟩⟩, ⟨.operator, "=", ⟨0, 2, 2⟩⟩,
      ⟨.string, "\"a\\\nb\"", ⟨1, 0, 4⟩⟩]
    let plus : Token := ⟨.operator, "+", ⟨2, 3, 19⟩⟩
    let back : List Token := [⟨.integer, "1", ⟨2, 5, 21⟩⟩, ⟨.semicolon, ";", ⟨2, 6, 22⟩⟩,
      eof ⟨2, 7, 23⟩]
    scan "s = \"a\\\nb\" /* c\n*/ + 1;" = .ok (front ++ plus :: back)
      ∧ ∃ before after,
        "s = \"a\\\nb\" /* c\n*/ + 1;".toList = before ++ (plus.lexeme.toList ++ after)
        ∧ scanFrom (behind before) (plus.lexeme.toList ++ after) = .ok (plus :: back)
        ∧ plus.location = behind before := by
  intro front plus back
  have hscan : scan "s = \"a\\\nb\" /* c\n*/ + 1;" = .ok (front ++ plus :: back) := by
    decide +kernel
  obtain ⟨before, after, hsplit, hfrom, _, hlocated, _⟩ := token_located_iff_on_one_line hscan
  exact ⟨hscan, before, after, hsplit, hfrom, hlocated.2 (by decide)⟩

/-- A literal that goes on behind a line feed is not located where it
starts. -/
theorem literal_on_two_lines_misplaced :
    let literal : Token := ⟨.string, "\"a\\\nb\"", ⟨1, 0, 4⟩⟩
    scan "x = \"a\\\nb\";" = .ok [⟨.identifier, "x", ⟨0, 0, 0⟩⟩, ⟨.operator, "=", ⟨0, 2, 2⟩⟩,
        literal, ⟨.semicolon, ";", ⟨1, 2, 10⟩⟩, eof ⟨1, 3, 11⟩]
      ∧ "x = \"a\\\nb\";".toList.take literal.location.start = "x = ".toList
      ∧ literal.location ≠ behind "x = ".toList ∧ behind "x = ".toList = ⟨0, 4, 4⟩ := by
  decide +kernel

/-! ## §6. Nothing is lost. -/

/-- The index behind a token. -/
def stop (t : Token) : Nat := t.location.start + t.lexeme.length

/-- Between an index and the first token, and between any two tokens that
follow each other, the text has a gap. -/
def Spaced (text : List Char) : Nat → List Token → Prop
  | _, [] => True
  | i, t :: ts =>
      Gap (text.drop t.location.start) ((text.take t.location.start).drop i)
        ∧ Spaced text t.stop ts

/-- The tokens come one after the other, and none runs into the next. -/
def InOrder (tokens : List Token) : Prop :=
  tokens.Pairwise fun a b => a.location.start < b.location.start ∧ a.stop ≤ b.location.start

theorem stop_ofPiece (before : List Char) (kind : Kind) (chars : List Char) :
    (ofPiece (behind before) kind chars).stop = (before ++ chars).length := by
  show before.length + (String.ofList chars).length = _
  rw [String.length_ofList, List.length_append]

/-- What follows some characters starts behind them. -/
theorem length_le_start {before cs : List Char} {tokens : List Token}
    (h : scanFrom (behind before) cs = .ok tokens) :
    ∀ t ∈ tokens, before.length ≤ t.location.start := by
  intro t ht
  obtain ⟨front, back, rfl⟩ := List.append_of_mem ht
  obtain ⟨passed, _, _, _, hread⟩ := scanFrom_split h
  rw [hread.start, List.length_append]
  omega

/-- The text of a token stands at its index. -/
theorem take_drop_eq_lexeme {before cs : List Char} {tokens : List Token}
    (h : scanFrom (behind before) cs = .ok tokens) :
    ∀ t ∈ tokens, ((before ++ cs).drop t.location.start).take t.lexeme.length
      = t.lexeme.toList := by
  intro t ht
  obtain ⟨front, back, rfl⟩ := List.append_of_mem ht
  obtain ⟨passed, after, rfl, _, hread⟩ := scanFrom_split h
  rw [hread.start, ← List.append_assoc, List.drop_left' rfl, List.take_left' String.length_toList]

theorem inOrder_of_scanFrom {before cs : List Char} {tokens : List Token}
    (h : scanFrom (behind before) cs = .ok tokens) : InOrder tokens := by
  induction tokens generalizing before cs with
  | nil => exact .nil
  | cons t ts ih =>
      cases scanFrom_begins h with
      | stop => exact List.pairwise_singleton _ _
      | @lexeme gap chars rest kind _ _ hlexeme _ hbehind =>
          refine List.pairwise_cons.2 ⟨fun u hu => ?_, ih hbehind⟩
          have hstart := length_le_start hbehind u hu
          have hpos := List.length_pos_iff.2 hlexeme.ne_nil
          rw [stop_ofPiece]
          refine ⟨?_, hstart⟩
          show (before ++ gap).length < u.location.start
          have hlength : (before ++ gap ++ chars).length = (before ++ gap).length + chars.length :=
            List.length_append
          omega

theorem spaced_of_scanFrom {before cs : List Char} {tokens : List Token}
    (h : scanFrom (behind before) cs = .ok tokens) :
    Spaced (before ++ cs) before.length tokens := by
  induction tokens generalizing before cs with
  | nil => exact trivial
  | cons t ts ih =>
      cases scanFrom_begins h with
      | stop hgap =>
          refine ⟨?_, trivial⟩
          show Gap ((before ++ cs).drop (before ++ cs).length) _
          rw [List.drop_length]
          show Gap [] (((before ++ cs).take (before ++ cs).length).drop before.length)
          rw [List.take_length, List.drop_left' rfl]
          exact hgap
      | @lexeme gap chars rest kind _ hgap _ _ hbehind =>
          have hrest := ih hbehind
          constructor
          · show Gap ((before ++ (gap ++ (chars ++ rest))).drop (before ++ gap).length)
              (((before ++ (gap ++ (chars ++ rest))).take (before ++ gap).length).drop
                before.length)
            rw [← List.append_assoc, List.drop_left' rfl, List.take_left' rfl,
              List.drop_left' rfl]
            exact hgap
          · rw [stop_ofPiece]
            simpa [List.append_assoc] using hrest

/-- The mark of the end stands behind all characters, and nowhere else. -/
theorem ends_of_scanFrom {before cs : List Char} {tokens : List Token}
    (h : scanFrom (behind before) cs = .ok tokens) :
    ∃ ts, tokens = ts ++ [eof (behind (before ++ cs))] ∧ ∀ t ∈ ts, t.kind ≠ .eof := by
  induction tokens generalizing before cs with
  | nil => cases scanFrom_begins h
  | cons t ts ih =>
      cases scanFrom_begins h with
      | stop => exact ⟨[], rfl, fun t ht => absurd ht List.not_mem_nil⟩
      | @lexeme gap chars rest kind _ _ hlexeme _ hbehind =>
          obtain ⟨ts, rfl, hts⟩ := ih hbehind
          refine ⟨ofPiece (behind (before ++ gap)) kind chars :: ts, by simp, ?_⟩
          exact List.forall_mem_cons.2 ⟨hlexeme.kind_ne_eof, hts⟩

/-- **Scanning loses nothing.**  The tokens of a text come in order and do not
overlap, each has the characters of the text from its index on, the last one
and only that is the mark of the end and stands there, and before the first
token, between any two and before the end there are only blanks and complete
comments. -/
theorem scanning_loses_nothing {src : String} {tokens : List Token} (h : scan src = .ok tokens) :
    InOrder tokens
      ∧ (∀ t ∈ tokens, (src.toList.drop t.location.start).take t.lexeme.length
          = t.lexeme.toList)
      ∧ (∃ ts last, tokens = ts ++ [last] ∧ last.kind = .eof ∧ last.lexeme = ""
          ∧ last.location.start = src.length ∧ ∀ t ∈ ts, t.kind ≠ .eof)
      ∧ Spaced src.toList 0 tokens := by
  have hscan : scanFrom (behind []) src.toList = .ok tokens := h
  refine ⟨inOrder_of_scanFrom hscan, take_drop_eq_lexeme hscan, ?_, spaced_of_scanFrom hscan⟩
  obtain ⟨ts, rfl, hts⟩ := ends_of_scanFrom hscan
  exact ⟨ts, _, rfl, rfl, rfl, String.length_toList, hts⟩

theorem scanning_loses_nothing_comments :
    let src := " a/* x **/<<=b// c"
    let tokens : List Token := [⟨.identifier, "a", ⟨0, 1, 1⟩⟩, ⟨.operator, "<<=", ⟨0, 10, 10⟩⟩,
      ⟨.identifier, "b", ⟨0, 13, 13⟩⟩, eof ⟨0, 18, 18⟩]
    scan src = .ok tokens ∧ InOrder tokens
      ∧ (∀ t ∈ tokens, (src.toList.drop t.location.start).take t.lexeme.length
          = t.lexeme.toList)
      ∧ Spaced src.toList 0 tokens := by
  intro src tokens
  have hscan : scan src = .ok tokens := by decide +kernel
  obtain ⟨horder, htext, _, hspaced⟩ := scanning_loses_nothing hscan
  exact ⟨hscan, horder, htext, hspaced⟩

end Token
end RuleBody
