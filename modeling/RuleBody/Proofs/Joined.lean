/-
  RuleBody.Proofs.Joined
  ──────────────────────
  **TEXTS THAT ARE PUT TOGETHER.**

  A text with a line feed behind it can be followed by any other text: no
  token and no comment that ends with the text runs on over the line feed.
  The tokens of the whole are those of the two texts (`scanned_in_place`),
  and those of the second are where they are in it, seen from the place
  behind the line feed:

      x = 1;           — `y` at line 0, column 2 of `- y;`
      - y;               and at line 1, column 2 of the whole

  Tokens can also be taken apart.  Written again with some blanks behind each
  they are read as they were (`written_apart_reads_same`); only a directive,
  which goes on to the end of its line, needs a line feed behind it.

  §1  places seen from another place;
  §2  a text at another place;
  §3  one piece before a line feed;
  §4  a text before a line feed;
  §5  tokens with blanks behind them.
-/
import RuleBody.Proofs.Layout
import RuleBody.Proofs.Tokens

namespace RuleBody

/-! ## §1. Places seen from another place. -/

namespace Location

variable (origin l : Location)

theorem zero_offsetBy : ({} : Location).offsetBy origin = origin := rfl

theorem next_offsetBy (c : Char) : (l.offsetBy origin).next c = (l.next c).offsetBy origin := by
  unfold next offsetBy
  by_cases hc : c = '\n'
  · simp [hc, Nat.add_assoc]
  · by_cases hl : l.line = 0 <;> simp [hc, hl, Nat.add_assoc]

/-- Moving over characters is the same seen from another place. -/
theorem past_offsetBy (cs : List Char) :
    (l.offsetBy origin).past cs = (l.past cs).offsetBy origin := by
  induction cs generalizing l with
  | nil => rfl
  | cons c cs ih => rw [past_cons, past_cons, next_offsetBy, ih]

/-- The place behind some characters is the place behind them in a text of
their own, seen from where they start. -/
theorem past_eq_offsetBy (cs : List Char) : l.past cs = (behind cs).offsetBy l := by
  have h := past_offsetBy l {} cs
  rwa [zero_offsetBy, show ({} : Location) = behind [] from rfl, past_behind] at h

/-- On the first line the column counts at least what was moved over. -/
theorem length_le_column_past {cs : List Char} (h : (l.past cs).line = 0) :
    cs.length ≤ (l.past cs).column := by
  rw [past_eq_offsetBy] at h ⊢
  have hcount : cs.count '\n' = 0 := (Nat.add_eq_zero_iff.1 h).2
  have hcolumn : (behind ([] ++ cs)).column = (behind []).column + cs.length :=
    column_behind_append (List.count_eq_zero.1 hcount)
  rw [List.nil_append] at hcolumn
  show cs.length ≤ if cs.count '\n' = 0 then l.column + (behind cs).column else _
  rw [if_pos hcount, hcolumn]
  omega

end Location

/-! ## §2. A text at another place. -/

namespace Token

open Location (behind past_behind past_offsetBy)

/-- The token seen from a text that holds its own at `origin`. -/
def offsetBy (t : Token) (origin : Location) : Token :=
  { t with location := t.location.offsetBy origin }

/-- The trouble seen from a text that holds its own at `origin`. -/
def ScanError.offsetBy (e : ScanError) (origin : Location) : ScanError :=
  { e with location := e.location.offsetBy origin }

theorem ofPiece_offsetBy (origin here : Location) (kind : Kind) (chars : List Char) :
    ofPiece (here.offsetBy origin) kind chars = (ofPiece here kind chars).offsetBy origin := by
  unfold ofPiece
  rw [past_offsetBy]
  by_cases hline : (here.past chars).line = 0
  · -- The column of the end is not cut off at zero here.
    have hcolumn := here.length_le_column_past hline
    simp [offsetBy, Location.offsetBy, hline, Nat.add_sub_assoc hcolumn]
  · simp [offsetBy, Location.offsetBy, hline]

theorem place_offsetBy (origin here : Location) (cs : List Char) (trouble : Trouble) :
    trouble.place (here.offsetBy origin) cs = (trouble.place here cs).offsetBy origin := by
  cases trouble with
  | stray c => rfl
  | openLiteral quote | openComment =>
      simp only [Trouble.place, past_offsetBy]
      rfl

/-- **Reading a text at another place moves what is read**, tokens and
trouble alike. -/
theorem scanFrom_offsetBy (origin here : Location) (cs : List Char) :
    scanFrom (here.offsetBy origin) cs
      = ((scanFrom here cs).map (List.map (·.offsetBy origin))).mapError (·.offsetBy origin) := by
  fun_induction scanFrom here cs with
  | case1 here => rw [scanFrom]; rfl
  | case2 here c cs trouble hpiece =>
      rw [scanFrom_of_trouble hpiece, place_offsetBy]
      rfl
  | case3 here c cs p hpiece hkind ih =>
      rw [scanFrom_of_gap hpiece hkind, past_offsetBy, ih]
  | case4 here c cs p hpiece kind hkind e hscan ih =>
      rw [scanFrom_of_token hpiece hkind, past_offsetBy, ih, hscan]
      rfl
  | case5 here c cs p hpiece kind hkind tokens hscan ih =>
      rw [scanFrom_of_token hpiece hkind, past_offsetBy, ih, hscan, ofPiece_offsetBy]
      rfl

/-! ## §3. One piece before a line feed. -/

/-- The piece with more text behind it. -/
def Piece.before (p : Piece) (more : List Char) : Piece := { p with rest := p.rest ++ more }

section

variable {p : Char → Bool} (hp : p '\n' = false) (cs rest : List Char)
include hp

theorem takeWhile_append_newline : (cs ++ '\n' :: rest).takeWhile p = cs.takeWhile p := by
  induction cs with
  | nil => simp [hp]
  | cons c cs ih => by_cases hc : p c <;> simp [hc, ih]

theorem dropWhile_append_newline :
    (cs ++ '\n' :: rest).dropWhile p = cs.dropWhile p ++ '\n' :: rest := by
  induction cs with
  | nil => simp [hp]
  | cons c cs ih => by_cases hc : p c <;> simp [hc, ih]

theorem Piece.run_append_newline (kind : Option Kind) (opening : List Char) :
    Piece.run kind opening p (cs ++ '\n' :: rest)
      = (Piece.run kind opening p cs).before ('\n' :: rest) := by
  rw [Piece.run, takeWhile_append_newline hp, dropWhile_append_newline hp]
  rfl

end

/-- A text that does not start with a character does not with a line feed
behind it either. -/
theorem append_newline_ne_cons {c : Char} (hc : c ≠ '\n') {cs : List Char}
    (h : ∀ ds, cs ≠ c :: ds) (rest ds : List Char) : cs ++ '\n' :: rest ≠ c :: ds := by
  intro hcons
  cases cs with
  | nil => exact hc (List.cons.inj hcons).1.symm
  | cons d cs =>
      obtain ⟨rfl, _⟩ := List.cons.inj hcons
      exact h cs rfl

/-- Without a point there is no fraction. -/
theorem number_of_not_point {digits cs : List Char} (h : ∀ ds, cs ≠ '.' :: ds) :
    number digits cs = Piece.run (some .integer) digits Char.isAlpha cs := by
  unfold number
  split
  · exact absurd rfl (h _)
  · rfl

theorem number_append_newline (digits cs rest : List Char) :
    number digits (cs ++ '\n' :: rest) = (number digits cs).before ('\n' :: rest) := by
  have hinteger : ∀ xs, Piece.run (some .integer) digits Char.isAlpha (xs ++ '\n' :: rest)
      = (Piece.run (some .integer) digits Char.isAlpha xs).before ('\n' :: rest) :=
    fun xs => Piece.run_append_newline (by decide) xs rest _ _
  by_cases hpoint : ∃ ds, cs = '.' :: ds
  · obtain ⟨ds, rfl⟩ := hpoint
    cases ds with
    -- The line feed stands where the first digit of a fraction would.
    | nil => exact hinteger ['.']
    | cons d ds =>
        rw [List.cons_append, List.cons_append]
        show (if d.isDigit then _ else _) = Piece.before (if d.isDigit then _ else _) _
        by_cases hd : d.isDigit = true
        · rw [if_pos hd, if_pos hd, takeWhile_append_newline (by decide),
            dropWhile_append_newline (by decide), Piece.run_append_newline (by decide)]
        · rw [if_neg hd, if_neg hd]
          exact hinteger ('.' :: d :: ds)
  · have hnone : ∀ ds, cs ≠ '.' :: ds := fun ds hcs => hpoint ⟨ds, hcs⟩
    rw [number_of_not_point hnone,
      number_of_not_point (append_newline_ne_cons (by decide) hnone rest), hinteger]

/-- A literal that is closed stays so. -/
theorem literal_append_more {kind : Kind} {quote : Char} {cs : List Char} {p : Piece}
    (h : literal kind quote cs = .ok p) (more : List Char) :
    literal kind quote (cs ++ more) = .ok (p.before more) := by
  unfold literal at h ⊢
  cases hclose : closeLiteral quote cs with
  | none =>
      rw [hclose] at h
      cases h
  | some r =>
      rw [hclose] at h
      cases h
      have hself := closeLiteral_self hclose (r.2 ++ more)
      rw [← List.append_assoc, closeLiteral_append hclose] at hself
      rw [hself]
      rfl

/-- A comment that is closed stays so. -/
theorem closeComment_append_more {cs body rest : List Char}
    (h : closeComment cs = some (body, rest)) (more : List Char) :
    closeComment (cs ++ more) = some (body, rest ++ more) := by
  fun_induction closeComment cs generalizing body rest with
  | case1 => cases h
  | case2 cs =>
      obtain ⟨rfl, rfl⟩ := Prod.mk.inj (Option.some.inj h)
      rfl
  | case3 c cs hmark ih =>
      obtain ⟨r, hr, hb⟩ := Option.map_eq_some_iff.1 h
      obtain ⟨rfl, rfl⟩ := Prod.mk.inj hb
      -- There is something behind `c`, so no closing mark comes about by what is added.
      cases cs with
      | nil => cases hr
      | cons d ds =>
          rw [List.cons_append, List.cons_append, closeComment, ← List.cons_append, ih hr]
          · rfl
          · rintro xs rfl hcons
            obtain ⟨rfl, _⟩ := List.cons.inj hcons
            exact hmark ds rfl rfl

theorem operator_append_newline {c : Char} {cs : List Char} {p : Piece}
    (h : operator c cs = .ok p) (rest : List Char) :
    operator c (cs ++ '\n' :: rest) = .ok (p.before ('\n' :: rest)) := by
  have hfind := @find?_append_stop (c :: cs) ('\n' :: rest) rfl
  rw [List.cons_append] at hfind
  unfold operator at h ⊢
  rw [hfind]
  split at h
  · rename_i op hop
    cases h
    have hfits := List.find?_some hop
    have hlength := (List.isPrefixOf_iff_prefix.1 hfits).length_le
    rw [← List.cons_append, List.drop_append_of_le_length hlength]
    rfl
  · split at h
    · rename_i hc
      cases h
      rw [if_pos hc]
      rfl
    · cases h

theorem slash_append_newline {cs : List Char} {p : Piece} (h : slash cs = .ok p)
    (rest : List Char) : slash (cs ++ '\n' :: rest) = .ok (p.before ('\n' :: rest)) := by
  unfold slash at h
  split at h
  · rename_i ds
    cases h
    exact congrArg Except.ok (Piece.run_append_newline (by decide) ('/' :: ds) rest _ _)
  · rename_i ds
    split at h
    · cases h
    · rename_i body after hclose
      cases h
      rw [List.cons_append, slash, closeComment_append_more hclose]
      rfl
  · rename_i hline hmarks
    rw [slash_eq_operator (append_newline_ne_cons (by decide) hline rest)
      (append_newline_ne_cons (by decide) hmarks rest), operator_append_newline h]

/-- **A line feed ends what the end of the text ends.** -/
theorem piece_append_newline {c : Char} {cs : List Char} {p : Piece} (h : piece c cs = .ok p)
    (rest : List Char) : piece c (cs ++ '\n' :: rest) = .ok (p.before ('\n' :: rest)) := by
  unfold piece at h ⊢
  split at h
  · cases h
    rfl
  split at h
  · rename_i hc
    cases h
    rw [if_pos hc]
    rfl
  rename_i hblank
  rw [if_neg hblank]
  split at h
  · rename_i hc
    cases h
    rw [if_pos hc, Piece.run_append_newline (by decide)]
  rename_i hdirective
  rw [if_neg hdirective]
  split at h
  · rename_i hc
    rw [if_pos hc, literal_append_more h]
  rename_i hstring
  rw [if_neg hstring]
  split at h
  · rename_i hc
    rw [if_pos hc, literal_append_more h]
  rename_i hchar
  rw [if_neg hchar]
  split at h
  · rename_i hc
    rw [if_pos hc, slash_append_newline h]
  rename_i hslash
  rw [if_neg hslash]
  split at h
  · rename_i hc
    cases h
    rw [if_pos hc, takeWhile_append_newline (by decide), dropWhile_append_newline (by decide),
      number_append_newline]
  rename_i hdigit
  rw [if_neg hdigit]
  split at h
  · rename_i hc
    cases h
    rw [if_pos hc, takeWhile_append_newline (by decide), dropWhile_append_newline (by decide)]
    rfl
  · rename_i hname
    rw [if_neg hname, operator_append_newline h]

/-! ## §4. A text before a line feed. -/

/-- **A text, a line feed and another text** are read one after the other:
the mark of the end of the first gives way to what is read of the second. -/
theorem scanFrom_append_newline {here : Location} {cs : List Char} {tokens : List Token}
    (h : scanFrom here cs = .ok tokens) (rest : List Char) :
    scanFrom here (cs ++ '\n' :: rest)
      = (scanFrom ((here.past cs).next '\n') rest).map (tokens.dropLast ++ ·) := by
  fun_induction scanFrom here cs generalizing tokens with
  | case1 here =>
      -- The line feed is all that is left of the first text.
      cases h
      have hpiece : piece '\n' rest = .ok ⟨none, ['\n'], rest⟩ := rfl
      rw [List.nil_append, scanFrom_of_gap hpiece rfl]
      show _ = Except.map id (scanFrom (here.next '\n') rest)
      rw [Except.map_id]
      rfl
  | case2 here c cs trouble hpiece => cases h
  | case3 here c cs p hpiece hkind ih =>
      obtain ⟨hsplit, _⟩ := piece_opens hpiece
      rw [List.cons_append, scanFrom_of_gap (piece_append_newline hpiece rest) hkind, ← hsplit,
        Location.past_append]
      exact ih h
  | case4 here c cs p hpiece kind hkind e hscan ih => cases h
  | case5 here c cs p hpiece kind hkind tokens' hscan ih =>
      obtain ⟨hsplit, _⟩ := piece_opens hpiece
      -- The mark of the end stands behind the token, not in its place.
      obtain ⟨ts, stop, rfl, _⟩ := Reads.of_scanFrom hscan
      cases h
      rw [List.cons_append, scanFrom_of_token (piece_append_newline hpiece rest) hkind, ← hsplit,
        Location.past_append]
      show Except.map _ (scanFrom (here.past p.chars) (p.rest ++ '\n' :: rest)) = _
      rw [ih hscan, ← List.cons_append, List.dropLast_concat, List.dropLast_concat]
      cases scanFrom (((here.past p.chars).past p.rest).next '\n') rest <;> rfl

/-- The tokens before the mark of the end are those that are no such mark. -/
theorem dropLast_eq_filter {before cs : List Char} {tokens : List Token}
    (h : scanFrom (behind before) cs = .ok tokens) :
    tokens.dropLast = tokens.filter (·.kind ≠ .eof) := by
  obtain ⟨ts, rfl, hts⟩ := ends_of_scanFrom h
  rw [List.dropLast_concat, List.filter_append, List.filter_eq_self.2 (by simpa using hts)]
  simp [eof]

/-- **A fragment is scanned in its place.**  Behind a text that can be scanned
and a line feed, a fragment can be scanned exactly if it can be by itself.
The tokens are those of the text without the mark of its end, and those of
the fragment, seen from where it starts; and so is what is wrong with it. -/
theorem scanned_in_place {text : String} {tokens : List Token} (h : scan text = .ok tokens)
    (fragment : String) :
    let origin : Location := ⟨text.toList.count '\n' + 1, 0, text.length + 1⟩
    ((∃ all, scan (text ++ "\n" ++ fragment) = .ok all) ↔ ∃ ts, scan fragment = .ok ts)
      ∧ (∀ ts, scan fragment = .ok ts → scan (text ++ "\n" ++ fragment)
          = .ok (tokens.filter (·.kind ≠ .eof) ++ ts.map (·.offsetBy origin)))
      ∧ ∀ e, scan fragment = .error e →
          scan (text ++ "\n" ++ fragment) = .error (e.offsetBy origin) := by
  intro origin
  have hscan : scanFrom (behind []) text.toList = .ok tokens := h
  have horigin : ((behind []).past text.toList).next '\n' = Location.offsetBy {} origin := by
    rw [past_behind, Location.next_behind]
    simp [behind, Location.offsetBy, origin, String.length_toList]
  have htext : (text ++ "\n" ++ fragment).toList
      = text.toList ++ '\n' :: fragment.toList := by
    simp [String.toList_append]
  have hall : scan (text ++ "\n" ++ fragment)
      = ((((scan fragment).map (List.map (·.offsetBy origin))).mapError
          (·.offsetBy origin))).map (tokens.filter (·.kind ≠ .eof) ++ ·) := by
    show scanFrom (behind []) (text ++ "\n" ++ fragment).toList = _
    rw [htext, scanFrom_append_newline hscan, horigin, scanFrom_offsetBy, dropLast_eq_filter hscan]
    rfl
  rw [hall]
  cases scan fragment with
  | ok ts =>
      refine ⟨iff_of_true ⟨_, rfl⟩ ⟨ts, rfl⟩, fun ts' hts => ?_, fun e he => ?_⟩
      · cases hts
        rfl
      · cases he
  | error e =>
      refine ⟨iff_of_false ?_ ?_, fun ts hts => ?_, fun e' he => ?_⟩
      · rintro ⟨tokens', hok⟩
        cases hok
      · rintro ⟨ts, hts⟩
        cases hts
      · cases hts
      · cases he
        rfl

/-- A text that ends in a directive, and behind it a literal of two lines or a
literal that is not closed. -/
theorem scanned_in_place_directive :
    let text := "a\n#d"
    let tokens : List Token := [⟨.identifier, "a", ⟨0, 0, 0⟩⟩, ⟨.directive, "#d", ⟨1, 0, 2⟩⟩,
      eof ⟨1, 2, 4⟩]
    let fragment := "+\"b\\\nc\" e"
    let ts : List Token := [⟨.operator, "+", ⟨0, 0, 0⟩⟩, ⟨.string, "\"b\\\nc\"", ⟨1, 0, 1⟩⟩,
      ⟨.identifier, "e", ⟨1, 3, 8⟩⟩, eof ⟨1, 4, 9⟩]
    scan text = .ok tokens ∧ scan fragment = .ok ts
      ∧ scan (text ++ "\n" ++ fragment)
        = .ok (tokens.filter (·.kind ≠ .eof) ++ ts.map (·.offsetBy ⟨2, 0, 5⟩))
      ∧ scan (text ++ "\n" ++ "'f") = .error ⟨.openLiteral '\'', ⟨2, 2, 5⟩⟩ := by
  intro text tokens fragment ts
  have htext : scan text = .ok tokens := by decide +kernel
  have hfragment : scan fragment = .ok ts := by decide +kernel
  have hopen : scan "'f" = .error ⟨.openLiteral '\'', ⟨0, 2, 0⟩⟩ := by decide +kernel
  have horigin : (⟨text.toList.count '\n' + 1, 0, text.length + 1⟩ : Location) = ⟨2, 0, 5⟩ := by
    decide
  obtain ⟨_, hok, _⟩ := scanned_in_place htext fragment
  obtain ⟨_, _, herror⟩ := scanned_in_place htext "'f"
  rw [horigin] at hok herror
  exact ⟨htext, hfragment, hok ts hfragment, herror _ hopen⟩

/-! ## §5. Tokens with blanks behind them. -/

/-- What may be written behind a token: blanks, at least one, and behind a
directive a line feed first. -/
structure Separates (t : Token) (blanks : String) : Prop where
  ne_empty : blanks ≠ ""
  isBlanks : ∀ c ∈ blanks.toList, c ∈ [' ', '\r', '\t', '\n']
  endsLine : t.kind = .directive → blanks.toList.head? = some '\n'

instance (t : Token) (blanks : String) : Decidable (Separates t blanks) :=
  decidable_of_iff (blanks ≠ "" ∧ blanks.toList.all isBlank = true
      ∧ (t.kind = .directive → blanks.toList.head? = some '\n'))
    ⟨fun h => ⟨h.1, fun c hc => isBlank_iff.1 (List.all_eq_true.1 h.2.1 c hc), h.2.2⟩,
      fun h => ⟨h.ne_empty, List.all_eq_true.2 fun c hc => isBlank_iff.2 (h.isBlanks c hc),
        h.endsLine⟩⟩

/-- The tokens as a text, each with its blanks behind it. -/
def writeApart (ts : List Token) (blanks : List String) : String :=
  String.join (List.zipWith (fun t w => t.lexeme ++ w) ts blanks)

/-- No token runs on over blanks. -/
theorem Separates.stops {t : Token} {blanks : String} (h : Separates t blanks)
    (rest : List Char) : t.kind.stops (blanks.toList ++ rest) = true := by
  have hne : blanks.toList ≠ [] := fun hnil => h.ne_empty (String.toList_eq_nil_iff.1 hnil)
  obtain ⟨c, cs, hcs⟩ := List.exists_cons_of_ne_nil hne
  have hblank := h.isBlanks c (by rw [hcs]; exact List.mem_cons_self)
  have hline := h.endsLine
  rw [hcs] at hline ⊢
  by_cases hkind : t.kind = .directive
  · obtain rfl := Option.some.inj (hline hkind)
    rw [hkind]
    rfl
  · have hplain : Text.continuesName c = false ∧ c ∉ shortOperators := by
      simp only [List.mem_cons, List.not_mem_nil, or_false] at hblank
      rcases hblank with rfl | rfl | rfl | rfl <;> decide
    exact EndsWord.stops (endsWord_cons (cs ++ rest) hplain.1 hplain.2) hkind

theorem Reads.blanks {cs rest : List Char} {words : List String}
    (hcs : ∀ c ∈ cs, c ∈ [' ', '\r', '\t', '\n']) (h : Reads rest words) :
    Reads (cs ++ rest) words := by
  induction cs with
  | nil => exact h
  | cons c cs ih =>
      obtain ⟨hc, hcs⟩ := List.forall_mem_cons.1 hcs
      exact .blank (isBlank_iff.2 hc) (ih hcs)

/-- What is written apart has the words of the tokens. -/
theorem reads_writeApart {ts : List Token} {blanks : List String}
    (h : List.Forall₂ Separates ts blanks) (hproper : ∀ t ∈ ts, t.IsProper) :
    Reads (writeApart ts blanks).toList (ts.map (·.lexeme)) := by
  induction h with
  | nil => exact .done
  | @cons t w ts blanks hw _ ih =>
      obtain ⟨ht, hproper⟩ := List.forall_mem_cons.1 hproper
      have hwrite : (writeApart (t :: ts) (w :: blanks)).toList
          = t.lexeme.toList ++ (w.toList ++ (writeApart ts blanks).toList) := by
        simp [writeApart, String.toList_join]
      rw [hwrite]
      exact .lexeme ht (hw.stops _) (.blanks hw.isBlanks (ih hproper))

/-- **Tokens that are written apart are read as they were**: the tokens of a
text, each with some blanks behind it, make a text that has the same kinds and
words in the same order, and then its end. -/
theorem written_apart_reads_same {src : String} {ts : List Token} {last : Token}
    {blanks : List String} (h : scan src = .ok (ts ++ [last]))
    (hblanks : List.Forall₂ Separates ts blanks) :
    last.face = (.eof, "")
      ∧ ∃ again place, scan (writeApart ts blanks) = .ok (again ++ [eof place])
        ∧ again.map face = ts.map face := by
  obtain ⟨ts', stop, htokens, _, hproper⟩ := Reads.of_scanFrom h
  obtain ⟨rfl, hlast⟩ := List.append_inj' htokens rfl
  obtain ⟨again, place, hscan, hwords, hagain⟩ := (reads_writeApart hblanks hproper).scanFrom {}
  refine ⟨by rw [List.singleton_inj.1 hlast]; rfl, again, place, hscan, ?_⟩
  rw [map_face hagain, map_face hproper, hwords]

/-- A directive, a name, an operator of three characters and a number with a
suffix, with blanks of all four kinds behind them. -/
theorem written_apart_reads_same_directive :
    let ts : List Token := [⟨.directive, "#p", ⟨0, 0, 0⟩⟩, ⟨.identifier, "x", ⟨1, 0, 3⟩⟩,
      ⟨.operator, "<<=", ⟨1, 1, 4⟩⟩, ⟨.float, "1.5f", ⟨1, 4, 7⟩⟩]
    let blanks := ["\n ", "\t", " ", "\r"]
    scan "#p\nx<<=1.5f//c" = .ok (ts ++ [eof ⟨1, 11, 14⟩]) ∧ List.Forall₂ Separates ts blanks
      ∧ writeApart ts blanks = "#p\n x\t<<= 1.5f\r"
      ∧ ∃ again place, scan (writeApart ts blanks) = .ok (again ++ [eof place])
        ∧ again.map face = ts.map face := by
  intro ts blanks
  have hscan : scan "#p\nx<<=1.5f//c" = .ok (ts ++ [eof ⟨1, 11, 14⟩]) := by decide +kernel
  have hblanks : List.Forall₂ Separates ts blanks := by decide +kernel
  obtain ⟨_, hagain⟩ := written_apart_reads_same hscan hblanks
  exact ⟨hscan, hblanks, by decide +kernel, hagain⟩

end Token
end RuleBody
