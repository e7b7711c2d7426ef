/-
  RuleBody.Proofs.RoundTrip
  ─────────────────────────
  **READING UNDOES WRITING.**

  Whatever the reader makes of a text can be written, and what is written is
  read as the very same tree, wherever it is read
  (`print_parse_round_trip`).  The text itself may change: `while` is written
  as `for`, and blanks are set anew.

  The text of a tree reads as its words (`Block.Legible.written`), and from
  the words the reader gets back to where it was (`Parse.replay`); what is
  left is the end of the fragment (`Parse.step_eof`).
-/
import RuleBody.Proofs.Replay
import RuleBody.Parse.Fragment

namespace RuleBody

/-! ## §1. Trees without notes. -/

namespace Expr

mutual

/-- The expression without its tags. -/
def bare : Expr → Expr
  | ⟨kind, text, parts, _⟩ => ⟨kind, text, bareAll parts, {}⟩

/-- The expressions without their tags. -/
def bareAll : List Expr → List Expr
  | [] => []
  | e :: es => bare e :: bareAll es

end

theorem bareAll_eq_self {es : List Expr} (h : ∀ e ∈ es, e.bare = e) : bareAll es = es := by
  induction es with
  | nil => rfl
  | cons e es ih =>
      obtain ⟨he, hes⟩ := List.forall_mem_cons.1 h
      rw [bareAll, he, ih hes]

/-- A legible expression carries no tags. -/
theorem Legible.bare_eq {e : Expr} (h : e.Legible) : e.bare = e := by
  induction h with
  | nil => rfl
  | leaf => rfl
  | @chain parts _ ih =>
      show (⟨.chain, "", bareAll parts, {}⟩ : Expr) = _
      rw [bareAll_eq_self ih]
      rfl
  | @args arguments _ ih =>
      show (⟨.args, "", bareAll arguments, {}⟩ : Expr) = _
      rw [bareAll_eq_self ih]
      rfl
  | @call name arguments _ _ _ ih =>
      show (⟨.call, "", [ident name, ⟨.args, "", bareAll arguments, {}⟩], {}⟩ : Expr) = _
      rw [bareAll_eq_self ih]
      rfl

theorem bareAll_of_legible {es : List Expr} (h : ∀ e ∈ es, e.Legible) : bareAll es = es :=
  bareAll_eq_self fun e he => (h e he).bare_eq

end Expr

namespace Stmt

mutual

/-- The statement without tags and without remembered inductions. -/
def bare : Stmt → Stmt
  | .basic es _ => .basic (Expr.bareAll es) {}
  | .block es ss _ _ => .block (Expr.bareAll es) (bareAll ss) {} {}
  | .raw es src _ => .raw (Expr.bareAll es) src {}
  | .loop es body _ _ => .loop (Expr.bareAll es) (bare body) none {}
  | .cond es yes none _ => .cond (Expr.bareAll es) (bare yes) none {}
  | .cond es yes (some no) _ => .cond (Expr.bareAll es) (bare yes) (some (bare no)) {}
  | .switch es body _ => .switch (Expr.bareAll es) (bare body) {}

/-- The statements without tags and without remembered inductions. -/
def bareAll : List Stmt → List Stmt
  | [] => []
  | s :: ss => bare s :: bareAll ss

end

theorem bareAll_eq_self {ss : List Stmt} (h : ∀ s ∈ ss, s.bare = s) : bareAll ss = ss := by
  induction ss with
  | nil => rfl
  | cons s ss ih =>
      obtain ⟨hs, hss⟩ := List.forall_mem_cons.1 h
      rw [bareAll, hs, ih hss]

/-- What the reader makes carries no notes. -/
theorem Pristine.bare_eq {s : Stmt} (h : s.Pristine) : s.bare = s := by
  induction h with
  | empty => rfl
  | raw => rfl
  | basic he => rw [bare, Expr.bareAll_of_legible (by simpa using he)]
  | block _ ih =>
      rw [bare, bareAll_eq_self ih]
      rfl
  | loop hd ht hi _ ih =>
      rw [bare, ih, Expr.bareAll_of_legible (by simp [hd, ht, hi])]
  | @cond c yes no hc _ _ ihyes ihno =>
      cases no with
      | none => rw [bare, ihyes, Expr.bareAll_of_legible (by simpa using hc)]
      | some no => rw [bare, ihyes, ihno no rfl, Expr.bareAll_of_legible (by simpa using hc)]
  | switch hc _ ih => rw [bare, ih, Expr.bareAll_of_legible (by simpa using hc)]

end Stmt

/-- The block without tags and without remembered inductions. -/
def Block.bare (b : Block) : Block := ⟨Stmt.bareAll b.stmts, {}⟩

/-! ## §2. The end of a fragment. -/

namespace Parse

theorem stepExpr_eof (purpose : Purpose) (levels : List Level) (parts : List Expr)
    (context : Context) (stop : Location) :
    stepExpr purpose levels parts context (.eof stop) = .error ⟨.unfinished, .eof stop⟩ := by
  have hgo : ∀ levels : List Level, stepExpr.go purpose levels parts context (.eof stop)
      = .error ⟨.unfinished, .eof stop⟩ := fun _ => rfl
  cases levels with
  | nil =>
      have hends : purpose.endsAt (.eof stop) = false := by cases purpose <;> rfl
      simp only [stepExpr, hends]
      exact hgo []
  | cons l outer =>
      obtain ⟨bracket, before⟩ := l
      cases bracket <;> rfl

theorem stepStart_eof {context : Context} {state' : State} {stop : Location}
    (h : stepStart context (.eof stop) = .ok state') :
    ∃ ss, context = .top ss ∧ state' = .start (.top ss) := by
  cases context with
  | top ss =>
      cases h
      exact ⟨ss, rfl, rfl⟩
  | block | loop | yes | no | switch => cases h

theorem stepDone_eof {s : Stmt} {context : Context} {state' : State} {stop : Location}
    (hlegible : (State.done s context).Legible)
    (h : stepDone s context (.eof stop) = .ok state') :
    ∃ ss, state' = .start (.top ss) ∧ (∀ s' ∈ ss, s'.Pristine)
      ∧ context.words ++ s.words = Stmt.wordsOf ss := by
  obtain ⟨context', hattach, hcontext', hwords⟩ :=
    Context.attach_false hlegible.1 hlegible.2
  have hstart : stepStart context' (.eof stop) = .ok state' := by
    unfold stepDone at h
    rwa [show (Token.eof stop).isKeyword "else" = false from rfl, hattach] at h
  obtain ⟨ss, rfl, rfl⟩ := stepStart_eof hstart
  exact ⟨ss, rfl, hcontext', hwords.symm⟩

/-- **The end of a fragment** is reached with all its statements complete,
and just as well from the words of the state. -/
theorem step_eof {state state' : State} {stop : Location} (hlegible : state.Legible)
    (h : step state (.eof stop) = .ok state') :
    ∃ ss, state' = .start (.top ss) ∧ (∀ s ∈ ss, s.Pristine) ∧ state.words = Stmt.wordsOf ss
      ∧ ∀ stop', step state.canonical (.eof stop') = .ok (.start (.top ss)) := by
  cases state with
  | start context =>
      obtain ⟨ss, rfl, rfl⟩ := stepStart_eof h
      exact ⟨ss, rfl, hlegible, rfl, fun _ => rfl⟩
  | head => cases h
  | colon => cases h
  | expr purpose levels parts context =>
      have hexpr : stepExpr purpose levels parts context (.eof stop) = .ok state' := h
      rw [stepExpr_eof] at hexpr
      cases hexpr
  | labelled s context | done s context =>
      have hdone : stepDone s context (.eof stop) = .ok state' := h
      obtain ⟨ss, rfl, hpristine, hwords⟩ := stepDone_eof hlegible hdone
      exact ⟨ss, rfl, hpristine, hwords, fun _ => stepDone_anywhere hdone⟩

end Parse

/-! ## §3. Fragments. -/

/-- The words lead to the statements. -/
def Stmt.ReadBack (ss : List Stmt) : Prop :=
  ∃ state, Parse.steps (.start (.top [])) ((wordsOf ss).map .plain) = .ok state
    ∧ ∀ stop, Parse.step state (.eof stop) = .ok (.start (.top ss))

theorem Parse.stmts_eq_ok {ts : List Token} {stop : Location} {ss : List Stmt} :
    Parse.stmts (ts ++ [.eof stop]) = .ok ss
      ↔ ∃ state state', steps (.start (.top [])) ts = .ok state
        ∧ step state (.eof stop) = .ok state' ∧ state'.context.topStmts = ss := by
  unfold Parse.stmts
  rw [steps_append]
  cases steps (.start (.top [])) ts with
  | error e =>
      constructor
      · rintro ⟨⟩
      · rintro ⟨state, state', ⟨⟩, _⟩
  | ok state =>
      show (step state (.eof stop) >>= fun state' => steps state' []) >>= _ = _ ↔ _
      cases hend : step state (.eof stop) with
      | error e =>
          constructor
          · rintro ⟨⟩
          · rintro ⟨_, state', ⟨⟩, hend', _⟩
            rw [hend] at hend'
            cases hend'
      | ok state' =>
          constructor
          · rintro ⟨⟩
            exact ⟨state, state', rfl, hend, rfl⟩
          · rintro ⟨_, state'', ⟨⟩, hend', rfl⟩
            rw [hend] at hend'
            cases hend'
            rfl

theorem Parse.stmts_spec {ts : List Token} {stop : Location} {ss : List Stmt}
    (hproper : ∀ t ∈ ts, t.IsProper) (h : Parse.stmts (ts ++ [.eof stop]) = .ok ss) :
    (∀ s ∈ ss, s.Pristine) ∧ Stmt.ReadBack ss := by
  obtain ⟨state, state', hsteps, hend, rfl⟩ := stmts_eq_ok.1 h
  have hstart : (State.start (.top [])).Legible := by
    intro s hs
    cases hs
  obtain ⟨hlegible, added, hwords, hreplay⟩ := replay hproper hstart hsteps
  obtain ⟨ss, rfl, hpristine, hall, hend'⟩ := step_eof hlegible hend
  have hadded : added = Stmt.wordsOf ss := by
    rw [← hall, hwords]
    rfl
  refine ⟨hpristine, state.canonical, ?_, hend'⟩
  show steps _ ((Stmt.wordsOf ss).map .plain) = _
  rw [← hadded]
  exact hreplay

/-- What a fragment is read as is pristine, and its words lead to it. -/
theorem Block.parse_spec {src : String} {origin : Location} {b : Block}
    (h : Block.parse src origin = .ok b) :
    b = ⟨b.stmts, {}⟩ ∧ (∀ s ∈ b.stmts, s.Pristine) ∧ Stmt.ReadBack b.stmts := by
  unfold Block.parse at h
  split at h
  · cases h
  · rename_i tokens hscan
    split at h
    · cases h
    · rename_i ss hstmts
      cases h
      obtain ⟨ts, stop, rfl, _, hproper⟩ := Token.Reads.of_scanFrom hscan
      exact ⟨rfl, Parse.stmts_spec hproper hstmts⟩

/-- A text with the words of some statements is read as these. -/
theorem Block.parse_of_reads {text : String} {ss : List Stmt}
    (hreads : Token.Reads text.toList (Stmt.wordsOf ss)) (hback : Stmt.ReadBack ss)
    (there : Location) : Block.parse text there = .ok ⟨ss, {}⟩ := by
  obtain ⟨state, hsteps, hend⟩ := hback
  obtain ⟨ts, stop, hscan, hwords, hproper⟩ := hreads.scanFrom {}
  have hts : Parse.steps (.start (.top [])) ts = .ok state := by
    rw [← hwords] at hsteps
    exact Parse.steps_anywhere hproper hsteps
  have hstmts : Parse.stmts (ts ++ [.eof stop]) = .ok ss :=
    Parse.stmts_eq_ok.2 ⟨state, _, hts, hend stop, rfl⟩
  unfold Block.parse Token.scan
  rw [hscan]
  simp only [hstmts]

/-! ## §4. Round trips. -/

/-- A block that was read is written, and what is written is read as it. -/
theorem Block.round_trip {src : String} {origin : Location} {b : Block}
    (h : Block.parse src origin = .ok b) :
    b.bare = b ∧ ∃ text, b.print = .ok text ∧ ∀ there, Block.parse text there = .ok b := by
  obtain ⟨hb, hpristine, hback⟩ := Block.parse_spec h
  obtain ⟨text, htext, hreads⟩ := Block.Legible.written fun s hs => (hpristine s hs).legible
  refine ⟨?_, text, htext, fun there => ?_⟩
  · rw [Block.bare, Stmt.bareAll_eq_self fun s hs => (hpristine s hs).bare_eq]
    exact hb.symm
  · rw [Block.parse_of_reads hreads hback there]
    exact congrArg _ hb.symm

theorem Stmt.parse_eq_ok {src : String} {origin : Location} {s : Stmt} :
    Stmt.parse src origin = .ok s
      ↔ ∃ b, Block.parse src origin = .ok b ∧ b.stmts = [s] := by
  unfold Stmt.parse
  cases hb : Block.parse src origin with
  | error e =>
      constructor
      · rintro ⟨⟩
      · rintro ⟨b, ⟨⟩, _⟩
  | ok b =>
      dsimp only [bind, Except.bind]
      constructor
      · intro h
        split at h
        · rename_i s' hs
          cases h
          exact ⟨b, rfl, hs⟩
        · cases h
      · rintro ⟨_, ⟨⟩, hs⟩
        rw [hs]
        rfl

/-- A statement that was read is written, and what is written is read as
it. -/
theorem Stmt.round_trip {src : String} {origin : Location} {s : Stmt}
    (h : Stmt.parse src origin = .ok s) :
    s.bare = s ∧ ∃ text, s.print = .ok text ∧ ∀ there, Stmt.parse text there = .ok s := by
  obtain ⟨⟨_, tags⟩, hparse, rfl⟩ := Stmt.parse_eq_ok.1 h
  obtain ⟨hbare, text, htext, hback⟩ := Block.round_trip hparse
  obtain ⟨hbares, _⟩ := Block.mk.inj hbare
  refine ⟨(List.cons.inj hbares).1, text, htext, fun there => ?_⟩
  exact Stmt.parse_eq_ok.2 ⟨_, hback there, rfl⟩

theorem Expr.parse_eq_ok {src : String} {origin : Location} {e : Expr} :
    Expr.parse src origin = .ok e
      ↔ ∃ es tags, Stmt.parse (src ++ ";") origin = .ok (.basic es tags)
        ∧ (es = [] ∧ e = .nil ∨ es = [e]) := by
  unfold Expr.parse
  cases Stmt.parse (src ++ ";") origin with
  | error e =>
      constructor
      · rintro ⟨⟩
      · rintro ⟨es, tags, ⟨⟩, _⟩
  | ok s =>
      dsimp only [bind, Except.bind]
      constructor
      · intro h
        split at h
        · cases h
          exact ⟨[], _, rfl, .inl ⟨rfl, rfl⟩⟩
        · cases h
          exact ⟨[e], _, rfl, .inr rfl⟩
        · cases h
      · rintro ⟨es, tags, ⟨⟩, ⟨rfl, rfl⟩ | rfl⟩
        · rfl
        · rfl

/-- What is read as an expression is legible. -/
theorem Expr.legible_of_parse {src : String} {origin : Location} {e : Expr}
    (h : Expr.parse src origin = .ok e) : e.Legible := by
  obtain ⟨es, tags, hstmt, he⟩ := Expr.parse_eq_ok.1 h
  obtain ⟨b, hblock, hstmts⟩ := Stmt.parse_eq_ok.1 hstmt
  obtain ⟨_, hpristine, _⟩ := Block.parse_spec hblock
  have hlegible := (hpristine (.basic es tags) (by simp [hstmts])).legible
  rcases he with ⟨rfl, rfl⟩ | rfl
  · exact .nil
  · cases hlegible with
    | basic he => exact he

/-- An expression that was read is written, and what is written is read as
it. -/
theorem Expr.round_trip {src : String} {origin : Location} {e : Expr}
    (h : Expr.parse src origin = .ok e) :
    e.bare = e ∧ ∃ text, e.print = .ok text ∧ ∀ there, Expr.parse text there = .ok e := by
  obtain ⟨es, tags, hparse, he⟩ := Expr.parse_eq_ok.1 h
  obtain ⟨hbare, text, htext, hback⟩ := Stmt.round_trip hparse
  -- The text of the statement is the text of the expression and a semicolon.
  have hprint : ∃ text', e.print = .ok text' ∧ text = text' ++ ";" := by
    rcases he with ⟨rfl, rfl⟩ | rfl
    · cases htext
      exact ⟨"", rfl, rfl⟩
    · cases hprint : e.print with
      | error fault => simp [Stmt.print, printJoined, hprint] at htext
      | ok text' =>
          refine ⟨text', rfl, ?_⟩
          simpa [Stmt.print, printJoined, hprint, eq_comm] using htext
  obtain ⟨text', htext', rfl⟩ := hprint
  refine ⟨?_, text', htext', fun there => Expr.parse_eq_ok.2 ⟨es, tags, hback there, he⟩⟩
  rcases he with ⟨rfl, rfl⟩ | rfl
  · rfl
  · obtain ⟨hbares, _⟩ := Stmt.basic.inj hbare
    exact (List.cons.inj hbares).1

/-- **Reading undoes writing.**  What is read from a text, as a block, as a
statement or as an expression, carries no notes, is written, and is read as
the very same tree from what is written, wherever that stands. -/
theorem print_parse_round_trip (src : String) (origin : Location) :
    (∀ b, Block.parse src origin = .ok b →
      b.bare = b ∧ ∃ text, b.print = .ok text ∧ ∀ there, Block.parse text there = .ok b)
    ∧ (∀ s, Stmt.parse src origin = .ok s →
      s.bare = s ∧ ∃ text, s.print = .ok text ∧ ∀ there, Stmt.parse text there = .ok s)
    ∧ (∀ e, Expr.parse src origin = .ok e →
      e.bare = e ∧ ∃ text, e.print = .ok text ∧ ∀ there, Expr.parse text there = .ok e) :=
  ⟨fun _ => Block.round_trip, fun _ => Stmt.round_trip, fun _ => Expr.round_trip⟩

/-- A loop with only a test, whose text changes, and an expression whose
subscript takes the name before it along. -/
theorem print_parse_round_trip_while :
    let s : Stmt := .loop [.nil, .ident "n", .nil]
      (.basic [.call (.ident "f") (.args [.ident "n", .nil])] {}) none {}
    let e : Expr := .chain
      [.chain [.ident "a", .op "[", .ident "i", .op "]"], .op "=", .lit "1"]
    Block.parse "while(n) f(n,);" {} = .ok ⟨[s], {}⟩
    ∧ (∃ text, Block.print ⟨[s], {}⟩ = .ok text ∧ Block.parse text {} = .ok ⟨[s], {}⟩)
    ∧ (∃ text, s.print = .ok text ∧ Stmt.parse text {} = .ok s)
    ∧ Expr.parse "a[i]=1" {} = .ok e
    ∧ ∃ text, e.print = .ok text ∧ Expr.parse text {} = .ok e := by
  intro s e
  have hblock : Block.parse "while(n) f(n,);" {} = .ok ⟨[s], {}⟩ := by decide +kernel
  have hstmt : Stmt.parse "while(n) f(n,);" {} = .ok s := by decide +kernel
  have hexpr : Expr.parse "a[i]=1" {} = .ok e := by decide +kernel
  obtain ⟨hblocks, hstmts, _⟩ := print_parse_round_trip "while(n) f(n,);" {}
  obtain ⟨_, blockText, hblockText, hblockBack⟩ := hblocks _ hblock
  obtain ⟨_, stmtText, hstmtText, hstmtBack⟩ := hstmts _ hstmt
  obtain ⟨_, exprText, hexprText, hexprBack⟩ := (print_parse_round_trip "a[i]=1" {}).2.2 _ hexpr
  exact ⟨hblock, ⟨blockText, hblockText, hblockBack {}⟩, ⟨stmtText, hstmtText, hstmtBack {}⟩,
    hexpr, exprText, hexprText, hexprBack {}⟩

end RuleBody
