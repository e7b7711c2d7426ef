/-
  RuleBody.Proofs.Tidy
  ────────────────────
  **TREES THAT ARE READ BACK.**

  A legible tree can be written, but what is written need not be read as the
  tree: an `else` joins the nearest conditional that lacks one, and a
  statement that starts with a brace is a block.  A tree is tidy where this
  cannot happen:

      expressions        — their words lead the reader to them (`IsSpelt`)
      simple statements  — do not start like a block or a label (`Opens`)
      first branches     — leave nothing that an `else` could join (`closed`)

  Tidy trees are read back (`Tidy.rereads`), and what is read is tidy
  (`Moves.tidy`).  A tree need not have been read to be tidy, so this goes
  on where `Replay` stops: at trees that are put together otherwise.

  §1  expressions;
  §2  tidy statements;
  §3  tidy statements are read back;
  §4  what is read is tidy;
  §5  texts.
-/
import RuleBody.Proofs.Tokens
import RuleBody.Proofs.Notes

namespace RuleBody

open Token (IsLexeme)
open RuleBody.Expr (wordsOf)

namespace Parse

/-! ## §1. Expressions. -/

/-- Reading the words leads from the first state to the second. -/
def Reaches (state : State) (words : List String) (state' : State) : Prop :=
  steps state (words.map .plain) = .ok state'

theorem Reaches.append {state middle state' : State} {xs ys : List String}
    (h : Reaches state xs middle) (h' : Reaches middle ys state') :
    Reaches state (xs ++ ys) state' := by
  unfold Reaches
  rw [List.map_append, steps_append, show steps state (xs.map .plain) = _ from h]
  exact h'

/-- The words lead, in an expression that is read for the purpose, to the
open brackets and the parts. -/
inductive Spelt (purpose : Purpose) : List String → List Level → List Expr → Prop where
  | nil : Spelt purpose [] [] []
  | snoc {words : List String} {levels levels' : List Level} {parts parts' : List Expr}
      {word : String} (h : Spelt purpose words levels parts) (hword : IsLexeme word)
      (hends : levels = [] → purpose.endsAt (.plain word) = false)
      (hgrows : Grows (.plain word) levels parts levels' parts') :
      Spelt purpose (words ++ [word]) levels' parts'

namespace Spelt

variable {purpose : Purpose} {words : List String} {levels : List Level} {parts : List Expr}

theorem reaches (h : Spelt purpose words levels parts) (context : Context) :
    Reaches (.expr purpose [] [] context) words (.expr purpose levels parts context) := by
  induction h with
  | nil => rfl
  | snoc _ _ hends hgrows ih =>
      exact ih.append (steps_one (hgrows.stepExpr hends context))

/-- What is spelt is legible, and the words are its words. -/
theorem spec (h : Spelt purpose words levels parts) :
    (∀ l ∈ levels, l.Legible) ∧ (∀ e ∈ parts, e.Legible)
      ∧ words = levelsWords levels ++ wordsOf parts := by
  induction h with
  | nil => simp [levelsWords]
  | snoc _ hword _ hgrows ih =>
      obtain ⟨hlevels, hparts, rfl⟩ := ih
      have hext := hgrows.extended (show (Token.plain _).IsProper from hword) hlevels hparts
      refine ⟨hext.levels, hext.parts, ?_⟩
      rw [hext.words, List.append_assoc]
      rfl

/-- Only labels are read in a way of their own: they end at a colon. -/
theorem change (h : Spelt purpose words levels parts) {other : Purpose} (hother : other ≠ .label) :
    Spelt other words levels parts := by
  induction h with
  | nil => exact .nil
  | snoc _ hword _ hgrows ih =>
      refine ih.snoc hword ?_ hgrows
      rintro rfl
      exact hgrows.not_endsAt hother

theorem eq_nil (h : Spelt purpose words levels parts) (hwords : words = []) :
    levels = [] ∧ parts = [] := by
  cases h with
  | nil => exact ⟨rfl, rfl⟩
  | snoc => simp at hwords

/-- The first word goes on where nothing has been read. -/
theorem head_grows {word : String} (h : Spelt purpose words levels parts)
    (hword : word ∈ words.head?) : ∃ levels' parts', Grows (.plain word) [] [] levels' parts' := by
  induction h with
  | nil => cases hword
  | @snoc words _ _ _ _ _ h _ _ hgrows ih =>
      cases words with
      | nil =>
          obtain rfl := Option.some.inj hword
          obtain ⟨rfl, rfl⟩ := h.eq_nil rfl
          exact ⟨_, _, hgrows⟩
      | cons w ws => exact ih hword

end Spelt
end Parse

open Parse (Spelt Reaches Purpose State Context Moves Grows)

namespace Expr

/-- The words of the expression lead to it, where it is read for the
purpose. -/
def IsSpelt (purpose : Purpose) (e : Expr) : Prop :=
  ∃ words parts, Spelt purpose words [] parts ∧ e = Parse.collapse parts

/-- The expression does not start like a block or a label. -/
def Opens (e : Expr) : Prop := ∀ word ∈ e.words.head?, Parse.OpensExpr (.plain word)

theorem isSpelt_nil (purpose : Purpose) : nil.IsSpelt purpose := ⟨[], [], .nil, rfl⟩

namespace IsSpelt

variable {purpose : Purpose} {e : Expr}

theorem spec (h : e.IsSpelt purpose) :
    e.Legible ∧ ∃ parts, Spelt purpose e.words [] parts ∧ e = Parse.collapse parts := by
  obtain ⟨words, parts, hspelt, rfl⟩ := h
  obtain ⟨_, hparts, hwords⟩ := hspelt.spec
  refine ⟨Parse.collapse_legible hparts, parts, ?_, rfl⟩
  rwa [Parse.collapse_words, ← show words = wordsOf parts from hwords]

theorem legible (h : e.IsSpelt purpose) : e.Legible := h.spec.1

theorem change (h : e.IsSpelt purpose) {other : Purpose} (hother : other ≠ .label) :
    e.IsSpelt other := by
  obtain ⟨words, parts, hspelt, rfl⟩ := h
  exact ⟨words, parts, hspelt.change hother, rfl⟩

/-- The words of the expression, and the mark that ends it. -/
theorem reaches_end (h : e.IsSpelt purpose) {mark : String}
    (hends : purpose.endsAt (.plain mark) = true) (context : Context) :
    Reaches (.expr purpose [] [] context) (e.words ++ [mark]) (purpose.finish e context) := by
  obtain ⟨_, parts, hspelt, he⟩ := h.spec
  have hmark : Parse.step (.expr purpose [] parts context) (.plain mark)
      = .ok (purpose.finish e context) := by
    rw [he]
    exact if_pos hends
  exact (hspelt.reaches context).append (Parse.steps_one hmark)

/-- A simple statement is read from its start. -/
theorem reaches_from_start (h : e.IsSpelt .statement) (hopens : e.Opens) (hnil : e ≠ .nil)
    (context : Context) :
    Reaches (.start context) (e.words ++ [";"]) (.done (.ofExpr e) context) := by
  have hend := h.reaches_end (show Purpose.statement.endsAt (.plain ";") = true by decide) context
  obtain ⟨hlegible, parts, hspelt, he⟩ := h.spec
  have hfinish : Purpose.statement.finish e context = .done (.ofExpr e) context := by
    have hkind : e.isNil = false :=
      Bool.eq_false_iff.2 fun h => hnil (Parse.isNil_of_legible hlegible h)
    show State.done (if e.isNil then .empty else .ofExpr e) context = _
    rw [hkind]
    rfl
  rw [hfinish] at hend
  cases hwords : e.words with
  | nil =>
      -- Without words there would be no parts.
      obtain ⟨_, rfl⟩ := hspelt.eq_nil hwords
      exact absurd he hnil
  | cons word words =>
      obtain ⟨levels', parts', hgrows⟩ :=
        hspelt.head_grows (show word ∈ e.words.head? by rw [hwords]; rfl)
      rw [hwords] at hend
      have hstart : Parse.step (.start context) (.plain word)
          = Parse.step (.expr .statement [] [] context) (.plain word) :=
        Parse.stepStart_of_grows (hopens word (by rw [hwords]; rfl)) hgrows
      unfold Reaches at hend ⊢
      rw [List.cons_append, List.map_cons, Parse.steps_cons] at hend ⊢
      rwa [hstart]

end IsSpelt
end Expr

/-! ## §2. Tidy statements. -/

/-- Whether an `else` behind the statement would not join a conditional in
it. -/
def Stmt.closed : Stmt → Bool
  | .loop _ body _ _ | .switch _ body _ => body.closed
  | .cond _ _ none _ => false
  | .cond _ _ (some no) _ => no.closed
  | _ => true

/-- A statement whose words lead to it.  Tags and remembered inductions do
not matter. -/
inductive Stmt.Tidy : Stmt → Prop where
  | empty {tags : Tags} : Tidy (.basic [] tags)
  | simple {e : Expr} {tags : Tags} : e.IsSpelt .statement → e.Opens → e ≠ .nil →
      Tidy (.basic [e] tags)
  | case {e : Expr} {tags : Tags} : e.IsSpelt .label →
      Tidy (.basic [.chain [.keyword "case", e, .op ":"]] tags)
  | default {tags : Tags} : Tidy (.basic [.chain [.keyword "default", .op ":"]] tags)
  | block {ss : List Stmt} {b tags : Tags} : (∀ s ∈ ss, Tidy s) → Tidy (.block [] ss b tags)
  | raw {src : String} {tags : Tags} : Token.Lexeme .directive src.toList →
      Tidy (.raw [] src tags)
  | loop {d t i : Expr} {body : Stmt} {induction : Option Induction} {tags : Tags} :
      d.IsSpelt .statement → t.IsSpelt .statement → i.IsSpelt .statement → Tidy body →
      Tidy (.loop [d, t, i] body induction tags)
  | cond {c : Expr} {yes : Stmt} {no : Option Stmt} {tags : Tags} : c.IsSpelt .statement →
      Tidy yes → (∀ s ∈ no, Tidy s) → (no.isSome = true → yes.closed = true) →
      Tidy (.cond [c] yes no tags)
  | switch {c : Expr} {body : Stmt} {tags : Tags} : c.IsSpelt .statement → Tidy body →
      Tidy (.switch [c] body tags)

namespace Stmt

theorem closed_bare (s : Stmt) : s.bare.closed = s.closed := by
  induction s using Stmt.inductionOn with
  | basic | raw | block => rfl
  | loop es body i tags ih => rw [bare, closed, closed, ih]
  | switch es body tags ih => rw [bare, closed, closed, ih]
  | cond es yes no tags _ ihno =>
      cases no with
      | none => rfl
      | some no => rw [bare, closed, closed, ihno no rfl]

end Stmt

/-! ## §3. Tidy statements are read back. -/

namespace Parse

/-- The state goes on as if the statement had just been completed in its
context; behind an `else`, only if the statement is closed. -/
def Completes (state : State) (s : Stmt) (context : Context) : Prop :=
  ∃ s' context', state = .done s' context'
    ∧ ∀ elseFollows, (elseFollows = true → s.closed = true) →
      context'.attach elseFollows s' = context.attach elseFollows s

theorem completes_done (s : Stmt) (context : Context) : Completes (.done s context) s context :=
  ⟨s, context, rfl, fun _ _ => rfl⟩

theorem Completes.step {state : State} {s : Stmt} {context : Context}
    (h : Completes state s context) {t : Token}
    (ht : t.isKeyword "else" = true → s.closed = true) :
    step state t = stepDone s context t := by
  obtain ⟨s', context', rfl, hattach⟩ := h
  show stepDone s' context' t = _
  unfold stepDone
  rw [hattach _ ht]

/-- From the start of a statement, the words lead to where it is complete,
without its notes. -/
def Rereads (s : Stmt) : Prop :=
  ∀ context, ∃ state, Reaches (.start context) s.words state ∧ Completes state s.bare context

/-- Statements in a row.  The list that they are put into is that of the
fragment or of a block. -/
theorem stmts_reread {f : List Stmt → Context}
    (hf : ∀ before s elseFollows, (f before).attach elseFollows s = (f (before ++ [s]), false))
    {ss : List Stmt} (h : ∀ s ∈ ss, Rereads s) (before : List Stmt) :
    ∃ state, Reaches (.start (f before)) (Stmt.wordsOf ss) state
      ∧ ∀ t : Token, t.isKeyword "else" = false →
        step state t = stepStart (f (before ++ Stmt.bareAll ss)) t := by
  induction ss generalizing before with
  | nil =>
      refine ⟨.start (f before), rfl, fun t _ => ?_⟩
      rw [Stmt.bareAll, List.append_nil]
      rfl
  | cons s ss ih =>
      obtain ⟨hs, hss⟩ := List.forall_mem_cons.1 h
      obtain ⟨state, hreaches, hcompletes⟩ := hs (f before)
      obtain ⟨state', hreaches', hafter⟩ := ih hss (before ++ [s.bare])
      rw [List.append_assoc, List.singleton_append, ← Stmt.bareAll] at hafter
      -- Behind the first statement the others are read as from their start.
      have hnext : ∀ t : Token, t.isKeyword "else" = false →
          step state t = step (.start (f (before ++ [s.bare]))) t := by
        intro t ht
        rw [hcompletes.step fun h => Bool.noConfusion (ht.symm.trans h)]
        unfold stepDone
        rw [hf]
        rfl
      rw [Stmt.wordsOf_cons]
      cases hwords : Stmt.wordsOf ss with
      | nil =>
          rw [hwords] at hreaches'
          obtain rfl : State.start _ = state' := Except.ok.inj hreaches'
          refine ⟨state, by rwa [List.append_nil], fun t ht => ?_⟩
          rw [hnext t ht]
          exact hafter t ht
      | cons word words =>
          refine ⟨state', hreaches.append ?_, hafter⟩
          rw [hwords] at hreaches'
          unfold Reaches at hreaches' ⊢
          rw [List.map_cons, steps_cons] at hreaches' ⊢
          cases helse : (Token.plain word).isKeyword "else" with
          | false => rwa [hnext _ helse]
          | true =>
              rw [show step (.start (f (before ++ [s.bare]))) (.plain word) = _ from
                stepStart_else helse] at hreaches'
              cases hreaches'

end Parse

open Parse (Rereads Completes completes_done)

namespace Stmt

theorem bare_basic {e : Expr} (h : e.Legible) (tags : Tags) :
    (Stmt.basic [e] tags).bare = .ofExpr e := by
  rw [bare, Expr.bareAll_of_legible (by simpa using h)]
  rfl

theorem bare_loop {d t i : Expr} (hd : d.Legible) (ht : t.Legible) (hi : i.Legible) (body : Stmt)
    (induction : Option Induction) (tags : Tags) :
    (Stmt.loop [d, t, i] body induction tags).bare = .loop [d, t, i] body.bare none {} := by
  rw [bare, Expr.bareAll_of_legible (by simp [hd, ht, hi])]

/-- A loop is read back if its body is. -/
theorem rereads_loop {d t i : Expr} {body : Stmt} (hd : d.IsSpelt .statement)
    (ht : t.IsSpelt .statement) (hi : i.IsSpelt .statement) (hbody : Rereads body)
    (induction : Option Induction) (tags : Tags) :
    Rereads (.loop [d, t, i] body induction tags) := by
  intro context
  have hhead : Reaches (.start context) ["for", "("] (.expr .decl [] [] context) := rfl
  have hdecl := (hd.change (show Purpose.decl ≠ .label by nofun)).reaches_end
    (show Purpose.decl.endsAt (.plain ";") = true by decide) context
  have htest := (ht.change (show Purpose.test d ≠ .label by nofun)).reaches_end
    (show (Purpose.test d).endsAt (.plain ";") = true by rfl) context
  have hincrement := (hi.change (show Purpose.increment d t ≠ .label by nofun)).reaches_end
    (show (Purpose.increment d t).endsAt (.plain ")") = true by rfl) context
  obtain ⟨state, hreaches, s', context', rfl, hattach⟩ := hbody (.loop d t i context)
  refine ⟨.done s' context', ?_, s', context', rfl, fun elseFollows hclosed => ?_⟩
  · have hall := (((hhead.append hdecl).append htest).append hincrement).append hreaches
    simpa [words, words.clauses] using hall
  · rw [bare_loop hd.legible ht.legible hi.legible] at hclosed ⊢
    exact hattach elseFollows hclosed

/-- A conditional without an alternative is never closed. -/
theorem rereads_cond {c : Expr} {yes : Stmt} (hc : c.IsSpelt .statement) (hyes : Rereads yes)
    (tags : Tags) : Rereads (.cond [c] yes none tags) := by
  intro context
  have hhead : Reaches (.start context) ["if", "("] (.expr .condition [] [] context) := rfl
  have hcondition := (hc.change (show Purpose.condition ≠ .label by nofun)).reaches_end
    (show Purpose.condition.endsAt (.plain ")") = true by decide) context
  obtain ⟨state, hreaches, s', context', rfl, hattach⟩ := hyes (.yes c context)
  have hbare : (Stmt.cond [c] yes none tags).bare = .cond [c] yes.bare none {} := by
    rw [bare, Expr.bareAll_of_legible (by simpa using hc.legible)]
  refine ⟨.done s' context', ?_, s', context', rfl, fun elseFollows hclosed => ?_⟩
  · have hall := (hhead.append hcondition).append hreaches
    simpa [words] using hall
  · rw [hbare] at hclosed ⊢
    cases elseFollows with
    | false => exact hattach false fun h => Bool.noConfusion h
    | true => exact absurd (hclosed rfl) Bool.false_ne_true

/-- A conditional with an alternative is read back if its first branch
leaves the `else` to it. -/
theorem rereads_cond_else {c : Expr} {yes no : Stmt} (hc : c.IsSpelt .statement)
    (hyes : Rereads yes) (hclosed : yes.closed = true) (hno : Rereads no) (tags : Tags) :
    Rereads (.cond [c] yes (some no) tags) := by
  intro context
  have hhead : Reaches (.start context) ["if", "("] (.expr .condition [] [] context) := rfl
  have hcondition := (hc.change (show Purpose.condition ≠ .label by nofun)).reaches_end
    (show Purpose.condition.endsAt (.plain ")") = true by decide) context
  obtain ⟨first, hfirst, hcompletes⟩ := hyes (.yes c context)
  have helse : Reaches first ["else"] (.start (.no c yes.bare context)) := by
    refine Parse.steps_one ?_
    rw [hcompletes.step fun _ => by rwa [closed_bare]]
    rfl
  obtain ⟨state, hreaches, s', context', rfl, hattach⟩ := hno (.no c yes.bare context)
  have hbare : (Stmt.cond [c] yes (some no) tags).bare = .cond [c] yes.bare (some no.bare) {} := by
    rw [bare, Expr.bareAll_of_legible (by simpa using hc.legible)]
  refine ⟨.done s' context', ?_, s', context', rfl, fun elseFollows hclosed => ?_⟩
  · have hall := (((hhead.append hcondition).append hfirst).append helse).append hreaches
    simpa [words] using hall
  · rw [hbare] at hclosed ⊢
    exact hattach elseFollows hclosed

theorem rereads_switch {c : Expr} {body : Stmt} (hc : c.IsSpelt .statement)
    (hbody : Rereads body) (tags : Tags) : Rereads (.switch [c] body tags) := by
  intro context
  have hhead : Reaches (.start context) ["switch", "("] (.expr .selector [] [] context) := rfl
  have hselector := (hc.change (show Purpose.selector ≠ .label by nofun)).reaches_end
    (show Purpose.selector.endsAt (.plain ")") = true by decide) context
  obtain ⟨state, hreaches, s', context', rfl, hattach⟩ := hbody (.switch c context)
  have hbare : (Stmt.switch [c] body tags).bare = .switch [c] body.bare {} := by
    rw [bare, Expr.bareAll_of_legible (by simpa using hc.legible)]
  refine ⟨.done s' context', ?_, s', context', rfl, fun elseFollows hclosed => ?_⟩
  · have hall := (hhead.append hselector).append hreaches
    simpa [words] using hall
  · rw [hbare] at hclosed ⊢
    exact hattach elseFollows hclosed

theorem rereads_block {ss : List Stmt} (h : ∀ s ∈ ss, Rereads s) (b tags : Tags) :
    Rereads (.block [] ss b tags) := by
  intro context
  have hopen : Reaches (.start context) ["\x7b"] (.start (.block [] context)) := rfl
  obtain ⟨state, hreaches, hafter⟩ :=
    Parse.stmts_reread (f := fun ss => .block ss context) (fun _ _ _ => rfl) h []
  have hclose : Reaches state ["\x7d"] (.done (.ofBlock ⟨bareAll ss, {}⟩) context) := by
    refine Parse.steps_one ?_
    rw [hafter _ (by decide)]
    rfl
  refine ⟨.done (.ofBlock ⟨bareAll ss, {}⟩) context, ?_, completes_done _ _⟩
  have hall := (hopen.append hreaches).append hclose
  simpa [words] using hall

/-- A label is written with a semicolon, which the reader takes along. -/
theorem rereads_case {e : Expr} (he : e.IsSpelt .label) (tags : Tags) :
    Rereads (.basic [.chain [.keyword "case", e, .op ":"]] tags) := by
  intro context
  have hlegible : (Expr.chain [.keyword "case", e, .op ":"]).Legible := by
    refine .chain ?_
    simp only [List.forall_mem_cons, List.not_mem_nil, false_imp_iff, implies_true, and_true]
    exact ⟨Parse.keyword_legible (by decide), he.legible, Parse.colon_legible⟩
  have hhead : Reaches (.start context) ["case"] (.expr .label [] [] context) := rfl
  have hvalue := he.reaches_end (show Purpose.label.endsAt (.plain ":") = true by decide) context
  have hend : Reaches (Purpose.label.finish e context) [";"]
      (.done (.ofExpr (.chain [.keyword "case", e, .op ":"])) context) := rfl
  rw [bare_basic hlegible]
  refine ⟨_, ?_, completes_done _ _⟩
  have hall := (hhead.append hvalue).append hend
  simpa [words, Parse.words_keyword (show "case" ∈ keywords by decide)] using hall

/-- **Tidy statements are read back.** -/
theorem Tidy.rereads {s : Stmt} (h : s.Tidy) : Rereads s := by
  induction h with
  | empty => exact fun context => ⟨.done .empty context, rfl, completes_done _ _⟩
  | @simple e tags he hopens hnil =>
      intro context
      rw [bare_basic he.legible]
      refine ⟨.done (.ofExpr e) context, ?_, completes_done _ _⟩
      simpa [words] using he.reaches_from_start hopens hnil context
  | case he => exact rereads_case he _
  | default => exact fun context => ⟨.done _ context, rfl, completes_done _ _⟩
  | block _ ih => exact rereads_block ih _ _
  | @raw src tags hsrc =>
      intro context
      refine ⟨.done (.raw [] src {}) context, ?_, completes_done _ _⟩
      refine Parse.steps_one ?_
      show Parse.stepStart context (.plain src) = _
      unfold Token.plain
      rw [hsrc.kindOf_eq]
      rfl
  | loop hd ht hi _ ih => exact rereads_loop hd ht hi ih _ _
  | @cond c yes no tags hc _ _ hclosed ihyes ihno =>
      cases no with
      | none => exact rereads_cond hc ihyes tags
      | some no => exact rereads_cond_else hc ihyes (hclosed rfl) (ihno no rfl) tags
  | switch hc _ ih => exact rereads_switch hc ih _

end Stmt

/-! ## §4. What is read is tidy. -/

namespace Parse

/-- The clauses that were read before are spelt. -/
def Purpose.Tidy : Purpose → Prop
  | .test d => d.IsSpelt .statement
  | .increment d t => d.IsSpelt .statement ∧ t.IsSpelt .statement
  | _ => True

/-- Tidy statements and spelt expressions, all the way out. -/
def Context.Tidy : Context → Prop
  | .top ss => ∀ s ∈ ss, s.Tidy
  | .block ss outer => (∀ s ∈ ss, s.Tidy) ∧ outer.Tidy
  | .loop d t i outer =>
      d.IsSpelt .statement ∧ t.IsSpelt .statement ∧ i.IsSpelt .statement ∧ outer.Tidy
  | .yes c outer | .switch c outer => c.IsSpelt .statement ∧ outer.Tidy
  | .no c first outer => c.IsSpelt .statement ∧ first.Tidy ∧ first.closed = true ∧ outer.Tidy

/-- All that was read is tidy, and the parts of the open expression are
spelt by the words that were read for it. -/
def State.Tidy : State → Prop
  | .start context | .colon context => context.Tidy
  | .head purpose context => purpose.isHead = true ∧ context.Tidy
  | .expr purpose levels parts context => purpose.Tidy ∧ context.Tidy
      ∧ ∃ words, Spelt purpose words levels parts
        ∧ (purpose = .statement → ∃ word ∈ words.head?, OpensExpr (.plain word))
  | .labelled s context | .done s context => s.Tidy ∧ s.closed = true ∧ context.Tidy

theorem Context.attach_tidy {context context' : Context} {s : Stmt} {elseFollows waits : Bool}
    (hs : s.Tidy) (hclosed : elseFollows = true → s.closed = true) (hcontext : context.Tidy)
    (h : context.attach elseFollows s = (context', waits)) : context'.Tidy := by
  induction context generalizing s with
  | top ss =>
      cases h
      exact List.forall_mem_append.2 ⟨hcontext, List.forall_mem_singleton.2 hs⟩
  | block ss outer _ =>
      cases h
      exact ⟨List.forall_mem_append.2 ⟨hcontext.1, List.forall_mem_singleton.2 hs⟩, hcontext.2⟩
  | loop d t i outer ih =>
      obtain ⟨hd, ht, hi, houter⟩ := hcontext
      exact ih (.loop hd ht hi hs) hclosed houter h
  | yes c outer ih =>
      obtain ⟨hc, houter⟩ := hcontext
      cases elseFollows with
      | true =>
          cases h
          exact ⟨hc, hs, hclosed rfl, houter⟩
      | false =>
          have hcond : (Stmt.cond [c] s none {}).Tidy := .cond hc hs (by simp) (by simp)
          exact ih hcond (by simp) houter h
  | no c first outer ih =>
      obtain ⟨hc, hfirst, hfirstClosed, houter⟩ := hcontext
      have hcond : (Stmt.cond [c] first (some s) {}).Tidy :=
        .cond hc hfirst (by simpa using hs) fun _ => hfirstClosed
      exact ih hcond hclosed houter h
  | switch c outer ih =>
      obtain ⟨hc, houter⟩ := hcontext
      exact ih (.switch hc hs) hclosed houter h

section

variable {t : Token} {state state' : State} {context : Context}

/-- Where a token stands does not matter to what it does. -/
theorem Grows.plain {levels levels' : List Level} {parts parts' : List Expr}
    (h : Grows t levels parts levels' parts') (ht : t.IsProper) :
    Grows (.plain t.lexeme) levels parts levels' parts' := by
  rw [ht.plain_lexeme]
  obtain ⟨kind, lexeme, location⟩ := t
  cases h with
  | leaf hkind hcomma => exact .leaf hkind hcomma
  | openParen hkind => exact .openParen hkind
  | openSquare hkind => exact .openSquare hkind
  | openBrace hkind => exact .openBrace hkind
  | closeParen hkind => exact .closeParen hkind
  | closeSquare hkind => exact .closeSquare hkind
  | closeBrace hkind => exact .closeBrace hkind
  | closeCall hkind => exact .closeCall hkind
  | nextArgument hkind => exact .nextArgument hkind

theorem Starts.tidy (h : Starts t context state') (ht : t.kind ≠ .eof → t.IsProper)
    (hcontext : context.Tidy) : state'.Tidy := by
  cases h with
  | block => exact ⟨by simp, hcontext⟩
  | empty => exact ⟨.empty, rfl, hcontext⟩
  | directive hk =>
      have ht : t.IsProper := ht (by rw [hk]; decide)
      exact ⟨.raw (hk ▸ ht), rfl, hcontext⟩
  | forLoop | whileLoop | conditional | switch => exact ⟨rfl, hcontext⟩
  | default => exact hcontext
  | case => exact ⟨trivial, hcontext, [], .nil, nofun⟩
  | endBlock => exact ⟨.block hcontext.1, rfl, hcontext.2⟩
  | endFragment => exact hcontext
  | expr hopens hgrows =>
      have ht := ht hgrows.kind_ne_eof
      have hends : Purpose.statement.endsAt (.plain t.lexeme) = false :=
        (hgrows.plain ht).not_endsAt (by decide)
      refine ⟨trivial, hcontext, [t.lexeme],
        Spelt.nil.snoc (Token.Lexeme.isLexeme ht) (fun _ => hends) (hgrows.plain ht),
        fun _ => ⟨t.lexeme, rfl, ?_⟩⟩
      rwa [ht.plain_lexeme]

theorem Continues.tidy {s : Stmt} (h : Continues t s context state')
    (ht : t.kind ≠ .eof → t.IsProper) (hs : s.Tidy) (hclosed : s.closed = true)
    (hcontext : context.Tidy) : state'.Tidy := by
  cases h with
  | next _ hattach hstarts =>
      exact hstarts.tidy ht (Context.attach_tidy hs (fun _ => hclosed) hcontext hattach)
  | alternative _ hattach => exact Context.attach_tidy hs (fun _ => hclosed) hcontext hattach

/-- The end of an expression. -/
theorem finish_tidy {purpose : Purpose} {parts : List Expr}
    (h : (State.expr purpose [] parts context).Tidy) :
    (purpose.finish (collapse parts) context).Tidy := by
  obtain ⟨hpurpose, hcontext, words, hspelt, hopens⟩ := h
  have he : (collapse parts).IsSpelt purpose := ⟨words, parts, hspelt, rfl⟩
  have hclause : (collapse parts).IsSpelt .statement := he.change nofun
  cases purpose with
  | statement =>
      refine ⟨?_, ?_, hcontext⟩
      · split
        · exact .empty
        · rename_i hnil
          obtain ⟨_, _, hwords⟩ := hspelt.spec
          obtain ⟨first, hfirst, hopens⟩ := hopens rfl
          refine .simple he (fun word hword => ?_) fun heq => hnil (by rw [heq]; rfl)
          rw [collapse_words, ← show words = wordsOf parts from hwords] at hword
          obtain rfl : first = word := Option.some.inj (hfirst.symm.trans hword)
          exact hopens
      · split <;> rfl
  | decl => exact ⟨hclause, hcontext, [], .nil, nofun⟩
  | test d => exact ⟨⟨hpurpose, hclause⟩, hcontext, [], .nil, nofun⟩
  | increment d t => exact ⟨hpurpose.1, hpurpose.2, hclause, hcontext⟩
  | onlyTest => exact ⟨Expr.isSpelt_nil _, hclause, Expr.isSpelt_nil _, hcontext⟩
  | condition | selector => exact ⟨hclause, hcontext⟩
  | label => exact ⟨.case he, rfl, hcontext⟩

/-- **One step keeps what was read tidy**, the step at the end of the text
included. -/
theorem Moves.tidy (h : Moves t state state') (ht : t.kind ≠ .eof → t.IsProper)
    (hstate : state.Tidy) : state'.Tidy := by
  cases h with
  | start h => exact h.tidy ht hstate
  | @head purpose context _ =>
      obtain ⟨hhead, hcontext⟩ := hstate
      refine ⟨?_, hcontext, [], .nil, ?_⟩
      · cases purpose <;> trivial
      · rintro rfl
        cases hhead
  | @grow purpose levels levels' parts parts' context hends h =>
      have ht := ht h.kind_ne_eof
      obtain ⟨hpurpose, hcontext, words, hspelt, hopens⟩ := hstate
      have hends' : levels = [] → purpose.endsAt (.plain t.lexeme) = false := by
        rw [ht.plain_lexeme]
        exact hends
      refine ⟨hpurpose, hcontext, words ++ [t.lexeme],
        hspelt.snoc (Token.Lexeme.isLexeme ht) hends' (h.plain ht), fun hstatement => ?_⟩
      obtain ⟨word, hword, hopens⟩ := hopens hstatement
      exact ⟨word, by rw [List.head?_append, show words.head? = _ from hword]; rfl, hopens⟩
  | finish => exact finish_tidy hstate
  | colon => exact ⟨.default, rfl, hstate⟩
  | endLabel => exact hstate
  | labelled _ h => exact h.tidy ht hstate.1 hstate.2.1 hstate.2.2
  | done h => exact h.tidy ht hstate.1 hstate.2.1 hstate.2.2

end

/-- The complete statements of a tidy context are tidy. -/
theorem Context.Tidy.topStmts {context : Context} (h : context.Tidy) :
    ∀ s ∈ context.topStmts, s.Tidy := by
  induction context with
  | top ss => exact h
  | block _ _ ih => exact ih h.2
  | loop _ _ _ _ ih => exact ih h.2.2.2
  | yes _ _ ih => exact ih h.2
  | no _ _ _ ih => exact ih h.2.2.2
  | switch _ _ ih => exact ih h.2

theorem State.Tidy.context {state : State} (h : state.Tidy) : state.context.Tidy := by
  cases state with
  | start | colon => exact h
  | head => exact h.2
  | expr => exact h.2.1
  | labelled | done => exact h.2.2

end Parse

/-! ## §5. Texts. -/

/-- **What is read is tidy.** -/
theorem Block.tidy_of_parse {src : String} {origin : Location} {b : Block}
    (h : Block.parse src origin = .ok b) : ∀ s ∈ b.stmts, s.Tidy := by
  obtain ⟨ts, stop, _, _, hproper, hstmts⟩ := Block.tokens_of_parse h
  obtain ⟨state, state', hsteps, hend, hstmts⟩ := Parse.stmts_eq_ok.1 hstmts
  have hstart : (State.start (.top [])).Tidy := by
    intro s hs
    cases hs
  have hstate : state.Tidy := Parse.steps_keep
    (fun t ht _ _ hmove hstate => hmove.tidy (fun _ => hproper t ht) hstate) hstart hsteps
  have hstate' : state'.Tidy :=
    (Parse.step_eq_ok.1 hend).tidy (fun hkind => absurd rfl hkind) hstate
  rw [← hstmts]
  exact hstate'.context.topStmts

namespace Stmt

theorem Tidy.legible {s : Stmt} (h : s.Tidy) : s.Legible := by
  induction h with
  | empty => exact .empty
  | simple he _ _ => exact .basic he.legible
  | case he =>
      refine .basic (.chain ?_)
      simp only [List.forall_mem_cons, List.not_mem_nil, false_imp_iff, implies_true, and_true]
      exact ⟨Parse.keyword_legible (by decide), he.legible, Parse.colon_legible⟩
  | default =>
      refine .basic (.chain ?_)
      simp only [List.forall_mem_cons, List.not_mem_nil, false_imp_iff, implies_true, and_true]
      exact ⟨Parse.keyword_legible (by decide), Parse.colon_legible⟩
  | block _ ih => exact .block ih
  | raw hsrc => exact .raw hsrc
  | loop hd ht hi _ ih => exact .loop hd.legible ht.legible hi.legible ih
  | cond hc _ _ _ ihyes ihno => exact .cond hc.legible ihyes ihno
  | switch hc _ ih => exact .switch hc.legible ih

theorem wordsOf_bareAll {ss : List Stmt} (h : ∀ s ∈ ss, s.bare.words = s.words) :
    wordsOf (bareAll ss) = wordsOf ss := by
  induction ss with
  | nil => rfl
  | cons s ss ih =>
      obtain ⟨hs, hss⟩ := List.forall_mem_cons.1 h
      rw [bareAll, wordsOf_cons, wordsOf_cons, hs, ih hss]

/-- Notes are not written. -/
theorem Legible.words_bare {s : Stmt} (h : s.Legible) : s.bare.words = s.words := by
  induction h with
  | empty | raw => rfl
  | basic he => rw [bare_basic he, words]; rfl
  | block _ ih => rw [bare, words, words, wordsOf_bareAll ih]
  | loop hd ht hi _ ih => rw [bare_loop hd ht hi, words, words, ih]
  | @cond c yes no tags hc _ _ ihyes ihno =>
      cases no with
      | none => rw [bare, words, words, ihyes, Expr.bareAll_of_legible (by simpa using hc)]
      | some no =>
          rw [bare, words, words, ihyes, ihno no rfl, Expr.bareAll_of_legible (by simpa using hc)]
  | switch hc _ ih => rw [bare, words, words, ih, Expr.bareAll_of_legible (by simpa using hc)]

end Stmt

theorem Stmt.readBack_of_tidy {ss : List Stmt} (h : ∀ s ∈ ss, s.Tidy) :
    Stmt.ReadBack (bareAll ss) := by
  obtain ⟨state, hreaches, hafter⟩ :=
    Parse.stmts_reread (f := .top) (fun _ _ _ => rfl) (fun s hs => (h s hs).rereads) []
  refine ⟨state, ?_, fun stop => ?_⟩
  · rw [wordsOf_bareAll fun s hs => (h s hs).legible.words_bare]
    exact hreaches
  · rw [hafter _ rfl]
    rfl

/-- **Tidy trees are read back from what is written of them**, without their
notes. -/
theorem Block.parse_of_tidy {b : Block} (h : ∀ s ∈ b.stmts, s.Tidy) :
    ∃ text, b.print = .ok text ∧ ∀ there, Block.parse text there = .ok b.bare := by
  obtain ⟨text, htext, hreads⟩ := Block.Legible.written fun s hs => (h s hs).legible
  rw [← Stmt.wordsOf_bareAll fun s hs => (h s hs).legible.words_bare] at hreads
  exact ⟨text, htext, Block.parse_of_reads hreads (Stmt.readBack_of_tidy h)⟩

/-- Texts that count the same start alike where one starts with a label. -/
theorem Token.first_of_essence {word : String} {words : List String} {ts : List Token}
    (hword : word ∈ ["case", "default"]) (hproper : ∀ t ∈ ts, t.IsProper)
    (h : essenceOf (word :: words) = essenceOf (ts.map (·.lexeme))) :
    ∃ first rest, ts.map (·.lexeme) = first :: rest ∧ (first = ";" ∨ first = word) := by
  have hcounted : ∀ word ∈ ["case", "default"], counted (faceOf word) = [(.keyword, word)] := by
    decide
  rw [essenceOf_cons, hcounted word hword] at h
  cases ts with
  | nil => cases h
  | cons t ts =>
      refine ⟨t.lexeme, ts.map (·.lexeme), rfl, ?_⟩
      have ht := hproper t List.mem_cons_self
      by_cases hk : t.kind = .semicolon
      · exact .inl (ht.lexeme_eq hk rfl)
      · right
        rw [List.map_cons, essenceOf_cons, ← ht.face_eq, counted,
          if_neg (show t.face.1 ≠ .semicolon from hk)] at h
        obtain ⟨hface, _⟩ := List.cons.inj h
        split at hface
        · obtain ⟨_, rfl⟩ := Prod.mk.inj hface
          exact absurd hword (by decide)
        · exact (Prod.mk.inj hface).2.symm

namespace Expr

/-- The statement that a semicolon makes of an expression. -/
theorem IsSpelt.stmt {e : Expr} (h : e.IsSpelt .statement) (hopens : e.Opens) :
    ∃ es, (Stmt.basic es {}).Tidy ∧ (Stmt.basic es {}).words = e.words ++ [";"]
      ∧ (es = [] ∧ e = .nil ∨ es = [e]) := by
  by_cases hnil : e = .nil
  · refine ⟨[], .empty, ?_, .inl ⟨rfl, hnil⟩⟩
    rw [hnil]
    rfl
  · exact ⟨[e], .simple h hopens hnil, by simp [Stmt.words], .inr rfl⟩

/-- A text with the words of an expression is read as it. -/
theorem IsSpelt.parse {e : Expr} (h : e.IsSpelt .statement) (hopens : e.Opens) {text : String}
    (hreads : Token.Reads (text.toList ++ [';']) (e.words ++ [";"])) (origin : Location) :
    Expr.parse text origin = .ok e := by
  obtain ⟨es, htidy, hwords, hes⟩ := h.stmt hopens
  have hbare : (Stmt.basic es {}).bare = .basic es {} := by
    rcases hes with ⟨rfl, _⟩ | rfl
    · rfl
    · exact Stmt.bare_basic h.legible {}
  have hback := Stmt.readBack_of_tidy (List.forall_mem_singleton.2 htidy)
  rw [Stmt.bareAll, Stmt.bareAll, hbare] at hback
  have hreads' : Token.Reads (text ++ ";").toList (Stmt.wordsOf [.basic es {}]) := by
    rw [Stmt.wordsOf_cons, hwords, Stmt.wordsOf_nil, List.append_nil, String.toList_append]
    exact hreads
  have hblock := Block.parse_of_reads hreads' hback origin
  exact Expr.parse_eq_ok.2 ⟨es, {}, Stmt.parse_eq_ok.2 ⟨_, hblock, rfl⟩, hes⟩

/-- An expression is read from what is written of it. -/
theorem IsSpelt.parse_print {e : Expr} (h : e.IsSpelt .statement) (hopens : e.Opens)
    {text : String} (htext : e.print = .ok text) (origin : Location) :
    Expr.parse text origin = .ok e := by
  obtain ⟨_, htext', hreads⟩ := h.legible.written
  obtain rfl := Except.ok.inj (htext.symm.trans htext')
  refine h.parse hopens ?_ origin
  exact hreads _ _ (Token.endsWord_cons [] (by decide) (by decide)) (.mark (by rfl) .done)

/-- What a text that does not start like a label is read as, is spelt. -/
theorem isSpelt_of_parse {text : String} {origin : Location} {e : Expr}
    (h : Expr.parse text origin = .ok e)
    (hfirst : ∀ word words, Token.Reads (text ++ ";").toList (word :: words) →
      word ∉ [";", "case", "default"]) : e.IsSpelt .statement := by
  obtain ⟨es, tags, hstmt, ⟨_, rfl⟩ | rfl⟩ := Expr.parse_eq_ok.1 h
  · exact isSpelt_nil _
  obtain ⟨b, hblock, hstmts⟩ := Stmt.parse_eq_ok.1 hstmt
  obtain ⟨ts, stop, _, hreads, hproper, hparse⟩ := Block.tokens_of_parse hblock
  have htidy : (Stmt.basic [e] tags).Tidy :=
    Block.tidy_of_parse hblock _ (by rw [hstmts]; exact List.mem_cons_self)
  -- The words of a label start with a keyword that the text does not start with.
  have hlabel : ∀ word, word ∈ ["case", "default"] →
      (Stmt.basic [e] tags).words.head? ≠ some word := by
    intro word hword hhead
    obtain ⟨words, heq⟩ := List.head?_eq_some_iff.1 hhead
    obtain ⟨hessence, _⟩ := Parse.stmts_keep hproper hparse
    rw [hstmts, Stmt.wordsOf_cons, heq] at hessence
    obtain ⟨first, rest, hts, hword'⟩ := Token.first_of_essence hword hproper hessence
    rw [hts] at hreads
    refine hfirst first rest hreads ?_
    rcases hword' with rfl | rfl
    · exact List.mem_cons_self
    · exact List.mem_cons_of_mem _ hword
  cases htidy with
  | simple he _ _ => exact he
  | case he =>
      refine absurd ?_ (hlabel "case" (by decide))
      simp [Stmt.words, Parse.words_keyword (show "case" ∈ Stmt.keywords by decide)]
  | default =>
      refine absurd ?_ (hlabel "default" (by decide))
      rfl

end Expr

end RuleBody
