/-
  RuleBody.Proofs.Readable
  ────────────────────────
  **PARTS THAT ARE READ AS THEY STAND.**

  A list of parts is readable if reading its words one after the other makes
  just these parts: names, literals and operators are read as leaves, and a
  parenthesis that does not follow a name is read as a chain of its own.  A
  text with the words of readable parts is read as their chain
  (`Readable.parse`).

  §1  readable parts;
  §2  their words, one after the other;
  §3  fragments.
-/
import RuleBody.Proofs.RoundTrip

namespace RuleBody

open Parse (enclosed collapse)
open Token (plain kindOf IsLexeme Reads)

/-! ## §1. Readable parts. -/

/-- The kinds of leaves that the tokens of a kind are read as. -/
inductive Expr.Kind.ReadFrom : Expr.Kind → Token.Kind → Prop where
  | name : ReadFrom .ident .identifier
  | operator : ReadFrom .op .operator
  | integer : ReadFrom .lit .integer
  | float : ReadFrom .lit .float
  | string : ReadFrom .lit .string
  | char : ReadFrom .lit .char

theorem Expr.Kind.ReadFrom.admits {kind : Expr.Kind} {k : Token.Kind} (h : kind.ReadFrom k) :
    kind.admits k = true := by
  cases h <;> rfl

/-- Parts that are read as they stand. -/
inductive Readable : List Expr → Prop where
  | nil : Readable []
  | leaf {xs : List Expr} {kind : Expr.Kind} {text : String} : Readable xs → IsLexeme text →
      kind.ReadFrom (kindOf text) → Readable (xs ++ [.leaf kind text])
  | paren {xs ps : List Expr} : Readable xs → (∀ x ∈ xs.getLast?, x.kind ≠ .ident) →
      Readable ps → ps ≠ [] → Readable (xs ++ [.chain (enclosed "(" ps ")")])

/-- A leaf that is read as it stands. -/
def Expr.IsRead (x : Expr) : Prop :=
  ∃ kind text, x = .leaf kind text ∧ IsLexeme text ∧ kind.ReadFrom (kindOf text)

theorem Expr.isRead_op {text : String} (h : Token.Lexeme .operator text.toList) :
    (op text).IsRead := by
  refine ⟨.op, text, rfl, h.isLexeme, ?_⟩
  rw [h.kindOf_eq]
  exact .operator

theorem Readable.append_leaves {xs ys : List Expr} (hxs : Readable xs) (h : ∀ y ∈ ys, y.IsRead) :
    Readable (xs ++ ys) := by
  induction ys generalizing xs with
  | nil => rwa [List.append_nil]
  | cons y ys ih =>
      obtain ⟨⟨kind, text, rfl, htext, hkind⟩, hys⟩ := List.forall_mem_cons.1 h
      rw [List.append_cons]
      exact ih (.leaf hxs htext hkind) hys

theorem Readable.legible {xs : List Expr} (h : Readable xs) : ∀ x ∈ xs, x.Legible := by
  induction h with
  | nil => simp
  | leaf _ htext hkind ih =>
      exact List.forall_mem_append.2
        ⟨ih, List.forall_mem_singleton.2 (.leaf htext hkind.admits)⟩
  | paren _ _ _ _ ih ihps =>
      refine List.forall_mem_append.2 ⟨ih, List.forall_mem_singleton.2 (.chain ?_)⟩
      have hopen : (Expr.op "(").Legible := Parse.leaf_legible (.punctuation (by rfl)) rfl
      have hclose : (Expr.op ")").Legible := Parse.leaf_legible (.punctuation (by rfl)) rfl
      exact Parse.enclosed_legible hopen hclose ihps

/-- The words of readable parts start as an expression does. -/
theorem Readable.words_head {xs : List Expr} (h : Readable xs) (hne : xs ≠ []) :
    ∃ word others, Expr.wordsOf xs = word :: others
      ∧ (kindOf word = .lParen ∨ ∃ kind : Expr.Kind, kind.ReadFrom (kindOf word)) := by
  induction h with
  | nil => exact absurd rfl hne
  | @leaf xs kind text _ htext hkind ih =>
      cases xs with
      | nil =>
          refine ⟨text, [], ?_, .inr ⟨kind, hkind⟩⟩
          rw [List.nil_append, Expr.wordsOf_cons, Expr.words_leaf hkind.admits htext.ne_empty]
          rfl
      | cons x xs =>
          obtain ⟨word, others, hwords, hword⟩ := ih (List.cons_ne_nil x xs)
          refine ⟨word, others ++ Expr.wordsOf [.leaf kind text], ?_, hword⟩
          rw [Expr.wordsOf_append, hwords, List.cons_append]
  | @paren xs ps _ _ _ _ ih =>
      cases xs with
      | nil =>
          refine ⟨"(", Expr.wordsOf ps ++ [")"], ?_, .inl (by decide)⟩
          simp [Parse.enclosed_words]
      | cons x xs =>
          obtain ⟨word, others, hwords, hword⟩ := ih (List.cons_ne_nil x xs)
          refine ⟨word, others ++ Expr.wordsOf [.chain (enclosed "(" ps ")")], ?_, hword⟩
          rw [Expr.wordsOf_append, hwords, List.cons_append]

/-! ## §2. Words, one after the other. -/

namespace Parse

variable {levels : List Level} {parts : List Expr} {context : Context}

theorem step_leaf {kind : Expr.Kind} {k : Token.Kind} (h : kind.ReadFrom k) (text : String) :
    step (.expr .statement levels parts context) ⟨k, text, {}⟩
      = .ok (.expr .statement levels (parts ++ [.leaf kind text]) context) := by
  cases levels with
  | nil => cases h <;> rfl
  | cons level outer =>
      obtain ⟨bracket, before⟩ := level
      cases h <;> cases bracket <;> rfl

theorem step_open (h : ∀ x ∈ parts.getLast?, x.kind ≠ .ident) :
    step (.expr .statement levels parts context) (plain "(")
      = .ok (.expr .statement (⟨.paren, parts⟩ :: levels) [] context) := by
  have hopen : openParen parts = ⟨.paren, parts⟩ := by
    unfold openParen
    split
    · rename_i last hlast
      exact if_neg (h last hlast)
    · rfl
  rw [← hopen]
  cases levels with
  | nil => rfl
  | cons level outer =>
      obtain ⟨bracket, before⟩ := level
      cases bracket <;> rfl

theorem step_start {word : String}
    (h : kindOf word = .lParen ∨ ∃ kind : Expr.Kind, kind.ReadFrom (kindOf word)) :
    step (.start context) (plain word) = step (.expr .statement [] [] context) (plain word) := by
  show stepStart context ⟨kindOf word, word, {}⟩
    = stepExpr .statement [] [] context ⟨kindOf word, word, {}⟩
  rcases h with h | ⟨kind, h⟩
  · rw [h]
    rfl
  · generalize kindOf word = k at h
    cases h <;> rfl

end Parse

/-- **The words of readable parts are read as the parts.** -/
theorem Readable.steps {xs : List Expr} (h : Readable xs) (levels : List Parse.Level)
    (context : Parse.Context) :
    Parse.steps (.expr .statement levels [] context) ((Expr.wordsOf xs).map plain)
      = .ok (.expr .statement levels xs context) := by
  induction h generalizing levels with
  | nil => rfl
  | @leaf xs kind text _ htext hkind ih =>
      have hword : Expr.wordsOf [Expr.leaf kind text] = [text] := by
        rw [Expr.wordsOf_cons, Expr.words_leaf hkind.admits htext.ne_empty]
        rfl
      rw [Expr.wordsOf_append, hword, List.map_append, Parse.steps_append, ih]
      exact Parse.steps_one (Parse.step_leaf hkind text)
  | @paren xs ps _ hlast _ hne ih ihps =>
      have hwords : Expr.wordsOf [.chain (enclosed "(" ps ")")]
          = "(" :: (Expr.wordsOf ps ++ [")"]) := by
        simp [Parse.enclosed_words]
      rw [Expr.wordsOf_append, hwords, List.map_append, Parse.steps_append, ih]
      show Parse.steps (.expr .statement levels xs context)
        (plain "(" :: (Expr.wordsOf ps ++ [")"]).map plain) = _
      rw [Parse.steps_cons, Parse.step_open hlast]
      show Parse.steps (.expr .statement (⟨.paren, xs⟩ :: levels) [] context)
        ((Expr.wordsOf ps ++ [")"]).map plain) = _
      rw [List.map_append, Parse.steps_append, ihps]
      show Parse.steps (.expr .statement (⟨.paren, xs⟩ :: levels) ps context) [plain ")"] = _
      exact Parse.steps_one rfl

/-! ## §3. Fragments. -/

theorem Expr.wordsOf_stmt (xs : List Expr) :
    Stmt.wordsOf [.ofExpr (.chain xs)] = Expr.wordsOf xs ++ [";"] := by
  simp [Stmt.words, Stmt.ofExpr]

theorem Readable.readBack {xs : List Expr} (h : Readable xs) (hlength : 2 ≤ xs.length) :
    Stmt.ReadBack [.ofExpr (.chain xs)] := by
  have hne : xs ≠ [] := by
    rintro rfl
    cases hlength
  have hcollapse : collapse xs = .chain xs := by
    match xs, hlength with
    | _ :: _ :: _, _ => rfl
  obtain ⟨word, others, hwords, hword⟩ := h.words_head hne
  have hsteps : Parse.steps (.start (.top [])) ((Expr.wordsOf xs).map plain)
      = .ok (.expr .statement [] xs (.top [])) := by
    rw [← h.steps [] (.top []), hwords, List.map_cons, Parse.steps_cons, Parse.steps_cons,
      Parse.step_start hword]
  refine ⟨.done (.ofExpr (.chain xs)) (.top []), ?_, fun stop => rfl⟩
  rw [Expr.wordsOf_stmt, List.map_append, Parse.steps_append, hsteps]
  show Parse.steps (.expr .statement [] xs (.top [])) [plain ";"] = _
  refine Parse.steps_one ?_
  show Except.ok (Parse.Purpose.finish .statement (collapse xs) (.top [])) = _
  rw [hcollapse]
  rfl

/-- **A text with the words of readable parts is read as their chain.** -/
theorem Readable.parse {xs : List Expr} (h : Readable xs) (hlength : 2 ≤ xs.length) {text : String}
    (hreads : Reads (text.toList ++ [';']) (Expr.wordsOf xs ++ [";"])) (origin : Location) :
    Expr.parse text origin = .ok (.chain xs) := by
  have hreads' : Reads (text ++ ";").toList (Stmt.wordsOf [.ofExpr (.chain xs)]) := by
    rw [Expr.wordsOf_stmt, String.toList_append]
    exact hreads
  have hblock := Block.parse_of_reads hreads' (h.readBack hlength) origin
  exact Expr.parse_eq_ok.2 ⟨_, _, Stmt.parse_eq_ok.2 ⟨_, hblock, rfl⟩, .inr rfl⟩

end RuleBody
