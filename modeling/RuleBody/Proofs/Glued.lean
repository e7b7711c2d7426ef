/-
  RuleBody.Proofs.Glued
  ─────────────────────
  **TEXTS WITHOUT BLANKS.**

  The test of a group of rounds is put together as text, without blanks:
  `i+4<n`.  Where two operators meet, they may be read as others,

      -  and  -4      — read as   --  4
      <  and  = n     — read as   <=  n

  but never as anything that is no operator (`Reads.operators`): a comment
  would need a slash before a slash or a star, and here a sign or a
  comparison stands between.  So the text is read as the words of the
  variable, of the distance and of the bound, with operators between them
  (`testText_reads`).

  §1  operators in a row;
  §2  what stands next to an operator;
  §3  the test of a group.
-/
import Mathlib.Data.List.Chain
import RuleBody.Proofs.GroupTest
import RuleBody.Proofs.Rewritten
import RuleBody.Proofs.Parts

namespace RuleBody

open Token (Reads Lexeme IsLexeme kindOf shortOperators longOperators piece)

/-! ## §1. Operators in a row. -/

namespace Token

/-- The text is read in one way only. -/
theorem Reads.unique {cs : List Char} {words words' : List String} (h : Reads cs words)
    (h' : Reads cs words') : words = words' := by
  induction h generalizing words' with
  | done =>
      cases h'
      rfl
  | skip hpiece hkind _ ih =>
      cases h' with
      | skip hpiece' _ h' =>
          obtain rfl := Except.ok.inj (hpiece.symm.trans hpiece')
          exact ih h'
      | word hpiece' hkind' _ =>
          obtain rfl := Except.ok.inj (hpiece.symm.trans hpiece')
          rw [hkind] at hkind'
          cases hkind'
  | word hpiece hkind _ ih =>
      cases h' with
      | skip hpiece' hkind' _ =>
          obtain rfl := Except.ok.inj (hpiece.symm.trans hpiece')
          rw [hkind] at hkind'
          cases hkind'
      | word hpiece' _ h' =>
          obtain rfl := Except.ok.inj (hpiece.symm.trans hpiece')
          rw [ih h']

/-- The two characters do not open a comment. -/
def Quiet (c d : Char) : Prop := ¬ (c = '/' ∧ (d = '/' ∨ d = '*'))

instance : DecidableRel Quiet := fun c d =>
  inferInstanceAs (Decidable (¬ (c = '/' ∧ (d = '/' ∨ d = '*'))))

/-- Characters of operators in a row, without the start of a comment. -/
structure OperatorRun (run : List Char) : Prop where
  chars : ∀ c ∈ run, c ∈ shortOperators
  quiet : run.IsChain Quiet

theorem Lexeme.operatorRun {chars : List Char} (h : Lexeme .operator chars) :
    OperatorRun chars := by
  generalize hkind : Kind.operator = kind at h
  cases h with
  | @punctuation c _ hc =>
      subst hkind
      unfold punctuation? at hc
      split at hc <;> cases hc
  | name =>
      unfold nameKind at hkind
      split at hkind <;> cases hkind
  | longOperator hop =>
      have hquiet : ∀ op ∈ longOperators, op.IsChain Quiet := by decide
      exact ⟨longOperators_short _ hop, hquiet _ hop⟩
  | shortOperator hc => exact ⟨List.forall_mem_singleton.2 hc, .singleton _⟩
  | _ => cases hkind

/-- Runs may follow each other if no comment starts where they meet. -/
theorem OperatorRun.append {xs ys : List Char} (hx : OperatorRun xs) (hy : OperatorRun ys)
    (hmeet : ∀ c ∈ xs.getLast?, ∀ d ∈ ys.head?, Quiet c d) : OperatorRun (xs ++ ys) :=
  ⟨List.forall_mem_append.2 ⟨hx.chars, hy.chars⟩,
    List.isChain_append.2 ⟨hx.quiet, hy.quiet, hmeet⟩⟩

/-- The first operator of a run is cut off. -/
theorem operator_cut {c : Char} {rest : List Char} (cs : List Char) (hc : c ∈ shortOperators)
    (hstop : Kind.operator.stops rest = true) :
    ∃ op behind, Lexeme .operator op ∧ c :: cs = op ++ behind
      ∧ operator c (cs ++ rest) = .ok ⟨some .operator, op, behind ++ rest⟩ := by
  have hfind := find?_append_stop (c :: cs) hstop
  rw [List.cons_append] at hfind
  unfold operator
  rw [hfind]
  cases hlong : longOperators.find? fun op => op.isPrefixOf (c :: cs) with
  | none => exact ⟨[c], cs, .shortOperator hc, rfl, if_pos (List.contains_iff_mem.2 hc)⟩
  | some op =>
      have hmem := List.mem_of_find?_eq_some hlong
      have hfits := List.find?_some hlong
      obtain ⟨behind, hbehind⟩ := List.isPrefixOf_iff_prefix.1 hfits
      refine ⟨op, behind, .longOperator hmem, hbehind.symm, ?_⟩
      dsimp only
      rw [← List.cons_append, ← hbehind, List.append_assoc, List.drop_left]

theorem OperatorRun.no_comment {c : Char} {cs rest : List Char} (h : OperatorRun (c :: cs))
    (hstop : Kind.operator.stops rest = true) (hc : c = '/') (d : Char) (hd : d = '/' ∨ d = '*')
    (ds : List Char) : cs ++ rest ≠ d :: ds := by
  intro heq
  cases cs with
  | nil =>
      obtain rfl : rest = d :: ds := heq
      rcases hd with rfl | rfl <;> cases hstop
  | cons e es =>
      obtain ⟨rfl, _⟩ := List.cons.inj heq
      exact (List.isChain_cons_cons.1 h.quiet).1 ⟨hc, hd⟩

/-- **Operators in a row are read as operators.** -/
theorem Reads.operators {run rest : List Char} {words : List String} (hrun : OperatorRun run)
    (hstop : Kind.operator.stops rest = true) (h : Reads rest words) :
    ∃ ops, Reads (run ++ rest) (ops ++ words) ∧ (∀ op ∈ ops, Lexeme .operator op.toList)
      ∧ (run ≠ [] → ops ≠ []) := by
  -- By induction over the length: behind the first operator the run is shorter.
  induction hlength : run.length using Nat.strong_induction_on generalizing run with
  | _ n ih =>
  cases run with
  | nil => exact ⟨[], h, by simp, by simp⟩
  | cons c cs =>
      have hc : c ∈ shortOperators := hrun.chars c List.mem_cons_self
      obtain ⟨op, behind, hop, heq, hcut⟩ := operator_cut cs hc hstop
      have hbehind : OperatorRun behind :=
        ⟨fun d hd => hrun.chars d (by rw [heq]; exact List.mem_append_right op hd),
          (List.isChain_append.1 (heq ▸ hrun.quiet)).2.1⟩
      have hshorter : behind.length < n := by
        have hne := List.length_pos_of_ne_nil hop.ne_nil
        have hsum := congrArg List.length heq
        rw [List.length_append, hlength] at hsum
        omega
      obtain ⟨ops, hreads, hops, _⟩ := ih behind.length hshorter hbehind rfl
      have hquiet := hrun.no_comment hstop
      have hpiece : piece c (cs ++ rest) = operator c (cs ++ rest) :=
        piece_eq_operator hc (fun hslash => hquiet hslash '/' (.inl rfl))
          fun hslash => hquiet hslash '*' (.inr rfl)
      refine ⟨String.ofList op :: ops, .word (hpiece.trans hcut) rfl hreads, ?_, by simp⟩
      refine List.forall_mem_cons.2 ⟨?_, hops⟩
      rwa [String.toList_ofList]

/-- A sign or a comparison follows. -/
def OperatorAhead (rest : List Char) : Prop :=
  ∃ c cs, rest = c :: cs ∧ c ∈ ['+', '-', '*', '<', '>']

/-- Other lexemes end where a sign or a comparison starts. -/
theorem OperatorAhead.stops {rest : List Char} (h : OperatorAhead rest) {kind : Kind}
    (hoperator : kind ≠ .operator) (hdirective : kind ≠ .directive) : kind.stops rest = true := by
  obtain ⟨c, cs, rfl, hc⟩ := h
  have hplain : Text.continuesName c = false ∧ c.isDigit = false ∧ c.isAlpha = false
      ∧ (c != '.') = true := by
    simp only [List.mem_cons, List.not_mem_nil, or_false] at hc
    rcases hc with rfl | rfl | rfl | rfl | rfl <;> decide
  obtain ⟨hname, hdigit, halpha, hpoint⟩ := hplain
  cases kind <;> simp_all [Kind.stops]

end Token

/-! ## §2. What stands next to an operator. -/

open Token (OperatorAhead OperatorRun)
open Parse (collapse enclosed leafKind? brackets marks Paired)
open RuleBody.Expr (wordsOf Part)

namespace Expr

/-- A part, or one of the marks of a bracket. -/
def Item (e : Expr) : Prop := e.Part ∨ ∃ mark ∈ marks, e = .op mark

/-- A leaf that is an operator, as a token. -/
def IsOperator (e : Expr) : Prop := ∃ text, e = .op text ∧ Lexeme .operator text.toList

theorem Item.legible {e : Expr} (h : e.Item) : e.Legible := by
  rcases h with h | ⟨mark, hmark, rfl⟩
  · exact h.legible
  · exact Parse.mark_legible hmark

theorem print_chain (ps : List Expr) : (chain ps).print = printJoined " " ps := by
  show (do return "" ++ (← printJoined " " ps) : Except Fault String) = _
  cases printJoined " " ps with
  | error f => rfl
  | ok text =>
      show Except.ok ("" ++ text) = _
      rw [String.empty_append]

/-- The text of a chain is that of its first part and of the others. -/
theorem print_chain_cons {p : Expr} {ps : List Expr} {text : String}
    (h : (chain (p :: ps)).print = .ok text) :
    ∃ first, p.print = .ok first ∧ (ps = [] ∧ text = first
      ∨ ∃ others, ps ≠ [] ∧ (chain ps).print = .ok others ∧ text = first ++ " " ++ others) := by
  rw [print_chain] at h
  cases ps with
  | nil => exact ⟨text, h, .inl ⟨rfl, rfl⟩⟩
  | cons q qs =>
      simp only [printJoined, bind, Except.bind] at h
      cases hp : p.print with
      | error f =>
          rw [hp] at h
          cases h
      | ok first =>
          rw [hp] at h
          cases hqs : printJoined " " (q :: qs) with
          | error f =>
              rw [hqs] at h
              cases h
          | ok others =>
              rw [hqs] at h
              refine ⟨first, rfl, .inr ⟨others, List.cons_ne_nil q qs, ?_, ?_⟩⟩
              · rw [print_chain, hqs]
              · exact (Except.ok.inj h).symm

/-- A chain ends as its last part does. -/
theorem chain_written_last {ends : List Char → Prop} {ps : List Expr} (hps : ∀ p ∈ ps, p.Legible)
    {q : Expr} (hq : WrittenAs ends q.print q.words) :
    WrittenAs ends (chain (ps ++ [q])).print (chain (ps ++ [q])).words := by
  rw [words_chain, print_chain]
  induction ps with
  | nil => simpa [printJoined] using hq
  | cons p ps ih =>
      obtain ⟨hp, hrest⟩ := List.forall_mem_cons.1 hps
      obtain ⟨first, hfirst, hreads⟩ := hp.written
      obtain ⟨others, hothers, hreads'⟩ := ih hrest
      obtain ⟨r, rs, hrs⟩ := List.exists_cons_of_ne_nil (List.append_ne_nil_of_right_ne_nil ps
        (List.cons_ne_nil q []))
      refine ⟨first ++ " " ++ others, ?_, fun rest more hends hmore => ?_⟩
      · rw [hrs] at hothers
        rw [List.cons_append, hrs, printJoined, hfirst, hothers]
        · rfl
        · exact List.cons_ne_nil r rs
      · obtain ⟨hblank, hreads''⟩ := blank_between _ _ (hreads' rest more hends hmore)
        have hall := hreads _ _ hblank hreads''
        simpa [String.toList_append] using hall

/-- Behind a mark anything may follow. -/
theorem mark_written {mark : String} (hmark : mark ∈ marks) :
    WrittenAs (fun _ => True) (op mark).print (op mark).words := by
  have hwords : (op mark).words = [mark] :=
    words_leaf (Parse.mark_admits hmark) (Parse.mark_lexeme hmark).ne_empty
  refine ⟨mark, print_leaf (Parse.mark_admits hmark), fun rest more _ hmore => ?_⟩
  rw [hwords]
  obtain ⟨c, kind, rfl, hc⟩ := Parse.mark_char hmark
  rw [String.toList_ofList]
  exact .mark hc hmore

/-- What stands in a bracket, and before it, ends with a mark. -/
theorem bracket_written (before : List Expr) {inner : List Expr} {opening closing : String}
    (hmem : (opening, closing) ∈ brackets) (hbefore : ∀ p ∈ before, p.Legible)
    (hinner : ∀ p ∈ inner, p.Legible) :
    WrittenAs (fun _ => True) (chain (before ++ enclosed opening inner closing)).print
      (chain (before ++ enclosed opening inner closing)).words := by
  obtain ⟨hopening, hclosing⟩ := Parse.mem_marks hmem
  have hlegible := Parse.enclosed_legible (Parse.mark_legible hopening)
    (Parse.mark_legible hclosing) hinner
  have hlast : ∃ front, enclosed opening inner closing = front ++ [.op closing] := ⟨_, rfl⟩
  obtain ⟨front, hfront⟩ := hlast
  rw [hfront] at hlegible ⊢
  rw [← List.append_assoc]
  refine chain_written_last (List.forall_mem_append.2 ⟨hbefore, ?_⟩) (mark_written hclosing)
  exact fun p hp => hlegible p (List.mem_append_left _ hp)

/-- A leaf that is no operator is a token of another kind. -/
theorem kindOf_ne_operator {kind : Expr.Kind} {text : String} (ht : IsLexeme text)
    (hkind : leafKind? (.plain text) = some kind) (hop : ¬ (leaf kind text).IsOperator) :
    kindOf text ≠ .operator := by
  intro hoperator
  have hlexeme : Lexeme (kindOf text) text.toList := ht
  rw [hoperator] at hlexeme
  rw [leafKind?, show (Token.plain text).kind = .operator from hoperator] at hkind
  obtain rfl := Option.some.inj hkind
  exact hop ⟨text, rfl, hlexeme⟩

/-- **What is no operator ends where an operator starts.** -/
theorem Item.written_ahead {e : Expr} (h : e.Item) (hop : ¬ e.IsOperator) :
    WrittenAs OperatorAhead e.print e.words := by
  have hany : ∀ {text words}, WrittenAs (fun _ => True) text words →
      WrittenAs OperatorAhead text words := by
    rintro text words ⟨s, hs, hreads⟩
    exact ⟨s, hs, fun rest more _ hmore => hreads rest more trivial hmore⟩
  rcases h with h | ⟨mark, hmark, rfl⟩
  · cases h with
    | @leaf kind text ht hkind =>
        have hadmits := Parse.leafKind?_admits hkind
        refine ⟨text, print_leaf hadmits, fun rest more hahead hmore => ?_⟩
        rw [words_of_leafKind? ht hkind]
        exact .lexeme ht (hahead.stops (kindOf_ne_operator ht hkind hop)
          (Kind.admits_ne_directive hadmits)) hmore
    | enclosed hmem hinner =>
        exact hany (bracket_written [] hmem (by simp) fun p hp => (hinner p hp).legible)
    | subscript hoperand _ hinner =>
        exact hany (bracket_written [_] (by decide)
          (List.forall_mem_singleton.2 hoperand.legible) fun p hp => (hinner p hp).legible)
    | call hname hkind harguments =>
        refine hany (call_written hname hkind fun e he => ?_)
        obtain ⟨ps, hps, rfl⟩ := List.mem_map.1 he
        exact (Parse.collapse_legible fun p hp => (harguments ps hps p hp).legible).written
  · exact hany (mark_written hmark)

/-- An operator ends where the text of the expression starts. -/
def StartsApart (e : Expr) : Prop :=
  ∀ text, e.print = .ok text → ∀ rest, Token.Kind.operator.stops (text.toList ++ rest) = true

theorem startsApart_leaf {kind : Expr.Kind} {text : String} (ht : IsLexeme text)
    (hadmits : kind.admits (kindOf text) = true) (hkind : kindOf text ≠ .operator) :
    (leaf kind text).StartsApart := by
  intro text' htext
  obtain rfl := Except.ok.inj ((print_leaf hadmits).symm.trans htext)
  exact Token.Lexeme.operator_stops ht hkind

theorem startsApart_mark {mark : String} (hmark : mark ∈ marks) : (op mark).StartsApart := by
  have hkinds : ∀ mark ∈ marks, kindOf mark ≠ .operator := by decide
  exact startsApart_leaf (Parse.mark_lexeme hmark) (Parse.mark_admits hmark) (hkinds mark hmark)

theorem StartsApart.chain {p : Expr} (hp : p.StartsApart) (ps : List Expr) :
    (chain (p :: ps)).StartsApart := by
  intro text htext rest
  obtain ⟨first, hfirst, ⟨_, rfl⟩ | ⟨others, _, _, rfl⟩⟩ := print_chain_cons htext
  · exact hp text hfirst rest
  · rw [String.toList_append, String.toList_append, List.append_assoc, List.append_assoc]
    exact hp first hfirst _

theorem StartsApart.call {callee : Expr} (hcallee : callee.StartsApart) (arguments : Expr) :
    (Expr.call callee arguments).StartsApart := by
  intro text htext rest
  have hprint : (Expr.call callee arguments).print = (do
      let first ← callee.print
      let others ← (do return "(" ++ (← arguments.print) ++ ")" : Except Fault String)
      return first ++ others : Except Fault String) := rfl
  rw [hprint] at htext
  obtain ⟨first, hfirst, htext⟩ := bind_eq_ok.1 htext
  obtain ⟨others, _, htext⟩ := bind_eq_ok.1 htext
  obtain rfl := Except.ok.inj htext
  rw [String.toList_append, List.append_assoc]
  exact hcallee first hfirst _

/-- **An operator ends where what is no operator starts.** -/
theorem Item.startsApart {e : Expr} (h : e.Item) (hop : ¬ e.IsOperator) : e.StartsApart := by
  rcases h with h | ⟨mark, hmark, rfl⟩
  · induction h with
    | leaf ht hkind =>
        exact startsApart_leaf ht (Parse.leafKind?_admits hkind) (kindOf_ne_operator ht hkind hop)
    | enclosed hmem _ _ => exact (startsApart_mark (Parse.mem_marks hmem).1).chain _
    | subscript _ hkind _ ih _ =>
        refine (ih ?_).chain _
        rintro ⟨word, rfl, _⟩
        exact hkind rfl
    | call hname hkind _ _ =>
        refine (startsApart_leaf hname ?_ ?_).call _
        · rw [hkind]
          rfl
        · rw [hkind]
          nofun
  · exact startsApart_mark hmark

end Expr

/-! ## §3. The test of a group. -/

theorem Parse.paired_operators {ops : List String}
    (h : ∀ op ∈ ops, Lexeme .operator op.toList) : Paired ops := by
  induction ops with
  | nil => exact .nil
  | cons op ops ih =>
      obtain ⟨hop, hops⟩ := List.forall_mem_cons.1 h
      have hleaf : leafKind? (.plain op) = some .op := by
        rw [leafKind?, show (Token.plain op).kind = .operator from hop.kindOf_eq]
      exact .leaf hop.isLexeme hleaf (ih hops)

open Parse (paired_operators)

namespace Unroll

/-- A comparison does not end with a slash. -/
theorem comparison_quiet (direction : Direction) :
    ∀ c ∈ direction.comparison.toList.getLast?, ∀ d, Token.Quiet c d := by
  intro c hc d hopens
  cases direction with
  | increasing =>
      obtain rfl : '<' = c := Option.some.inj hc
      exact absurd hopens.1 (by decide)
  | decreasing =>
      obtain rfl : '=' = c := Option.some.inj hc
      exact absurd hopens.1 (by decide)

/-- A comparison and the bound behind it.  If the bound starts with an
operator, the two may be read as others. -/
theorem bound_reads {ls : List Expr} (hls : ∀ l ∈ ls, l.Item) (hne : ls ≠ []) {limit : String}
    (hlimit : (Expr.chain ls).print = .ok limit) (direction : Direction) :
    ∃ ops behind, Reads (direction.comparison.toList ++ (limit.toList ++ [';']))
        (ops ++ (behind ++ [";"]))
      ∧ (∀ op ∈ ops, Lexeme .operator op.toList)
      ∧ (behind = wordsOf ls ∨ behind = wordsOf ls.tail) := by
  obtain ⟨l, ls, rfl⟩ := List.exists_cons_of_ne_nil hne
  obtain ⟨hl, hrest⟩ := List.forall_mem_cons.1 hls
  have hrun := direction.comparison_lexeme.operatorRun
  have hend : Token.EndsWord [';'] := Token.endsWord_cons [] (by decide) (by decide)
  have hsemi : Reads [';'] [";"] := .mark (by rfl) .done
  by_cases hop : l.IsOperator
  · obtain ⟨text, rfl, hlexeme⟩ := hop
    -- The comparison and the first operator of the bound make one run.
    have hruns := hrun.append hlexeme.operatorRun fun c hc d _ => comparison_quiet direction c hc d
    have hoperator : (Expr.op text).print = .ok text :=
      Expr.print_leaf (show Expr.Kind.op.admits .operator = true from rfl)
    have htail : ∃ tail, limit.toList ++ [';'] = text.toList ++ tail
        ∧ Token.Kind.operator.stops tail = true ∧ Reads tail (wordsOf ls ++ [";"]) := by
      obtain ⟨first, hfirst, hcases⟩ := Expr.print_chain_cons hlimit
      obtain rfl := Except.ok.inj (hoperator.symm.trans hfirst)
      rcases hcases with ⟨rfl, rfl⟩ | ⟨others, _, hothers, rfl⟩
      · exact ⟨[';'], rfl, by decide, hsemi⟩
      · have hlegible : (Expr.chain ls).Legible := .chain fun e he => (hrest e he).legible
        obtain ⟨_, hprint, hreads⟩ := hlegible.written
        obtain rfl := Except.ok.inj (hothers.symm.trans hprint)
        have hbehind := hreads _ _ hend hsemi
        rw [Expr.words_chain] at hbehind
        refine ⟨' ' :: (others.toList ++ [';']), ?_, by rfl, .blank (by decide) hbehind⟩
        simp [String.toList_append]
    obtain ⟨tail, htext, hstop, hreads⟩ := htail
    obtain ⟨ops, hall, hops, _⟩ := Reads.operators hruns hstop hreads
    rw [htext, ← List.append_assoc]
    exact ⟨ops, wordsOf ls, hall, hops, .inr rfl⟩
  · have hlegible : (Expr.chain (l :: ls)).Legible := .chain fun e he => (hls e he).legible
    obtain ⟨_, hprint, hreads⟩ := hlegible.written
    obtain rfl := Except.ok.inj (hlimit.symm.trans hprint)
    have hstop := (hl.startsApart hop).chain ls limit hlimit [';']
    obtain ⟨ops, hall, hops, _⟩ := Reads.operators hrun hstop (hreads _ _ hend hsemi)
    rw [Expr.words_chain] at hall
    exact ⟨ops, wordsOf (l :: ls), hall, hops, .inl rfl⟩

/-- How far a group moves the variable: a number, with its sign if it is
negative, or a product. -/
theorem offset_reads {factor : Int} (hfactor : 0 ≤ factor) {a : Expr} (ha : a.Legible)
    {step : String} (hstep : a.print = .ok step) :
    ∃ dash core words, offset factor step = dash ++ core ∧ (dash = "" ∨ dash = "-")
      ∧ (∀ rest, Token.Kind.operator.stops (core.toList ++ rest) = true)
      ∧ (∀ rest more, OperatorAhead rest → Reads rest more →
        Reads (core.toList ++ rest) (words ++ more))
      ∧ (Paired a.words → Paired words) := by
  have hnumber : ∀ n : Nat, (∀ rest, Token.Kind.operator.stops ((toString n).toList ++ rest) = true)
      ∧ (∀ rest more, OperatorAhead rest → Reads rest more →
        Reads ((toString n).toList ++ rest) ([toString n] ++ more))
      ∧ Paired [toString n] := by
    intro n
    have hlexeme := Token.toString_lexeme n
    refine ⟨hlexeme.operator_stops (by decide), fun rest more hahead hmore => ?_, ?_⟩
    · exact .lexeme hlexeme (hahead.stops (by decide) (by decide)) hmore
    · have hleaf : leafKind? (.plain (toString n)) = some .lit := by
        rw [leafKind?, show (Token.plain (toString n)).kind = .integer from hlexeme.kindOf_eq]
      exact .one hlexeme.isLexeme hleaf
  rcases offset_cases factor step with ⟨n, _, htext⟩ | htext
  · cases hn : n * factor with
    | ofNat m =>
        obtain ⟨hstops, hreads, hpaired⟩ := hnumber m
        refine ⟨"", toString m, [toString m], ?_, .inl rfl, hstops, hreads, fun _ => hpaired⟩
        rw [htext, hn, String.empty_append]
        rfl
    | negSucc m =>
        obtain ⟨hstops, hreads, hpaired⟩ := hnumber (m + 1)
        refine ⟨"-", toString (m + 1), [toString (m + 1)], ?_, .inr rfl, hstops, hreads,
          fun _ => hpaired⟩
        rw [htext, hn]
        rfl
  · obtain ⟨m, rfl⟩ := Int.eq_ofNat_of_zero_le hfactor
    obtain ⟨hstops, hreads, hpaired⟩ := hnumber m
    have htimes : Lexeme .operator "*".toList := .shortOperator (by decide)
    refine ⟨"", toString m ++ "*(" ++ step ++ ")", [toString m, "*", "("] ++ (a.words ++ [")"]), ?_,
      .inl rfl, fun rest => ?_, fun rest more hahead hmore => ?_, fun hwords => ?_⟩
    · rw [htext, String.empty_append]
      rfl
    · simp only [String.toList_append, List.append_assoc]
      exact hstops _
    · obtain ⟨_, hprint, hreads'⟩ := ha.written
      obtain rfl := Except.ok.inj (hstep.symm.trans hprint)
      have hclose : Reads (')' :: rest) (")" :: more) := .mark (by rfl) hmore
      have hinner := hreads' _ _ (Token.endsWord_cons rest (by decide) (by decide)) hclose
      have hopen : Reads ('(' :: (step.toList ++ ')' :: rest)) ("(" :: (a.words ++ ")" :: more)) :=
        .mark (by rfl) hinner
      have hproduct := Reads.lexeme htimes (by rfl) hopen
      have hall := hreads _ _ ⟨'*', _, rfl, by decide⟩ hproduct
      simpa [String.toList_append] using hall
    · exact (hpaired.append (paired_operators (List.forall_mem_singleton.2 htimes))).append
        (.wrapped (by decide) hwords)

/-- A sign, and perhaps another one before a number. -/
theorem sign_run (direction : Direction) {dash : String} (hdash : dash = "" ∨ dash = "-") :
    OperatorRun (direction.sign ++ dash).toList ∧ (direction.sign ++ dash).toList ≠ []
      ∧ (∀ d ∈ (direction.sign ++ dash).toList.head?, d ≠ '/' ∧ d ≠ '*')
      ∧ ∀ rest, OperatorAhead ((direction.sign ++ dash).toList ++ rest) := by
  have hrun : ∀ run ∈ [['+'], ['-'], ['+', '-'], ['-', '-']], OperatorRun run ∧ run ≠ []
      ∧ (∀ d ∈ run.head?, d ≠ '/' ∧ d ≠ '*') ∧ ∀ rest, OperatorAhead (run ++ rest) := by
    simp only [List.forall_mem_cons, List.not_mem_nil, false_imp_iff, implies_true, and_true]
    refine ⟨?_, ?_, ?_, ?_⟩ <;>
      exact ⟨⟨by simp [shortOperators], by decide⟩, by decide, by simp,
        fun rest => ⟨_, _, rfl, by decide⟩⟩
  apply hrun
  rcases hdash with rfl | rfl <;> cases direction <;> decide

/-- **The text of the test of a group** is read as the words of the variable,
of the distance and of the bound, with operators between them.  An operator
of the variable or at the start of the bound may be read as part of those. -/
theorem testText_reads {q : Expr} (hq : q.Item) {i : Induction} (hname : q.print = .ok i.name)
    {a : Expr} (ha : a.Legible) (hstep : a.print = .ok i.step) {ls : List Expr}
    (hls : ∀ l ∈ ls, l.Item) (hne : ls ≠ []) {limit : String}
    (hlimit : (Expr.chain ls).print = .ok limit) {factor : Int} (hfactor : 0 ≤ factor) :
    ∃ front ops distance ops' behind,
      Reads (testText factor i limit ++ ";").toList
        (front ++ (ops ++ (distance ++ (ops' ++ (behind ++ [";"])))))
      ∧ (front = q.words ∨ front = []) ∧ ops ≠ []
      ∧ (∀ op ∈ ops ++ ops', Lexeme .operator op.toList)
      ∧ (Paired a.words → Paired distance)
      ∧ (behind = wordsOf ls ∨ behind = wordsOf ls.tail) := by
  obtain ⟨ops', behind, hbound, hops', hbehind⟩ := bound_reads hls hne hlimit i.direction
  obtain ⟨dash, core, distance, hoffset, hdash, hstops, hdistance, hpaired⟩ :=
    offset_reads hfactor ha hstep
  have hcomparison : OperatorAhead (i.direction.comparison.toList ++ (limit.toList ++ [';'])) := by
    cases i.direction <;> exact ⟨_, _, rfl, by decide⟩
  have hcore := hdistance _ _ hcomparison hbound
  obtain ⟨hsign, hnonempty, hmeet, hahead⟩ := sign_run i.direction hdash
  have htext : (testText factor i limit ++ ";").toList
      = i.name.toList ++ ((i.direction.sign ++ dash).toList ++ (core.toList
        ++ (i.direction.comparison.toList ++ (limit.toList ++ [';'])))) := by
    unfold testText
    rw [hoffset]
    simp [String.toList_append]
  rw [htext]
  by_cases hop : q.IsOperator
  · obtain ⟨word, rfl, hlexeme⟩ := hop
    have hprint : (Expr.op word).print = .ok word :=
      Expr.print_leaf (show Expr.Kind.op.admits .operator = true from rfl)
    obtain rfl := Except.ok.inj (hname.symm.trans hprint)
    -- The variable and the sign make one run.
    have hruns := hlexeme.operatorRun.append hsign fun c _ d hd hopens =>
      hopens.2.elim (hmeet d hd).1 (hmeet d hd).2
    obtain ⟨ops, hreads, hops, hops_ne⟩ := Reads.operators hruns (hstops _) hcore
    rw [← List.append_assoc]
    exact ⟨[], ops, distance, ops', behind, hreads, .inr rfl,
      hops_ne (List.append_ne_nil_of_left_ne_nil hlexeme.ne_nil _),
      List.forall_mem_append.2 ⟨hops, hops'⟩, hpaired, hbehind⟩
  · obtain ⟨ops, hreads, hops, hops_ne⟩ := Reads.operators hsign (hstops _) hcore
    obtain ⟨_, hprint, hwritten⟩ := hq.written_ahead hop
    obtain rfl := Except.ok.inj (hname.symm.trans hprint)
    exact ⟨q.words, ops, distance, ops', behind, hwritten _ _ (hahead _) hreads, .inl rfl,
      hops_ne hnonempty, List.forall_mem_append.2 ⟨hops, hops'⟩, hpaired, hbehind⟩

end Unroll

end RuleBody
