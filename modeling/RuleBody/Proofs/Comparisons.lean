/-
  RuleBody.Proofs.Comparisons
  ───────────────────────────
  **WHICH COMPARISONS THE TEST OF A GROUP ANSWERS FOR.**

  A loop suits if one side of its test is its variable, whatever the
  comparison is.  The test of a group is made from the direction alone, so it
  speaks for the test of the loop only where the two go together:

      i <  n   i <= n   n >  i   n >= i   i != n   — the variable increases
      i >  n   i >= n   n <  i   n <= i   i != n   — the variable decreases

  Under every other comparison, such as `i == n`, the test of the loop fails
  before each round of a group that the test of the group lets run
  (`group_test_answers`).

  §1  comparisons;
  §2  arithmetic;
  §3  the sides of a test;
  §4  the test of a group.
-/
import RuleBody.Proofs.Shifts

namespace RuleBody

open Token (IsLexeme Lexeme kindOf)
open Parse (leafKind? collapse enclosed brackets marks)
open RuleBody.Expr (Part wordsOf)

/-! ## §1. Comparisons. -/

/-- A comparison of a variable with a bound. -/
structure Comparison where
  op : String
  /-- Whether the variable stands in front. -/
  first : Bool
  deriving DecidableEq, Repr

namespace Comparison

/-- What the comparison says about a value of the variable and one of the
bound. -/
def truth? (c : Comparison) (x b : Int) : Option Bool :=
  if c.first then Interp.compare? c.op x b else Interp.compare? c.op b x

/-- Whether the comparison goes with the direction. -/
def fits (c : Comparison) (direction : Direction) : Bool :=
  c.op == "!=" || (if c.first then direction.tests else direction.mirrored).contains c.op

/-- The side of a test that is the variable. -/
def side (c : Comparison) (test : Expr) : List Expr :=
  if c.first then test.partsBefore c.op else test.partsBehind c.op

/-- The other side. -/
def bound (c : Comparison) (test : Expr) : List Expr :=
  if c.first then test.partsBehind c.op else test.partsBefore c.op

/-- A value that has not reached the bound tells the comparisons apart. -/
theorem truth?_of_gap {c : Comparison} (hop : c.op ∈ Expr.comparisons) {direction : Direction}
    {x b : Int} (h : 0 < direction.gap x b) : c.truth? x b = some (c.fits direction) := by
  obtain ⟨op, first⟩ := c
  simp only [Expr.comparisons, List.mem_cons, List.not_mem_nil, or_false] at hop
  cases direction with
  | increasing | decreasing =>
      simp only [Direction.gap] at h
      rcases hop with rfl | rfl | rfl | rfl | rfl | rfl <;> cases first <;>
        simp [truth?, fits, Interp.compare?, Direction.tests, Direction.mirrored] <;> omega

/-- **Where the test of a group holds**, the test of the loop holds before
each round of the group if the comparison goes with the direction, and
fails before each of them if it does not. -/
theorem truth?_of_group {c : Comparison} (hop : c.op ∈ Expr.comparisons) {direction : Direction}
    {x b k f : Int} (hk : 1 ≤ k)
    (h : Interp.compare? direction.comparison (x + direction.signed (f * k)) b = some true)
    {j : Int} (hj : j < f) :
    c.truth? (x + direction.signed (j * k)) b = some (c.fits direction) := by
  refine truth?_of_gap hop ?_
  have hgap := Interp.le_gap_of_compare? h
  have hless : j * k < f * k := Int.mul_lt_mul_of_pos_right hj (by omega)
  rw [Direction.gap_signed]
  omega

/-- The test of a group is sound exactly for the comparisons that go with the
direction. -/
theorem fits_iff {c : Comparison} (hop : c.op ∈ Expr.comparisons) (direction : Direction) :
    c.fits direction = true ↔ ∀ x b k f : Int, 1 ≤ k → 2 ≤ f →
      Interp.compare? direction.comparison (x + direction.signed (f * k)) b = some true →
      ∀ j, 0 ≤ j → j < f → c.truth? (x + direction.signed (j * k)) b = some true := by
  constructor
  · intro hfits x b k f hk _ hgroup j _ hj
    rw [truth?_of_group hop hk hgroup hj, hfits]
  · intro hsound
    have hgroup : Interp.compare? direction.comparison (0 + direction.signed (2 * 1))
        (direction.signed 3) = some true := by
      cases direction <;> decide
    have htrue := hsound 0 (direction.signed 3) 1 2 (by decide) (by decide) hgroup 0 (by decide)
      (by decide)
    rw [truth?_of_group hop (by decide) hgroup (by decide)] at htrue
    exact Option.some.inj htrue

end Comparison

/-! ## §2. Arithmetic. -/

/-- Amounts with arithmetic operators between them. -/
inductive Expr.Terms : List Expr → Prop where
  | last {a : Expr} : a.IsAmount → Terms [a]
  | more {a : Expr} {op : String} {ps : List Expr} : a.IsAmount → op ∈ ["*", "+", "-"] →
      Terms ps → Terms (a :: .op op :: ps)

open RuleBody.Expr (Terms)

namespace Expr

theorem IsAmount.plain {a : Expr} (h : a.IsAmount) : a.IsPlain := by
  cases h with
  | operand h => exact h.plain
  | parenthesis => exact plain_enclosed _ _ _

/-- An operator ends where an amount starts. -/
theorem IsAmount.operator_stops {a : Expr} (h : a.IsAmount) {text : String}
    (htext : a.print = .ok text) (rest : List Char) :
    Token.Kind.operator.stops (text.toList ++ rest) = true := by
  cases h with
  | operand h =>
      obtain rfl := Except.ok.inj ((print_leaf h.admitted).symm.trans htext)
      exact h.operator_stops rest
  | parenthesis =>
      obtain ⟨cs, hcs⟩ := List.head?_eq_some_iff.1 (print_parenthesis htext)
      rw [hcs]
      rfl

namespace Terms

variable {ps : List Expr}

theorem readable (h : Terms ps) {xs : List Expr} (hxs : Readable xs)
    (hlast : ∀ x ∈ xs.getLast?, x.kind ≠ .ident) : Readable (xs ++ ps) := by
  induction h generalizing xs with
  | last ha => exact ha.readable hxs hlast
  | @more a op ps ha hop _ ih =>
      have hoperator : Lexeme .operator op.toList := by
        simp only [List.mem_cons, List.not_mem_nil, or_false] at hop
        rcases hop with rfl | rfl | rfl <;> exact .shortOperator (by decide)
      have hfront : Readable (xs ++ [a] ++ [.op op]) :=
        .append_leaves (ha.readable hxs hlast)
          (List.forall_mem_singleton.2 (isRead_op hoperator))
      have hall := ih hfront (by
        rw [List.getLast?_append]
        simp)
      simpa using hall

theorem plain (h : Terms ps) : ∀ p ∈ ps, p.IsPlain := by
  induction h with
  | last ha => exact List.forall_mem_singleton.2 ha.plain
  | @more a op ps ha hop _ ih =>
      have hother : ∀ op ∈ ["*", "+", "-"], op ∉ "," :: comparisons := by decide
      exact List.forall_mem_cons.2
        ⟨ha.plain, List.forall_mem_cons.2 ⟨plain_op (hother op hop), ih⟩⟩

theorem ne_nil (h : Terms ps) : ps ≠ [] := by
  cases h <;> exact List.cons_ne_nil _ _

/-- **The text of some terms is a bound.** -/
theorem isLimit (h : Terms ps) {text : String} (htext : (chain ps).print = .ok text) :
    Unroll.IsLimit text ps where
  readable := h.readable
  starts rest := by
    obtain ⟨a, others, rfl, ha⟩ : ∃ a others, ps = a :: others ∧ a.IsAmount := by
      cases h with
      | last ha => exact ⟨_, _, rfl, ha⟩
      | more ha _ _ => exact ⟨_, _, rfl, ha⟩
    obtain ⟨first, hfirst, ⟨_, rfl⟩ | ⟨_, _, _, rfl⟩⟩ := print_chain_cons htext
    · exact ha.operator_stops hfirst rest
    · rw [String.toList_append, String.toList_append, List.append_assoc, List.append_assoc]
      exact ha.operator_stops hfirst _
  reads hends hmore := by
    have hlegible : (chain ps).Legible := .chain (h.readable .nil (by simp)).legible
    obtain ⟨_, hprint, hreads⟩ := hlegible.written
    obtain rfl := Except.ok.inj (htext.symm.trans hprint)
    have hall := hreads _ _ hends hmore
    rwa [words_chain] at hall
  plain := h.plain
  nonempty := h.ne_nil

/-- A comparison of terms assigns nothing. -/
theorem assign?_eq_none (h : Terms ps) {I : Interp} {σ : Store} {op : String}
    (hop : op ∈ comparisons) {behind : List Expr} (hbehind : behind ≠ []) :
    I.assign? σ (.chain (ps ++ .op op :: behind)) = none := by
  have hcomparisons : ∀ op ∈ comparisons, op ∉ ["=", "+=", "-="] := by decide
  have harithmetic : ∀ op ∈ ["*", "+", "-"], op ∉ ["=", "+=", "-="] := by decide
  cases h with
  | last _ => exact Interp.assign?_eq_none _ (hcomparisons op hop) hbehind
  | more _ hop' hps => exact Interp.assign?_eq_none _ (harithmetic _ hop') (by simp)

end Terms

/-- A part that is no bracket. -/
theorem Part.isLeafText_paren {p : Expr} (h : p.Part) : p.isLeafText "(" = false := by
  refine Bool.eq_false_iff.2 fun hleaf => ?_
  obtain ⟨kind, rfl, _, hkind⟩ := h.of_isLeafText hleaf
  rw [Parse.leafKind?_mark (by decide)] at hkind
  cases hkind

end Expr

namespace Interp

variable {I : Interp} {σ : Store}

/-- Parts that go on with a sum are an operator and terms. -/
theorem terms_of_more? {m : Int} : ∀ (ps : List Expr) (done term : Int),
    (∀ p ∈ ps, p.Part) → (∀ p ∈ ps, (I.value? σ p).isSome = true → p.IsAmount) →
    I.more? σ done term ps = some m →
    ps = [] ∨ ∃ op rest, ps = .op op :: rest ∧ op ∈ ["*", "+", "-"] ∧ Terms rest
  | [], _, _, _, _, _ => .inl rfl
  | [_], _, _, _, _, h => by
      rw [more?] at h
      cases h
  | o :: p :: ps, done, term, hparts, hamounts, h => by
      have ih : ∀ done term, I.more? σ done term ps = some m → _ := fun done term =>
        terms_of_more? ps done term (fun q hq => hparts q (by simp [hq]))
          (fun q hq => hamounts q (by simp [hq]))
      rw [more?] at h
      cases hp : I.value? σ p with
      | none =>
          rw [hp] at h
          cases h
      | some n =>
          have ha : p.IsAmount := hamounts p (by simp) (by rw [hp]; rfl)
          rw [hp] at h
          have hop : ∀ op ∈ ["*", "+", "-"], o.isLeafText op = true → o = .op op := by
            intro op hop hleaf
            have hkinds : ∀ op ∈ ["*", "+", "-"], leafKind? (.plain op) = some .op := by decide
            obtain ⟨kind, rfl, _, hkind⟩ := (hparts o (by simp)).of_isLeafText hleaf
            obtain rfl := Option.some.inj (hkind.symm.trans (hkinds op hop))
            rfl
          -- The three operators differ only in what they add to the sum.
          have hrest : ∀ op ∈ ["*", "+", "-"], o.isLeafText op = true → ∀ done term,
              I.more? σ done term ps = some m → o :: p :: ps = [] ∨ ∃ op rest,
                o :: p :: ps = .op op :: rest ∧ op ∈ ["*", "+", "-"] ∧ Terms rest := by
            intro op hmem hleaf done term h
            refine .inr ⟨op, p :: ps, by rw [hop op hmem hleaf], hmem, ?_⟩
            rcases ih done term h with rfl | ⟨op', rest, rfl, hop', hterms⟩
            · exact .last ha
            · exact .more ha hop' hterms
          dsimp only at h
          split at h
          · rename_i hleaf
            exact hrest "*" (by simp) hleaf _ _ h
          · split at h
            · rename_i hleaf
              exact hrest "+" (by simp) hleaf _ _ h
            · split at h
              · rename_i hleaf
                exact hrest "-" (by simp) hleaf _ _ h
              · cases h

theorem terms_of_sum? {ps : List Expr} (hparts : ∀ p ∈ ps, p.Part)
    (hamounts : ∀ p ∈ ps, (I.value? σ p).isSome = true → p.IsAmount) {m : Int}
    (h : I.sum? σ ps = some m) : Terms ps := by
  unfold sum? at h
  cases ps with
  | nil => cases h
  | cons p ps =>
      dsimp only at h
      rw [if_neg (by simp [(hparts p (by simp)).isLeafText_paren])] at h
      cases hp : I.value? σ p with
      | none =>
          rw [hp] at h
          cases h
      | some n =>
          rw [hp] at h
          have ha : p.IsAmount := hamounts p (by simp) (by rw [hp]; rfl)
          rcases terms_of_more? ps 0 n (fun q hq => hparts q (by simp [hq]))
            (fun q hq => hamounts q (by simp [hq])) h with rfl | ⟨op, rest, rfl, hop, hterms⟩
          · exact .last ha
          · exact .more ha hop hterms

/-- **A part with a value is an amount.** -/
theorem isAmount_of_value? {p : Expr} (h : p.Part) (hvalue : (I.value? σ p).isSome = true) :
    p.IsAmount := by
  induction h with
  | @leaf kind text htext hkind =>
      refine .operand ⟨htext, ?_, Parse.leafKind?_admits hkind⟩
      cases kind with
      | ident => exact .inl rfl
      | lit => exact .inr rfl
      | _ => simp [Expr.leaf, value?, sum?] at hvalue
  | @enclosed opening closing inner hmem hinner ih =>
      rw [I.value?_chain] at hvalue
      have hmark : ∀ mark : String, I.value? σ (.op mark) = none := fun mark => by
        simp [Expr.op, Expr.leaf, value?]
      cases inner with
      | nil => simp [Parse.enclosed, sum?, hmark] at hvalue
      | cons q inner =>
          obtain ⟨rfl, rfl, hinside⟩ : opening = "(" ∧ closing = ")"
              ∧ (I.value? σ (collapse (q :: inner))).isSome = true := by
            change (I.sum? σ [.op opening, collapse (q :: inner), .op closing]).isSome = true
              at hvalue
            unfold sum? at hvalue
            rw [hmark] at hvalue
            dsimp only [Expr.isLeafText_op] at hvalue
            by_cases hopening : opening = "("
            · by_cases hclosing : closing = ")"
              · exact ⟨hopening, hclosing, by simpa [hopening, hclosing] using hvalue⟩
              · simp [hopening, hclosing] at hvalue
            · simp [hopening] at hvalue
          refine .parenthesis ?_ (List.cons_ne_nil q inner)
          cases inner with
          | nil => exact (ih q List.mem_cons_self hinside).readable .nil (by simp)
          | cons r inner =>
              obtain ⟨m, hm⟩ := Option.isSome_iff_exists.1 hinside
              rw [show collapse (q :: r :: inner) = .chain (q :: r :: inner) from rfl,
                I.value?_chain] at hm
              exact (terms_of_sum? hinner ih hm).readable .nil (by simp)
  | @subscript operand inner hoperand hkind hinner _ _ =>
      -- A subscript goes on behind its operand with a bracket.
      exfalso
      rw [I.value?_chain] at hvalue
      cases hn : I.value? σ operand with
      | none =>
          unfold sum? at hvalue
          rw [if_neg (by simp [hoperand.isLeafText_paren]), hn] at hvalue
          cases hvalue
      | some n =>
          rw [I.sum?_cons σ hoperand.isLeafText_paren hn] at hvalue
          have hnone : ∀ (q : Expr) (qs : List Expr),
              I.more? σ 0 n (.op "[" :: q :: qs) = none := by
            intro q qs
            cases hq : I.value? σ q with
            | none => simp [more?, hq]
            | some k => simp [more?, hq]
          cases inner <;> simp [Parse.enclosed, hnone] at hvalue
  | call => simp [Expr.call, Expr.node, value?] at hvalue

theorem terms_of_parts {ps : List Expr} (hparts : ∀ p ∈ ps, p.Part) {m : Int}
    (h : I.sum? σ ps = some m) : Terms ps :=
  terms_of_sum? hparts (fun p hp => isAmount_of_value? (hparts p hp)) h

end Interp

/-! ## §3. The sides of a test. -/

namespace Expr

/-- A test is its sides with the comparison between them. -/
theorem eq_sides {ps : List Expr} (hps : ∀ p ∈ ps, p.Part) {op : String} (hop : op ∈ comparisons)
    (hdirect : (chain ps).hasDirect op = true) :
    chain ps = chain ((chain ps).partsBefore op ++ .op op :: (chain ps).partsBehind op) := by
  have hsplit : ps.takeWhile (fun p => !p.isLeafText op)
      ++ ps.dropWhile (fun p => !p.isLeafText op) = ps := List.takeWhile_append_dropWhile
  cases hbehind : ps.dropWhile fun p => !p.isLeafText op with
  | nil =>
      obtain ⟨p, hp, hleaf⟩ := List.any_eq_true.1 hdirect
      have hnone := List.dropWhile_eq_nil_iff.1 hbehind p hp
      simp [hleaf] at hnone
  | cons x xs =>
      have hx : x.isLeafText op = true := by
        have hhead := List.head?_dropWhile_not (fun p => !p.isLeafText op) ps
        rw [hbehind] at hhead
        simpa using hhead
      obtain ⟨kind, rfl, _, hkind⟩ := (hps x (by rw [← hsplit, hbehind]; simp)).of_isLeafText hx
      obtain rfl := Option.some.inj (hkind.symm.trans (comparison_leafKind? op hop).2)
      have hbefore : (chain ps).partsBefore op = ps.takeWhile fun p => !p.isLeafText op := rfl
      have hafter : (chain ps).partsBehind op = xs := by
        show (ps.dropWhile fun p => !p.isLeafText op).drop 1 = xs
        rw [hbehind]
        rfl
      rw [hbehind] at hsplit
      rw [hbefore, hafter]
      exact congrArg chain hsplit.symm

/-- A name is not the word of a bracket. -/
theorem mark_notMem_of_name {name : String} (hname : Lexeme .identifier name.toList) {mark : String}
    (hmark : mark ∈ marks) : mark ∉ [name] := by
  intro hmem
  obtain rfl := List.mem_singleton.1 hmem
  have hkinds : ∀ mark ∈ marks, kindOf mark ≠ .identifier := by decide
  exact hkinds _ hmark hname.kindOf_eq

/-- **A side that is a name**: the test is made of parts, and the side is the
leaf of the name. -/
theorem IsSpelt.side_of_name {test : Expr} (h : test.IsSpelt .statement) {op : String}
    (hop : op ∈ comparisons) (hdirect : test.hasDirect op = true) {name : String}
    (hname : Lexeme .identifier name.toList) {side : List Expr}
    (hside : side = test.partsBefore op ∨ side = test.partsBehind op)
    (hprint : (chain side).print = .ok name) :
    (∃ ps, (∀ p ∈ ps, p.Part) ∧ test = .chain ps) ∧ side = [.ident name] := by
  have hkind := Parse.leafKind?_of_identifier hname.kindOf_eq
  have hmem : ∀ e ∈ side, e ∈ test.parts := by
    rintro e he
    rcases hside with rfl | rfl
    · exact mem_of_mem_sides (.inl he)
    · exact mem_of_mem_sides (.inr he)
  have hwords : wordsOf side = [name] := by
    have hlegible : (chain side).Legible :=
      .chain fun e he => ((h.direct_items hop hdirect).2 e (hmem e he)).legible
    have hident : (ident name).Legible := .leaf hname.isLexeme (Parse.leafKind?_admits hkind)
    have hsame := hlegible.words_eq hident
      (hprint.trans (print_leaf (Parse.leafKind?_admits hkind)).symm)
    rwa [words_chain, show (ident name).words = [name] from words_of_leafKind? hname.isLexeme hkind]
      at hsame
  -- No side holds a bracket without its match.
  have hnoMark : ∀ mark ∈ marks, Expr.op mark ∉ side := by
    intro mark hmark hmem
    refine mark_notMem_of_name hname hmark ?_
    rw [← hwords]
    exact List.mem_flatMap.2 ⟨_, hmem, by simp [mark_words hmark]⟩
  obtain ⟨hmark, hleaf⟩ := comparison_leafKind? op hop
  rcases h.direct_shapes hop hdirect with
    ⟨ps, hps, rfl⟩ | ⟨pair, hpair, rfl⟩ | ⟨operand, hoperand, hne, rfl⟩
  · refine ⟨⟨ps, hps, rfl⟩, ?_⟩
    -- Each part has a word, so one word is one part.
    match side, hprint, hwords, hmem with
    | [p], hprint, _, hmem =>
        rw [print_chain, printJoined] at hprint
        rw [(hps p (hmem p List.mem_cons_self)).eq_leaf hname.isLexeme hkind hprint]
        rfl
    | p :: q :: rest, _, hwords, hmem =>
        have hlength := congrArg List.length hwords
        have hp := List.length_pos_of_ne_nil (hps p (hmem p (by simp))).words_ne_nil
        have hq := List.length_pos_of_ne_nil (hps q (hmem q (by simp))).words_ne_nil
        simp only [wordsOf_cons, List.length_append, List.length_singleton] at hlength
        omega
  · obtain ⟨hopening, hclosing⟩ := Parse.mem_marks hpair
    have hbefore := mark_isLeafText hopening hmark
    rcases hside with rfl | rfl
    · refine absurd ?_ (hnoMark _ hopening)
      simp [partsBefore, chain, node, hbefore]
    · refine absurd ?_ (hnoMark _ hclosing)
      simp [partsBehind, chain, node, hbefore]
  · have hfirst := hoperand.isLeafText_of_kind_ne hne hleaf
    have hopen := mark_isLeafText (show "[" ∈ marks by decide) hmark
    rcases hside with rfl | rfl
    · refine absurd ?_ (hnoMark "[" (by decide))
      simp [partsBefore, chain, node, hfirst, hopen]
    · refine absurd ?_ (hnoMark "]" (by decide))
      simp [partsBehind, chain, node, hfirst, hopen]

end Expr

namespace Comparison

variable {c : Comparison} {test : Expr} (htest : test.IsSpelt .statement)
  (hop : c.op ∈ Expr.comparisons) (hdirect : test.hasDirect c.op = true) {name : String}
  (hname : Lexeme .identifier name.toList) (hside : (Expr.chain (c.side test)).print = .ok name)
  {I : Interp} {σ : Store} {b : Int} (hb : I.sum? σ (c.bound test) = some b)
include htest hop hdirect hname hside hb

theorem terms_bound : Terms (c.bound test) := by
  have hcases : c.side test = test.partsBefore c.op ∨ c.side test = test.partsBehind c.op := by
    unfold side
    cases c.first
    · exact .inr rfl
    · exact .inl rfl
  obtain ⟨⟨ps, hps, rfl⟩, _⟩ := htest.side_of_name hop hdirect hname hcases hside
  refine Interp.terms_of_parts (fun p hp => hps p (?_ : p ∈ (Expr.chain ps).parts)) hb
  unfold bound at hp
  cases hfirst : c.first with
  | true =>
      rw [hfirst] at hp
      exact Expr.mem_of_mem_sides (.inr hp)
  | false =>
      rw [hfirst] at hp
      exact Expr.mem_of_mem_sides (.inl hp)

/-- **What a test with such sides says, and that it changes nothing.** -/
theorem meaning : c.truth? (σ name) b = some (I.holds σ test) ∧ I.after σ test = σ := by
  have hbound := terms_bound htest hop hdirect hname hside hb
  have hoperand := Expr.isOperand_of_identifier hname
  have hvariable : Terms [.ident name] := .last (.operand hoperand)
  have hvalue : I.sum? σ [.ident name] = some (σ name) :=
    Interp.sum?_singleton hoperand (I.value?_ident σ name)
  -- The two sides, in their order.
  have hsides : ∀ {front behind : List Expr} {m n : Int},
      test.partsBefore c.op = front → test.partsBehind c.op = behind → Terms front →
      Terms behind → I.sum? σ front = some m → I.sum? σ behind = some n →
      (∃ ps, (∀ p ∈ ps, p.Part) ∧ test = .chain ps) →
      Interp.compare? c.op m n = some (I.holds σ test) ∧ I.after σ test = σ := by
    rintro front behind m n rfl rfl hfront hbehind hm hn ⟨ps, hps, rfl⟩
    have hcomparison := Interp.comparison hfront.plain hop hbehind.plain hm hn
      (hfront.assign?_eq_none hop hbehind.ne_nil)
    rwa [← Expr.eq_sides hps hop hdirect] at hcomparison
  unfold side at hside
  unfold bound at hb hbound
  unfold truth?
  cases hfirst : c.first with
  | true =>
      rw [hfirst] at hside hb hbound
      obtain ⟨hparts, hname⟩ := htest.side_of_name hop hdirect hname (.inl rfl) hside
      exact hsides hname rfl hvariable hbound hvalue hb hparts
  | false =>
      rw [hfirst] at hside hb hbound
      obtain ⟨hparts, hname⟩ := htest.side_of_name hop hdirect hname (.inr rfl) hside
      exact hsides rfl hname hbound hvariable hb hvalue hparts

end Comparison

/-! ## §4. The test of a group. -/

/-- The sides of a test, as the comparison tells them. -/
theorem Expr.exists_comparison {test : Expr} {op name limit : String}
    (h : test.bound? op name = some limit) :
    ∃ c : Comparison, c.op = op ∧ (chain (c.side test)).print = .ok name
      ∧ (chain (c.bound test)).print = .ok limit := by
  obtain ⟨side, other, hsides, hname, hlimit⟩ := bound?_eq_some h
  simp only [List.cons.injEq, and_true] at hsides
  rcases hsides with ⟨rfl, rfl⟩ | ⟨rfl, rfl⟩
  · exact ⟨⟨op, true⟩, rfl, hname, hlimit⟩
  · exact ⟨⟨op, false⟩, rfl, hname, hlimit⟩

/-- The clauses of a loop that was read. -/
theorem Loop.clauses_of_tidy {l : Loop} (h : l.toStmt.Tidy) :
    ∃ test increment, l.clause .test = .ok test ∧ l.clause .increment = .ok increment
      ∧ test.IsSpelt .statement := by
  obtain ⟨clauses, body, induction, tags⟩ := l
  cases h with
  | loop _ htest _ _ => exact ⟨_, _, rfl, rfl, htest⟩

/-- An answer to a question about a loop that remembers nothing is the answer
that is found. -/
theorem Loop.Query.Finds.eq_of_ask {α : Type} {q : Query α} {l l' : Loop} {x y : Except Error α}
    (h : q.Finds l.stripped x) (hnone : l.induction = none) {level : Option Level}
    (hask : (l.ask q level).2 = .ok (l', y)) : x = y := by
  obtain ⟨l'', hyields, _⟩ := (h l rfl (Loop.coherent_of_none hnone)).ask
  exact (Prod.mk.inj (Except.ok.inj ((hyields level).symm.trans hask))).2

/-- **Where the test of a group holds, the comparison decides.** -/
theorem Comparison.group_holds {c : Comparison} {test : Expr} (htest : test.IsSpelt .statement)
    (hop : c.op ∈ Expr.comparisons) (hdirect : test.hasDirect c.op = true) {i : Induction}
    (hname : Lexeme .identifier i.name.toList)
    (hside : (Expr.chain (c.side test)).print = .ok i.name) {limit : String}
    (hlimit : (Expr.chain (c.bound test)).print = .ok limit) {I : Interp} {σ : Store} {a : Expr}
    (ha : a.Part) (hstep : a.print = .ok i.step) {k b f : Int} (hk : I.value? σ a = some k)
    (hpositive : 1 ≤ k) (hf : 2 ≤ f) (hb : ∀ n, I.sum? (σ.set i.name n) (c.bound test) = some b) :
    ∃ group, Expr.parse (Unroll.testText f i limit) {} = .ok group
      ∧ Interp.compare? i.direction.comparison (σ i.name + i.direction.signed (f * k)) b
        = some (I.holds σ group)
      ∧ (I.holds σ group = true → ∀ j, 0 ≤ j → j < f →
        I.holds (σ.set i.name (σ i.name + i.direction.signed (j * k))) test
          = c.fits i.direction) := by
  have hv := Expr.isOperand_of_identifier hname
  have hamount : a.IsAmount := Interp.isAmount_of_value? ha (by rw [hk]; rfl)
  obtain ⟨parts, hoffset⟩ := Unroll.exists_offset I (by omega : 0 ≤ f) hamount hstep
  have hbound := (terms_bound htest hop hdirect hname hside (hb 0)).isLimit hlimit
  have hb' : I.sum? σ (c.bound test) = some b := by
    have hself := hb (σ i.name)
    rwa [Store.set_eq_self] at hself
  have hgroup := (Unroll.group_meaning hoffset hv hbound hk hb').1
  refine ⟨_, Unroll.parse_testText hoffset hv hbound, hgroup, fun hholds j _ hj => ?_⟩
  rw [hholds] at hgroup
  have hround := (meaning htest hop hdirect hname hside
    (hb (σ i.name + i.direction.signed (j * k)))).1
  rw [Store.set_self, truth?_of_group hop hpositive hgroup hj] at hround
  exact (Option.some.inj hround).symm

/-- **What the test of a group answers for.**  Of a loop that suits, one side
of the test is its variable.  The test of the group is sound exactly if the
comparison goes with the direction.  In a run, where the test of the group
holds, the test of the loop holds before each round of the group, or before
none of them if the comparison does not go with the direction. -/
theorem group_test_answers {l l' : Loop} (hl : l.toStmt.Tidy) (hnone : l.induction = none)
    {level : Option Level} (hsuits : (l.ask Unroll.suits level).2 = .ok (l', .ok true)) :
    ∃ (test : Expr) (i : Induction) (limit : String) (c : Comparison),
      l.clause .test = .ok test ∧ l.stripped.driver = .ok (some i)
      ∧ (∃ l'', (l.ask Unroll.usableLimit level).2 = .ok (l'', .ok limit))
      ∧ test.comparison? = some c.op ∧ (Expr.chain (c.side test)).print = .ok i.name
      ∧ (Expr.chain (c.bound test)).print = .ok limit
      ∧ (c.fits i.direction = true ↔ ∀ x b k f : Int, 1 ≤ k → 2 ≤ f →
          Interp.compare? i.direction.comparison (x + i.direction.signed (f * k)) b = some true →
          ∀ j, 0 ≤ j → j < f → c.truth? (x + i.direction.signed (j * k)) b = some true)
      ∧ ∀ (I : Interp) (σ : Store) (a : Expr) (k b f : Int),
          Lexeme .identifier i.name.toList → a.Part → a.print = .ok i.step →
          I.value? σ a = some k → 1 ≤ k → 2 ≤ f →
          (∀ n, I.sum? (σ.set i.name n) (c.bound test) = some b) →
          ∃ group, Expr.parse (Unroll.testText f i limit) {} = .ok group
            ∧ Interp.compare? i.direction.comparison (σ i.name + i.direction.signed (f * k)) b
              = some (I.holds σ group)
            ∧ (I.holds σ group = true → ∀ j, 0 ≤ j → j < f →
              I.holds (σ.set i.name (σ i.name + i.direction.signed (j * k))) test
                = c.fits i.direction) := by
  have hlegible : l.Legible := hl.legible
  obtain ⟨test, increment, hclause, hincrement, hspelt⟩ := Loop.clauses_of_tidy hl
  have hsuited : Unroll.suited test increment l.body = .ok true :=
    (Unroll.suits_finds_suited hlegible hclause hincrement).eq_of_ask hnone hsuits
  obtain ⟨op, i, limit, hsplit, hjudge, hbound⟩ := Unroll.suited_eq_ok hsuited
  obtain ⟨_, hcomparison, hdirect⟩ := Expr.split?_eq_some hsplit
  obtain ⟨c, rfl, hside, hlimit⟩ := Expr.exists_comparison hbound
  have hop : c.op ∈ Expr.comparisons := List.mem_of_find?_eq_some hcomparison
  have hdriver : l.stripped.driver = .ok (some i) := by
    rw [Loop.driver_eq_judge hlegible hclause hincrement, hjudge]
  have husable : ∃ l'', (l.ask Unroll.usableLimit level).2 = .ok (l'', .ok limit) := by
    have hfinds := Unroll.usableLimit_finds hlegible hclause hincrement
    obtain ⟨l'', hyields, _⟩ := (hfinds l rfl (Loop.coherent_of_none hnone)).ask
    rw [Unroll.usable_of_bound hsplit hjudge hbound] at hyields
    exact ⟨l'', hyields level⟩
  exact ⟨test, i, limit, c, hclause, hdriver, husable, hcomparison, hside, hlimit,
    c.fits_iff hop i.direction, fun I σ a k b f hname ha hstep hk hpositive hf hb =>
      c.group_holds hspelt hop hdirect hname hside hlimit ha hstep hk hpositive hf hb⟩

/-- A loop that counts down to a product, which stands in front. -/
theorem group_test_answers_product :
    let I : Interp := ⟨fun _ => none, fun _ _ => 0, fun _ σ => σ, fun _ σ => σ⟩
    let test : Expr := .chain [.lit "2", .op "*",
      .chain [.op "(", .chain [.ident "m", .op "+", .lit "1"], .op ")"], .op "<=", .ident "i"]
    let l : Loop := ⟨[.chain [.ident "i", .op "=", .ident "n"], test,
      .chain [.ident "i", .op "-=", .lit "3"]],
      .ofExpr (.chain [.ident "s", .op "+=", .ident "i"]), none, {}⟩
    Block.parse "for(i = n; 2 * (m + 1) <= i; i -= 3) s += i;" {} = .ok ⟨[l.toStmt], {}⟩
      ∧ (∃ l', (l.ask Unroll.suits none).2 = .ok (l', .ok true))
      ∧ ∃ group, Expr.parse "i-12>=2 * ( m + 1 )" {} = .ok group
        ∧ ∀ σ : Store, I.holds σ group = true → ∀ j : Int, 0 ≤ j → j < 4 →
          I.holds (σ.set "i" (σ "i" - j * 3)) test = true := by
  intro I test l
  have hparse : Block.parse "for(i = n; 2 * (m + 1) <= i; i -= 3) s += i;" {}
      = .ok ⟨[l.toStmt], {}⟩ := by decide +kernel
  have hsuits : ∃ l', (l.ask Unroll.suits none).2 = .ok (l', .ok true) := by
    refine ⟨{ l with induction := some ⟨"i", .decreasing, "i -= 3", "3"⟩ }, ?_⟩
    decide +kernel
  have hlimit' : ∃ l', (l.ask Unroll.usableLimit none).2 = .ok (l', .ok "2 * ( m + 1 )") := by
    refine ⟨{ l with induction := some ⟨"i", .decreasing, "i -= 3", "3"⟩ }, ?_⟩
    decide +kernel
  have htidy : l.toStmt.Tidy := Block.tidy_of_parse hparse _ List.mem_cons_self
  refine ⟨hparse, hsuits, ?_⟩
  obtain ⟨l', hsuits⟩ := hsuits
  obtain ⟨l₁, hlimit'⟩ := hlimit'
  obtain ⟨test', i, limit, ⟨op, first⟩, htest, hdriver, ⟨l₂, husable⟩, hcomparison, hside, _, _,
    hruns⟩ := group_test_answers htidy rfl hsuits
  obtain rfl : test = test' := Except.ok.inj htest
  have hdriver' : l.stripped.driver = .ok (some ⟨"i", .decreasing, "i -= 3", "3"⟩) := by
    decide +kernel
  obtain rfl := Option.some.inj (Except.ok.inj (hdriver'.symm.trans hdriver))
  obtain rfl : "2 * ( m + 1 )" = limit :=
    Except.ok.inj (Prod.mk.inj (Except.ok.inj (hlimit'.symm.trans husable))).2
  obtain rfl : "<=" = op := Option.some.inj hcomparison
  cases first with
  | true => exact absurd hside (by decide +kernel)
  | false =>
      have hbound : ∀ (σ : Store) (n : Int), I.sum? (σ.set "i" n)
          ((⟨"<=", false⟩ : Comparison).bound test) = some (2 * (σ "m" + 1)) := by
        intro σ n
        have hside : (⟨"<=", false⟩ : Comparison).bound test = [.lit "2", .op "*",
            .chain [.op "(", .chain [.ident "m", .op "+", .lit "1"], .op ")"]] := by decide +kernel
        have hm : (σ.set "i" n) "m" = σ "m" := Store.set_of_ne σ n (by decide)
        rw [hside]
        show some ((0 : Int) + 2 * (0 + σ.set "i" n "m" + 1)) = _
        rw [hm, Int.zero_add, Int.zero_add]
      have hname : Lexeme .identifier "i".toList := by
        have hone : Lexeme (Token.nameKind ['i']) ['i'] := .name (by decide) (by simp)
        exact hone
      have hstep : (Expr.lit "3").Part := .leaf (Token.toString_lexeme 3).isLexeme (by decide)
      have hgroups : ∀ σ : Store, _ := fun σ =>
        hruns I σ (.lit "3") 3 (2 * (σ "m" + 1)) 4 hname hstep rfl rfl (by decide) (by decide)
          (hbound σ)
      have htext : Unroll.testText 4 ⟨"i", .decreasing, "i -= 3", "3"⟩ "2 * ( m + 1 )"
          = "i-12>=2 * ( m + 1 )" := by decide +kernel
      rw [htext] at hgroups
      obtain ⟨group, hgroup, _⟩ := hgroups fun _ => 0
      refine ⟨group, hgroup, fun σ hholds j hj hj' => ?_⟩
      obtain ⟨group', hgroup', _, hrounds⟩ := hgroups σ
      obtain rfl := Except.ok.inj (hgroup.symm.trans hgroup')
      exact hrounds hholds j hj hj'

/-- An equality suits, too: the group runs with a variable that is not equal
to its bound. -/
theorem equality_is_not_answered :
    let I : Interp := ⟨fun _ => none, fun _ _ => 0, fun _ σ => σ, fun _ σ => σ⟩
    let test : Expr := .chain [.ident "i", .op "==", .ident "n"]
    let l : Loop := ⟨[.chain [.ident "i", .op "=", .lit "0"], test, .chain [.ident "i", .op "++"]],
      .ofExpr (.chain [.ident "s", .op "+=", .lit "1"]), none, {}⟩
    let i : Induction := ⟨"i", .increasing, "i ++", "1"⟩
    let group : Expr := .chain [.ident "i", .op "+", .lit "2", .op "<", .ident "n"]
    let σ : Store := fun name => if name = "n" then 3 else 0
    Block.parse "for(i = 0; i == n; i ++) s += 1;" {} = .ok ⟨[l.toStmt], {}⟩
      ∧ (∃ l', (l.ask Unroll.suits none).2 = .ok (l', .ok true))
      ∧ l.stripped.driver = .ok (some i)
      ∧ Expr.parse (Unroll.testText 2 i "n") {} = .ok group ∧ I.holds σ group = true
      ∧ I.holds σ test = false ∧ I.holds (σ.set "i" (σ "i" + 1)) test = false := by
  intro I test l i group σ
  refine ⟨by decide +kernel, ⟨{ l with induction := some i }, by decide +kernel⟩,
    by decide +kernel, by decide +kernel, by decide +kernel, by decide +kernel, by decide +kernel⟩

end RuleBody
