/-
  RuleBody.Proofs.Counted
  ───────────────────────
  **COUNTED LOOPS.**

  A counted loop compares its variable with a name or a literal, and moves
  it by a literal in its increment clause or by some step in its body:

      v < e    v <= e    e > v    e >= v     — the variable increases
      v > e    v >= e    e < v    e <= v     — the variable decreases

      v++   ++v   v += c   v = v + c   v = c + v
      v--   --v   v -= c   v = v - c

  The analysis finds the variable, its direction and its step
  (`driver_of_strides`), and the pass has a plan for every such loop
  (`planned_counted`).

  §1  leaves;
  §2  tests and increments;
  §3  what drives a counted loop;
  §4  its bound, and the plan.
-/
import RuleBody.Proofs.BottomUp
import RuleBody.Proofs.Readable

namespace RuleBody

open Run (yields_pure yields_say)
open Token (kindOf IsLexeme Lexeme)

/-! ## §1. Leaves. -/

/-- A leaf that is a name or a literal. -/
structure Expr.IsOperand (kind : Expr.Kind) (text : String) : Prop where
  lexeme : IsLexeme text
  name_or_literal : kind = .ident ∨ kind = .lit
  admitted : kind.admits (kindOf text) = true

namespace Expr.IsOperand

variable {kind : Expr.Kind} {text : String} (h : IsOperand kind text)
include h

theorem readFrom : kind.ReadFrom (kindOf text) := by
  have hadmitted := h.admitted
  generalize kindOf text = k at hadmitted
  rcases h.name_or_literal with rfl | rfl
  · obtain rfl : k = .identifier := by simpa [Kind.admits] using hadmitted
    exact .name
  · simp only [Kind.admits, List.contains_iff_mem, List.mem_cons, List.not_mem_nil,
      or_false] at hadmitted
    rcases hadmitted with rfl | rfl | rfl | rfl
    · exact .integer
    · exact .float
    · exact .string
    · exact .char

theorem isRead : (Expr.leaf kind text).IsRead := ⟨kind, text, rfl, h.lexeme, h.readFrom⟩

/-- A name or a literal is no operator and no mark. -/
theorem ne_of_op {op : String} (hop : Kind.op.admits (kindOf op) = true) : text ≠ op := by
  rintro rfl
  have hread := h.readFrom
  generalize kindOf text = k at hread hop
  rcases h.name_or_literal with rfl | rfl
  · cases hread
    cases hop
  · cases hread <;> cases hop

end Expr.IsOperand

theorem Expr.isOperand_ident {name : String} (h : (Expr.ident name).Legible) :
    IsOperand .ident name := by
  cases h with
  | leaf ht hk => exact ⟨ht, .inl rfl, hk⟩

theorem Expr.isOperand_lit {text : String} (h : (Expr.lit text).Legible) :
    IsOperand .lit text := by
  cases h with
  | leaf ht hk => exact ⟨ht, .inr rfl, hk⟩

theorem Token.toString_lexeme (n : Nat) : Lexeme .integer (toString n).toList := by
  rw [Nat.toString_eq_repr, Nat.toList_repr]
  have hdigits : ∀ c ∈ Nat.toDigits 10 n, c.isDigit = true := fun c hc =>
    Nat.isDigit_of_mem_toDigits (by decide) (by decide) hc
  cases hcs : Nat.toDigits 10 n with
  | nil => exact absurd hcs (Nat.toDigits_ne_nil)
  | cons d ds =>
      rw [hcs] at hdigits
      obtain ⟨hd, hds⟩ := List.forall_mem_cons.1 hdigits
      have hlexeme := @Lexeme.integer d ds [] hd hds (by simp)
      rwa [List.append_nil] at hlexeme

theorem Expr.isOperand_toString (n : Nat) : IsOperand .lit (toString n) := by
  have hlexeme := Token.toString_lexeme n
  refine ⟨hlexeme.isLexeme, .inr rfl, ?_⟩
  rw [hlexeme.kindOf_eq]
  rfl

/-- A name is no literal. -/
theorem Expr.ident_ne_lit {name text : String} (hname : IsOperand .ident name)
    (htext : IsOperand .lit text) : name ≠ text := by
  rintro rfl
  have hread := hname.readFrom
  have hread' := htext.readFrom
  generalize kindOf name = k at hread hread'
  cases hread
  cases hread'

section

variable (text other : String) (parts : List Expr)

@[simp] theorem Expr.isLeafText_op : (Expr.op text).isLeafText other = (text == other) := rfl

@[simp] theorem Expr.isLeafText_ident : (Expr.ident text).isLeafText other = (text == other) := rfl

@[simp] theorem Expr.isLeafText_lit : (Expr.lit text).isLeafText other = (text == other) := rfl

@[simp] theorem Expr.kind_ident : (Expr.ident text).kind = .ident := rfl

@[simp] theorem Expr.kind_op : (Expr.op text).kind = .op := rfl

@[simp] theorem Expr.text_ident : (Expr.ident text).text = text := rfl

@[simp] theorem Expr.kind_lit : (Expr.lit text).kind = .lit := rfl

@[simp] theorem Expr.kind_chain : (Expr.chain parts).kind = .chain := rfl

@[simp] theorem Expr.parts_chain : (Expr.chain parts).parts = parts := rfl

end

/-- A leaf in a chain is written as it stands. -/
theorem Expr.IsOperand.print_chain {kind : Expr.Kind} {text : String} (h : IsOperand kind text) :
    (Expr.chain [.leaf kind text]).print = .ok text := by
  show (do return "" ++ (← (Expr.leaf kind text).print) : Except Fault String) = _
  rw [Expr.print_leaf h.admitted]
  show Except.ok ("" ++ text) = _
  rw [String.empty_append]

/-! ## §2. Tests and increments. -/

namespace Direction

/-- The comparisons of the variable with its bound that keep it moving. -/
def tests : Direction → List String
  | .increasing => ["<", "<="]
  | .decreasing => [">", ">="]

/-- The same comparisons with the bound in front. -/
def mirrored : Direction → List String
  | .increasing => [">", ">="]
  | .decreasing => ["<", "<="]

/-- The operator that moves by one. -/
def mark : Direction → String
  | .increasing => "++"
  | .decreasing => "--"

/-- The operator that moves by an amount. -/
def assignment : Direction → String
  | .increasing => "+="
  | .decreasing => "-="

end Direction

/-- The test compares `v` with `e`, as long as it moves in the direction. -/
inductive Bounded (v : String) (e : Expr) : Direction → Expr → Prop where
  | front {direction : Direction} {op : String} : op ∈ direction.tests →
      Bounded v e direction (.chain [.ident v, .op op, e])
  | back {direction : Direction} {op : String} : op ∈ direction.mirrored →
      Bounded v e direction (.chain [e, .op op, .ident v])

/-- The increment moves `v` in the direction by a literal. -/
inductive Strides (v : String) : Direction → String → Expr → Prop where
  | behind {direction : Direction} :
      Strides v direction "1" (.chain [.ident v, .op direction.mark])
  | inFront {direction : Direction} :
      Strides v direction "1" (.chain [.op direction.mark, .ident v])
  | assigns {direction : Direction} {c : String} :
      Strides v direction c (.chain [.ident v, .op direction.assignment, .lit c])
  | variableFirst {direction : Direction} {c : String} :
      Strides v direction c (.chain [.ident v, .op "=", .ident v, .op direction.sign, .lit c])
  | variableLast {c : String} :
      Strides v .increasing c (.chain [.ident v, .op "=", .lit c, .op "+", .ident v])

theorem Strides.operands {v c : String} {direction : Direction} {inc : Expr}
    (h : Strides v direction c inc) (hlegible : inc.Legible) :
    Expr.IsOperand .ident v ∧ Expr.IsOperand .lit c := by
  have hparts := hlegible.parts
  cases h with
  | behind | inFront =>
      exact ⟨Expr.isOperand_ident (hparts _ (by simp)), Expr.isOperand_toString 1⟩
  | assigns | variableFirst | variableLast =>
      exact ⟨Expr.isOperand_ident (hparts _ (by simp)), Expr.isOperand_lit (hparts _ (by simp))⟩

/-! ## §3. What drives a counted loop. -/

namespace Idiom

variable {e : Expr} {idiom : Idiom} {idioms : List Idiom}

theorem first?_cons_none (h : idiom.fit? e = .ok none) :
    first? e (idiom :: idioms) = first? e idioms := by
  rw [first?, h]
  rfl

theorem first?_cons_some {verdict : Verdict} (h : idiom.fit? e = .ok (some verdict)) :
    first? e (idiom :: idioms) = .ok (some (idiom, verdict)) := by
  rw [first?, h]
  rfl

theorem moves_eq {target : Expr} {name text : String} (htarget : target.print = .ok name)
    (htext : e.print = .ok text) (direction : Direction) (step : String) :
    moves e target direction step = .ok (some (.drives ⟨name, direction, text, step⟩)) := by
  unfold moves
  rw [htarget, htext]
  rfl

theorem reassigns_eq {v c : String} (hname : (Expr.ident v).print = .ok v)
    (hstep : (Expr.lit c).print = .ok c) (direction : Direction) :
    reassigns e (.ident v) (.op "=") (.ident v) (.op direction.sign) (.lit c)
      = moves e (.ident v) direction c := by
  have hdirection : direction? (.op direction.sign) = some direction := by
    cases direction <;> rfl
  unfold reassigns
  rw [hname, hstep, hdirection]
  simp [bind, Except.bind]

/-- The last row of the table takes every sum and difference of a literal and
the variable. -/
theorem first?_variableLast {v c : String} (hv : Expr.IsOperand .ident v)
    (hc : Expr.IsOperand .lit c) (direction : Direction) {text : String}
    (htext : (Expr.chain [.ident v, .op "=", .lit c, .op direction.sign, .ident v]).print
      = .ok text) :
    ∃ idiom, first? (.chain [.ident v, .op "=", .lit c, .op direction.sign, .ident v]) table
      = .ok (some (idiom, .drives ⟨v, direction, text, c⟩)) := by
  have hname : (Expr.ident v).print = .ok v := Expr.print_leaf hv.admitted
  have hstep : (Expr.lit c).print = .ok c := Expr.print_leaf hc.admitted
  have hne : c ≠ v := (Expr.ident_ne_lit hv hc).symm
  have hother : variableFirst (.chain [.ident v, .op "=", .lit c, .op direction.sign, .ident v])
      = .ok none := by
    simp [variableFirst, reassigns, hname, hstep, hne, bind, Except.bind, pure, Except.pure]
  rw [table]
  iterate 7 rw [first?_cons_none]
  · rw [first?_cons_none hother]
    refine ⟨_, first?_cons_some ?_⟩
    exact (reassigns_eq hname hstep direction).trans (moves_eq hname htext direction c)
  all_goals rfl

end Idiom

/-- What the table of idioms says about the increment. -/
theorem Strides.idiom? {v c : String} {direction : Direction} {inc : Expr}
    (h : Strides v direction c inc) (hlegible : inc.Legible) {text : String}
    (htext : inc.print = .ok text) :
    ∃ idiom, inc.idiom? = .ok (some (idiom, .drives ⟨v, direction, text, c⟩)) := by
  obtain ⟨hv, hc⟩ := h.operands hlegible
  have hname : (Expr.ident v).print = .ok v := Expr.print_leaf hv.admitted
  have hstep : (Expr.lit c).print = .ok c := Expr.print_leaf hc.admitted
  have hplus : v ≠ "++" := hv.ne_of_op (by decide)
  have hminus : v ≠ "--" := hv.ne_of_op (by decide)
  have hmoves : Idiom.moves inc (.ident v) direction c
      = .ok (some (.drives ⟨v, direction, text, c⟩)) := Idiom.moves_eq hname htext direction c
  have hfirst : inc.idiom? = Idiom.first? inc Idiom.table := by
    cases h <;> rfl
  rw [hfirst, Idiom.table]
  cases h with
  | behind =>
      cases direction with
      | increasing => exact ⟨_, Idiom.first?_cons_some hmoves⟩
      | decreasing =>
          iterate 2 rw [Idiom.first?_cons_none]
          · exact ⟨_, Idiom.first?_cons_some hmoves⟩
          all_goals simp [Idiom.inFront, Idiom.behind, Direction.mark, hplus]
  | inFront =>
      cases direction with
      | increasing =>
          rw [Idiom.first?_cons_none (by simp [Idiom.behind, hplus])]
          exact ⟨_, Idiom.first?_cons_some hmoves⟩
      | decreasing =>
          iterate 3 rw [Idiom.first?_cons_none]
          · exact ⟨_, Idiom.first?_cons_some hmoves⟩
          all_goals simp [Idiom.inFront, Idiom.behind, Direction.mark, hplus, hminus]
  | assigns =>
      have hassigns : ∀ op, op = direction.assignment →
          Idiom.assigns op direction (.chain [.ident v, .op direction.assignment, .lit c])
            = .ok (some (.drives ⟨v, direction, text, c⟩)) := by
        rintro op rfl
        simp only [Idiom.assigns, Expr.parts_chain, Expr.isLeafText_op, beq_self_eq_true, hstep]
        exact hmoves
      cases direction with
      | increasing =>
          iterate 4 rw [Idiom.first?_cons_none]
          · exact ⟨_, Idiom.first?_cons_some (hassigns _ rfl)⟩
          all_goals rfl
      | decreasing =>
          iterate 5 rw [Idiom.first?_cons_none]
          · exact ⟨_, Idiom.first?_cons_some (hassigns _ rfl)⟩
          all_goals rfl
  | variableFirst =>
      iterate 7 rw [Idiom.first?_cons_none]
      · refine ⟨_, Idiom.first?_cons_some ?_⟩
        exact (Idiom.reassigns_eq hname hstep direction).trans hmoves
      all_goals rfl
  | variableLast => exact Idiom.first?_variableLast hv hc .increasing htext

theorem Strides.verdict {v c : String} {direction : Direction} {inc : Expr}
    (h : Strides v direction c inc) (hlegible : inc.Legible) :
    ∃ text, inc.verdict = some (.drives ⟨v, direction, text, c⟩) := by
  obtain ⟨text, htext⟩ := hlegible.prints
  obtain ⟨idiom, hidiom⟩ := h.idiom? hlegible htext
  refine ⟨text, ?_⟩
  unfold Expr.verdict
  rw [hidiom]

/-- The increment has no comma, so it is one segment. -/
theorem Strides.segments {v c : String} {direction : Direction} {inc : Expr}
    (h : Strides v direction c inc) (hlegible : inc.Legible) : Induction.segments inc = [inc] := by
  obtain ⟨hv, hc⟩ := h.operands hlegible
  have hv' : v ≠ "," := hv.ne_of_op (by decide)
  have hc' : c ≠ "," := hc.ne_of_op (by decide)
  have hdirect : inc.hasDirect "," = false := by
    unfold Expr.hasDirect
    cases h with
    | behind | inFront | assigns | variableFirst =>
        cases direction <;> simp [Direction.mark, Direction.assignment, Direction.sign, hv', hc']
    | variableLast => simp [hv', hc']
  unfold Induction.segments
  rw [if_neg (by simp [hdirect])]

namespace Loop

/-- **The analysis finds what drives a loop with such an increment.** -/
theorem driver_of_strides {l : Loop} (hl : l.Legible) {t inc : Expr}
    (htest : l.clause .test = .ok t)
    (hinc : l.clause .increment = .ok inc) {v c : String} {direction : Direction}
    (h : Strides v direction c inc) :
    ∃ text, l.stripped.driver = .ok (some ⟨v, direction, text, c⟩) := by
  have hlegible : inc.Legible := hl.of_clause hinc
  obtain ⟨text, hverdict⟩ := h.verdict hlegible
  have hincrement : (Induction.ofIncrement inc t).Yields (.ok (some ⟨v, direction, text, c⟩)) := by
    unfold Induction.ofIncrement
    rw [h.segments hlegible]
    refine hlegible.verdict_yields.bind ?_
    rw [hverdict]
    exact yields_pure _
  have hchain : inc.kind = .chain := by
    cases h <;> rfl
  have hinc' : l.stripped.clause .increment = .ok inc := hinc
  have htest' : l.stripped.clause .test = .ok t := htest
  have hfinds : ofIncrement.Finds l.stripped (.ok (some ⟨v, direction, text, c⟩)) := by
    refine (Query.finds_clause hinc').bind ?_
    rw [if_pos hchain]
    refine (Query.finds_clause htest').bind ?_
    exact (Query.finds_run hincrement).bind (Query.finds_ofExcept _)
  refine ⟨text, driver_of_finds (l.stripped_renote _) (hfinds.bind ?_)⟩
  exact (Query.finds_pure _).bind ((Query.finds_run (yields_say _ _)).bind (Query.finds_pure _))

/-! ## §4. The bound, and the plan. -/

end Loop

/-- The comparisons of the tests of counted loops. -/
def Direction.comparisons : List String := ["<", "<=", ">", ">="]

/-- A comparison of two operands is the comparison of the test, and nothing
in it is boolean. -/
theorem Expr.comparison_of_operands {k k' : Expr.Kind} {x y op : String} (hx : IsOperand k x)
    (hy : IsOperand k' y) (hop : op ∈ Direction.comparisons) :
    let t : Expr := .chain [.leaf k x, .op op, .leaf k' y]
    t.comparison? = some op ∧ t.hasDirect op = true ∧ (t.hasBoolOp || t.hasTernary) = false
      ∧ t.partsBefore op = [.leaf k x] ∧ t.partsBehind op = [.leaf k' y] := by
  intro t
  have hadmits : ∀ op ∈ Direction.comparisons, Kind.op.admits (kindOf op) = true := by decide
  -- Of the leaves, only the comparison itself can be an operator.
  have hleaf : ∀ text, Kind.op.admits (kindOf text) = true →
      t.containsLeaf text = (op == text) := by
    intro text htext
    have hxtext : (x == text) = false := beq_eq_false_iff_ne.2 (hx.ne_of_op htext)
    have hytext : (y == text) = false := beq_eq_false_iff_ne.2 (hy.ne_of_op htext)
    simp [t, containsLeaf, anyNode, anyNodeIn, chain, node, leaf, Expr.op, isLeafText, isLeaf,
      hxtext, hytext]
  have hcomparisons : ∀ op ∈ comparisons, Kind.op.admits (kindOf op) = true := by decide
  have hboolOps : ∀ op ∈ "?" :: boolOps, Kind.op.admits (kindOf op) = true := by decide
  have hfind : ∀ op ∈ Direction.comparisons, comparisons.find? (op == ·) = some op := by decide
  have hother : ∀ op ∈ Direction.comparisons, ∀ text ∈ "?" :: boolOps, (op == text) = false := by
    decide
  have hbefore : (leaf k x).isLeafText op = false := by
    simp [isLeafText, isLeaf, leaf, hx.ne_of_op (hadmits op hop)]
  refine ⟨?_, ?_, ?_, ?_, ?_⟩
  · rw [← hfind op hop]
    exact List.find?_congr fun text htext => hleaf text (hcomparisons text htext)
  · simp [t, hasDirect]
  · have hfalse : ∀ text ∈ "?" :: boolOps, t.containsLeaf text = false := fun text htext =>
      (hleaf text (hboolOps text htext)).trans (hother op hop text htext)
    obtain ⟨hternary, hbool⟩ := List.forall_mem_cons.1 hfalse
    rw [Bool.or_eq_false_iff]
    exact ⟨List.any_eq_false.2 fun text htext => by simp [hbool text htext], hternary⟩
  · simp [t, partsBefore, hbefore]
  · simp [t, partsBehind, hbefore]

/-- What a variable is compared with: a name or a literal. -/
inductive Expr.IsBound (v : String) : Expr → Prop where
  | name {w : String} : w ≠ v → IsBound v (.ident w)
  | literal {text : String} : IsBound v (.lit text)

theorem Expr.IsBound.operand {v : String} {e : Expr} (h : e.IsBound v) (he : e.Legible)
    (hv : IsOperand .ident v) : ∃ kind w, e = .leaf kind w ∧ IsOperand kind w ∧ w ≠ v := by
  cases h with
  | @name w hne => exact ⟨.ident, w, rfl, isOperand_ident he, hne⟩
  | @literal text =>
      have htext := isOperand_lit he
      exact ⟨.lit, text, rfl, htext, (ident_ne_lit hv htext).symm⟩

theorem Direction.mem_comparisons (direction : Direction) :
    ∀ op ∈ direction.tests ++ direction.mirrored, op ∈ comparisons := by
  cases direction <;> decide

/-- The bound is the side that the variable is compared with. -/
theorem Bounded.sides {v : String} {direction : Direction} {kind : Expr.Kind} {w : String}
    {t : Expr} (h : Bounded v (.leaf kind w) direction t) (hv : Expr.IsOperand .ident v)
    (hw : Expr.IsOperand kind w) :
    ∃ op left right, t.comparison? = some op ∧ t.hasDirect op = true
      ∧ (t.hasBoolOp || t.hasTernary) = false
      ∧ (Expr.chain (t.partsBefore op)).print = .ok left
      ∧ (Expr.chain (t.partsBehind op)).print = .ok right
      ∧ (left = v ∧ right = w ∨ left = w ∧ right = v) := by
  cases h with
  | @front op hop =>
      obtain ⟨hcomparison, hdirect, hplain, hbefore, hbehind⟩ :=
        Expr.comparison_of_operands hv hw
          (direction.mem_comparisons op (List.mem_append_left _ hop))
      refine ⟨op, v, w, hcomparison, hdirect, hplain, ?_, ?_, .inl ⟨rfl, rfl⟩⟩
      · rw [show Expr.ident v = .leaf .ident v from rfl, hbefore]
        exact hv.print_chain
      · rw [show Expr.ident v = .leaf .ident v from rfl, hbehind]
        exact hw.print_chain
  | @back op hop =>
      obtain ⟨hcomparison, hdirect, hplain, hbefore, hbehind⟩ :=
        Expr.comparison_of_operands hw hv
          (direction.mem_comparisons op (List.mem_append_right _ hop))
      refine ⟨op, w, v, hcomparison, hdirect, hplain, ?_, ?_, .inr ⟨rfl, rfl⟩⟩
      · rw [show Expr.ident v = .leaf .ident v from rfl, hbefore]
        exact hw.print_chain
      · rw [show Expr.ident v = .leaf .ident v from rfl, hbehind]
        exact hv.print_chain

namespace Loop

section

variable {l : Loop} {t : Expr} {i : Induction} {direction : Direction} {kind : Expr.Kind}
  {w : String} (hl : l.Legible) (htest : l.clause .test = .ok t)
  (hdriver : l.stripped.driver = .ok (some i))
  (hbounded : Bounded i.name (.leaf kind w) direction t) (hv : Expr.IsOperand .ident i.name)
  (hw : Expr.IsOperand kind w)
include hl hdriver

theorem drive_finds_driver : drive.Finds l.stripped (.ok (some i)) := by
  rw [← hdriver]
  exact drive_finds (hl.renote _) (l.stripped_renote _)

include htest hbounded hv hw

theorem suits_finds : Unroll.suits.Finds l.stripped (.ok true) := by
  obtain ⟨op, left, right, hcomparison, hdirect, hplain, hleft, hright, hsides⟩ :=
    hbounded.sides hv hw
  have htest' : l.stripped.clause .test = .ok t := htest
  have hlegible : t.Legible := hl.of_clause htest
  obtain ⟨hlhs, _, hrhs, _⟩ := sides_ok hlegible hcomparison hdirect
  have hleft' : (do (← t.lhs op).print : Except Fault String) = .ok left := by
    rw [hlhs]
    exact hleft
  have hright' : (do (← t.rhs op).print : Except Fault String) = .ok right := by
    rw [hrhs]
    exact hright
  have hcompares : (left == i.name || right == i.name) = true := by
    rcases hsides with ⟨rfl, _⟩ | ⟨_, rfl⟩ <;> simp
  have hdrive := drive_finds_driver hl hdriver
  refine (Query.finds_clause htest').bind ?_
  rw [if_neg (by simp [hplain])]
  have hfilter : t.comparison?.filter t.hasDirect = some op := by
    rw [hcomparison]
    exact if_pos hdirect
  rw [hfilter]
  refine hdrive.bind ((Query.finds_except hleft').bind ((Query.finds_except hright').bind ?_))
  rw [if_pos hcompares]
  exact Query.finds_pure true

theorem limit_finds (hne : w ≠ i.name) : limit.Finds l.stripped (.ok w) := by
  obtain ⟨op, left, right, hcomparison, hdirect, hplain, hleft, hright, hsides⟩ :=
    hbounded.sides hv hw
  have htest' : l.stripped.clause .test = .ok t := htest
  have hlegible : t.Legible := hl.of_clause htest
  obtain ⟨hlhs, _, hrhs, _⟩ := sides_ok hlegible hcomparison hdirect
  have hbound : bound t i.name = .ok (.ok w) := by
    unfold bound
    rw [hcomparison]
    dsimp only
    rw [if_pos hdirect, hlhs, hrhs]
    dsimp only [bind, Except.bind]
    rw [hleft, hright]
    dsimp only
    rcases hsides with ⟨rfl, rfl⟩ | ⟨rfl, rfl⟩
    · rw [if_pos (beq_self_eq_true _)]
      rfl
    · rw [if_neg (by simpa using hne), if_pos (beq_self_eq_true _)]
      rfl
  have hnil : t.isNil = false := by
    cases hbounded <;> rfl
  have hdrive := drive_finds_driver hl hdriver
  refine hdrive.bind ((Query.finds_clause htest').bind ?_)
  rw [if_neg (by simp [hnil])]
  exact (Query.finds_except hbound).bind (Query.finds_ofExcept _)

/-- **The pass has a plan for a counted loop.** -/
theorem planned_eq (hne : w ≠ i.name) (hnone : l.induction = none)
    {ask : Features → Except Error Int} {nesting : Nat} {factor : Int}
    (hask : ask (Unroll.features nesting l.bodySize (Node.stmt l.toStmt).operators)
      = .ok factor) (hfactor : 2 ≤ factor) :
    Unroll.planned ask nesting l = .ok (some ⟨factor, i, w⟩) := by
  have hlimit : Unroll.usableLimit.Finds l.stripped (.ok w) :=
    (suits_finds hl htest hdriver hbounded hv hw).bind
      (limit_finds hl htest hdriver hbounded hv hw hne)
  have hdrive := drive_finds_driver hl hdriver
  have hempty : w.isEmpty = false := by
    rw [Bool.eq_false_iff]
    intro h
    exact hw.lexeme.ne_empty (String.isEmpty_iff.1 h)
  unfold Unroll.planned
  rw [hlimit.quietly hnone, Unroll.told_eq, hask, hdrive.quietly hnone]
  show (if w.isEmpty = true then _ else _ : Except Stop (Option Unroll.Plan)) = _
  rw [if_neg (by simp [hempty])]
  show (if factor < 2 then _ else _ : Except Stop (Option Unroll.Plan)) = _
  rw [if_neg (by omega)]
  rfl

end

end Loop

end RuleBody
