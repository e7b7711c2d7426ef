/-
  RuleBody.Proofs.Links
  ─────────────────────
  **WHAT THE ANALYSIS TAKES FROM AN EXPRESSION.**

  The analysis takes a variable and a step from the parts of a chain, by
  their number alone: of the three parts of `i += 2` the first is the
  variable and the last is the step.  Brackets and labels are chains, too,
  so the parts need not be what they look like:

      ( += )        — the variable is a bracket, the step another one
      case += :     — the variable is a keyword

  Every chain in what was read has links of a few shapes only (`Links`), and
  apart from the two above, which are told by the name of the variable, the
  variable and the step are parts (`Links.taken`).  A comparison splits a test
  in the same way, so the sides of a test are parts unless the comparison
  stands alone in brackets (`Plan.From.parts`).

  §1  idioms;
  §2  links;
  §3  the links of what was read;
  §4  the variable and the step;
  §5  the sides of a test.
-/
import RuleBody.Proofs.Glued
import RuleBody.Proofs.Judgement

namespace RuleBody

open Token (IsLexeme kindOf)
open Parse (collapse enclosed leafKind? brackets marks)
open RuleBody.Expr (Part Item wordsOf)

/-! ## §1. Idioms. -/

/-- What an idiom takes from the parts of a chain. -/
inductive Idiom.Fits (i : Induction) : List Expr → Prop where
  | behind {target mark : Expr} {op : String} : target.print = .ok i.name →
      mark.isLeafText op = true → op ∈ ["++", "--"] → i.step = "1" → Fits i [target, mark]
  | inFront {target mark : Expr} {op : String} : target.print = .ok i.name →
      mark.isLeafText op = true → op ∈ ["++", "--"] → i.step = "1" → Fits i [mark, target]
  | assigns {target mark amount : Expr} {op : String} : target.print = .ok i.name →
      mark.isLeafText op = true → op ∈ ["+=", "-="] → amount.print = .ok i.step →
      Fits i [target, mark, amount]
  | reassigns {target mark first op last : Expr} : target.print = .ok i.name →
      first.print = .ok i.step ∨ last.print = .ok i.step → Fits i [target, mark, first, op, last]

/-- What an idiom says about the parts of a chain, operators included. -/
inductive Idiom.Shape (i : Induction) : List Expr → Prop where
  | behind {target mark : Expr} : target.print = .ok i.name →
      mark.isLeafText i.direction.mark = true → i.step = "1" → Shape i [target, mark]
  | inFront {target mark : Expr} : target.print = .ok i.name →
      mark.isLeafText i.direction.mark = true → i.step = "1" → Shape i [mark, target]
  | assigns {target mark amount : Expr} : target.print = .ok i.name →
      mark.isLeafText i.direction.assignment = true → amount.print = .ok i.step →
      Shape i [target, mark, amount]
  | variableFirst {target mark operand op amount : Expr} : target.print = .ok i.name →
      mark.isLeafText "=" = true → operand.print = .ok i.name →
      op.isLeafText i.direction.sign = true → amount.print = .ok i.step →
      Shape i [target, mark, operand, op, amount]
  | variableLast {target mark operand op amount : Expr} : target.print = .ok i.name →
      mark.isLeafText "=" = true → operand.print = .ok i.name →
      op.isLeafText i.direction.sign = true → amount.print = .ok i.step →
      Shape i [target, mark, amount, op, operand]

namespace Idiom

variable {e : Expr} {i : Induction}

theorem Shape.fits {ps : List Expr} (h : Shape i ps) : Fits i ps := by
  have hmark : i.direction.mark ∈ ["++", "--"] := by
    cases i.direction <;> decide
  have hassignment : i.direction.assignment ∈ ["+=", "-="] := by
    cases i.direction <;> decide
  cases h with
  | behind hname hop hstep => exact .behind hname hop hmark hstep
  | inFront hname hop hstep => exact .inFront hname hop hmark hstep
  | assigns hname hop hstep => exact .assigns hname hop hassignment hstep
  | variableFirst hname _ _ _ hstep => exact .reassigns hname (.inr hstep)
  | variableLast hname _ _ _ hstep => exact .reassigns hname (.inl hstep)

theorem moves_eq_ok {target : Expr} {direction : Direction} {step : String}
    (h : moves e target direction step = .ok (some (.drives i))) :
    target.print = .ok i.name ∧ i.direction = direction ∧ i.step = step := by
  obtain ⟨name, hname, h⟩ := bind_eq_ok.1 h
  obtain ⟨text, _, h⟩ := bind_eq_ok.1 h
  obtain rfl := Verdict.drives.inj (Option.some.inj (Except.ok.inj h))
  exact ⟨hname, rfl, rfl⟩

theorem behind_shape (direction : Direction)
    (h : behind direction.mark direction e = .ok (some (.drives i))) : Shape i e.parts := by
  unfold behind at h
  split at h
  · rename_i target mark hparts
    split at h
    · rename_i hmark
      obtain ⟨hname, rfl, hstep⟩ := moves_eq_ok h
      rw [hparts]
      exact .behind hname hmark hstep
    · cases h
  · cases h

theorem inFront_shape (direction : Direction)
    (h : inFront direction.mark direction e = .ok (some (.drives i))) : Shape i e.parts := by
  unfold inFront at h
  split at h
  · rename_i mark target hparts
    split at h
    · rename_i hmark
      obtain ⟨hname, rfl, hstep⟩ := moves_eq_ok h
      rw [hparts]
      exact .inFront hname hmark hstep
    · cases h
  · cases h

theorem assigns_shape (direction : Direction)
    (h : assigns direction.assignment direction e = .ok (some (.drives i))) : Shape i e.parts := by
  unfold assigns at h
  split at h
  · rename_i target mark amount hparts
    split at h
    · rename_i hmark
      obtain ⟨step, hstep, h⟩ := bind_eq_ok.1 h
      obtain ⟨hname, rfl, rfl⟩ := moves_eq_ok h
      rw [hparts]
      exact .assigns hname hmark hstep
    · cases h
  · cases h

theorem direction?_eq_some {op : Expr} {direction : Direction}
    (h : direction? op = some direction) : op.isLeafText direction.sign = true := by
  unfold direction? at h
  split at h
  · obtain rfl := Option.some.inj h
    assumption
  · split at h
    · obtain rfl := Option.some.inj h
      assumption
    · cases h

theorem reassigns_eq_ok {target mark operand op amount : Expr}
    (h : reassigns e target mark operand op amount = .ok (some (.drives i))) :
    target.print = .ok i.name ∧ mark.isLeafText "=" = true ∧ operand.print = .ok i.name
      ∧ op.isLeafText i.direction.sign = true ∧ amount.print = .ok i.step := by
  unfold reassigns at h
  split at h
  · rename_i hmark
    obtain ⟨other, hother, h⟩ := bind_eq_ok.1 h
    obtain ⟨name, hname, h⟩ := bind_eq_ok.1 h
    split at h
    · rename_i hsame
      rw [Bool.and_eq_true, beq_iff_eq] at hsame
      obtain ⟨rfl, _⟩ := hsame
      split at h
      · rename_i direction hdirection
        obtain ⟨step, hstep, h⟩ := bind_eq_ok.1 h
        obtain ⟨hname', rfl, rfl⟩ := moves_eq_ok h
        obtain rfl := Except.ok.inj (hname.symm.trans hname')
        exact ⟨hname', hmark, hother, direction?_eq_some hdirection, hstep⟩
      · cases h
    · cases h
  · cases h

theorem variableFirst_shape (h : variableFirst e = .ok (some (.drives i))) : Shape i e.parts := by
  unfold variableFirst at h
  split at h
  · rename_i target mark operand op amount hparts
    obtain ⟨hname, hmark, hoperand, hop, hstep⟩ := reassigns_eq_ok h
    rw [hparts]
    exact .variableFirst hname hmark hoperand hop hstep
  · cases h

theorem variableLast_shape (h : variableLast e = .ok (some (.drives i))) : Shape i e.parts := by
  unfold variableLast at h
  split at h
  · rename_i target mark amount op operand hparts
    obtain ⟨hname, hmark, hoperand, hop, hstep⟩ := reassigns_eq_ok h
    rw [hparts]
    exact .variableLast hname hmark hoperand hop hstep
  · cases h

theorem scaling_ne_drives : scaling e ≠ .ok (some (.drives i)) := by
  intro h
  unfold scaling at h
  split at h
  · split at h <;> cases h
  · cases h

/-- Every idiom of the table takes its variable and its step from the parts. -/
theorem table_shape :
    ∀ idiom ∈ table, idiom.fit? e = .ok (some (.drives i)) → Shape i e.parts := by
  simp only [table, List.forall_mem_cons, List.not_mem_nil, false_imp_iff, implies_true, and_true]
  exact ⟨behind_shape .increasing, inFront_shape .increasing, behind_shape .decreasing,
    inFront_shape .decreasing, assigns_shape .increasing, assigns_shape .decreasing,
    fun h => absurd h scaling_ne_drives, variableFirst_shape, variableLast_shape⟩

theorem first?_eq_ok {idioms : List Idiom} {idiom : Idiom} {verdict : Verdict}
    (h : first? e idioms = .ok (some (idiom, verdict))) :
    ∃ idiom' ∈ idioms, idiom'.fit? e = .ok (some verdict) := by
  induction idioms with
  | nil => cases h
  | cons idiom' idioms ih =>
      obtain ⟨fit, hfit, h⟩ := bind_eq_ok.1 h
      cases fit with
      | none =>
          obtain ⟨idiom'', hmem, hverdict⟩ := ih h
          exact ⟨idiom'', List.mem_cons_of_mem _ hmem, hverdict⟩
      | some verdict' =>
          obtain ⟨_, rfl⟩ := Prod.mk.inj (Option.some.inj (Except.ok.inj h))
          exact ⟨idiom', List.mem_cons_self, hfit⟩

end Idiom

/-- **What drives a loop is taken from the parts of a chain.** -/
theorem Expr.shape_of_induction? {e : Expr} {i : Induction} (h : e.induction? = some i) :
    e.kind = .chain ∧ Idiom.Shape i e.parts := by
  unfold induction? verdict idiom? at h
  by_cases hchain : e.kind = .chain
  · refine ⟨hchain, ?_⟩
    rw [if_pos hchain] at h
    match hfirst : Idiom.first? e Idiom.table with
    | .error f =>
        rw [hfirst] at h
        cases h
    | .ok none =>
        rw [hfirst] at h
        cases h
    | .ok (some (idiom, .scales)) =>
        rw [hfirst] at h
        cases h
    | .ok (some (idiom, .drives j)) =>
        rw [hfirst] at h
        obtain rfl := Option.some.inj h
        obtain ⟨idiom', hmem, hfit⟩ := Idiom.first?_eq_ok hfirst
        exact Idiom.table_shape idiom' hmem hfit
  · rw [if_neg hchain] at h
    cases h

theorem Expr.fits_of_induction? {e : Expr} {i : Induction} (h : e.induction? = some i) :
    e.kind = .chain ∧ Idiom.Fits i e.parts :=
  ⟨(shape_of_induction? h).1, (shape_of_induction? h).2.fits⟩

/-! ## §2. Links. -/

/-- The links of a chain in what was read. -/
inductive Expr.Links : List Expr → Prop where
  | parts {ps : List Expr} : (∀ p ∈ ps, p.Part) → Links ps
  | enclosed {opening closing : String} {inner : List Expr} : (opening, closing) ∈ brackets →
      (∀ p ∈ inner, p.Part) → Links (enclosed opening inner closing)
  | subscript {operand : Expr} {inner : List Expr} : operand.Part → operand.kind ≠ .op →
      (∀ p ∈ inner, p.Part) → Links (operand :: Parse.enclosed "[" inner "]")
  | case {e : Expr} : Links [.keyword "case", e, .op ":"]
  | default : Links [.keyword "default", .op ":"]

/-- The names of variables that are no parts. -/
def Induction.lone : List String := ["(", "[", "\x7b", "case"]

/-- The variable and the step of an induction, as expressions.  They are
parts, unless the name of the variable tells that they are not. -/
structure Induction.Taken (i : Induction) (target amount : Expr) : Prop where
  item : target.Item
  name : target.print = .ok i.name
  legible : amount.Legible
  step : amount.print = .ok i.step
  parts : target.Part ∧ amount.Part ∨ i.name ∈ lone

open RuleBody.Expr (Links)
open Induction (Taken lone)

/-- The step of an induction that moves by one. -/
theorem Expr.part_one : (Expr.lit "1").Part := by
  have hlexeme := Token.toString_lexeme 1
  exact .leaf hlexeme.isLexeme (by decide)

section

variable {i : Induction}

theorem Induction.taken_one {target : Expr} (htarget : target.Part)
    (hname : target.print = .ok i.name) (hstep : i.step = "1") : i.Taken target (.lit "1") where
  item := .inl htarget
  name := hname
  legible := Expr.part_one.legible
  step := by
    rw [hstep]
    rfl
  parts := .inl ⟨htarget, Expr.part_one⟩

theorem Induction.taken_parts {target amount : Expr} (htarget : target.Part)
    (hname : target.print = .ok i.name) (hamount : amount.Part)
    (hstep : amount.print = .ok i.step) : i.Taken target amount :=
  ⟨.inl htarget, hname, hamount.legible, hstep, .inl ⟨htarget, hamount⟩⟩

/-- The marks of brackets are not those of idioms. -/
theorem mark_isLeafText {mark : String} (hmark : mark ∈ marks) {op : String}
    (hop : op ∉ marks) : (Expr.op mark).isLeafText op = false := by
  rw [Expr.isLeafText_op]
  refine beq_eq_false_iff_ne.2 ?_
  rintro rfl
  exact hop hmark

/-- The operators that move a variable are no brackets. -/
theorem Idiom.op_moves :
    ∀ op ∈ ["++", "--", "+=", "-="], op ∉ marks ∧ leafKind? (.plain op) = some .op := by
  decide

/-- The variable and the step of a chain of parts. -/
theorem Idiom.Fits.taken {ps : List Expr} (hfits : Idiom.Fits i ps) (hps : ∀ p ∈ ps, p.Part) :
    ∃ target amount, i.Taken target amount := by
  cases hfits with
  | behind hname _ _ hstep => exact ⟨_, _, Induction.taken_one (hps _ (by simp)) hname hstep⟩
  | inFront hname _ _ hstep => exact ⟨_, _, Induction.taken_one (hps _ (by simp)) hname hstep⟩
  | assigns hname _ _ hstep =>
      exact ⟨_, _, Induction.taken_parts (hps _ (by simp)) hname (hps _ (by simp)) hstep⟩
  | reassigns hname hstep =>
      rcases hstep with hstep | hstep <;>
        exact ⟨_, _, Induction.taken_parts (hps _ (by simp)) hname (hps _ (by simp)) hstep⟩

/-- **Links that fit an idiom are parts**, but for two shapes that the name
of the variable tells. -/
theorem Expr.Links.parts_or_lone {ps : List Expr} (h : Links ps) (hfits : Idiom.Fits i ps) :
    (∀ p ∈ ps, p.Part) ∨ i.name ∈ lone ∧ ∃ target amount, i.Taken target amount := by
  have hmarks : ∀ op ∈ ["++", "--", "+=", "-="], op ∉ marks := fun op hop =>
    (Idiom.op_moves op hop).1
  cases h with
  | parts hps => exact .inl hps
  | @enclosed opening closing inner hmem _ =>
      obtain ⟨hopening, hclosing⟩ := Parse.mem_marks hmem
      cases inner with
      | nil =>
          cases hfits with
          | behind _ hmark hop _ =>
              rw [mark_isLeafText hclosing (hmarks _ (by simp at hop ⊢; tauto))] at hmark
              cases hmark
          | inFront _ hmark hop _ =>
              rw [mark_isLeafText hopening (hmarks _ (by simp at hop ⊢; tauto))] at hmark
              cases hmark
      | cons p inner =>
          cases hfits with
          | assigns hname _ _ hstep =>
              have hprint : (Expr.op opening).print = .ok opening :=
                Expr.print_leaf (Parse.mark_admits hopening)
              obtain rfl : opening = i.name := Except.ok.inj (hprint.symm.trans hname)
              have hlone : ∀ pair ∈ brackets, pair.1 ∈ lone := by decide
              exact .inr ⟨hlone _ hmem, _, _, .inr ⟨_, hopening, rfl⟩, hname,
                Parse.mark_legible hclosing, hstep, .inr (hlone _ hmem)⟩
  | @subscript operand inner _ _ _ =>
      cases inner with
      | nil =>
          cases hfits with
          | assigns _ hmark hop _ =>
              rw [mark_isLeafText (by decide) (hmarks _ (by simp at hop ⊢; tauto))] at hmark
              cases hmark
      | cons p inner => cases hfits
  | case =>
      cases hfits with
      | assigns hname _ _ hstep =>
          obtain hname' : "case" = i.name := Except.ok.inj hname
          have hlone : i.name ∈ lone := hname' ▸ by decide
          have hcase : (Expr.keyword "case").Part :=
            .leaf (Stmt.keyword_lexeme (by decide)).isLexeme (by decide)
          exact .inr ⟨hlone, _, _, .inl hcase, hname, Parse.colon_legible, hstep, .inr hlone⟩
  | default =>
      have hleaf : ∀ op ∈ ["++", "--"], (Expr.keyword "default").isLeafText op = false
          ∧ (Expr.op ":").isLeafText op = false := by decide
      cases hfits with
      | behind _ hmark hop _ => exact absurd hmark (Bool.eq_false_iff.1 (hleaf _ hop).2)
      | inFront _ hmark hop _ => exact absurd hmark (Bool.eq_false_iff.1 (hleaf _ hop).1)

/-- **The variable and the step of a chain.** -/
theorem Expr.Links.taken {ps : List Expr} (h : Links ps) (hfits : Idiom.Fits i ps) :
    ∃ target amount, i.Taken target amount := by
  rcases h.parts_or_lone hfits with hps | ⟨_, htaken⟩
  · exact hfits.taken hps
  · exact htaken

/-- Where a list holds no place to cut at, it is one segment. -/
theorem cutWhere_eq_singleton {α : Type} {p : α → Bool} {xs : List α}
    (h : ∀ x ∈ xs, p x = false) : cutWhere p xs = [xs] := by
  induction xs with
  | nil => rfl
  | cons x xs ih =>
      obtain ⟨hx, hxs⟩ := List.forall_mem_cons.1 h
      rw [cutWhere, hx, ih hxs]
      rfl

/-- What stands before the first place to cut at goes to the first segment. -/
theorem cutWhere_append {α : Type} {p : α → Bool} {front : List α}
    (hfront : ∀ x ∈ front, p x = false) (xs : List α) :
    cutWhere p (front ++ xs) = (cutWhere p xs).modifyHead (front ++ ·) := by
  induction front with
  | nil => cases hxs : cutWhere p xs <;> simp [hxs]
  | cons x front ih =>
      obtain ⟨hx, hfront⟩ := List.forall_mem_cons.1 hfront
      obtain ⟨segment, others, hxs⟩ := List.exists_cons_of_ne_nil (cutWhere_ne_nil p xs)
      rw [List.cons_append, cutWhere, ih hfront, hxs, hx]
      rfl

theorem cutWhere_eq_pair {α : Type} {p : α → Bool} {front behind : List α} {x : α}
    (hfront : ∀ y ∈ front, p y = false) (hx : p x = true) (hbehind : ∀ y ∈ behind, p y = false) :
    cutWhere p (front ++ x :: behind) = [front, behind] := by
  rw [cutWhere_append hfront, cutWhere, if_pos hx, cutWhere_eq_singleton hbehind]
  simp

/-- A part with the text of a token is the leaf of that token. -/
theorem Expr.Part.of_isLeafText {p : Expr} (h : p.Part) {text : String}
    (htext : p.isLeafText text = true) : ∃ kind, p = .leaf kind text ∧ IsLexeme text
      ∧ leafKind? (.plain text) = some kind := by
  cases h with
  | @leaf kind text' hlexeme hkind =>
      obtain rfl : text' = text := by simpa [Expr.isLeafText, Expr.isLeaf, Expr.leaf] using htext
      exact ⟨kind, rfl, hlexeme, hkind⟩
  | enclosed | subscript | call => cases htext

theorem Expr.Part.isLeafText_of_kind_ne {p : Expr} (h : p.Part) (hkind : p.kind ≠ .op)
    {text : String} (htext : leafKind? (.plain text) = some .op) : p.isLeafText text = false := by
  refine Bool.eq_false_iff.2 fun hleaf => hkind ?_
  obtain ⟨kind, rfl, _, hleaf⟩ := h.of_isLeafText hleaf
  exact Option.some.inj (hleaf.symm.trans htext)

/-- **Segments that fit an idiom are parts**, but for the same two shapes.  A
comma in brackets cuts them apart, and neither side fits an idiom. -/
theorem Expr.Links.segment_parts_or_lone {ps : List Expr} (h : Links ps) {segment : List Expr}
    (hsegment : segment ∈ cutWhere (·.isLeafText ",") ps) (hfits : Idiom.Fits i segment) :
    (∀ p ∈ segment, p.Part) ∨ i.name ∈ lone ∧ ∃ target amount, i.Taken target amount := by
  by_cases hcomma : ∀ p ∈ ps, p.isLeafText "," = false
  · rw [cutWhere_eq_singleton hcomma, List.mem_singleton] at hsegment
    exact hsegment ▸ h.parts_or_lone (hsegment ▸ hfits)
  -- Links that are not all parts have at most one comma among them.
  have hpair : ∀ front e behind, ps = front ++ e :: behind →
      (∀ p ∈ front, p.isLeafText "," = false) → (∀ p ∈ behind, p.isLeafText "," = false) →
      segment = front ∨ segment = behind := by
    intro front e behind hps hfront hbehind
    have he : e.isLeafText "," = true := by
      refine Bool.not_eq_false _ ▸ fun he => hcomma ?_
      rw [hps]
      exact List.forall_mem_append.2 ⟨hfront, List.forall_mem_cons.2 ⟨he, hbehind⟩⟩
    have hcut : cutWhere (·.isLeafText ",") ps = [front, behind] :=
      hps ▸ cutWhere_eq_pair hfront he hbehind
    simpa [hcut] using hsegment
  have hmark : ∀ mark ∈ marks, (Expr.op mark).isLeafText "," = false := fun mark hmark =>
    mark_isLeafText hmark (by decide)
  cases h with
  | parts hps => exact .inl fun p hp => hps p (mem_of_mem_cutWhere hsegment p hp)
  | @enclosed opening closing inner hmem _ =>
      obtain ⟨hopening, hclosing⟩ := Parse.mem_marks hmem
      cases inner with
      | nil => exact absurd (by simp [Parse.enclosed, hmark, hopening, hclosing]) hcomma
      | cons p inner =>
          rcases hpair [.op opening] (collapse (p :: inner)) [.op closing] rfl
            (by simp [hmark, hopening]) (by simp [hmark, hclosing]) with rfl | rfl <;> cases hfits
  | @subscript operand inner hoperand hkind _ =>
      have hfirst :=
        hoperand.isLeafText_of_kind_ne hkind (show leafKind? (.plain ",") = _ by decide)
      have hopen := hmark "[" (by decide)
      have hclose := hmark "]" (by decide)
      cases inner with
      | nil => exact absurd (by simp [Parse.enclosed, hfirst, hopen, hclose]) hcomma
      | cons p inner =>
          rcases hpair [operand, .op "["] (collapse (p :: inner)) [.op "]"] rfl
            (by simp [hfirst, hopen]) (by simp [hclose]) with rfl | rfl
          · cases hfits with
            | behind _ hmark hop _ =>
                have hop := Idiom.op_moves _ (by simp at hop ⊢; tauto)
                rw [mark_isLeafText (by decide) hop.1] at hmark
                cases hmark
            | inFront _ hmark hop _ =>
                have hop := Idiom.op_moves _ (by simp at hop ⊢; tauto)
                rw [hoperand.isLeafText_of_kind_ne hkind hop.2] at hmark
                cases hmark
          · cases hfits
  | @case e =>
      rcases hpair [.keyword "case"] e [.op ":"] rfl (by decide) (by decide) with rfl | rfl <;>
        cases hfits
  | default => exact absurd (by decide) hcomma

/-- **The variable and the step of a segment.** -/
theorem Expr.Links.taken_segment {ps : List Expr} (h : Links ps) {segment : List Expr}
    (hsegment : segment ∈ cutWhere (·.isLeafText ",") ps) (hfits : Idiom.Fits i segment) :
    ∃ target amount, i.Taken target amount := by
  rcases h.segment_parts_or_lone hsegment hfits with hparts | ⟨_, htaken⟩
  · exact hfits.taken hparts
  · exact htaken

end

/-! ## §3. The links of what was read. -/

namespace Expr

theorem mem_nodesOf {es : List Expr} {n : Expr} : n ∈ nodesOf es ↔ ∃ e ∈ es, n ∈ e.nodes := by
  induction es with
  | nil => simp [nodesOf]
  | cons e es ih => simp [nodesOf, ih]

/-- Every chain in the expression has such links. -/
def Linked (e : Expr) : Prop := ∀ n ∈ e.nodes, n.kind = .chain → Links n.parts

theorem Linked.links {e : Expr} (h : e.Linked) (hkind : e.kind = .chain) : Links e.parts := by
  obtain ⟨kind, text, parts, tags⟩ := e
  exact h _ (by simp [nodes]) hkind

theorem linked_of_parts {e : Expr} (hlinks : e.kind = .chain → Links e.parts)
    (hparts : ∀ p ∈ e.parts, p.Linked) : e.Linked := by
  obtain ⟨kind, text, parts, tags⟩ := e
  intro n hn hkind
  rw [nodes] at hn
  rcases List.mem_cons.1 hn with rfl | hn
  · exact hlinks hkind
  · obtain ⟨p, hp, hn⟩ := mem_nodesOf.1 hn
    exact hparts p hp n hn hkind

theorem linked_leaf {kind : Kind} (hkind : kind ≠ .chain) (text : String) :
    (leaf kind text).Linked :=
  linked_of_parts (fun h => absurd h hkind) nofun

theorem collapse_linked {ps : List Expr} (hps : ∀ p ∈ ps, p.Part) (h : ∀ p ∈ ps, p.Linked) :
    (collapse ps).Linked := by
  unfold collapse
  split
  · exact linked_leaf (by decide) ""
  · exact h _ List.mem_cons_self
  · exact linked_of_parts (fun _ => .parts hps) h

theorem enclosed_linked {opening closing : String} {inner : List Expr}
    (hinner : ∀ p ∈ inner, p.Part) (h : ∀ p ∈ inner, p.Linked) :
    ∀ p ∈ enclosed opening inner closing, p.Linked := by
  have hmark : ∀ mark : String, (Expr.op mark).Linked := linked_leaf (by decide)
  cases inner with
  | nil => simp [enclosed, hmark]
  | cons p inner => simp [enclosed, hmark, collapse_linked hinner h]

/-- **Every chain in a part has such links.** -/
theorem Part.linked {p : Expr} (h : p.Part) : p.Linked := by
  induction h with
  | @leaf kind text _ hkind =>
      refine linked_leaf ?_ text
      rintro rfl
      exact Bool.noConfusion (Parse.leafKind?_admits hkind)
  | enclosed hmem hinner ih =>
      exact linked_of_parts (fun _ => .enclosed hmem hinner) (enclosed_linked hinner ih)
  | subscript hoperand hkind hinner ihoperand ih =>
      exact linked_of_parts (fun _ => .subscript hoperand hkind hinner)
        (List.forall_mem_cons.2 ⟨ihoperand, enclosed_linked hinner ih⟩)
  | @call name arguments _ _ hparts ih =>
      have harguments : (Expr.args (arguments.map collapse)).Linked := by
        refine linked_of_parts nofun fun e he => ?_
        obtain ⟨ps, hps, rfl⟩ := List.mem_map.1 he
        exact collapse_linked (hparts ps hps) (ih ps hps)
      exact linked_of_parts nofun (List.forall_mem_cons.2 ⟨linked_leaf (by decide) name,
        List.forall_mem_singleton.2 harguments⟩)

/-- Only chains have operators for parts. -/
theorem Part.chain_of_hasDirect {p : Expr} (h : p.Part) {text : String}
    (htext : leafKind? (.plain text) = some .op) (hdirect : p.hasDirect text = true) :
    p.kind = .chain := by
  cases h with
  | leaf => cases hdirect
  | enclosed | subscript => rfl
  | @call name arguments hname hkind _ =>
      have hcases : name = text ∨ arguments = [] ∧ "" = text := by
        simpa [hasDirect, Expr.call, node, isLeafText, isLeaf, ident, Expr.leaf, args] using hdirect
      rcases hcases with rfl | ⟨_, rfl⟩
      · have hadmits := Parse.leafKind?_admits htext
        rw [hkind] at hadmits
        cases hadmits
      · exact absurd htext (by decide)

theorem IsSpelt.chain_of_hasDirect {purpose : Parse.Purpose} {e : Expr} (h : e.IsSpelt purpose)
    {text : String} (htext : leafKind? (.plain text) = some .op)
    (hdirect : e.hasDirect text = true) : e.kind = .chain := by
  obtain ⟨parts, hparts, rfl⟩ := h.parts
  match parts with
  | [] => cases hdirect
  | [p] => exact (hparts p List.mem_cons_self).chain_of_hasDirect htext hdirect
  | _ :: _ :: _ => rfl

theorem IsSpelt.linked {purpose : Parse.Purpose} {e : Expr} (h : e.IsSpelt purpose) : e.Linked := by
  obtain ⟨parts, hparts, rfl⟩ := h.parts
  exact collapse_linked hparts fun p hp => (hparts p hp).linked

end Expr

theorem Stmt.mem_innerOf {ss : List Stmt} {e : Expr} :
    e ∈ innerOf ss ↔ ∃ s ∈ ss, e ∈ s.inner := by
  induction ss with
  | nil => simp [innerOf]
  | cons s ss ih => simp [innerOf, ih]

theorem Stmt.Tidy.linked {s : Stmt} (h : s.Tidy) : ∀ e ∈ s.inner, e.Linked := by
  induction h with
  | empty | raw => nofun
  | simple he => exact List.forall_mem_singleton.2 he.linked
  | @case e tags he =>
      refine List.forall_mem_singleton.2 (Expr.linked_of_parts (fun _ => .case) ?_)
      simpa [Expr.chain, Expr.node] using ⟨Expr.linked_leaf (by decide) "case", he.linked,
        Expr.linked_leaf (by decide) ":"⟩
  | default =>
      refine List.forall_mem_singleton.2 (Expr.linked_of_parts (fun _ => .default) ?_)
      simpa [Expr.chain, Expr.node] using ⟨Expr.linked_leaf (by decide) "default",
        Expr.linked_leaf (by decide) ":"⟩
  | block _ ih =>
      intro e he
      obtain ⟨s, hs, he⟩ := mem_innerOf.1 (show e ∈ [] ++ _ from he)
      exact ih s hs e he
  | loop hd ht hi _ ih =>
      simp only [inner, List.forall_mem_append, List.forall_mem_cons, List.not_mem_nil,
        false_imp_iff, implies_true, and_true]
      exact ⟨⟨hd.linked, ht.linked, hi.linked⟩, ih⟩
  | @cond c yes no tags hc _ _ _ ihyes ihno =>
      cases no with
      | none =>
          rw [inner]
          exact List.forall_mem_append.2 ⟨List.forall_mem_singleton.2 hc.linked, ihyes⟩
      | some no =>
          rw [inner]
          exact List.forall_mem_append.2 ⟨List.forall_mem_singleton.2 hc.linked,
            List.forall_mem_append.2 ⟨ihyes, ihno no rfl⟩⟩
  | switch hc _ ih =>
      rw [inner]
      exact List.forall_mem_append.2 ⟨List.forall_mem_singleton.2 hc.linked, ih⟩

/-! ## §4. The variable and the step. -/

/-- What drives a loop whose clauses and body were read. -/
theorem Loop.taken_of_judge {test increment : Expr} {body : Stmt} {i : Induction}
    (hincrement : increment.IsSpelt .statement) (hbody : body.Tidy)
    (h : judge test increment body = .ok (some i)) : ∃ target amount, i.Taken target amount := by
  rcases mem_of_judge h with ⟨e, he, hi⟩ | hi
  · obtain ⟨hchain, hfits⟩ := Expr.fits_of_induction? hi
    unfold Induction.segments at he
    split at he
    · rename_i hdirect
      have hkind := hincrement.chain_of_hasDirect (by decide) hdirect
      obtain ⟨segment, hsegment, rfl⟩ := List.mem_map.1 he
      exact (hincrement.linked.links hkind).taken_segment hsegment hfits
    · obtain rfl := List.mem_singleton.1 he
      exact (hincrement.linked.links hchain).taken hfits
  · obtain ⟨hmem, _⟩ := count_of_mem_single hi
    obtain ⟨n, hn, hi⟩ := List.mem_filterMap.1 hmem
    obtain ⟨e, he, hn⟩ := Expr.mem_nodesOf.1 hn
    obtain ⟨hchain, hfits⟩ := Expr.fits_of_induction? hi
    exact (hbody.linked e he n hn hchain).taken hfits

/-! ## §5. The sides of a test. -/

namespace Parse

theorem Paired.count {words : List String} (h : Paired words) :
    ∀ pair ∈ brackets, words.count pair.1 = words.count pair.2 := by
  intro pair hpair
  induction h with
  | nil => rfl
  | @leaf word words kind _ hkind _ ih =>
      obtain ⟨hopening, hclosing⟩ := mem_marks hpair
      have hne : ∀ mark ∈ marks, word ≠ mark := by
        rintro mark hmark rfl
        rw [leafKind?_mark hmark] at hkind
        cases hkind
      rw [List.count_cons_of_ne (hne _ hopening), List.count_cons_of_ne (hne _ hclosing), ih]
  | @bracket opening closing inner words hmem _ _ ihinner ih =>
      -- One pair more, or none.
      have hone : ∀ p ∈ brackets, ∀ p' ∈ brackets,
          ([p.1, p.2].count p'.1 : Nat) = [p.1, p.2].count p'.2 := by decide
      have hpair' := hone _ hmem pair hpair
      simp only [List.count_cons, List.count_nil, List.count_append] at hpair' ⊢
      omega

/-- A bracket alone is not paired. -/
theorem not_paired_mark {mark : String} (hmark : mark ∈ marks) : ¬ Paired [mark] := by
  intro h
  have hcount := h.count
  have hall : ∀ mark ∈ marks, ¬ ∀ pair ∈ brackets, [mark].count pair.1 = [mark].count pair.2 := by
    decide
  exact hall mark hmark hcount

end Parse

namespace Expr

theorem Part.words_ne_nil {p : Expr} (h : p.Part) : p.words ≠ [] := by
  cases h with
  | leaf ht hkind => simp [words_of_leafKind? ht hkind]
  | enclosed hmem _ => simp [Parse.words_bracket hmem]
  | subscript _ _ _ => simp [Parse.words_bracket (show ("[", "]") ∈ brackets by decide)]
  | call => simp

theorem mark_words {mark : String} (hmark : mark ∈ marks) : (Expr.op mark).words = [mark] :=
  words_leaf (Parse.mark_admits hmark) (Parse.mark_lexeme hmark).ne_empty

/-- What is written the same has the same words. -/
theorem Legible.words_eq {e e' : Expr} (h : e.Legible) (h' : e'.Legible)
    (hprint : e.print = e'.print) : e.words = e'.words := by
  obtain ⟨text, htext, hreads⟩ := h.written
  obtain ⟨text', htext', hreads'⟩ := h'.written
  obtain rfl : text = text' := Except.ok.inj (htext.symm.trans (hprint.trans htext'))
  have hend : Token.EndsWord [] := by simp [Token.EndsWord]
  simpa using (hreads [] [] hend .done).unique (hreads' [] [] hend .done)

/-- The comparisons are leaves. -/
theorem comparison_leafKind? :
    ∀ op ∈ comparisons, op ∉ marks ∧ leafKind? (.plain op) = some .op := by decide

/-- In brackets, only what stands alone is a direct part. -/
theorem collapse_isLeafText {inner : List Expr} (hinner : ∀ p ∈ inner, p.Part) {op : String}
    (hop : leafKind? (.plain op) = some .op) (h : (collapse inner).isLeafText op = true) :
    collapse inner = .op op := by
  match inner with
  | [] =>
      obtain rfl : "" = op := by simpa [collapse, isLeafText, isLeaf, nil, leaf] using h
      exact absurd hop (by decide)
  | [p] =>
      obtain ⟨kind, hp, _, hkind⟩ := (hinner p List.mem_cons_self).of_isLeafText h
      obtain rfl := Option.some.inj (hkind.symm.trans hop)
      exact hp
  | _ :: _ :: _ => cases h

/-- **A test with a comparison for a part** is made of parts, or the
comparison stands alone in brackets. -/
theorem IsSpelt.direct_shapes {purpose : Parse.Purpose} {test : Expr} (h : test.IsSpelt purpose)
    {op : String} (hop : op ∈ comparisons) (hdirect : test.hasDirect op = true) :
    (∃ ps, (∀ p ∈ ps, p.Part) ∧ test = .chain ps)
      ∨ (∃ pair ∈ brackets, test = .chain [.op pair.1, .op op, .op pair.2])
      ∨ ∃ operand, operand.Part ∧ operand.kind ≠ .op
        ∧ test = .chain [operand, .op "[", .op op, .op "]"] := by
  obtain ⟨hmark, hkind⟩ := comparison_leafKind? op hop
  obtain ⟨ps, hps, rfl⟩ := h.parts
  match ps with
  | [] => cases hdirect
  | _ :: _ :: _ => exact .inl ⟨_, hps, rfl⟩
  | [p] =>
      rw [show collapse [p] = p from rfl] at hdirect ⊢
      cases hps p List.mem_cons_self with
      | leaf => cases hdirect
      | call hname hcallee harguments =>
          exact absurd ((Part.call hname hcallee harguments).chain_of_hasDirect hkind hdirect)
            (by simp [Expr.call, node])
      | @enclosed opening closing inner hmem hinner =>
          obtain ⟨hopening, hclosing⟩ := Parse.mem_marks hmem
          have ho := mark_isLeafText hopening hmark
          have hc := mark_isLeafText hclosing hmark
          cases inner with
          | nil => simp [hasDirect, Expr.chain, node, Parse.enclosed, ho, hc] at hdirect
          | cons q inner =>
              have hmiddle : (collapse (q :: inner)).isLeafText op = true := by
                simpa [hasDirect, Expr.chain, node, Parse.enclosed, ho, hc] using hdirect
              refine .inr (.inl ⟨_, hmem, ?_⟩)
              simp [Parse.enclosed, collapse_isLeafText hinner hkind hmiddle]
      | @subscript operand inner hoperand hne hinner =>
          have hfirst := hoperand.isLeafText_of_kind_ne hne hkind
          have ho := mark_isLeafText (show "[" ∈ marks by decide) hmark
          have hc := mark_isLeafText (show "]" ∈ marks by decide) hmark
          cases inner with
          | nil => simp [hasDirect, Expr.chain, node, Parse.enclosed, ho, hc, hfirst] at hdirect
          | cons q inner =>
              have hmiddle : (collapse (q :: inner)).isLeafText op = true := by
                simpa [hasDirect, Expr.chain, node, Parse.enclosed, ho, hc, hfirst] using hdirect
              refine .inr (.inr ⟨operand, hoperand, hne, ?_⟩)
              simp [Parse.enclosed, collapse_isLeafText hinner hkind hmiddle]

theorem comparison_ne_empty : ∀ op ∈ comparisons, op ≠ "" := by decide

theorem comparison_part {op : String} (hop : op ∈ comparisons) : (Expr.op op).Part := by
  refine .leaf ?_ (comparison_leafKind? op hop).2
  have hpiece : ∃ c cs, op.toList = c :: cs
      ∧ Token.piece c cs = .ok ⟨some .operator, c :: cs, []⟩ := by
    simp only [comparisons, List.mem_cons, List.not_mem_nil, or_false] at hop
    rcases hop with rfl | rfl | rfl | rfl | rfl | rfl <;> exact ⟨_, _, rfl, by decide +kernel⟩
  obtain ⟨c, cs, hchars, hpiece⟩ := hpiece
  have hlexeme := Token.piece_lexeme hpiece rfl
  rw [← hchars] at hlexeme
  exact hlexeme.isLexeme

theorem IsSpelt.direct_items {purpose : Parse.Purpose} {test : Expr} (h : test.IsSpelt purpose)
    {op : String} (hop : op ∈ comparisons) (hdirect : test.hasDirect op = true) :
    test = .chain test.parts ∧ ∀ p ∈ test.parts, p.Item := by
  have hitem : (Expr.op op).Item := .inl (comparison_part hop)
  have hmark : ∀ mark ∈ marks, (Expr.op mark).Item := fun mark hmark => .inr ⟨mark, hmark, rfl⟩
  rcases h.direct_shapes hop hdirect with
    ⟨ps, hps, rfl⟩ | ⟨pair, hpair, rfl⟩ | ⟨operand, hoperand, _, rfl⟩
  · exact ⟨rfl, fun p hp => .inl (hps p hp)⟩
  · obtain ⟨ho, hc⟩ := Parse.mem_marks hpair
    refine ⟨rfl, ?_⟩
    simpa [Expr.chain, node] using ⟨hmark _ ho, hitem, hmark _ hc⟩
  · refine ⟨rfl, ?_⟩
    simpa [Expr.chain, node] using ⟨.inl hoperand, hmark "[" (by decide), hitem,
      hmark "]" (by decide)⟩

/-- The sides of a test, the variable and the bound. -/
theorem bound?_eq_some {test : Expr} {op name limit : String}
    (h : test.bound? op name = some limit) :
    ∃ side other, ([side, other] = [test.partsBefore op, test.partsBehind op]
        ∨ [other, side] = [test.partsBefore op, test.partsBehind op])
      ∧ (chain side).print = .ok name ∧ (chain other).print = .ok limit := by
  unfold bound? at h
  split at h
  · rename_i left right hleft hright
    split at h
    · rename_i hname
      obtain rfl := Option.some.inj h
      exact ⟨_, _, .inl rfl, hname ▸ hleft, hright⟩
    · split at h
      · rename_i hname
        obtain rfl := Option.some.inj h
        exact ⟨_, _, .inr rfl, hname ▸ hright, hleft⟩
      · cases h
  · cases h

/-- The sides are among the parts. -/
theorem mem_of_mem_sides {test : Expr} {op : String} {p : Expr}
    (h : p ∈ test.partsBefore op ∨ p ∈ test.partsBehind op) : p ∈ test.parts := by
  rcases h with h | h
  · exact List.takeWhile_subset _ h
  · exact List.dropWhile_subset _ (List.mem_of_mem_drop h)

end Expr

/-- A variable that is no part is a single word. -/
theorem Induction.Taken.words_of_lone {i : Induction} {target amount : Expr}
    (h : i.Taken target amount) (hlone : i.name ∈ lone) : target.words = [i.name] := by
  have hword : ∃ e : Expr, e.Legible ∧ e.print = .ok i.name ∧ e.words = [i.name] := by
    have hall : ∀ name ∈ lone, name ∈ marks ∨ name = "case" := by decide
    rcases hall _ hlone with hmark | hcase
    · exact ⟨_, Parse.mark_legible hmark, Expr.print_leaf (Parse.mark_admits hmark),
        Expr.mark_words hmark⟩
    · rw [hcase]
      exact ⟨.keyword "case", Parse.keyword_legible (by decide), rfl, rfl⟩
  obtain ⟨e, he, hprint, hwords⟩ := hword
  rw [h.item.legible.words_eq he (h.name.trans hprint.symm), hwords]

/-- What the plan for a loop takes from it, as expressions: the variable, the
step, the side of the test that is the variable, and the bound. -/
structure Unroll.Plan.From (p : Plan) (test target amount : Expr) (side bound : List Expr) :
    Prop where
  taken : p.induction.Taken target amount
  sides : ∃ op ∈ Expr.comparisons, test.hasDirect op = true
    ∧ ([side, bound] = [test.partsBefore op, test.partsBehind op]
      ∨ [bound, side] = [test.partsBefore op, test.partsBehind op])
  name : (Expr.chain side).print = .ok p.induction.name
  limit : (Expr.chain bound).print = .ok p.limit
  nonempty : bound ≠ []

namespace Unroll

/-- **What a plan is made of.** -/
theorem plan_from {ask : Features → Except Error Int} {nesting : Nat} {l : Loop}
    {test increment : Expr} {p : Plan} (hincrement : increment.IsSpelt .statement)
    (hbody : l.body.Tidy) (h : decided ask nesting l test increment = .ok (some p)) :
    ∃ target amount side bound, p.From test target amount side bound := by
  obtain ⟨op, hsplit, hjudge, hbound, hne, _⟩ := decided_eq_some h
  obtain ⟨_, hcomparison, hdirect⟩ := Expr.split?_eq_some hsplit
  obtain ⟨target, amount, htaken⟩ := Loop.taken_of_judge hincrement hbody hjudge
  obtain ⟨side, bound, hsides, hname, hlimit⟩ := Expr.bound?_eq_some hbound
  refine ⟨target, amount, side, bound, htaken,
    ⟨op, List.mem_of_find?_eq_some hcomparison, hdirect, hsides⟩, hname, hlimit, ?_⟩
  rintro rfl
  exact hne (Except.ok.inj hlimit).symm

namespace Plan.From

variable {p : Plan} {test target amount : Expr} {side bound : List Expr}
  (h : p.From test target amount side bound) (htest : test.IsSpelt .statement)
include h

theorem mem_parts {e : Expr} (he : e ∈ side ∨ e ∈ bound) : e ∈ test.parts := by
  obtain ⟨op, _, _, hsides⟩ := h.sides
  simp only [List.cons.injEq, and_true] at hsides
  rcases hsides with ⟨rfl, rfl⟩ | ⟨rfl, rfl⟩
  · exact Expr.mem_of_mem_sides he
  · exact Expr.mem_of_mem_sides he.symm

include htest

theorem items : test = .chain test.parts ∧ ∀ e, e ∈ side ∨ e ∈ bound → e.Item := by
  obtain ⟨op, hop, hdirect, _⟩ := h.sides
  obtain ⟨hchain, hitems⟩ := htest.direct_items hop hdirect
  exact ⟨hchain, fun e he => hitems e (h.mem_parts he)⟩

theorem words_target : target.words = wordsOf side := by
  have hlegible : (Expr.chain side).Legible :=
    .chain fun e he => ((h.items htest).2 e (.inl he)).legible
  rw [h.taken.item.legible.words_eq hlegible (h.taken.name.trans h.name.symm), Expr.words_chain]

theorem mem_words {word : String} (hword : word ∈ target.words) : word ∈ test.words := by
  rw [h.words_target htest] at hword
  obtain ⟨e, he, hword⟩ := List.mem_flatMap.1 hword
  rw [(h.items htest).1, Expr.words_chain]
  exact List.mem_flatMap.2 ⟨e, h.mem_parts (.inl he), hword⟩

/-- No side of a comparison in a subscript is a variable. -/
theorem not_subscript {operand : Expr} (hoperand : operand.Part) (hne : operand.kind ≠ .op)
    {op : String} (hop : op ∈ Expr.comparisons)
    (hchain : test = .chain [operand, .op "[", .op op, .op "]"])
    (hsides : [side, bound] = [test.partsBefore op, test.partsBehind op]
      ∨ [bound, side] = [test.partsBefore op, test.partsBehind op]) : False := by
  obtain ⟨hmark, hkind⟩ := Expr.comparison_leafKind? op hop
  have hwords : target.words = operand.words ++ ["["] ∨ target.words = ["]"] := by
    have hfirst := hoperand.isLeafText_of_kind_ne hne hkind
    have hopen := mark_isLeafText (show "[" ∈ marks by decide) hmark
    have hbefore : test.partsBefore op = [operand, .op "["] := by
      simp [Expr.partsBefore, hchain, Expr.chain, Expr.node, hfirst, hopen]
    have hbehind : test.partsBehind op = [.op "]"] := by
      simp [Expr.partsBehind, hchain, Expr.chain, Expr.node, hfirst, hopen]
    rw [h.words_target htest]
    simp only [hbefore, hbehind, List.cons.injEq, and_true] at hsides
    rcases hsides with ⟨rfl, _⟩ | ⟨_, rfl⟩
    · exact .inl (by simp [Expr.mark_words (show "[" ∈ marks by decide)])
    · exact .inr (by simp [Expr.mark_words (show "]" ∈ marks by decide)])
  rcases h.taken.parts with ⟨htarget, _⟩ | hlone
  · have hcount := htarget.paired.count ("[", "]") (by decide)
    rcases hwords with hwords | hwords
    · have heven : operand.words.count "[" = operand.words.count "]" :=
        hoperand.paired.count ("[", "]") (by decide)
      have hmore : operand.words.count "[" + 1 = operand.words.count "]" := by
        simpa [hwords] using hcount
      omega
    · simp [hwords] at hcount
  · have hname := h.taken.words_of_lone hlone
    rcases hwords with hwords | hwords
    · have hlength := congrArg List.length (hwords.symm.trans hname)
      exact hoperand.words_ne_nil (List.length_eq_zero_iff.1 (by simpa using hlength))
    · have hbracket : "]" = p.induction.name := List.head_eq_of_cons_eq (hwords.symm.trans hname)
      exact absurd hlone (hbracket ▸ by decide)

/-- **A plan is made of parts**, unless the comparison of the test stands
alone in brackets. -/
theorem parts (hcase : "case" ∉ test.words)
    (hloose : ∀ op ∈ Expr.comparisons, ∀ pair ∈ brackets, test.words ≠ [pair.1, op, pair.2]) :
    target.Part ∧ amount.Part ∧ ∀ e ∈ bound, e.Part := by
  obtain ⟨op, hop, hdirect, hsides⟩ := h.sides
  have hwords := h.words_target htest
  rcases htest.direct_shapes hop hdirect with
    ⟨ps, hps, htest'⟩ | ⟨pair, hpair, rfl⟩ | ⟨operand, hoperand, hne, hchain⟩
  · have hmem : ∀ e, e ∈ side ∨ e ∈ bound → e.Part := fun e he => hps e (by
      have he := h.mem_parts he
      rwa [htest'] at he)
    rcases h.taken.parts with ⟨htarget, hamount⟩ | hlone
    · exact ⟨htarget, hamount, fun e he => hmem e (.inr he)⟩
    · exfalso
      have hname := h.taken.words_of_lone hlone
      have hall : ∀ name ∈ lone, name ∈ marks ∨ name = "case" := by decide
      rcases hall _ hlone with hmark | hcase'
      · have hpaired := Expr.paired_wordsOf fun e he => (hmem e (.inl he)).paired
        rw [← hwords, hname] at hpaired
        exact Parse.not_paired_mark hmark hpaired
      · exact hcase (h.mem_words htest (by simp [hname, hcase']))
  · obtain ⟨ho, hc⟩ := Parse.mem_marks hpair
    have hmiddle : (Expr.op op).words = [op] := Expr.words_leaf
      (Parse.leafKind?_admits (Expr.comparison_leafKind? op hop).2)
      (Expr.comparison_ne_empty op hop)
    refine absurd ?_ (hloose op hop pair hpair)
    rw [Expr.words_chain]
    simp [Expr.wordsOf, Expr.mark_words ho, Expr.mark_words hc, hmiddle]
  · exact (h.not_subscript htest hoperand hne hop hchain hsides).elim

end Plan.From

end Unroll

end RuleBody
