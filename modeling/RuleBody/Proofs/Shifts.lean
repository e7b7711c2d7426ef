/-
  RuleBody.Proofs.Shifts
  ──────────────────────
  **HOW FAR AN INCREMENT MOVES ITS VARIABLE.**

  The analysis takes one segment of an increment for what drives the loop,
  with a direction and a step.  The increment as a whole may do something
  else to the variable:

      i++, i++      — the analysis says one, the variable moves by two
      i *= 2, i++   — one, but the variable is scaled, too
      i = 3 - i     — three downwards, but the variable is reflected

  Where the variable and the step are plain leaves, a segment keeps the
  variable, moves it by its step, or reflects it (`Expr.Acts`).  So an increment
  moves its variable by the sum of the steps of all its segments, and by the
  step that the analysis has found where one segment moves it and does not
  reflect it (`increment_moves_by_step`).

  §1  plain leaves;
  §2  one segment;
  §3  all segments.
-/
import RuleBody.Proofs.GroupTest
import RuleBody.Proofs.Links

namespace RuleBody

open Token (IsLexeme Lexeme kindOf)
open Parse (leafKind? brackets)
open Induction (lone)

/-! ## §1. Plain leaves. -/

/-- A part that is written as one word is the leaf of that word. -/
theorem Expr.Part.eq_leaf {p : Expr} (h : p.Part) {kind : Expr.Kind} {text : String}
    (htext : IsLexeme text) (hkind : leafKind? (.plain text) = some kind)
    (hprint : p.print = .ok text) : p = .leaf kind text := by
  have hadmits := Parse.leafKind?_admits hkind
  have hlegible : (Expr.leaf kind text).Legible := .leaf htext hadmits
  have hwords : p.words = [text] := by
    rw [h.legible.words_eq hlegible (hprint.trans (print_leaf hadmits).symm),
      words_of_leafKind? htext hkind]
  have hlength := congrArg List.length hwords
  -- Every other part has two words or more.
  cases h with
  | @leaf kind' text' htext' hkind' =>
      rw [words_of_leafKind? htext' hkind'] at hwords
      obtain rfl : text' = text := List.head_eq_of_cons_eq hwords
      obtain rfl := Option.some.inj (hkind'.symm.trans hkind)
      rfl
  | enclosed hmem _ => simp [Parse.words_bracket hmem] at hlength
  | subscript =>
      rw [words_chain, wordsOf_cons, Parse.words_bracket (by decide)] at hlength
      simp at hlength
      omega
  | call =>
      simp at hlength
      omega

theorem Expr.isOperand_of_identifier {name : String} (h : Lexeme .identifier name.toList) :
    IsOperand .ident name :=
  ⟨h.isLexeme, .inl rfl, Parse.leafKind?_admits (Parse.leafKind?_of_identifier h.kindOf_eq)⟩

/-- An induction whose variable is a name and whose step is an integer. -/
structure Induction.Plain (i : Induction) : Prop where
  name : Lexeme .identifier i.name.toList
  step : Lexeme .integer i.step.toList

namespace Induction.Plain

variable {i : Induction} (h : i.Plain)
include h

theorem leafKind?_step : leafKind? (.plain i.step) = some .lit := by
  unfold leafKind?
  rw [show (Token.plain i.step).kind = .integer from h.step.kindOf_eq]

theorem operand_step : Expr.IsOperand .lit i.step :=
  ⟨h.step.isLexeme, .inr rfl, Parse.leafKind?_admits h.leafKind?_step⟩

theorem eq_ident {p : Expr} (hp : p.Part) (hprint : p.print = .ok i.name) : p = .ident i.name :=
  hp.eq_leaf h.name.isLexeme (Parse.leafKind?_of_identifier h.name.kindOf_eq) hprint

theorem eq_lit {p : Expr} (hp : p.Part) (hprint : p.print = .ok i.step) : p = .lit i.step :=
  hp.eq_leaf h.step.isLexeme h.leafKind?_step hprint

/-- A name is no bracket and no keyword. -/
theorem not_lone : i.name ∉ lone := by
  intro hlone
  have hkinds : ∀ name ∈ lone, kindOf name ≠ .identifier := by decide
  exact hkinds _ hlone h.name.kindOf_eq

end Induction.Plain

/-! ## §2. One segment. -/

/-- The assignment `v = c - v`. -/
def Expr.reflection (v c : String) : Expr :=
  .chain [.ident v, .op "=", .lit c, .op "-", .ident v]

/-- **A plain idiom moves its variable by its step, or reflects it.** -/
theorem Idiom.Shape.moves {i : Induction} {ps : List Expr} (h : Shape i ps)
    (hps : ∀ p ∈ ps, p.Part) (hi : i.Plain) :
    Strides i.name i.direction i.step (.chain ps)
      ∨ i.direction = .decreasing ∧ Expr.chain ps = .reflection i.name i.step := by
  -- A part with the text of an operator is that operator.
  have hop : ∀ {p : Expr} {text : String}, p ∈ ps → p.isLeafText text = true →
      leafKind? (.plain text) = some .op → p = .op text := by
    intro p text hp htext hkind
    obtain ⟨kind, rfl, _, hleaf⟩ := (hps p hp).of_isLeafText htext
    obtain rfl := Option.some.inj (hleaf.symm.trans hkind)
    rfl
  have hmarks : ∀ direction : Direction, leafKind? (.plain direction.mark) = some .op
      ∧ leafKind? (.plain direction.assignment) = some .op
      ∧ leafKind? (.plain direction.sign) = some .op := by
    intro direction
    cases direction <;> decide
  obtain ⟨hmark, hassignment, hsign⟩ := hmarks i.direction
  cases h with
  | behind hname hleaf hstep =>
      rw [hi.eq_ident (hps _ (by simp)) hname, hop (by simp) hleaf hmark, hstep]
      exact .inl .behind
  | inFront hname hleaf hstep =>
      rw [hi.eq_ident (hps _ (by simp)) hname, hop (by simp) hleaf hmark, hstep]
      exact .inl .inFront
  | assigns hname hleaf hstep =>
      rw [hi.eq_ident (hps _ (by simp)) hname, hop (by simp) hleaf hassignment,
        hi.eq_lit (hps _ (by simp)) hstep]
      exact .inl .assigns
  | variableFirst hname hset hoperand hleaf hstep =>
      rw [hi.eq_ident (hps _ (by simp)) hname, hop (by simp) hset (by decide),
        hi.eq_ident (hps _ (by simp)) hoperand, hop (by simp) hleaf hsign,
        hi.eq_lit (hps _ (by simp)) hstep]
      exact .inl .variableFirst
  | variableLast hname hset hoperand hleaf hstep =>
      rw [hi.eq_ident (hps _ (by simp)) hname, hop (by simp) hset (by decide),
        hi.eq_ident (hps _ (by simp)) hoperand, hop (by simp) hleaf hsign,
        hi.eq_lit (hps _ (by simp)) hstep]
      cases hdirection : i.direction with
      | increasing => exact .inl .variableLast
      | decreasing => exact .inr ⟨rfl, rfl⟩

namespace Expr

theorem tidy_of_parse {text : String} {origin : Location} {e : Expr}
    (h : Expr.parse text origin = .ok e) : e = .nil ∨ ∃ tags, (Stmt.basic [e] tags).Tidy := by
  obtain ⟨es, tags, hstmt, ⟨_, rfl⟩ | rfl⟩ := Expr.parse_eq_ok.1 h
  · exact .inl rfl
  · obtain ⟨b, hblock, hstmts⟩ := Stmt.parse_eq_ok.1 hstmt
    refine .inr ⟨tags, Block.tidy_of_parse hblock _ ?_⟩
    rw [hstmts]
    exact List.mem_cons_self

/-- A chain that was read is nothing but its links. -/
theorem IsSpelt.chain_eq {purpose : Parse.Purpose} {e : Expr} (h : e.IsSpelt purpose)
    (hkind : e.kind = .chain) : e = .chain e.parts := by
  obtain ⟨parts, hparts, rfl⟩ := h.parts
  match parts with
  | [] => cases hkind
  | _ :: _ :: _ => rfl
  | [p] =>
      change p.kind = .chain at hkind
      show p = .chain p.parts
      cases hparts p List.mem_cons_self with
      | leaf _ hleaf =>
          obtain rfl : _ = Kind.chain := hkind
          exact Bool.noConfusion (Parse.leafKind?_admits hleaf)
      | enclosed | subscript => rfl
      | call => cases hkind

/-- The links of what was read. -/
theorem links_of_parse {text : String} {origin : Location} {e : Expr}
    (h : Expr.parse text origin = .ok e) (hchain : e.kind = .chain ∨ e.hasDirect "," = true) :
    Links e.parts ∧ e = .chain e.parts := by
  rcases tidy_of_parse h with rfl | ⟨tags, htidy⟩
  · rcases hchain with hkind | hdirect
    · cases hkind
    · cases hdirect
  have hlinked := htidy.linked e List.mem_cons_self
  cases htidy with
  | case | default => exact ⟨hlinked.links rfl, rfl⟩
  | simple he _ _ =>
      have hkind : e.kind = .chain := by
        rcases hchain with hkind | hdirect
        · exact hkind
        · exact he.chain_of_hasDirect (by decide) hdirect
      exact ⟨hlinked.links hkind, he.chain_eq hkind⟩

/-- A segment that a plain induction is taken from is such an idiom. -/
theorem segment_strides {text : String} {origin : Location} {increment : Expr}
    (hparse : Expr.parse text origin = .ok increment) {e : Expr}
    (he : e ∈ Induction.segments increment) {i : Induction} (hi : e.induction? = some i)
    (hplain : i.Plain) :
    Strides i.name i.direction i.step e
      ∨ i.direction = .decreasing ∧ e = .reflection i.name i.step := by
  obtain ⟨hchain, hshape⟩ := shape_of_induction? hi
  unfold Induction.segments at he
  split at he
  · rename_i hdirect
    obtain ⟨segment, hsegment, rfl⟩ := List.mem_map.1 he
    obtain ⟨hlinks, _⟩ := links_of_parse hparse (.inr hdirect)
    rcases hlinks.segment_parts_or_lone hsegment hshape.fits with hparts | ⟨hlone, _⟩
    · exact hshape.moves hparts hplain
    · exact absurd hlone hplain.not_lone
  · obtain rfl := List.mem_singleton.1 he
    obtain ⟨hlinks, heq⟩ := links_of_parse hparse (.inl hchain)
    rcases hlinks.parts_or_lone hshape.fits with hparts | ⟨hlone, _⟩
    · rw [heq]
      exact hshape.moves hparts hplain
    · exact absurd hlone hplain.not_lone

/-- The induction of an expression that moves the variable. -/
def mover? (v : String) (e : Expr) : Option Induction := e.induction?.filter (·.name == v)

theorem mover?_eq_some {v : String} {e : Expr} {i : Induction} :
    e.mover? v = some i ↔ e.induction? = some i ∧ i.name = v := by
  unfold mover?
  rw [Option.filter_eq_some_iff, beq_iff_eq]

end Expr

namespace Interp

variable (I : Interp)

/-- How far an induction moves its variable. -/
def shift (i : Induction) : Int := i.direction.signed ((I.number? i.step).getD 0)

end Interp

/-- What a segment does to a variable: nothing, or what the induction says
that is taken from it, or a reflection. -/
inductive Expr.Acts (I : Interp) (v : String) (e : Expr) : Prop where
  | keeps : e.mover? v = none → (∀ c, e ≠ .reflection v c) → (∀ σ, I.single σ e v = σ v) →
      Acts I v e
  | moves {i : Induction} : e.mover? v = some i → (∀ c, e ≠ .reflection v c) →
      (∀ σ, I.single σ e v = σ v + I.shift i) → Acts I v e
  | reflects {i : Induction} : e.mover? v = some i → e = .reflection v i.step →
      (∀ σ, I.single σ e v = - I.shift i - σ v) → Acts I v e

namespace Interp

variable {I : Interp}

theorem single_of_strides {v c : String} {direction : Direction} {e : Expr}
    (h : Strides v direction c e) (he : e.Legible) {k : Int} (hk : I.number? c = some k)
    (σ : Store) :
    I.single σ e = σ.set v (σ v + direction.signed k) := by
  have hafter := h.meaning he hk σ
  unfold after at hafter
  rwa [h.segments he] at hafter

theorem single_reflection {v c : String} (hc : Expr.IsOperand .lit c) {k : Int}
    (hk : I.number? c = some k) (σ : Store) :
    I.single σ (.reflection v c) = σ.set v (k - σ v) := by
  have hsum : I.sum? σ [.lit c, .op "-", .ident v] = some (k - σ v) := by
    have hvalue : I.value? σ (.lit c) = some k := (I.value?_lit σ c).trans hk
    rw [Expr.lit, sum?_operand hc hvalue, I.more?_op σ _ (I.value?_ident σ v)]
    simp [Int.sub_eq_add_neg]
  have hassign : I.assign? σ (.reflection v c) = some (σ.set v (k - σ v)) := by
    simp [assign?, Expr.reflection, hsum]
  rw [single, hassign]

end Interp

theorem Strides.ne_reflection {v c : String} {direction : Direction} {e : Expr}
    (h : Strides v direction c e) (w c' : String) : e ≠ .reflection w c' := by
  intro heq
  have hparts := congrArg Expr.parts heq
  cases h with
  | behind | inFront | assigns => simp [Expr.reflection] at hparts
  | variableFirst => simp [Expr.reflection, Expr.ident, Expr.lit, Expr.leaf] at hparts
  | variableLast => simp [Expr.reflection, Expr.op, Expr.leaf] at hparts

/-- A reflection is taken for a step downwards. -/
theorem Expr.reflection_mover? {v c : String} (h : (Expr.reflection v c).Legible) :
    (Expr.reflection v c).mover? v ≠ none := by
  have hv := isOperand_ident (h.parts (.ident v) (by simp [reflection]))
  have hc := isOperand_lit (h.parts (.lit c) (by simp [reflection]))
  obtain ⟨text, htext⟩ := h.prints
  obtain ⟨idiom, hidiom⟩ := Idiom.first?_variableLast hv hc .decreasing htext
  have hverdict : (Expr.reflection v c).induction? = some ⟨v, .decreasing, text, c⟩ := by
    unfold induction? verdict
    rw [show (Expr.reflection v c).idiom? = _ from hidiom]
  rw [mover?_eq_some.2 ⟨hverdict, rfl⟩]
  exact Option.some_ne_none _

/-! ## §3. All segments. -/

namespace Induction

/-- The inductions that the segments of an increment hold for a variable. -/
def movers (v : String) (increment : Expr) : List Induction :=
  (segments increment).filterMap (Expr.mover? v)

/-- Every segment of an accepted increment fits an idiom. -/
theorem verdict_of_judgeSegments {test : Expr} {es : List Expr} {r : Option Induction}
    (h : judgeSegments test es = .ok r) : ∀ e ∈ es, e.verdict ≠ none := by
  have hsegment : ∀ {e : Expr} {r : Option Induction}, judgeSegment e = .ok r →
      e.verdict ≠ none := by
    intro e r h hnone
    unfold judgeSegment at h
    rw [hnone] at h
    cases h
  induction es generalizing r with
  | nil => simp
  | cons e es ih =>
      cases es with
      | nil => exact List.forall_mem_singleton.2 (hsegment h)
      | cons e' es =>
          obtain ⟨l, hl, h⟩ := bind_eq_ok.1 h
          obtain ⟨r', hr, _⟩ := bind_eq_ok.1 h
          exact List.forall_mem_cons.2 ⟨hsegment hl, ih hr⟩

end Induction

namespace Interp

variable {I : Interp} {v : String}

/-- **What the segments of an accepted increment do.** -/
theorem segment_acts {text : String} {origin : Location} {increment : Expr}
    (hparse : Expr.parse text origin = .ok increment) {e : Expr}
    (he : e ∈ Induction.segments increment) (hverdict : e.verdict ≠ none)
    (hplain : ∀ i, e.induction? = some i → i.Plain ∧ (I.number? i.step).isSome = true)
    (hscales : e.verdict = some .scales → ∀ σ, I.single σ e v = σ v) : e.Acts I v := by
  have hlegible : e.Legible := Induction.segments_legible (Expr.legible_of_parse hparse) e he
  -- A reflection of the variable is always taken for a step.
  have hreflection : e.mover? v = none → ∀ c, e ≠ .reflection v c := by
    rintro hnone c rfl
    exact Expr.reflection_mover? hlegible hnone
  match hv : e.verdict with
  | none => exact absurd hv hverdict
  | some .scales =>
      have hnone : e.mover? v = none := by
        simp [Expr.mover?, Expr.induction?, hv]
      exact .keeps hnone (hreflection hnone) (hscales hv)
  | some (.drives i) =>
      have hi : e.induction? = some i := by
        simp [Expr.induction?, hv]
      obtain ⟨hi', hnumber⟩ := hplain i hi
      obtain ⟨k, hk⟩ := Option.isSome_iff_exists.1 hnumber
      have hshift : I.shift i = i.direction.signed k := by
        simp [shift, hk]
      by_cases hname : i.name = v
      · subst hname
        have hmover : e.mover? i.name = some i := Expr.mover?_eq_some.2 ⟨hi, rfl⟩
        rcases Expr.segment_strides hparse he hi hi' with hstrides | ⟨hdirection, rfl⟩
        · refine .moves hmover (hstrides.ne_reflection i.name) fun σ => ?_
          rw [single_of_strides hstrides hlegible hk, Store.set_self, hshift]
        · refine .reflects hmover rfl fun σ => ?_
          rw [single_reflection hi'.operand_step hk, Store.set_self, hshift, hdirection]
          simp [Direction.signed]
      · -- Whatever it does, it does to another variable.
        have hnone : e.mover? v = none := by
          simp [Expr.mover?, hi, hname]
        refine .keeps hnone (hreflection hnone) fun σ => ?_
        have hset : ∃ n, I.single σ e = σ.set i.name n := by
          rcases Expr.segment_strides hparse he hi hi' with hstrides | ⟨_, rfl⟩
          · exact ⟨_, single_of_strides hstrides hlegible hk σ⟩
          · exact ⟨_, single_reflection hi'.operand_step hk σ⟩
        obtain ⟨n, hn⟩ := hset
        rw [hn, Store.set_of_ne σ n (Ne.symm hname)]

/-- **Segments that reflect nothing add up.** -/
theorem foldl_single_eq_sum {es : List Expr} (h : ∀ e ∈ es, e.Acts I v)
    (hplain : ∀ e ∈ es, ∀ c, e ≠ .reflection v c) (σ : Store) :
    es.foldl I.single σ v = σ v + ((es.filterMap (Expr.mover? v)).map I.shift).sum := by
  induction es generalizing σ with
  | nil => simp
  | cons e es ih =>
      obtain ⟨he, hes⟩ := List.forall_mem_cons.1 h
      obtain ⟨hne, hplain⟩ := List.forall_mem_cons.1 hplain
      rw [List.foldl_cons, ih hes hplain]
      cases he with
      | keeps hnone _ hkeeps => rw [hkeeps, List.filterMap_cons_none hnone]
      | moves hmover _ hmoves =>
          rw [hmoves, List.filterMap_cons_some hmover, List.map_cons, List.sum_cons, Int.add_assoc]
      | reflects _ heq _ => exact absurd heq (hne _)

/-- Segments that hold no induction for the variable keep it. -/
theorem foldl_single_keeps {es : List Expr} (h : ∀ e ∈ es, e.Acts I v)
    (hnone : ∀ e ∈ es, e.mover? v = none) (σ : Store) :
    es.foldl I.single σ v = σ v ∧ ∀ e ∈ es, ∀ c, e ≠ .reflection v c := by
  have hplain : ∀ e ∈ es, ∀ c, e ≠ .reflection v c := by
    intro e he
    cases h e he with
    | keeps _ hne _ => exact hne
    | moves hmover _ _ => cases (hnone e he).symm.trans hmover
    | reflects hmover _ _ => cases (hnone e he).symm.trans hmover
  refine ⟨?_, hplain⟩
  rw [foldl_single_eq_sum h hplain, List.filterMap_eq_nil_iff.2 hnone]
  simp

/-- Where one segment holds an induction for the variable, that segment
decides. -/
theorem foldl_single_reflects {es : List Expr} (h : ∀ e ∈ es, e.Acts I v) {i : Induction}
    (hone : es.filterMap (Expr.mover? v) = [i]) :
    (∀ e ∈ es, ∀ c, e ≠ .reflection v c)
      ∨ ∀ σ : Store, es.foldl I.single σ v = - I.shift i - σ v := by
  -- What stands before and behind the segment keeps the variable.
  obtain ⟨front, e, behind, rfl, hfront, he, hbehind⟩ := List.filterMap_eq_cons_iff.1 hone
  obtain ⟨hactsFront, hacts⟩ := List.forall_mem_append.1 h
  obtain ⟨hacts, hactsBehind⟩ := List.forall_mem_cons.1 hacts
  have hbefore := foldl_single_keeps hactsFront hfront
  have hafter := foldl_single_keeps hactsBehind (List.filterMap_eq_nil_iff.1 hbehind)
  have hplain : (∀ c, e ≠ .reflection v c) →
      ∀ e' ∈ front ++ e :: behind, ∀ c, e' ≠ .reflection v c := fun hne =>
    List.forall_mem_append.2 ⟨(hbefore fun _ => 0).2,
      List.forall_mem_cons.2 ⟨hne, (hafter fun _ => 0).2⟩⟩
  cases hacts with
  | keeps _ hne _ => exact .inl (hplain hne)
  | moves _ hne _ => exact .inl (hplain hne)
  | reflects hmover _ hreflects =>
      obtain rfl := Option.some.inj (hmover.symm.trans he)
      refine .inr fun σ => ?_
      rw [List.foldl_append, List.foldl_cons, (hafter _).1, hreflects, (hbefore σ).1]

end Interp

/-- **How far an increment moves its variable.**  Where all variables are
names, all steps are integers and no scaling changes the variable, an
increment without a reflection moves the variable by the sum of the steps of
its segments.  If only one segment moves it, the analysis tells the step
exactly if that segment is no reflection. -/
theorem increment_moves_by_step {text : String} {origin : Location} {increment test : Expr}
    (hparse : Expr.parse text origin = .ok increment) {level : Option Level} {i : Induction}
    (hfinds : (Induction.ofIncrement increment test level).2 = .ok (.ok (some i))) {I : Interp}
    (hplain : ∀ e ∈ Induction.segments increment, ∀ j, e.induction? = some j →
      j.Plain ∧ (I.number? j.step).isSome = true)
    (hscales : ∀ e ∈ Induction.segments increment, e.verdict = some .scales →
      ∀ σ, I.single σ e i.name = σ i.name) :
    i ∈ Induction.movers i.name increment
      ∧ ((∀ e ∈ Induction.segments increment, ∀ c, e ≠ .reflection i.name c) →
        ∀ σ, I.after σ increment i.name
          = σ i.name + ((Induction.movers i.name increment).map I.shift).sum)
      ∧ (Induction.movers i.name increment = [i] → ∃ k, I.number? i.step = some k
        ∧ ((∀ σ, I.after σ increment i.name = σ i.name + i.direction.signed k)
          ↔ ∀ e ∈ Induction.segments increment, ∀ c, e ≠ .reflection i.name c)) := by
  have hjudge : Induction.judgeSegments test (Induction.segments increment) = .ok (some i) := by
    have hlegible := Induction.segments_legible (Expr.legible_of_parse hparse)
    exact Except.ok.inj ((Induction.ofSegments_yields hlegible level).symm.trans hfinds)
  have hacts : ∀ e ∈ Induction.segments increment, e.Acts I i.name := fun e he =>
    Interp.segment_acts hparse he (Induction.verdict_of_judgeSegments hjudge e he) (hplain e he)
      (hscales e he)
  obtain ⟨e, he, hi⟩ := Induction.mem_of_judgeSegments hjudge
  obtain ⟨k, hk⟩ := Option.isSome_iff_exists.1 (hplain e he i hi).2
  have hshift : I.shift i = i.direction.signed k := by
    simp [Interp.shift, hk]
  have hsum : (∀ e ∈ Induction.segments increment, ∀ c, e ≠ .reflection i.name c) →
      ∀ σ, I.after σ increment i.name
        = σ i.name + ((Induction.movers i.name increment).map I.shift).sum := fun hne σ =>
    Interp.foldl_single_eq_sum hacts hne σ
  refine ⟨List.mem_filterMap.2 ⟨e, he, Expr.mover?_eq_some.2 ⟨hi, rfl⟩⟩, hsum, fun hone => ?_⟩
  refine ⟨k, hk, fun hmoves => ?_, fun hne σ => ?_⟩
  · rcases Interp.foldl_single_reflects hacts hone with hne | hreflects
    · exact hne
    · -- No reflection is a shift: it takes zero and one to different distances.
      have hzero : (0 : Int) + i.direction.signed k = - I.shift i - 0 :=
        (hmoves fun _ => 0).symm.trans (hreflects fun _ => 0)
      have hunit : (1 : Int) + i.direction.signed k = - I.shift i - 1 :=
        (hmoves fun _ => 1).symm.trans (hreflects fun _ => 1)
      omega
  · rw [hsum hne, hone, List.map_singleton, List.sum_singleton, hshift]

/-- Of three segments the test names the last; the others move and scale
other variables. -/
theorem increment_moves_by_step_last :
    let increment : Expr := .chain [.ident "j", .op "-=", .lit "2", .op ",", .ident "k", .op "*=",
      .lit "3", .op ",", .ident "i", .op "=", .lit "4", .op "+", .ident "i"]
    let I : Interp := ⟨fun _ => none, fun _ _ => 0, fun _ σ => σ.set "k" (σ "k" * 3), fun _ σ => σ⟩
    Expr.parse "j -= 2, k *= 3, i = 4 + i" {} = .ok increment
      ∧ (Induction.ofIncrement increment (.chain [.ident "i", .op "<", .ident "n"]) none).2
        = .ok (.ok (some ⟨"i", .increasing, "i = 4 + i", "4"⟩))
      ∧ ∀ σ, I.after σ increment "i" = σ "i" + 4 := by
  intro increment I
  have hparse : Expr.parse "j -= 2, k *= 3, i = 4 + i" {} = .ok increment := by decide +kernel
  have hfinds : (Induction.ofIncrement increment (.chain [.ident "i", .op "<", .ident "n"]) none).2
      = .ok (.ok (some ⟨"i", .increasing, "i = 4 + i", "4"⟩)) := by decide +kernel
  have hsegments : Induction.segments increment
      = [.chain [.ident "j", .op "-=", .lit "2"], .chain [.ident "k", .op "*=", .lit "3"],
        .chain [.ident "i", .op "=", .lit "4", .op "+", .ident "i"]] := by decide +kernel
  have hj : (Expr.chain [.ident "j", .op "-=", .lit "2"]).induction?
      = some ⟨"j", .decreasing, "j -= 2", "2"⟩ := by decide +kernel
  have hk : (Expr.chain [.ident "k", .op "*=", .lit "3"]).verdict = some .scales := by
    decide +kernel
  have hi : (Expr.chain [.ident "i", .op "=", .lit "4", .op "+", .ident "i"]).induction?
      = some ⟨"i", .increasing, "i = 4 + i", "4"⟩ := by decide +kernel
  have hname : ∀ c : Char, Text.startsName c = true → Token.nameKind [c] = .identifier →
      Lexeme .identifier [c] := fun c hc hkind => hkind ▸ .name hc (by simp)
  have hplain : ∀ e ∈ Induction.segments increment, ∀ j, e.induction? = some j →
      j.Plain ∧ (I.number? j.step).isSome = true := by
    simp only [hsegments, List.forall_mem_cons, List.not_mem_nil, false_imp_iff, implies_true,
      and_true, hj, hi, Option.some.injEq, forall_eq']
    refine ⟨⟨⟨hname 'j' (by decide) (by decide), Token.toString_lexeme 2⟩, by decide⟩, ?_,
      ⟨hname 'i' (by decide) (by decide), Token.toString_lexeme 4⟩, by decide⟩
    simp [Expr.induction?, hk]
  have hscales : ∀ e ∈ Induction.segments increment, e.verdict = some .scales →
      ∀ σ, I.single σ e "i" = σ "i" := by
    simp only [hsegments, List.forall_mem_cons, List.not_mem_nil, false_imp_iff, implies_true,
      and_true]
    refine ⟨fun h => ?_, fun _ σ => ?_, fun h => ?_⟩
    · simp [Expr.induction?, h] at hj
    · rw [Interp.single, Interp.assign?_eq_none _ (by decide) (List.cons_ne_nil _ _)]
      dsimp only
      split
      · rfl
      · exact Store.set_of_ne σ (σ "k" * 3) (show "i" ≠ "k" by decide)
    · simp [Expr.induction?, h] at hi
  obtain ⟨_, _, hone⟩ := increment_moves_by_step hparse hfinds hplain hscales
  have hmovers : Induction.movers "i" increment = [⟨"i", .increasing, "i = 4 + i", "4"⟩] := by
    decide +kernel
  obtain ⟨k, hk, hmoves⟩ := hone hmovers
  obtain rfl : 4 = k := Option.some.inj ((I.number?_toString 4).symm.trans hk)
  refine ⟨hparse, hfinds, hmoves.2 ?_⟩
  simp [hsegments, Expr.reflection, Expr.chain, Expr.node, Expr.op, Expr.leaf]

/-- Two segments that move the variable, and a reflection: the analysis
answers with a step that is not the way the variable goes. -/
theorem increment_misses_step :
    let twice : Expr := .chain [.ident "i", .op "++", .op ",", .ident "i", .op "++"]
    let mirror : Expr := .chain [.ident "i", .op "=", .lit "3", .op "-", .ident "i"]
    let test : Expr := .chain [.ident "i", .op "<", .ident "n"]
    Expr.parse "i ++, i ++" {} = .ok twice ∧ Expr.parse "i = 3 - i" {} = .ok mirror
      ∧ (Induction.ofIncrement twice test none).2
        = .ok (.ok (some ⟨"i", .increasing, "i ++", "1"⟩))
      ∧ (Induction.ofIncrement mirror test none).2
        = .ok (.ok (some ⟨"i", .decreasing, "i = 3 - i", "3"⟩))
      ∧ ∀ (I : Interp) (σ : Store), I.after σ twice "i" = σ "i" + 2
        ∧ I.after σ mirror "i" = 3 - σ "i" := by
  intro twice mirror test
  refine ⟨by decide +kernel, by decide +kernel, by decide +kernel, by decide +kernel,
    fun I σ => ⟨?_, ?_⟩⟩
  · have hsegments : Induction.segments twice
        = [.chain [.ident "i", .op "++"], .chain [.ident "i", .op "++"]] := by decide +kernel
    simp [Interp.after, hsegments, Interp.single, Interp.assign?, Store.set_self]
    omega
  · have hsegments : Induction.segments mirror = [.reflection "i" "3"] := by decide +kernel
    have hthree : Expr.IsOperand .lit "3" := Expr.isOperand_toString 3
    have hvalue : I.number? "3" = some 3 := I.number?_toString 3
    unfold Interp.after
    rw [hsegments, List.foldl_cons, List.foldl_nil, Interp.single_reflection hthree hvalue,
      Store.set_self]

end RuleBody
