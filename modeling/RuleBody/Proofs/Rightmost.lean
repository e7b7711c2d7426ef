/-
  RuleBody.Proofs.Rightmost
  ─────────────────────────
  **WHICH SEGMENT OF AN INCREMENT DRIVES A LOOP.**

  The segments of an increment are judged from left to right, and the first
  that fits no idiom stops the analysis.  Where all of them fit, the variables
  are compared in pairs, from the right, and the test decides between two:

      i++, j--           — `j` under `j > 0`, `i` under `i < n`
      i++, k *= 2, j--   — the segment in the middle is passed over
      i++, j--, k += 2   — `j` under `i < j`, `k` under `m < n`

  What is left of a tail of segments is named in the test as soon as any
  variable of the tail is (`chosen_rightmost`).  So the pairs come down to one
  rule: the last variable that the test names, and the last of all if it
  names none (`increment_takes_rightmost`).

  §1  segments;
  §2  one segment;
  §3  all segments.
-/
import RuleBody.Proofs.Links

namespace RuleBody

/-! ## §1. Segments. -/

/-- Some parts, cut at every comma among them. -/
inductive Expr.CutAtCommas : List Expr → List (List Expr) → Prop where
  | last {ps : List Expr} : (∀ p ∈ ps, p.isLeafText "," = false) → CutAtCommas ps [ps]
  | comma {front behind : List Expr} {mark : Expr} {segments : List (List Expr)} :
      (∀ p ∈ front, p.isLeafText "," = false) → mark.isLeafText "," = true →
      CutAtCommas behind segments → CutAtCommas (front ++ mark :: behind) (front :: segments)

/-- An increment as its segments: one without a comma is its only segment,
of any other the segments are chains. -/
inductive Induction.CutInto (increment : Expr) : List Expr → Prop where
  | whole : (∀ p ∈ increment.parts, p.isLeafText "," = false) → CutInto increment [increment]
  | cut {mark : Expr} {segments : List (List Expr)} :
      mark ∈ increment.parts → mark.isLeafText "," = true →
      Expr.CutAtCommas increment.parts segments → CutInto increment (segments.map .chain)

theorem Expr.cutAtCommas_iff {ps : List Expr} {segments : List (List Expr)} :
    CutAtCommas ps segments ↔ cutWhere (·.isLeafText ",") ps = segments := by
  constructor
  · intro h
    induction h with
    | last hps => exact cutWhere_eq_singleton hps
    | comma hfront hmark _ ih =>
        rw [cutWhere_append hfront, cutWhere, hmark, ih]
        simp
  · rintro rfl
    induction ps with
    | nil => exact .last (by simp)
    | cons p ps ih =>
        unfold cutWhere
        cases hp : p.isLeafText "," with
        | true => exact .comma (List.forall_mem_nil _) hp ih
        | false =>
            -- The part goes to the first segment of the rest.
            generalize cutWhere (·.isLeafText ",") ps = segments at ih
            cases ih with
            | last hps => exact .last (List.forall_mem_cons.2 ⟨hp, hps⟩)
            | comma hfront hmark hrest =>
                exact .comma (List.forall_mem_cons.2 ⟨hp, hfront⟩) hmark hrest

namespace Induction

/-- An increment has one list of segments. -/
theorem cutInto_iff {increment : Expr} {es : List Expr} :
    CutInto increment es ↔ segments increment = es := by
  unfold segments Expr.hasDirect
  constructor
  · intro h
    cases h with
    | whole hnone => rw [List.any_eq_false.2 (by simpa using hnone)]; rfl
    | cut hmark hcomma hcut =>
        rw [if_pos (List.any_eq_true.2 ⟨_, hmark, hcomma⟩), Expr.cutAtCommas_iff.1 hcut]
  · rintro rfl
    split
    · rename_i hdirect
      obtain ⟨mark, hmark, hcomma⟩ := List.any_eq_true.1 hdirect
      exact .cut hmark hcomma (Expr.cutAtCommas_iff.2 rfl)
    · rename_i hdirect
      exact .whole (by simpa using hdirect)

end Induction

/-! ## §2. One segment. -/

/-- What a computation ends with goes on, whatever was logged. -/
theorem Run.bind_snd {α β : Type} (x : Run α) (f : α → Run β) (t : Option Level) :
    ((x >>= f) t).2 = (x t).2 >>= fun a => (f a t).2 := by
  rw [bind_apply]
  rcases x t with ⟨events, fault | a⟩ <;> rfl

/-- The verdict does not depend on what is logged, where it is reached. -/
theorem Expr.verdict_of_verdict? {e : Expr} {level : Option Level} {verdict : Option Verdict}
    (h : (e.verdict? level).2 = .ok verdict) : e.verdict = verdict := by
  unfold verdict? at h
  rw [Run.bind_snd] at h
  obtain ⟨r, hr, h⟩ := bind_eq_ok.1 h
  unfold Expr.verdict
  rw [show e.idiom? = .ok r from hr]
  match r with
  | none => exact Except.ok.inj h
  | some (idiom, verdict') =>
      dsimp only at h
      rw [Run.bind_snd] at h
      obtain ⟨_, _, h⟩ := bind_eq_ok.1 h
      exact Except.ok.inj h

namespace Induction

/-- The segment fits an idiom. -/
def Recognised (level : Option Level) (e : Expr) : Prop :=
  ∃ verdict, (e.verdict? level).2 = .ok (some verdict)

section

variable {level : Option Level} {e : Expr}

theorem ofSegment_recognised (h : Recognised level e) :
    (ofSegment e level).2 = .ok (.ok e.induction?) := by
  obtain ⟨verdict, hverdict⟩ := h
  unfold ofSegment Expr.induction?
  rw [Run.bind_snd, hverdict, Expr.verdict_of_verdict? hverdict]
  cases verdict with
  | drives i => rfl
  | scales => rfl

theorem ofSegment_unrecognised (h : (e.verdict? level).2 = .ok none) :
    (ofSegment e level).2
      = e.print >>= fun text => .ok (.error (.unsupported .loopIncrement text)) := by
  unfold ofSegment
  rw [Run.bind_snd, h]
  exact Run.bind_snd (liftM e.print) _ level

theorem ofSegment_fault {f : Fault} (h : (e.verdict? level).2 = .error f) :
    (ofSegment e level).2 = .error f := by
  unfold ofSegment
  rw [Run.bind_snd, h]
  rfl

end

/-! ## §3. All segments. -/

/-- The last induction whose variable the test names; the last of all if it
names none of them. -/
def rightmost (test : Expr) (candidates : List Induction) : Option Induction :=
  (candidates.filter fun i => test.containsLeaf i.name).getLast?.or candidates.getLast?

theorem rightmost_cons (test : Expr) (i : Induction) (is : List Induction) :
    rightmost test (i :: is)
      = if test.containsLeaf i.name then
          some ((is.filter fun j => test.containsLeaf j.name).getLast?.getD i)
        else (is.filter fun j => test.containsLeaf j.name).getLast?.or
          (some (is.getLast?.getD i)) := by
  unfold rightmost
  rw [List.filter_cons, List.getLast?_cons]
  split
  · rw [List.getLast?_cons, Option.some_or]
  · rfl

/-- **One more segment on the left**: it wins only where the test names it
and nothing behind it. -/
theorem chosen_rightmost (test : Expr) (i : Induction) (is : List Induction) :
    chosen test (some i) (rightmost test is) = rightmost test (i :: is) := by
  rw [rightmost_cons]
  unfold rightmost
  -- What wins the tail is named in the test as soon as anything of the tail is.
  cases hnamed : (is.filter fun j => test.containsLeaf j.name).getLast? with
  | some r =>
      have hr : test.containsLeaf r.name = true :=
        (List.mem_filter.1 (List.mem_of_getLast? hnamed)).2
      simp [chosen, hr]
  | none =>
      have hnone := List.filter_eq_nil_iff.1 (List.getLast?_eq_none_iff.1 hnamed)
      cases hlast : is.getLast? with
      | some r =>
          have hr : test.containsLeaf r.name = false :=
            Bool.eq_false_iff.2 (hnone r (List.mem_of_getLast? hlast))
          simp [chosen, hr]
      | none => simp [chosen]

section

variable {test : Expr} {level : Option Level}

/-- The segments behind one that is judged: nothing is left of an empty
tail. -/
theorem ofSegments_cons {e : Expr} {l : Option Induction}
    (h : (ofSegment e level).2 = .ok (.ok l)) (es : List Expr) :
    (ofSegments test (e :: es) level).2
      = (ofSegments test es level).2 >>= fun r => .ok (r.map (chosen test l)) := by
  cases es with
  | nil =>
      -- A single segment is judged without a choice.
      refine h.trans ?_
      cases l <;> rfl
  | cons e' es =>
      rw [ofSegments]
      · rw [Run.bind_snd, h]
        refine (Run.bind_snd (ofSegments test (e' :: es)) _ level).trans ?_
        cases (ofSegments test (e' :: es) level).2 with
        | error f => rfl
        | ok r =>
            cases r with
            | error err => rfl
            | ok r =>
                refine (Run.bind_snd (choose test l r) _ level).trans ?_
                rw [choose_yields test l r level]
                rfl
      · exact List.cons_ne_nil e' es

/-- A segment that stops the analysis. -/
theorem ofSegments_stop {e : Expr} {x : Except Fault Error}
    (h : (ofSegment e level).2 = x.map .error) (es : List Expr) :
    (ofSegments test (e :: es) level).2 = x.map .error := by
  cases es with
  | nil => exact h
  | cons e' es =>
      rw [ofSegments]
      · rw [Run.bind_snd, h]
        cases x <;> rfl
      · exact List.cons_ne_nil e' es

/-- The segments before the one that stops the analysis do not matter. -/
theorem ofSegments_append {front : List Expr} (hfront : ∀ e ∈ front, Recognised level e)
    {es : List Expr} {x : Except Fault Error} (h : (ofSegments test es level).2 = x.map .error) :
    (ofSegments test (front ++ es) level).2 = x.map .error := by
  induction front with
  | nil => exact h
  | cons e front ih =>
      obtain ⟨he, hfront⟩ := List.forall_mem_cons.1 hfront
      rw [List.cons_append, ofSegments_cons (ofSegment_recognised he), ih hfront]
      cases x <;> rfl

/-- Where all segments fit, the right-most variable wins. -/
theorem ofSegments_recognised {es : List Expr} (h : ∀ e ∈ es, Recognised level e) :
    (ofSegments test es level).2 = .ok (.ok (rightmost test (es.filterMap Expr.induction?))) := by
  induction es with
  | nil => rfl
  | cons e es ih =>
      obtain ⟨he, hes⟩ := List.forall_mem_cons.1 h
      rw [ofSegments_cons (ofSegment_recognised he), ih hes]
      show Except.ok (Except.ok (chosen test e.induction? _)) = _
      cases hi : e.induction? with
      -- A segment that scales takes no part in the choice.
      | none => rw [List.filterMap_cons_none hi]; rfl
      | some i => rw [List.filterMap_cons_some hi, chosen_rightmost]

end

end Induction

open Induction (CutInto Recognised rightmost)

/-- **An increment takes the right-most variable that the test names.**  An
increment is cut at its direct commas.  The first segment that fits no idiom
stops the analysis with an error that tells its text; if all segments fit, the
answer is the last of the variables that they move and that the test names, or
the last of them all, or none if none of them moves any.  A segment that can be
written never faults. -/
theorem increment_takes_rightmost (increment test : Expr) (level : Option Level) :
    (∃ es, CutInto increment es) ∧ ∀ es, CutInto increment es →
      (∀ front e behind, es = front ++ e :: behind → (∀ s ∈ front, Recognised level s) →
          ((e.verdict? level).2 = .ok none →
            (Induction.ofIncrement increment test level).2
              = e.print >>= fun text => .ok (.error (.unsupported .loopIncrement text)))
          ∧ ∀ f, (e.verdict? level).2 = .error f →
            (Induction.ofIncrement increment test level).2 = .error f)
      ∧ ((∀ e ∈ es, Recognised level e) →
          (Induction.ofIncrement increment test level).2
            = .ok (.ok (rightmost test (es.filterMap Expr.induction?))))
      ∧ (increment.Legible → ∀ e ∈ es, ∃ verdict text,
          (e.verdict? level).2 = .ok verdict ∧ e.print = .ok text) := by
  refine ⟨⟨_, Induction.cutInto_iff.2 rfl⟩, fun es hcut => ?_⟩
  obtain rfl := Induction.cutInto_iff.1 hcut
  refine ⟨?_, Induction.ofSegments_recognised, ?_⟩
  · intro front e behind hes hfront
    unfold Induction.ofIncrement
    rw [hes]
    constructor
    · intro hnone
      have hsegment := Induction.ofSegment_unrecognised hnone
      -- The text of the segment is the error, or it cannot be written.
      have hstop : (Induction.ofSegment e level).2
          = (e.print.map (Error.unsupported .loopIncrement)).map .error := by
        rw [hsegment]
        cases e.print <;> rfl
      rw [Induction.ofSegments_append hfront (Induction.ofSegments_stop hstop behind), ← hstop,
        hsegment]
    · intro f hfault
      have hstop : (Induction.ofSegment e level).2 = (Except.error f).map .error :=
        Induction.ofSegment_fault hfault
      exact Induction.ofSegments_append hfront (Induction.ofSegments_stop hstop behind)
  · intro hlegible e he
    have hsegment := Induction.segments_legible hlegible e he
    obtain ⟨text, htext⟩ := hsegment.prints
    exact ⟨_, text, hsegment.verdict_yields level, htext⟩

/-- Four segments: the test names the first and the third, and the second
scales.  Where the second moves nothing, its text is the error. -/
theorem increment_takes_rightmost_third :
    let test : Expr := .chain [.ident "i", .op "<", .ident "j"]
    let fitting : Expr := .chain [.ident "i", .op "++", .op ",", .ident "m", .op "*=", .lit "2",
      .op ",", .ident "j", .op "--", .op ",", .ident "k", .op "+=", .ident "n"]
    let broken : Expr := .chain [.ident "i", .op "++", .op ",", .ident "j", .op ",", .ident "k"]
    (Induction.ofIncrement fitting test none).2
        = .ok (.ok (some ⟨"j", .decreasing, "j --", "1"⟩))
      ∧ (Induction.ofIncrement broken test none).2
        = .ok (.error (.unsupported .loopIncrement "j")) := by
  intro test fitting broken
  have hi : Recognised none (.chain [.ident "i", .op "++"]) := ⟨_, rfl⟩
  constructor
  · have hcut : CutInto fitting [.chain [.ident "i", .op "++"],
        .chain [.ident "m", .op "*=", .lit "2"], .chain [.ident "j", .op "--"],
        .chain [.ident "k", .op "+=", .ident "n"]] := Induction.cutInto_iff.2 rfl
    refine ((increment_takes_rightmost fitting test none).2 _ hcut).2.1 ?_
    simp only [List.forall_mem_cons]
    exact ⟨hi, ⟨_, rfl⟩, ⟨_, rfl⟩, ⟨_, rfl⟩, List.forall_mem_nil _⟩
  · have hcut : CutInto broken [.chain [.ident "i", .op "++"], .chain [.ident "j"],
        .chain [.ident "k"]] := Induction.cutInto_iff.2 rfl
    exact (((increment_takes_rightmost broken test none).2 _ hcut).1
      [.chain [.ident "i", .op "++"]] _ _ rfl (by simpa using hi)).1 rfl

end RuleBody
