/-
  RuleBody.Proofs.Census
  ──────────────────────
  **WHAT A SCAN OF THE BODY ANSWERS.**

  The scan meets the expressions of a body one after the other and keeps a
  list of candidates in order.  What comes out can be said without a walk,
  from the inductions of the body as a collection:

      M  — one induction for every expression that moves a variable
      U  — those of M whose variable no other one of M moves, by name

  and the answer depends on U and on the test alone.  U does not depend on the
  order of M (`ranked_perm`), so the statements of a body may change places.

  §1  the inductions that stand alone;
  §2  the answer;
  §3  loops that were read.
-/
import Mathlib.Data.List.Sort
import RuleBody.Proofs.Orderly

namespace RuleBody

namespace Loop

/-! ## §1. The inductions that stand alone. -/

/-- The inductions whose variable no other one of them moves. -/
def alone (is : List Induction) : List Induction :=
  is.filter fun i => is.countP (·.name == i.name) == 1

/-- The inductions that stand alone, by the name of the variable. -/
def ranked (is : List Induction) : List Induction :=
  (alone is).insertionSort fun i j => i.name ≤ j.name

section

variable {is js : List Induction} {i j : Induction}

theorem mem_alone : i ∈ alone is ↔ i ∈ is ∧ is.countP (·.name == i.name) = 1 := by
  unfold alone
  rw [List.mem_filter, beq_iff_eq]

theorem mem_ranked : i ∈ ranked is ↔ i ∈ is ∧ is.countP (·.name == i.name) = 1 := by
  unfold ranked
  rw [List.mem_insertionSort, mem_alone]

/-- A variable that stands alone has one induction. -/
theorem eq_of_mem_alone (hi : i ∈ alone is) (hj : j ∈ is) (hname : j.name = i.name) : j = i := by
  obtain ⟨hmem, hone⟩ := mem_alone.1 hi
  rw [List.countP_eq_length_filter] at hone
  obtain ⟨k, hk⟩ := List.length_eq_one_iff.1 hone
  have hmoves : ∀ x ∈ is, x.name = i.name → x = k := fun x hx hxname =>
    List.mem_singleton.1 (hk ▸ List.mem_filter.2 ⟨hx, beq_iff_eq.2 hxname⟩)
  rw [hmoves j hj hname, hmoves i hmem rfl]

theorem nodup_alone (is : List Induction) : (alone is).Nodup := by
  refine List.nodup_iff_count_le_one.2 fun i => ?_
  by_cases hi : i ∈ alone is
  · calc (alone is).count i ≤ is.count i := List.filter_sublist.count_le i
      _ ≤ is.countP (·.name == i.name) := List.countP_mono_left fun x _ hx => by
          rw [beq_iff_eq.1 hx]
          exact beq_self_eq_true _
      _ = 1 := (mem_alone.1 hi).2
  · rw [List.count_eq_zero_of_not_mem hi]
    exact Nat.zero_le 1

theorem nodup_ranked (is : List Induction) : (ranked is).Nodup :=
  (List.perm_insertionSort _ _).nodup_iff.2 (nodup_alone is)

theorem pairwise_ranked (is : List Induction) :
    (ranked is).Pairwise fun i j => i.name < j.name := by
  have htotal : Std.Total fun i j : Induction => i.name ≤ j.name :=
    ⟨fun i j => le_total i.name j.name⟩
  have htrans : IsTrans Induction fun i j => i.name ≤ j.name :=
    ⟨fun i j k => le_trans⟩
  have hle : (ranked is).Pairwise fun i j => i.name ≤ j.name := List.pairwise_insertionSort _ _
  -- Two of them with one name would be the same.
  refine (hle.and (nodup_ranked is)).imp_of_mem fun {i j} hi hj h => ?_
  refine lt_of_le_of_ne h.1 fun hname => h.2 ?_
  exact eq_of_mem_alone (mem_alone.2 (mem_ranked.1 hj)) (mem_ranked.1 hi).1 hname

/-- **A list that is in order by name and has the inductions that stand alone
as its members is their list.** -/
theorem eq_ranked (hmem : ∀ i, i ∈ js ↔ i ∈ is ∧ is.countP (·.name == i.name) = 1)
    (hordered : js.Pairwise fun i j => i.name < j.name) : js = ranked is := by
  have hnodup : js.Nodup := hordered.imp fun h heq => ne_of_lt h (congrArg Induction.name heq)
  have hperm : js.Perm (ranked is) := (List.perm_ext_iff_of_nodup hnodup (nodup_ranked is)).2
    fun i => (hmem i).trans mem_ranked.symm
  exact hperm.eq_of_pairwise (fun i j _ _ hij hji => absurd hji (lt_asymm hij)) hordered
    (pairwise_ranked is)

theorem ranked_perm (h : is.Perm js) : ranked is = ranked js := by
  refine eq_ranked (fun i => ?_) (pairwise_ranked is)
  rw [mem_ranked, h.mem_iff, h.countP_eq]

end

/-- **The candidates that are moved once are the inductions that stand
alone.** -/
theorem single_candidates (body : Stmt) :
    single (candidates body) = ranked (moved body.inner) := by
  have htally := candidates_tally body
  refine eq_ranked (fun i => ⟨count_of_mem_single, fun ⟨hi, hone⟩ => ?_⟩) ?_
  · obtain ⟨c, hc, hname⟩ := htally.covers i hi
    -- The candidate of the variable was made from the only induction there is.
    have hci : c.induction = i :=
      eq_of_mem_alone (mem_alone.2 ⟨hi, hone⟩) (htally.mem c hc) hname
    have hcount : c.count = 1 := by rw [htally.count c hc, hname, hone]
    exact List.mem_map.2 ⟨c, List.mem_filter.2 ⟨hc, beq_iff_eq.2 hcount⟩, hci⟩
  · have hordered := List.pairwise_map.1 htally.ordered
    exact List.pairwise_map.2 (hordered.filter _)

/-! ## §2. The answer. -/

/-- The test names the variable of this induction and of no other one. -/
def OnlyNamed (test : Expr) (us : List Induction) (u : Induction) : Prop :=
  u ∈ us ∧ test.containsLeaf u.name = true
    ∧ ∀ v ∈ us, test.containsLeaf v.name = true → v = u

/-- What the inductions that stand alone say about the loop: none, the only
one, the one that the test names, or that the loop is ambiguous. -/
inductive Picks (test : Expr) (us : List Induction) : Except Error (Option Induction) → Prop where
  | none : us = [] → Picks test us (.ok none)
  | one {u : Induction} : us = [u] → Picks test us (.ok (some u))
  | named {u : Induction} : 2 ≤ us.length → OnlyNamed test us u → Picks test us (.ok (some u))
  | ambiguous : 2 ≤ us.length → (∀ u, ¬ OnlyNamed test us u) →
      Picks test us (.error (.ambiguous (us.map (·.name))))

theorem onlyNamed_iff {test : Expr} {us : List Induction} (hnodup : us.Nodup) {u : Induction} :
    OnlyNamed test us u ↔ (us.filter fun i => test.containsLeaf i.name) = [u] := by
  constructor
  · intro ⟨hu, hnamed, honly⟩
    refine List.perm_singleton.1 ?_
    refine (List.perm_ext_iff_of_nodup (hnodup.filter _) (List.nodup_singleton u)).2 fun v => ?_
    rw [List.mem_filter, List.mem_singleton]
    exact ⟨fun hv => honly v hv.1 hv.2, fun hv => hv ▸ ⟨hu, hnamed⟩⟩
  · intro hfilter
    have hmem : ∀ v, v ∈ us ∧ test.containsLeaf v.name = true ↔ v = u := by
      intro v
      have hv : v ∈ us.filter (fun i => test.containsLeaf i.name) ↔ v = u := by
        rw [hfilter, List.mem_singleton]
      exact List.mem_filter.symm.trans hv
    obtain ⟨hu, hnamed⟩ := (hmem u).2 rfl
    exact ⟨hu, hnamed, fun v hv hvnamed => (hmem v).1 ⟨hv, hvnamed⟩⟩

theorem picks_judgeBody (test : Expr) (body : Stmt) :
    Picks test (ranked (moved body.inner)) (judgeBody test body) := by
  have honly := @onlyNamed_iff test _ (nodup_ranked (moved body.inner))
  unfold judgeBody
  rw [single_candidates]
  generalize ranked (moved body.inner) = us at honly
  match us with
  | [] => exact .none rfl
  | [u] => exact .one rfl
  | u :: v :: us =>
      have htwo : 2 ≤ (u :: v :: us).length := by simp
      dsimp only
      generalize hkept : (u :: v :: us).filter (fun i => test.containsLeaf i.name) = kept at honly
      match kept with
      | [w] => exact .named htwo (honly.2 rfl)
      | [] => exact .ambiguous htwo fun w hw => nomatch honly.1 hw
      | _ :: _ :: _ => exact .ambiguous htwo fun w hw => nomatch honly.1 hw

end Loop

/-! ## §3. Loops that were read. -/

theorem Stmt.innerOf_eq_flatMap (ss : List Stmt) : innerOf ss = ss.flatMap inner := by
  induction ss with
  | nil => rfl
  | cons s ss ih => rw [innerOf, List.flatMap_cons, ih]

theorem Expr.nodesOf_eq_flatMap (es : List Expr) : nodesOf es = es.flatMap nodes := by
  induction es with
  | nil => rfl
  | cons e es ih => rw [nodesOf, List.flatMap_cons, ih]

/-- Statements that change places move what they moved. -/
theorem Loop.moved_perm {es : List Expr} {ss ss' : List Stmt} (h : ss'.Perm ss) :
    (moved (es ++ Stmt.innerOf ss')).Perm (moved (es ++ Stmt.innerOf ss)) := by
  unfold moved
  rw [Expr.nodesOf_eq_flatMap, Expr.nodesOf_eq_flatMap, Stmt.innerOf_eq_flatMap,
    Stmt.innerOf_eq_flatMap]
  exact (((h.flatMap_right Stmt.inner).append_left es).flatMap_right Expr.nodes).filterMap _

namespace Loop

/-- What the body of a loop without a remembered variable answers. -/
theorem ofBody_eq_judgeBody {l : Loop} (hl : l.Legible) (hnone : l.induction = none) {test : Expr}
    (htest : l.clause .test = .ok test) (level : Option Level) :
    (ofBody l level).2.2 = (judgeBody test l.body).mapError .error := by
  have hp : l.stripped.Legible := hl.renote _
  have hfinds := ofBody_finds hp (show l.stripped.clause .test = .ok test from htest)
  rw [show l.stripped.body = l.body.renote _ from rfl, judgeBody_renote] at hfinds
  obtain ⟨l', hanswer, _⟩ := hfinds l rfl (coherent_of_none hnone)
  obtain ⟨events, hanswer⟩ := hanswer level
  rw [hanswer]

/-- The statements of a body may change places. -/
theorem ofBody_perm {es : List Expr} {ss ss' : List Stmt} {b tags tags' : Tags}
    {clauses : List Expr} (hl : Legible ⟨clauses, .block es ss b tags, none, tags'⟩)
    (hperm : ss'.Perm ss) (level : Option Level) :
    (ofBody ⟨clauses, .block es ss' b tags, none, tags'⟩ level).2.2
      = (ofBody ⟨clauses, .block es ss b tags, none, tags'⟩ level).2.2 := by
  -- The other loop can be written too, so its scan ends as well.
  have hl' : Legible ⟨clauses, .block es ss' b tags, none, tags'⟩ := by
    cases hl with
    | loop hd ht hi hbody =>
        cases hbody with
        | block hss => exact .loop hd ht hi (.block fun s hs => hss s (hperm.mem_iff.1 hs))
  obtain ⟨test, htest, _⟩ := hl.clause .test
  rw [ofBody_eq_judgeBody hl rfl htest, ofBody_eq_judgeBody hl' rfl htest]
  unfold judgeBody
  rw [single_candidates, single_candidates]
  simp only [Stmt.inner, ranked_perm (moved_perm hperm)]

end Loop

/-- **The scan of a body answers from the inductions of the body alone.**  Of
a loop of a rule body that was read, take the inductions of all expressions
below the body, through all statements, clauses, arguments and subscripts, and
of these the ones whose variable no other one moves, by name.  The scan finds
nothing if there are none, the only one if there is one, else the one that the
test names, and if the test does not name exactly one, the error that lists
their names in order.  The statements of a body in brackets may change
places. -/
theorem body_scan_answers_by_census {src : String} {origin : Location} {b : Block}
    (hparse : Block.parse src origin = .ok b) {l : Loop} (hl : l ∈ b.loops)
    (level : Option Level) :
    (∃ test answer, l.clause .test = .ok test
        ∧ Loop.Picks test (Loop.ranked (Loop.moved l.body.inner)) answer
        ∧ (Loop.ofBody l level).2.2 = answer.mapError .error)
      ∧ ∀ es ss own tags ss', l.body = .block es ss own tags → ss'.Perm ss →
          (Loop.ofBody (l.setBody (.block es ss' own tags)) level).2.2
            = (Loop.ofBody l level).2.2 := by
  obtain ⟨_, hpristine, _⟩ := Block.parse_spec hparse
  obtain ⟨s, hs, hl⟩ := Stmt.mem_loopsOf.1 hl
  have hloop := (hpristine s hs).of_mem_loops l hl
  have hlegible : l.Legible := hloop.legible
  obtain ⟨clauses, body, induction, loopTags⟩ := l
  obtain rfl : induction = none := by cases hloop; rfl
  obtain ⟨test, htest, _⟩ := hlegible.clause .test
  refine ⟨⟨test, _, htest, Loop.picks_judgeBody test body, ?_⟩, ?_⟩
  · exact Loop.ofBody_eq_judgeBody hlegible rfl htest level
  · rintro es ss own tags ss' rfl hperm
    exact Loop.ofBody_perm hlegible hperm level

/-- Three variables at different depths, one of them moved twice: the test
names one of the other two, and the body may be turned around. -/
theorem body_scan_answers_by_census_nested :
    let i : Induction := ⟨"i", .increasing, "i ++", "1"⟩
    let j : Induction := ⟨"j", .increasing, "j += 2", "2"⟩
    let first : Stmt := .ofExpr (.chain [.ident "i", .op "++"])
    let second : Stmt := .cond [.ident "c"] (.block [] [.ofExpr (.chain [.ident "j", .op "+=",
      .lit "2"]), .ofExpr (.chain [.ident "k", .op "--"])] {} {}) none {}
    let third : Stmt := .ofExpr (.chain [.ident "k", .op "++"])
    let l : Loop := ⟨[.nil, .chain [.ident "j", .op "<", .ident "n"], .nil],
      .block [] [first, second, third] {} {}, none, {}⟩
    Block.parse "while(j < n) \x7b i++; if(c) \x7b j += 2; k--; \x7d k++; \x7d" {}
        = .ok ⟨[l.toStmt], {}⟩
      ∧ Loop.ranked (Loop.moved l.body.inner) = [i, j]
      ∧ (Loop.ofBody l none).2.2 = .ok (some j)
      ∧ (Loop.ofBody (l.setBody (.block [] [third, second, first] {} {})) none).2.2
        = .ok (some j) := by
  intro i j first second third l
  have hparse : Block.parse "while(j < n) \x7b i++; if(c) \x7b j += 2; k--; \x7d k++; \x7d" {}
      = .ok ⟨[l.toStmt], {}⟩ := by decide +kernel
  have hranked : Loop.ranked (Loop.moved l.body.inner) = [i, j] := by decide +kernel
  obtain ⟨⟨test, answer, htest, hpicks, hanswer⟩, hperm⟩ :=
    body_scan_answers_by_census hparse (l := l) List.mem_cons_self none
  obtain rfl : .chain [.ident "j", .op "<", .ident "n"] = test := Except.ok.inj htest
  have hj : Loop.OnlyNamed (.chain [.ident "j", .op "<", .ident "n"]) [i, j] j :=
    ⟨by simp, by decide, by decide⟩
  have hfound : (Loop.ofBody l none).2.2 = .ok (some j) := by
    rw [hanswer]
    rw [hranked] at hpicks
    cases hpicks with
    | none h => cases h
    | one h => cases h
    | named _ honly => rw [honly.2.2 j hj.1 hj.2.1]; rfl
    | ambiguous _ hno => exact absurd hj (hno j)
  refine ⟨hparse, hranked, hfound, ?_⟩
  rw [hperm [] [first, second, third] {} {} [third, second, first] rfl
    (List.reverse_perm [first, second, third]), hfound]

end RuleBody
