/-
  RuleBody.Proofs.Judgement
  ─────────────────────────
  **WHAT THE PASS DECIDES ABOUT A LOOP.**

  Whether a loop is unrolled comes out of a chain of questions that log and
  remember, and some of them are asked twice.  For a legible loop the answer
  is a plain function of its clauses and its body:

      the test     — is it a comparison of two sides, without boolean parts
      the variable — what the increment moves, else what the body moves once
      the bound    — the side that the variable is not
      the factor   — at least two

  `driver_eq_judge` says so for the variable, and `planned_eq_decided` for
  the plan.  Only the second and the last question can fail: the bound, which
  is derived anew, exists wherever the loop suits (`limit_finds_bound`).

  §1  how often a body moves a variable;
  §2  the variable;
  §3  the plan.
-/
import Mathlib.Data.String.Basic
import RuleBody.Proofs.Rewritten

namespace RuleBody

open Run (Yields yields_pure yields_say yields_log_print yields_ofExcept)

/-! ## §1. How often a body moves a variable. -/

section

variable {α : Type} {name : α → String} {meet : α → α} {x : α}

/-- In an ordered list an entry is put between the smaller and the greater
ones, where it meets the entry of its name if there is one. -/
theorem insertByName_eq {ys : List α} (h : (ys.map name).Pairwise (· < ·)) :
    ∃ front z behind, insertByName name meet x ys = front ++ z :: behind
      ∧ (∀ y ∈ front, name y < name x) ∧ (∀ y ∈ behind, name x < name y)
      ∧ (ys = front ++ behind ∧ z = x
        ∨ ∃ y, ys = front ++ y :: behind ∧ name y = name x ∧ z = meet y) := by
  induction ys with
  | nil => exact ⟨[], x, [], rfl, by simp, by simp, .inl ⟨rfl, rfl⟩⟩
  | cons y ys ih =>
      obtain ⟨hy, hys⟩ := List.pairwise_cons.1 h
      have hbehind : ∀ n, n ≤ name y → ∀ z ∈ ys, n < name z := fun n hn z hz =>
        lt_of_le_of_lt hn (hy (name z) (List.mem_map_of_mem hz))
      unfold insertByName
      by_cases hlt : name x < name y
      · refine ⟨[], x, y :: ys, if_pos hlt, by simp, ?_, .inl ⟨rfl, rfl⟩⟩
        exact List.forall_mem_cons.2 ⟨hlt, hbehind _ (le_of_lt hlt)⟩
      rw [if_neg hlt]
      by_cases heq : name x = name y
      · exact ⟨[], meet y, ys, if_pos heq, by simp, hbehind _ (le_of_eq heq),
          .inr ⟨y, rfl, heq.symm, rfl⟩⟩
      rw [if_neg heq]
      have hgt : name y < name x := lt_of_le_of_ne (not_lt.1 hlt) (Ne.symm heq)
      obtain ⟨front, z, behind, hinsert, hfront, hbehind', hz⟩ := ih hys
      refine ⟨y :: front, z, behind, by rw [hinsert]; rfl, List.forall_mem_cons.2 ⟨hgt, hfront⟩,
        hbehind', ?_⟩
      rcases hz with ⟨rfl, hz⟩ | ⟨w, rfl, hw⟩
      · exact .inl ⟨rfl, hz⟩
      · exact .inr ⟨w, rfl, hw⟩

end

namespace Expr

mutual

/-- An expression and all that is inside it, in the order of a walk. -/
def nodes : Expr → List Expr
  | ⟨kind, text, parts, tags⟩ => ⟨kind, text, parts, tags⟩ :: nodesOf parts

/-- Some expressions and all that is inside them. -/
def nodesOf : List Expr → List Expr
  | [] => []
  | e :: es => nodes e ++ nodesOf es

end

/-- The induction of an expression that moves a variable. -/
def induction? (e : Expr) : Option Induction :=
  match e.verdict with
  | some (.drives i) => some i
  | _ => none

theorem nodesOf_append (es fs : List Expr) : nodesOf (es ++ fs) = nodesOf es ++ nodesOf fs := by
  induction es with
  | nil => rfl
  | cons e es ih => rw [List.cons_append, nodesOf, nodesOf, ih, List.append_assoc]

end Expr

namespace Loop

/-- The inductions of some expressions and of all that is inside them. -/
def moved (es : List Expr) : List Induction := (Expr.nodesOf es).filterMap Expr.induction?

theorem moved_append (es fs : List Expr) : moved (es ++ fs) = moved es ++ moved fs := by
  unfold moved
  rw [Expr.nodesOf_append, List.filterMap_append]

theorem tour_openExpr (found : List Candidate) (e : Expr) :
    tour.openExpr found e = e.induction?.elim found (record · found) := by
  show (match e.verdict with
    | some (.drives i) => record i found
    | _ => found) = _
  unfold Expr.induction?
  match e.verdict with
  | none => rfl
  | some .scales => rfl
  | some (.drives i) => rfl

mutual

theorem tour_expr (found : List Candidate) :
    ∀ e : Expr, tour.expr (tour.openExpr found e) e = e.nodes.foldl tour.openExpr found
  | ⟨kind, text, parts, tags⟩ => by
      rw [Tour.expr, tour_exprs, Expr.nodes, List.foldl_cons]

theorem tour_exprs (found : List Candidate) :
    ∀ es : List Expr, tour.exprs found es = (Expr.nodesOf es).foldl tour.openExpr found
  | [] => rfl
  | e :: es => by
      rw [Tour.exprs, show tour.closeExpr _ e = tour.expr (tour.openExpr found e) e from rfl,
        tour_exprs, tour_expr, Expr.nodesOf, List.foldl_append]

end

/-- The candidates are counted from the inductions of the body. -/
theorem candidates_eq (body : Stmt) :
    candidates body = (moved body.inner).foldl (fun found i => record i found) [] := by
  unfold candidates moved
  rw [tour_exprs, List.foldl_filterMap]
  congr 1
  funext found e
  rw [tour_openExpr]
  cases e.induction? <;> rfl

/-- The candidates tell, for every variable that was moved, by how many
inductions. -/
structure Tally (seen : List Induction) (found : List Candidate) : Prop where
  ordered : (found.map (·.induction.name)).Pairwise (· < ·)
  count : ∀ c ∈ found, c.count = seen.countP (·.name == c.induction.name)
  mem : ∀ c ∈ found, c.induction ∈ seen
  covers : ∀ i ∈ seen, ∃ c ∈ found, c.induction.name = i.name

/-- **One more induction is counted.** -/
theorem Tally.step {seen : List Induction} {found : List Candidate} (h : Tally seen found)
    (i : Induction) : Tally (seen ++ [i]) (record i found) := by
  obtain ⟨front, z, behind, hinsert, hfront, hbehind, hz⟩ := insertByName_eq h.ordered
  have hrecord : record i found = front ++ z :: behind := hinsert
  -- What stands before and behind the new entry was there already.
  have hold : ∀ c, c ∈ front ∨ c ∈ behind → c ∈ found := by
    intro c hc
    rcases hz with ⟨rfl, _⟩ | ⟨y, rfl, _⟩
    · exact List.mem_append.2 hc
    · exact List.mem_append.2 (hc.imp_right (List.mem_cons_of_mem y))
  have hname : z.induction.name = i.name ∧ z.induction ∈ seen ++ [i]
      ∧ z.count = seen.countP (·.name == i.name) + 1 := by
    rcases hz with ⟨hfound, rfl⟩ | ⟨y, hfound, hy, rfl⟩
    · -- A variable without a candidate has not been moved yet.
      refine ⟨rfl, by simp, ?_⟩
      have hnone : seen.countP (·.name == i.name) = 0 := by
        rw [List.countP_eq_zero]
        intro j hj hji
        obtain ⟨c, hc, hcj⟩ := h.covers j hj
        have hci : c.induction.name = i.name := hcj.trans (beq_iff_eq.1 hji)
        rw [hfound] at hc
        rcases List.mem_append.1 hc with hc | hc
        · exact absurd hci (ne_of_lt (hfront c hc))
        · exact absurd hci.symm (ne_of_lt (hbehind c hc))
      rw [hnone]
    · have hmem : y ∈ found := by simp [hfound]
      have hcount := h.count y hmem
      rw [show y.induction.name = i.name from hy] at hcount
      exact ⟨hy, List.mem_append_left _ (h.mem y hmem), congrArg (· + 1) hcount⟩
  obtain ⟨hzname, hzmem, hzcount⟩ := hname
  have hother : ∀ c ∈ found, c.induction.name ≠ i.name →
      c.count = (seen ++ [i]).countP (·.name == c.induction.name) := by
    intro c hc hne
    rw [List.countP_append, h.count c hc]
    simp [hne.symm]
  rw [hrecord]
  refine ⟨?_, ?_, ?_, ?_⟩
  · have hsublists : (front.map (·.induction.name)).Pairwise (· < ·)
        ∧ (behind.map (·.induction.name)).Pairwise (· < ·) := by
      have hordered := h.ordered
      rcases hz with ⟨rfl, _⟩ | ⟨y, rfl, _⟩
      · rw [List.map_append, List.pairwise_append] at hordered
        exact ⟨hordered.1, hordered.2.1⟩
      · rw [List.map_append, List.map_cons, List.pairwise_append, List.pairwise_cons] at hordered
        exact ⟨hordered.1, hordered.2.1.2⟩
    rw [List.map_append, List.map_cons, List.pairwise_append, List.pairwise_cons]
    simp only [List.forall_mem_cons, List.forall_mem_map, hzname]
    refine ⟨hsublists.1, ⟨hbehind, hsublists.2⟩, fun c hc => ⟨hfront c hc, fun c' hc' => ?_⟩⟩
    exact lt_trans (hfront c hc) (hbehind c' hc')
  · intro c hc
    rcases List.mem_append.1 hc with hc | hc
    · exact hother c (hold c (.inl hc)) (ne_of_lt (hfront c hc))
    · rcases List.mem_cons.1 hc with rfl | hc
      · rw [hzcount, hzname, List.countP_append]
        simp
      · exact hother c (hold c (.inr hc)) (ne_of_gt (hbehind c hc))
  · intro c hc
    rcases List.mem_append.1 hc with hc | hc
    · exact List.mem_append_left _ (h.mem c (hold c (.inl hc)))
    · rcases List.mem_cons.1 hc with rfl | hc
      · exact hzmem
      · exact List.mem_append_left _ (h.mem c (hold c (.inr hc)))
  · intro j hj
    rw [← hrecord]
    have hnames : j.name ∈ (record i found).map fun c => c.induction.name := by
      refine (mem_names_insertByName (fun c : Candidate => c.induction.name)
        (fun c => { c with count := c.count + 1 }) ⟨1, i⟩ (fun _ _ => rfl) j.name found).2 ?_
      rcases List.mem_append.1 hj with hj | hj
      · obtain ⟨c, hc, hcj⟩ := h.covers j hj
        exact .inr (List.mem_map.2 ⟨c, hc, hcj⟩)
      · exact .inl (by rw [List.mem_singleton.1 hj])
    exact List.mem_map.1 hnames

theorem tally_foldl {seen : List Induction} {found : List Candidate} (h : Tally seen found)
    (is : List Induction) :
    Tally (seen ++ is) (is.foldl (fun found i => record i found) found) := by
  induction is generalizing seen found with
  | nil => rwa [List.append_nil]
  | cons i is ih =>
      rw [List.foldl_cons, ← List.singleton_append, ← List.append_assoc]
      exact ih (h.step i)

/-- **The candidates count the inductions of the body.** -/
theorem candidates_tally (body : Stmt) : Tally (moved body.inner) (candidates body) := by
  rw [candidates_eq]
  have hnone : Tally [] [] := ⟨.nil, by simp, by simp, by simp⟩
  exact tally_foldl hnone _

/-- A variable that is moved once is moved by one induction of the body. -/
theorem count_of_mem_single {body : Stmt} {i : Induction} (h : i ∈ single (candidates body)) :
    i ∈ moved body.inner ∧ (moved body.inner).countP (·.name == i.name) = 1 := by
  obtain ⟨c, hc, rfl⟩ := List.mem_map.1 h
  obtain ⟨hmem, hcount⟩ := List.mem_filter.1 hc
  have htally := candidates_tally body
  exact ⟨htally.mem c hmem, (htally.count c hmem).symm.trans (beq_iff_eq.1 hcount)⟩

end Loop

/-! ## §2. The variable. -/

namespace Induction

/-- Which of two variables of an increment drives the loop. -/
def chosen (test : Expr) : Option Induction → Option Induction → Option Induction
  | some l, some r =>
      if test.containsLeaf l.name && !test.containsLeaf r.name then some l else some r
  | some l, none => some l
  | none, r => r

theorem choose_yields (test : Expr) (l r : Option Induction) :
    (choose test l r).Yields (chosen test l r) := by
  match l, r with
  | none, r => exact yields_pure r
  | some l, none => exact yields_pure (some l)
  | some l, some r =>
      simp only [choose, chosen]
      split
      · exact yields_pure _
      · split
        · exact yields_pure _
        · exact (yields_say _ _).bind (yields_pure _)

/-- The variable that a segment of an increment moves. -/
def judgeSegment (e : Expr) : Except Error (Option Induction) :=
  match e.verdict with
  | some (.drives i) => .ok (some i)
  | some .scales => .ok none
  | none => .error (.unsupported .loopIncrement (e.print.toOption.getD ""))

theorem ofSegment_yields {e : Expr} (he : e.Legible) : (ofSegment e).Yields (judgeSegment e) := by
  obtain ⟨text, htext⟩ := he.prints
  refine he.verdict_yields.bind ?_
  unfold judgeSegment
  match e.verdict with
  | none =>
      rw [htext]
      exact (yields_ofExcept rfl).bind (yields_pure _)
  | some (.drives i) => exact yields_pure _
  | some .scales => exact yields_pure _

/-- The variable that some segments move. -/
def judgeSegments (test : Expr) : List Expr → Except Error (Option Induction)
  | [] => .ok none
  | [e] => judgeSegment e
  | e :: e' :: es => do return chosen test (← judgeSegment e) (← judgeSegments test (e' :: es))

theorem ofSegments_yields {test : Expr} {es : List Expr} (hes : ∀ e ∈ es, e.Legible) :
    (ofSegments test es).Yields (judgeSegments test es) := by
  induction es with
  | nil => exact yields_pure _
  | cons e es ih =>
      obtain ⟨he, hrest⟩ := List.forall_mem_cons.1 hes
      cases es with
      | nil => exact ofSegment_yields he
      | cons e' es =>
          refine (ofSegment_yields he).bind ?_
          rw [judgeSegments]
          cases judgeSegment e with
          | error err => exact yields_pure _
          | ok l =>
              refine (ih hrest).bind ?_
              cases judgeSegments test (e' :: es) with
              | error err => exact yields_pure _
              | ok r => exact (choose_yields test l r).bind (yields_pure _)

/-- What drives a loop comes from one of the segments. -/
theorem mem_of_judgeSegments {test : Expr} {es : List Expr} {i : Induction}
    (h : judgeSegments test es = .ok (some i)) : ∃ e ∈ es, e.induction? = some i := by
  have hsegment : ∀ {e : Expr} {i : Induction}, judgeSegment e = .ok (some i) →
      e.induction? = some i := by
    intro e i h
    unfold judgeSegment at h
    unfold Expr.induction?
    match hverdict : e.verdict with
    | none =>
        rw [hverdict] at h
        cases h
    | some .scales =>
        rw [hverdict] at h
        cases h
    | some (.drives j) =>
        rw [hverdict] at h
        exact Except.ok.inj h
  induction es generalizing i with
  | nil => cases h
  | cons e es ih =>
      cases es with
      | nil => exact ⟨e, List.mem_cons_self, hsegment h⟩
      | cons e' es =>
          rw [judgeSegments] at h
          cases hl : judgeSegment e with
          | error err =>
              rw [hl] at h
              cases h
          | ok l =>
              rw [hl] at h
              cases hr : judgeSegments test (e' :: es) with
              | error err =>
                  rw [hr] at h
                  cases h
              | ok r =>
                  rw [hr] at h
                  have hchosen : chosen test l r = some i := Except.ok.inj h
                  have hone : l = some i ∨ r = some i := by
                    unfold chosen at hchosen
                    split at hchosen
                    · split at hchosen
                      · exact .inl hchosen
                      · exact .inr hchosen
                    · exact .inl hchosen
                    · exact .inr hchosen
                  rcases hone with rfl | rfl
                  · exact ⟨e, List.mem_cons_self, hsegment hl⟩
                  · obtain ⟨e'', he'', hi⟩ := ih hr
                    exact ⟨e'', List.mem_cons_of_mem e he'', hi⟩

end Induction

namespace Loop

/-- The variable that a body moves; the test decides between several. -/
def judgeBody (test : Expr) (body : Stmt) : Except Error (Option Induction) :=
  match single (candidates body) with
  | [] => .ok none
  | [i] => .ok (some i)
  | found =>
      match found.filter fun i => test.containsLeaf i.name with
      | [i] => .ok (some i)
      | _ => .error (.ambiguous (found.map (·.name)))

/-- The variable that an increment moves. -/
def judgeIncrement (test increment : Expr) : Except Error (Option Induction) :=
  if increment.kind = .chain then Induction.judgeSegments test (Induction.segments increment)
  else .ok none

/-- What drives a loop with the test, the increment and the body. -/
def judge (test increment : Expr) (body : Stmt) : Except Error (Option Induction) := do
  match ← judgeIncrement test increment with
  | some i => return some i
  | none => judgeBody test body

theorem ofBody_finds {p : Loop} (hp : p.Legible) {test : Expr} (htest : p.clause .test = .ok test) :
    ofBody.Finds p (judgeBody test p.body) := by
  refine (scan_finds hp).bind ?_
  unfold judgeBody
  match single (candidates p.body) with
  | [] =>
      obtain ⟨text, htext⟩ := hp.body.prints
      refine Query.finds_loop ?_
      rintro l rfl hl
      have hprint : l.body.print = .ok text := by
        rwa [← Stmt.print_renote]
      exact (Query.finds_run (yields_log_print hprint _)).bind (Query.finds_pure none) l rfl hl
  | [i] => exact Query.finds_pure _
  | i :: j :: found =>
      refine (Query.finds_clause htest).bind ?_
      dsimp only
      generalize (i :: j :: found).filter _ = kept
      match kept with
      | [] => exact Query.finds_fail _
      | [k] => exact Query.finds_pure _
      | k :: k' :: _ => exact Query.finds_fail _

theorem ofIncrement_finds {p : Loop} (hp : p.Legible) {test increment : Expr}
    (htest : p.clause .test = .ok test) (hincrement : p.clause .increment = .ok increment) :
    ofIncrement.Finds p (judgeIncrement test increment) := by
  refine (Query.finds_clause hincrement).bind ?_
  unfold judgeIncrement
  split
  · refine (Query.finds_clause htest).bind ?_
    have hsegments := Induction.segments_legible (hp.of_clause hincrement)
    exact (Query.finds_run (Induction.ofSegments_yields hsegments)).bind (Query.finds_ofExcept _)
  · exact Query.finds_pure none

theorem judgeBody_renote (test : Expr) (f : Notes → Notes) (body : Stmt) :
    judgeBody test (body.renote f) = judgeBody test body := by
  unfold judgeBody candidates
  rw [Stmt.inner_renote]

/-- **What drives a loop is a function of its clauses and its body.** -/
theorem driver_eq_judge {l : Loop} (hl : l.Legible) {test increment : Expr}
    (htest : l.clause .test = .ok test) (hincrement : l.clause .increment = .ok increment) :
    l.stripped.driver = judge test increment l.body := by
  have hp : l.stripped.Legible := hl.renote _
  have hfound : ofBody.Finds l.stripped (judgeBody test l.body) := by
    rw [← judgeBody_renote test (fun _ => (none, {})) l.body]
    exact ofBody_finds hp htest
  have hmoves := ofIncrement_finds hp htest hincrement
  refine driver_of_finds (Loop.stripped_renote _ _) ?_
  -- Whatever is found is reported and is the answer.
  have hreport : ∀ i : Induction, Query.Finds (do
      Run.say .debug ("Induction variable " ++ i.display)
      return some i) l.stripped (.ok (some i)) := fun i =>
    (Query.finds_run (yields_say _ _)).bind (Query.finds_pure _)
  unfold judge
  cases hi : judgeIncrement test increment with
  | error e =>
      rw [hi] at hmoves
      exact hmoves.bind_error
  | ok moved =>
      rw [hi] at hmoves
      refine hmoves.bind ?_
      cases moved with
      | some i => exact (Query.finds_pure (some i)).bind (hreport i)
      | none =>
          show Query.Finds _ _ (judgeBody test l.body)
          cases hb : judgeBody test l.body with
          | error e =>
              rw [hb] at hfound
              exact hfound.bind_error
          | ok found =>
              rw [hb] at hfound
              refine hfound.bind ?_
              cases found with
              | none => exact Query.finds_pure _
              | some i => exact hreport i

/-- What drives a loop is moved by a segment of the increment or by one
expression of the body. -/
theorem mem_of_judge {test increment : Expr} {body : Stmt} {i : Induction}
    (h : judge test increment body = .ok (some i)) :
    (∃ e ∈ Induction.segments increment, e.induction? = some i)
      ∨ i ∈ single (candidates body) := by
  unfold judge at h
  match hincrement : judgeIncrement test increment with
  | .error e =>
      rw [hincrement] at h
      cases h
  | .ok (some j) =>
      rw [hincrement] at h
      obtain rfl : j = i := Option.some.inj (Except.ok.inj h)
      unfold judgeIncrement at hincrement
      split at hincrement
      · exact .inl (Induction.mem_of_judgeSegments hincrement)
      · cases hincrement
  | .ok none =>
      rw [hincrement] at h
      have hbody : judgeBody test body = .ok (some i) := h
      right
      unfold judgeBody at hbody
      match hsingle : single (candidates body) with
      | [] =>
          rw [hsingle] at hbody
          cases hbody
      | [j] =>
          rw [hsingle] at hbody
          obtain rfl : j = i := Option.some.inj (Except.ok.inj hbody)
          exact List.mem_singleton_self j
      | j :: k :: found =>
          rw [hsingle] at hbody
          dsimp only at hbody
          match hkept : (j :: k :: found).filter fun i => test.containsLeaf i.name with
          | [] =>
              rw [hkept] at hbody
              cases hbody
          | [m] =>
              rw [hkept] at hbody
              obtain rfl : m = i := Option.some.inj (Except.ok.inj hbody)
              have hmem : m ∈ (j :: k :: found).filter fun i => test.containsLeaf i.name := by
                rw [hkept]
                exact List.mem_singleton_self m
              exact (List.mem_filter.1 hmem).1
          | m :: m' :: _ =>
              rw [hkept] at hbody
              cases hbody

end Loop

/-! ## §3. The plan. -/

/-- The comparison at which a test is split: one of its own parts, in a test
without boolean and conditional operators. -/
def Expr.split? (test : Expr) : Option String :=
  if test.hasBoolOp || test.hasTernary then none else test.comparison?.filter test.hasDirect

/-- The side of a test that is not the variable, if the other one is. -/
def Expr.bound? (test : Expr) (op name : String) : Option String :=
  match (chain (test.partsBefore op)).print, (chain (test.partsBehind op)).print with
  | .ok left, .ok right =>
      if left = name then some right else if right = name then some left else none
  | _, _ => none

theorem Expr.split?_eq_some {test : Expr} {op : String} (h : test.split? = some op) :
    (test.hasBoolOp || test.hasTernary) = false ∧ test.comparison? = some op
      ∧ test.hasDirect op = true := by
  unfold split? at h
  split at h
  · cases h
  · rename_i hplain
    obtain ⟨hcomparison, hdirect⟩ := Option.filter_eq_some_iff.1 h
    exact ⟨Bool.not_eq_true _ ▸ hplain, hcomparison, hdirect⟩

namespace Unroll

open Loop (Stop Query judge)

/-- Whether a loop suits. -/
def suited (test increment : Expr) (body : Stmt) : Except Error Bool :=
  match test.split? with
  | none => .ok false
  | some op => do
      match ← judge test increment body with
      | none => return false
      | some i => return (test.bound? op i.name).isSome

/-- The bound of a loop that suits; empty if it does not. -/
def usable (test increment : Expr) (body : Stmt) : Except Error String :=
  match test.split? with
  | none => .ok ""
  | some op => do
      match ← judge test increment body with
      | none => return ""
      | some i => return (test.bound? op i.name).getD ""

/-- The plan for a loop with the test and the increment. -/
def decided (ask : Features → Except Error Int) (nesting : Nat) (l : Loop) (test increment : Expr) :
    Except Stop (Option Plan) := do
  let limit ← (usable test increment l.body).mapError .error
  if limit.isEmpty then return none
  else
    let factor ← (ask (features nesting l.bodySize
      (Node.stmt l.toStmt).operators)).mapError .error
    if factor < 2 then return none
    else return (← (judge test increment l.body).mapError .error).map fun i => ⟨factor, i, limit⟩

section

variable {l : Loop} (hl : l.Legible) {test increment : Expr} (htest : l.clause .test = .ok test)
  (hincrement : l.clause .increment = .ok increment)
include hl htest hincrement

theorem drive_finds_judge : Loop.drive.Finds l.stripped (judge test increment l.body) := by
  rw [← Loop.driver_eq_judge hl htest hincrement]
  exact Loop.drive_finds (hl.renote _) (l.stripped_renote _)

/-- A loop suits if one side of its test is the variable. -/
theorem suits_finds_judge {op : String} (hsplit : test.split? = some op) {i : Induction}
    (hjudge : judge test increment l.body = .ok (some i)) :
    suits.Finds l.stripped (.ok (test.bound? op i.name).isSome) := by
  obtain ⟨hplain, hcomparison, hdirect⟩ := Expr.split?_eq_some hsplit
  have hlegible : test.Legible := hl.of_clause htest
  obtain ⟨text, htext⟩ := hlegible.prints
  obtain ⟨hlhs, ⟨left, hleft⟩, hrhs, right, hright⟩ := Loop.sides_ok hlegible hcomparison hdirect
  have hleft' : (do (← test.lhs op).print : Except Fault String) = .ok left := by
    rw [hlhs]
    exact hleft
  have hright' : (do (← test.rhs op).print : Except Fault String) = .ok right := by
    rw [hrhs]
    exact hright
  have hdrive := drive_finds_judge hl htest hincrement
  rw [hjudge] at hdrive
  have htest' : l.stripped.clause .test = .ok test := htest
  refine (Query.finds_clause htest').bind ?_
  rw [if_neg (by simp [hplain])]
  have hfilter : test.comparison?.filter test.hasDirect = some op := by
    rw [hcomparison]
    exact if_pos hdirect
  rw [hfilter]
  refine hdrive.bind ((Query.finds_except hleft').bind ((Query.finds_except hright').bind ?_))
  have hbound : (test.bound? op i.name).isSome = (left == i.name || right == i.name) := by
    unfold Expr.bound?
    rw [hleft, hright]
    dsimp only
    split
    · rename_i h
      simp [h]
    · split
      · rename_i h
        simp [h]
      · rename_i h h'
        simp [h, h']
  rw [hbound]
  split
  · rename_i h
    rw [h]
    exact Query.finds_pure true
  · rename_i h
    rw [Bool.not_eq_true] at h
    rw [h]
    exact (Query.finds_run (yields_log_print htext _)).bind (Query.finds_pure false)

/-- **The bound of a loop that suits exists**: it is the other side. -/
theorem limit_finds_bound {op : String} (hsplit : test.split? = some op) {i : Induction}
    (hjudge : judge test increment l.body = .ok (some i)) {bound : String}
    (hbound : test.bound? op i.name = some bound) : Loop.limit.Finds l.stripped (.ok bound) := by
  obtain ⟨_, hcomparison, hdirect⟩ := Expr.split?_eq_some hsplit
  have hlegible : test.Legible := hl.of_clause htest
  obtain ⟨hlhs, ⟨left, hleft⟩, hrhs, right, hright⟩ := Loop.sides_ok hlegible hcomparison hdirect
  have hdrive := drive_finds_judge hl htest hincrement
  rw [hjudge] at hdrive
  have htest' : l.stripped.clause .test = .ok test := htest
  have hnil : test.isNil = false := by
    refine Bool.eq_false_iff.2 fun hnil => ?_
    obtain rfl := Parse.isNil_of_legible hlegible hnil
    cases hdirect
  have hok : Loop.bound test i.name = .ok (.ok bound) := by
    unfold Expr.bound? at hbound
    rw [hleft, hright] at hbound
    unfold Loop.bound
    rw [hcomparison]
    dsimp only at hbound ⊢
    rw [if_pos hdirect, hlhs, hrhs]
    dsimp only [bind, Except.bind]
    rw [hleft, hright]
    dsimp only
    split at hbound
    · rename_i h
      rw [if_pos (beq_iff_eq.2 h), ← Option.some.inj hbound]
      rfl
    · rename_i h
      rw [if_neg (by simpa using h)]
      split at hbound
      · rename_i h'
        rw [if_pos (beq_iff_eq.2 h'), ← Option.some.inj hbound]
        rfl
      · cases hbound
  refine hdrive.bind ((Query.finds_clause htest').bind ?_)
  rw [if_neg (by simp [hnil])]
  exact (Query.finds_except hok).bind (Query.finds_ofExcept _)

theorem suits_finds_suited : suits.Finds l.stripped (suited test increment l.body) := by
  obtain ⟨text, htext⟩ := (hl.of_clause htest).prints
  have htest' : l.stripped.clause .test = .ok test := htest
  have hdrive := drive_finds_judge hl htest hincrement
  unfold suited
  cases hsplit : test.split? with
  | none =>
      refine (Query.finds_clause htest').bind ?_
      unfold Expr.split? at hsplit
      split
      · exact (Query.finds_run (yields_log_print htext _)).bind (Query.finds_pure false)
      · rename_i hplain
        rw [if_neg hplain] at hsplit
        rw [hsplit]
        exact (Query.finds_run (yields_log_print htext _)).bind (Query.finds_pure false)
  | some op =>
      obtain ⟨hplain, hcomparison, hdirect⟩ := Expr.split?_eq_some hsplit
      have hfilter : test.comparison?.filter test.hasDirect = some op := by
        rw [hcomparison]
        exact if_pos hdirect
      match hjudge : judge test increment l.body with
      | .error e =>
          rw [hjudge] at hdrive
          refine (Query.finds_clause htest').bind ?_
          rw [if_neg (by simp [hplain]), hfilter]
          exact hdrive.bind_error
      | .ok none =>
          rw [hjudge] at hdrive
          refine (Query.finds_clause htest').bind ?_
          rw [if_neg (by simp [hplain]), hfilter]
          exact hdrive.bind ((Query.finds_run (yields_say _ _)).bind (Query.finds_pure false))
      | .ok (some i) => exact suits_finds_judge hl htest hincrement hsplit hjudge

theorem usableLimit_finds : usableLimit.Finds l.stripped (usable test increment l.body) := by
  have hsuits := suits_finds_suited hl htest hincrement
  have hrefuses : suits.Finds l.stripped (.ok false) → usableLimit.Finds l.stripped (.ok "") :=
    fun h => h.bind (Query.finds_pure "")
  unfold usable
  unfold suited at hsuits
  cases hsplit : test.split? with
  | none =>
      rw [hsplit] at hsuits
      exact hrefuses hsuits
  | some op =>
      rw [hsplit] at hsuits
      match hjudge : judge test increment l.body with
      | .error e =>
          rw [hjudge] at hsuits
          exact hsuits.bind_error
      | .ok none =>
          rw [hjudge] at hsuits
          exact hrefuses hsuits
      | .ok (some i) =>
          rw [hjudge] at hsuits
          replace hsuits : suits.Finds l.stripped (.ok (test.bound? op i.name).isSome) := hsuits
          show Query.Finds _ _ (.ok ((test.bound? op i.name).getD ""))
          cases hbound : test.bound? op i.name with
          | none =>
              rw [hbound] at hsuits
              exact hrefuses hsuits
          | some bound =>
              rw [hbound] at hsuits
              exact hsuits.bind (limit_finds_bound hl htest hincrement hsplit hjudge hbound)

/-- **The plan for a loop is a function of its clauses and its body.** -/
theorem planned_eq_decided (hnone : l.induction = none) (ask : Features → Except Error Int)
    (nesting : Nat) : planned ask nesting l = decided ask nesting l test increment := by
  unfold planned decided
  rw [(usableLimit_finds hl htest hincrement).quietly hnone,
    (drive_finds_judge hl htest hincrement).quietly hnone, told_eq]

end

/-- A loop that suits has a test with two sides, one of which is what drives
the loop. -/
theorem suited_eq_ok {test increment : Expr} {body : Stmt}
    (h : suited test increment body = .ok true) :
    ∃ op i limit, test.split? = some op ∧ judge test increment body = .ok (some i)
      ∧ test.bound? op i.name = some limit := by
  unfold suited at h
  split at h
  · cases h
  · rename_i op hsplit
    obtain ⟨found, hjudge, h⟩ := bind_eq_ok.1 h
    cases found with
    | none => cases h
    | some i =>
        obtain ⟨limit, hlimit⟩ := Option.isSome_iff_exists.1 (Except.ok.inj h)
        exact ⟨op, i, limit, hsplit, hjudge, hlimit⟩

theorem usable_of_bound {test increment : Expr} {body : Stmt} {op limit : String} {i : Induction}
    (hsplit : test.split? = some op) (hjudge : judge test increment body = .ok (some i))
    (hbound : test.bound? op i.name = some limit) : usable test increment body = .ok limit := by
  unfold usable
  rw [hsplit]
  dsimp only
  rw [hjudge]
  show Except.ok ((test.bound? op i.name).getD "") = _
  rw [hbound]
  rfl

/-- A loop that suits is unrolled, if its bound is not empty and the factor
is two or more. -/
theorem decided_of_bound {test increment : Expr} {l : Loop} {op limit : String} {i : Induction}
    (hsplit : test.split? = some op) (hjudge : judge test increment l.body = .ok (some i))
    (hbound : test.bound? op i.name = some limit) (hne : limit ≠ "")
    {ask : Features → Except Error Int} {nesting : Nat} {factor : Int}
    (hask : ask (features nesting l.bodySize (Node.stmt l.toStmt).operators) = .ok factor)
    (hfactor : 2 ≤ factor) :
    decided ask nesting l test increment = .ok (some ⟨factor, i, limit⟩) := by
  have hempty : ¬ limit.isEmpty = true := fun h => hne (String.isEmpty_iff.1 h)
  unfold decided
  rw [usable_of_bound hsplit hjudge hbound, hask, hjudge]
  show (if limit.isEmpty = true then _ else _ : Except Stop (Option Plan)) = _
  rw [if_neg hempty]
  show (if factor < 2 then _ else _ : Except Stop (Option Plan)) = _
  rw [if_neg (by omega)]
  rfl

/-- A bound that is not empty comes from a test with two sides, one of which
is what drives the loop. -/
theorem usable_eq_ok {test increment : Expr} {body : Stmt} {limit : String}
    (h : usable test increment body = .ok limit) (hne : limit ≠ "") :
    ∃ op i, test.split? = some op ∧ judge test increment body = .ok (some i)
      ∧ test.bound? op i.name = some limit := by
  unfold usable at h
  split at h
  · exact absurd (Except.ok.inj h).symm hne
  · rename_i op hsplit
    match hjudge : judge test increment body with
    | .error e =>
        rw [hjudge] at h
        cases h
    | .ok none =>
        rw [hjudge] at h
        exact absurd (Except.ok.inj h).symm hne
    | .ok (some i) =>
        rw [hjudge] at h
        have hbound : (test.bound? op i.name).getD "" = limit := Except.ok.inj h
        cases hside : test.bound? op i.name with
        | none =>
            rw [hside] at hbound
            exact absurd hbound.symm hne
        | some bound =>
            rw [hside] at hbound
            exact ⟨op, i, hsplit, rfl, hside.trans (congrArg some hbound)⟩

theorem usable_eq_error {test increment : Expr} {body : Stmt} {e : Error} :
    usable test increment body = .error e
      ↔ test.split?.isSome = true ∧ judge test increment body = .error e := by
  unfold usable
  cases test.split? with
  | none => simp
  | some op =>
      match judge test increment body with
      | .error e' => simp [bind, Except.bind]
      | .ok none => simp [bind, Except.bind, pure, Except.pure]
      | .ok (some i) => simp [bind, Except.bind, pure, Except.pure]

/-- **What holds of a loop that is unrolled.** -/
theorem decided_eq_some {ask : Features → Except Error Int} {nesting : Nat} {l : Loop}
    {test increment : Expr} {p : Plan} (h : decided ask nesting l test increment = .ok (some p)) :
    ∃ op, test.split? = some op ∧ judge test increment l.body = .ok (some p.induction)
      ∧ test.bound? op p.induction.name = some p.limit ∧ p.limit ≠ "" ∧ 2 ≤ p.factor := by
  obtain ⟨limit, husable, h⟩ := bind_eq_ok.1 h
  by_cases hempty : limit.isEmpty = true
  · rw [if_pos hempty] at h
    cases h
  rw [if_neg hempty] at h
  obtain ⟨factor, _, h⟩ := bind_eq_ok.1 h
  by_cases hsmall : factor < 2
  · rw [if_pos hsmall] at h
    cases h
  rw [if_neg hsmall] at h
  have hne : limit ≠ "" := fun hlimit => hempty (String.isEmpty_iff.2 hlimit)
  have husable' : usable test increment l.body = .ok limit := by
    cases hx : usable test increment l.body with
    | error e =>
        rw [hx] at husable
        cases husable
    | ok limit' =>
        rw [hx] at husable
        exact congrArg Except.ok (Except.ok.inj husable)
  obtain ⟨op, i, hsplit, hjudge, hbound⟩ := usable_eq_ok husable' hne
  rw [hjudge] at h
  obtain rfl : (⟨factor, i, limit⟩ : Plan) = p := Option.some.inj (Except.ok.inj h)
  exact ⟨op, hsplit, hjudge, hbound, hne, not_lt.1 hsmall⟩

/-- **Where the plan fails.**  If there is always an answer about the factor,
then only the analysis of a test with two sides fails. -/
theorem decided_eq_error {ask : Features → Except Error Int} {nesting : Nat} {l : Loop}
    {test increment : Expr} (hask : ∀ f, ∃ factor, ask f = .ok factor) {stop : Stop} :
    decided ask nesting l test increment = .error stop
      ↔ ∃ e, stop = .error e ∧ test.split?.isSome = true
        ∧ judge test increment l.body = .error e := by
  constructor
  · intro h
    cases husable : usable test increment l.body with
    | error e =>
        unfold decided at h
        rw [husable] at h
        exact ⟨e, (Except.error.inj h).symm, usable_eq_error.1 husable⟩
    | ok limit =>
        -- The analysis succeeded, so it succeeds once more.
        exfalso
        unfold decided at h
        obtain ⟨factor, hfactor⟩ := hask (features nesting l.bodySize
          (Node.stmt l.toStmt).operators)
        rw [husable, hfactor] at h
        change (if limit.isEmpty = true then _ else _ : Except Stop (Option Plan)) = _ at h
        by_cases hempty : limit.isEmpty = true
        · rw [if_pos hempty] at h
          cases h
        rw [if_neg hempty] at h
        obtain ⟨_, i, _, hjudge, _⟩ := usable_eq_ok husable fun hlimit =>
          hempty (String.isEmpty_iff.2 hlimit)
        rw [hjudge] at h
        change (if factor < 2 then _ else _ : Except Stop (Option Plan)) = _ at h
        split at h <;> cases h
  · rintro ⟨e, rfl, hfails⟩
    unfold decided
    rw [usable_eq_error.2 hfails]
    rfl

end Unroll

end RuleBody
