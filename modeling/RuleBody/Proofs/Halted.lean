/-
  RuleBody.Proofs.Halted
  ──────────────────────
  **WHAT A FAILED RUN LEAVES.**

  The pass that unrolls loops stops at the first loop that cannot be treated.
  What it leaves is told by the recursion of the pass: the statements before
  that loop are rewritten, so is the body of the loop, and the statements
  around and behind it stand as they stood (`Halts`).  What is left of the
  loop itself depends on where the error came from.

      an error of the analysis or of the heuristic  — the loop stays
      a text of the unrolled form cannot be read    — the loop is gone

  The kind of the error tells which of the two it was
  (`failed_run_leaves_the_rest`).

  §1  errors of reading;
  §2  the questions about a loop read nothing;
  §3  a halted tree;
  §4  the treatment of one loop;
  §5  the walk;
  §6  the pass.
-/
import RuleBody.Proofs.Looking
import RuleBody.Proofs.Rewritten

namespace RuleBody

open Run (Leads leads_pure yields_pure yields_say yields_ofExcept)

/-! ## §1. Errors of reading. -/

/-- The error of a text that cannot be read. -/
def Error.ofReading : Error → Bool
  | .scan .. | .parse .. | .stmtCount .. | .notExpr .. => true
  | _ => false

theorem bind_eq_error {ε α β : Type} {x : Except ε α} {f : α → Except ε β} {e : ε}
    (h : (x >>= f) = .error e) : x = .error e ∨ ∃ a, x = .ok a ∧ f a = .error e := by
  cases x with
  | error e' =>
      obtain rfl : e' = e := Except.error.inj h
      exact .inl rfl
  | ok a => exact .inr ⟨a, rfl, h⟩

theorem Block.ofReading_of_parse {src : String} {origin : Location} {e : Error}
    (h : Block.parse src origin = .error e) : e.ofReading = true := by
  unfold Block.parse at h
  split at h
  · cases h
    rfl
  · split at h
    · cases h
      rfl
    · cases h

theorem Stmt.ofReading_of_parse {src : String} {origin : Location} {e : Error}
    (h : Stmt.parse src origin = .error e) : e.ofReading = true := by
  unfold Stmt.parse at h
  rcases bind_eq_error h with hblock | ⟨b, _, hcount⟩
  · exact Block.ofReading_of_parse hblock
  · split at hcount
    · cases hcount
    · cases hcount
      rfl

theorem Expr.ofReading_of_parse {src : String} {origin : Location} {e : Error}
    (h : Expr.parse src origin = .error e) : e.ofReading = true := by
  unfold Expr.parse at h
  rcases bind_eq_error h with hstmt | ⟨x, _, hexpr⟩
  · exact Stmt.ofReading_of_parse hstmt
  · split at hexpr
    · cases hexpr
    · cases hexpr
    · cases hexpr
      rfl

/-- Where the unrolled form of a legible loop cannot be made, a text could
not be read. -/
theorem Unroll.ofReading_of_unrolled {l : Loop} (hl : l.Legible) {factor : Nat} {text : String}
    {e : Error} (h : unrolled l factor text = .ok (.error e)) : e.ofReading = true := by
  obtain ⟨clauses, body, induction, tags⟩ := l
  cases hl with
  | @loop d t i _ _ _ hd ht hi hbody =>
      rw [unrolled_eq] at h
      cases htest : Expr.parse text {} with
      | error e' =>
          rw [htest] at h
          obtain rfl : e' = e := Except.error.inj (Except.ok.inj h)
          exact Expr.ofReading_of_parse htest
      | ok test =>
          obtain ⟨written, hwritten⟩ := hi.prints
          rw [htest] at h
          by_cases hparts : i.parts.isEmpty = true
          · have hrepeated : repeated ⟨[d, t, i], body, induction, tags⟩ = .ok (.ok none) :=
              if_pos hparts
            rw [hrepeated] at h
            cases h
          · have hrepeated : repeated ⟨[d, t, i], body, induction, tags⟩
                = .ok ((Expr.parse written {}).map some) := by
              refine (if_neg hparts).trans ?_
              rw [hwritten]
              rfl
            rw [hrepeated] at h
            cases hincrement : Expr.parse written {} with
            | error e' =>
                rw [hincrement] at h
                obtain rfl : e' = e := Except.error.inj (Except.ok.inj h)
                exact Expr.ofReading_of_parse hincrement
            | ok increment =>
                rw [hincrement] at h
                cases h

/-! ## §2. The questions about a loop read nothing. -/

/-- An error of the analysis or of a heuristic. -/
def Error.Judges (e : Error) : Prop := e.ofReading = false

namespace Loop

namespace Query

variable {α β : Type} {P : α → Prop} {Q : β → Prop}

/-- Asked about a loop with a legible body, the question errs in its judgement
only; its answer has the property, and it leaves a legible body. -/
def Judges (q : Query α) (P : α → Prop) : Prop :=
  ∀ l t, l.body.Legible → (∀ e, (q l t).2.2 = .error (.error e) → e.Judges)
    ∧ ∀ a, (q l t).2.2 = .ok a → (q l t).2.1.body.Legible ∧ P a

theorem judges_pure {a : α} (h : P a) : (pure a : Query α).Judges P := by
  intro l t hl
  refine ⟨fun _ h => (nomatch h), fun b hb => ⟨hl, ?_⟩⟩
  obtain rfl : a = b := Except.ok.inj hb
  exact h

theorem judges_fail {e : Error} (h : e.Judges) : (fail e : Query α).Judges P := by
  intro l t _
  refine ⟨fun e' he' => ?_, fun _ h => nomatch h⟩
  cases he'
  exact h

theorem judges_ofExcept {x : Except Error α} (h : ∀ e, x = .error e → e.Judges) :
    (ofExcept x).Judges fun _ => True := by
  cases x with
  | ok a => exact judges_pure trivial
  | error e => exact judges_fail (h e rfl)

theorem judges_run {x : Run α} (h : x.Ensures P) : (liftM x : Query α).Judges P := by
  intro l t hl
  have hvalue := h t
  show (∀ e, (ofRun x l t).2.2 = .error (.error e) → _)
    ∧ ∀ a, (ofRun x l t).2.2 = .ok a → (ofRun x l t).2.1.body.Legible ∧ _
  unfold ofRun
  rcases hx : x t with ⟨events, f | a⟩
  · exact ⟨fun _ h => (nomatch h), fun _ h => nomatch h⟩
  · rw [hx] at hvalue
    refine ⟨fun _ h => (nomatch h), fun b hb => ⟨hl, ?_⟩⟩
    obtain rfl : a = b := Except.ok.inj hb
    exact hvalue a rfl

theorem Judges.bind {q : Query α} {f : α → Query β} (hq : q.Judges P)
    (hf : ∀ a, P a → (f a).Judges Q) : (q >>= f).Judges Q := by
  intro l t hl
  obtain ⟨herror, hanswer⟩ := hq l t hl
  rw [bind_apply]
  rcases hql : q l t with ⟨events, l', stop | a⟩
  · rw [hql] at herror
    refine ⟨fun e he => ?_, fun _ h => nomatch h⟩
    obtain rfl : stop = .error e := Except.error.inj he
    exact herror e rfl
  · rw [hql] at hanswer
    obtain ⟨hlegible, ha⟩ := hanswer a rfl
    exact hf a ha l' t hlegible

theorem judges_any (x : Run α) : (liftM x : Query α).Judges fun _ => True :=
  judges_run fun _ _ _ => trivial

theorem judges_loop : loop.Judges fun _ => True := fun _ _ hl =>
  ⟨fun _ h => (nomatch h), fun _ _ => ⟨hl, trivial⟩⟩

theorem judges_clause (c : Clause) : (clause c).Judges fun _ => True :=
  judges_loop.bind fun l _ => judges_any (liftM (l.clause c))

end Query

open Query (Judges judges_pure judges_fail judges_ofExcept judges_run judges_any judges_loop
  judges_clause)

end Loop

/-- What the segments of an increment err in is their judgement. -/
theorem Induction.ofSegments_judges (test : Expr) (es : List Expr) :
    Leads False (ofSegments test es) fun r => ∀ e, r = .error e → e.Judges := by
  have hsegment : ∀ e : Expr,
      Leads False (ofSegment e) fun r => ∀ e, r = .error e → e.Judges := by
    intro e
    refine (Run.leads_any e.verdict?).bind fun verdict _ => ?_
    match verdict with
    | some (.drives i) => exact leads_pure fun _ h => nomatch h
    | some .scales => exact leads_pure fun _ h => nomatch h
    | none =>
        refine (Run.leads_any (liftM e.print : Run String)).bind fun text _ => leads_pure ?_
        rintro _ ⟨⟩
        rfl
  induction es with
  | nil => exact leads_pure fun _ h => nomatch h
  | cons e es ih =>
      cases es with
      | nil => exact hsegment e
      | cons e' es =>
          refine (hsegment e).bind fun first hfirst => ?_
          cases first with
          | error err => exact leads_pure hfirst
          | ok l =>
              refine ih.bind fun rest hrest => ?_
              cases rest with
              | error err => exact leads_pure hrest
              | ok r =>
                  exact (Run.leads_any (choose test l r)).bind fun _ _ =>
                    leads_pure fun _ h => nomatch h

namespace Loop

open Query (Judges judges_pure judges_fail judges_ofExcept judges_run judges_any judges_loop
  judges_clause)

theorem scan_judges : scan.Judges fun _ => True := by
  intro l t hl
  obtain ⟨events, hscan⟩ := scan_eq hl t
  rw [hscan]
  exact ⟨fun _ h => (nomatch h), fun _ _ => ⟨hl.renote _, trivial⟩⟩

theorem ofBody_judges : ofBody.Judges fun _ => True := by
  refine scan_judges.bind fun found _ => ?_
  match single found with
  | [] =>
      refine judges_loop.bind fun l _ => ?_
      exact (judges_any _).bind fun _ _ => judges_pure trivial
  | [i] => exact judges_pure trivial
  | i :: j :: others =>
      refine (judges_clause .test).bind fun test _ => ?_
      split
      · exact judges_pure trivial
      · exact judges_fail rfl

theorem ofIncrement_judges : ofIncrement.Judges fun _ => True := by
  refine (judges_clause .increment).bind fun increment _ => ?_
  split
  · refine (judges_clause .test).bind fun test _ => ?_
    refine (judges_run (Induction.ofSegments_judges test _).ensures).bind fun r hr => ?_
    exact judges_ofExcept hr
  · exact judges_pure trivial

theorem analyse_judges : analyse.Judges fun _ => True := by
  refine ofIncrement_judges.bind ?_
  rintro (_ | i) _
  on_goal 1 => refine ofBody_judges.bind ?_
  on_goal 2 => refine (judges_pure (P := fun _ => True) trivial).bind ?_
  all_goals
    rintro (_ | i) _
    · exact judges_pure trivial
    · exact (judges_any _).bind fun _ _ => judges_pure trivial

theorem drive_judges : drive.Judges fun _ => True := by
  refine judges_loop.bind fun l _ => ?_
  cases l.induction with
  | some i => exact judges_pure trivial
  | none =>
      refine analyse_judges.bind fun found _ => ?_
      have hmodify : (Query.modify fun l => { l with induction := found }).Judges fun _ => True :=
        fun l t hl => ⟨fun _ h => (nomatch h), fun _ _ => ⟨hl, trivial⟩⟩
      exact hmodify.bind fun _ _ => judges_pure trivial

theorem bound_judges {test : Expr} {name : String} {e : Error}
    (h : bound test name = .ok (.error e)) : e.Judges := by
  unfold bound at h
  split at h
  · obtain ⟨text, _, hunsupported⟩ := bind_eq_ok.1 h
    cases hunsupported
    rfl
  · split at h
    · obtain ⟨left, _, h⟩ := bind_eq_ok.1 h
      obtain ⟨l, _, h⟩ := bind_eq_ok.1 h
      obtain ⟨right, _, h⟩ := bind_eq_ok.1 h
      obtain ⟨r, _, h⟩ := bind_eq_ok.1 h
      split at h
      · cases h
      · split at h
        · cases h
        · obtain ⟨text, _, hunsupported⟩ := bind_eq_ok.1 h
          cases hunsupported
          rfl
    · obtain ⟨text, _, hunsupported⟩ := bind_eq_ok.1 h
      cases hunsupported
      rfl

theorem limit_judges : limit.Judges fun _ => True := by
  refine drive_judges.bind fun found _ => ?_
  cases found with
  | none => exact judges_pure trivial
  | some i =>
      refine (judges_clause .test).bind fun test _ => ?_
      split
      · exact judges_pure trivial
      · have hbound : (liftM (bound test i.name) : Run (Except Error String)).Ensures
            fun r => ∀ e, r = .error e → e.Judges := by
          rintro t _ hr e rfl
          exact bound_judges hr
        exact (judges_run hbound).bind fun r hr => judges_ofExcept hr

end Loop

namespace Unroll

open Loop.Query (Judges judges_pure judges_any judges_clause)
open Loop (Stop)

theorem suits_judges : suits.Judges fun _ => True := by
  have hrefuse : ∀ message, Judges (do
      Run.log .warn message
      return false : Loop.Query Bool) fun _ => True :=
    fun message => (judges_any _).bind fun _ _ => judges_pure trivial
  refine (judges_clause .test).bind fun test _ => ?_
  split
  · exact hrefuse _
  · split
    · exact hrefuse _
    · refine Loop.drive_judges.bind fun found _ => ?_
      cases found with
      | none => exact hrefuse _
      | some i =>
          refine (judges_any _).bind fun left _ => (judges_any _).bind fun right _ => ?_
          split
          · exact judges_pure trivial
          · exact hrefuse _

theorem usableLimit_judges : usableLimit.Judges fun _ => True := by
  refine suits_judges.bind fun wanted _ => ?_
  split
  · exact Loop.limit_judges
  · exact judges_pure trivial

theorem factor_judges {m : Manager} {f : Features} {e : Error} (h : m.factor f = .error e) :
    e.Judges := by
  unfold Manager.factor Manager.ask Manager.get at h
  cases hlookup : m.lookup? unrollingNumber with
  | none =>
      rw [hlookup] at h
      cases h
      rfl
  | some heuristic =>
      rw [hlookup] at h
      cases h

/-- What the plan for a loop errs in is its judgement. -/
theorem planned_judges {m : Manager} {nesting : Nat} {l : Loop} (hl : l.body.Legible) {e : Error}
    (h : planned m.factor nesting l = .error (.error e)) : e.Judges := by
  unfold planned at h
  rcases bind_eq_error h with hlimit | ⟨limit, _, h⟩
  · exact (usableLimit_judges l none hl).1 e hlimit
  · split at h
    · cases h
    · rcases bind_eq_error h with hfactor | ⟨factor, _, h⟩
      · cases hanswer : m.factor (told nesting l) with
        | error e' =>
            rw [hanswer] at hfactor
            cases hfactor
            exact factor_judges hanswer
        | ok factor =>
            rw [hanswer] at hfactor
            cases hfactor
      · split at h
        · cases h
        · rcases bind_eq_error h with hdrive | ⟨found, _, h⟩
          · exact (Loop.drive_judges l none hl).1 e hdrive
          · cases h

/-! ## §3. A halted tree. -/

/-- What a run that halts leaves of a statement inside of some loops, given
what it leaves of the loop at which it halts.  Everything before that loop is
rewritten, the body of the loop too; the rest stands as it stood, up to what
loops remember.  Where nothing is left in a place for one statement, the empty
statement stands there. -/
inductive Halts (ask : Features → Except Error Int) (Left : Nat → Loop → Option Stmt → Prop) :
    Nat → Stmt → Option Stmt → Prop where
  | here {n k : Nat} {es : List Expr} {body body' : Stmt} {i : Option Induction} {tags : Tags}
      {y : Option Stmt} : rewrite ask (n + 1) body = .ok (body', k) →
      Left (n + 1) ⟨es, body', none, tags⟩ y → Halts ask Left n (.loop es body i tags) y
  | body {n : Nat} {es : List Expr} {body : Stmt} {i : Option Induction} {tags : Tags}
      {y : Option Stmt} : Halts ask Left (n + 1) body y →
      Halts ask Left n (.loop es body i tags) (some (.loop es (y.getD .empty) none tags))
  | block {n k : Nat} {es : List Expr} {before before' after : List Stmt} {x : Stmt}
      {b tags : Tags} {y : Option Stmt} : rewriteAll ask n before = .ok (before', k) →
      Halts ask Left n x y → Halts ask Left n (.block es (before ++ x :: after) b tags)
        (some (.block es (before' ++ (y.toList ++ after.map Stmt.forgotten)) b tags))
  | yes {n : Nat} {es : List Expr} {yes : Stmt} {no : Option Stmt} {tags : Tags}
      {y : Option Stmt} : Halts ask Left n yes y → Halts ask Left n (.cond es yes no tags)
        (some (.cond es (y.getD .empty) (no.map Stmt.forgotten) tags))
  | no {n k : Nat} {es : List Expr} {yes yes' no : Stmt} {tags : Tags} {y : Option Stmt} :
      rewrite ask n yes = .ok (yes', k) → Halts ask Left n no y →
      Halts ask Left n (.cond es yes (some no) tags)
        (some (.cond es yes' (some (y.getD .empty)) tags))
  | switch {n : Nat} {es : List Expr} {body : Stmt} {tags : Tags} {y : Option Stmt} :
      Halts ask Left n body y →
      Halts ask Left n (.switch es body tags) (some (.switch es (y.getD .empty) tags))

/-- What a run that halts leaves of some statements inside of some loops. -/
def HaltsIn (ask : Features → Except Error Int) (Left : Nat → Loop → Option Stmt → Prop) (n : Nat)
    (xs ys : List Stmt) : Prop :=
  ∃ before x after before' k y, xs = before ++ x :: after
    ∧ rewriteAll ask n before = .ok (before', k) ∧ Halts ask Left n x y
    ∧ ys = before' ++ (y.toList ++ after.map Stmt.forgotten)

/-- The error arose at this loop, which is still there. -/
def Kept (ask : Features → Except Error Int) (e : Error) (n : Nat) (l : Loop) (y : Option Stmt) :
    Prop := rewriteLoop ask n l = .error (.error e) ∧ y = some l.toStmt

/-- The error arose at this loop, of which nothing is left. -/
def Lost (ask : Features → Except Error Int) (e : Error) (n : Nat) (l : Loop) (y : Option Stmt) :
    Prop := rewriteLoop ask n l = .error (.error e) ∧ y = none

/-- What is left of the loop at which an error arose. -/
def LeftBy (ask : Features → Except Error Int) (e : Error) :
    Nat → Loop → Option Stmt → Prop :=
  if e.ofReading then Lost ask e else Kept ask e

/-! ## §4. The treatment of one loop. -/

theorem rewriteLoop_eq_error {ask : Features → Except Error Int} {n : Nat} {l : Loop} {stop : Stop}
    (htag : ¬ l.tags.has justUnrolled = true) (h : treated ask n l = .error stop) :
    rewriteLoop ask n l = .error stop := by
  unfold rewriteLoop
  rw [if_neg htag, h]
  rfl

/-- Where the treatment of a loop fails, the loop stays unless a text could
not be read. -/
theorem treatLoop_leaves {l : Loop} (hl : l.Legible) (hnone : l.induction = none)
    (htag : ¬ l.tags.has justUnrolled = true) (s : State) :
    ∃ r, (treatLoop s l).Yields r ∧ ∀ e, r.failure = some e →
      LeftBy s.manager.factor e s.nesting l.forgotten (r.value.map Stmt.forgotten) := by
  have hp : l.forgotten.Legible := hl.renote _
  obtain ⟨⟨l', m', answer⟩, hplan, hl', _, hanswer⟩ :=
    plan_yields hl hnone s.manager s.stack.length s.nesting
  dsimp only at hl' hanswer
  have hplanned : planned s.manager.factor s.nesting l.forgotten
      = planned s.manager.factor s.nesting l :=
    planned_congr hl hnone rfl (l.stripped_renote _) _ _
  rw [← hplanned] at hanswer
  have hlegible : l'.toStmt.Legible := by
    refine .of_renote (fun notes => (none, notes.2)) ?_
    show l'.forgotten.toStmt.Legible
    rw [hl']
    exact hp
  -- The loop leaves its slot between the planning and the reading.
  unfold treatLoop
  cases answer with
  | error e =>
      refine ⟨⟨{ s with manager := m' }, some l'.toStmt, some e⟩, hplan.bind (yields_pure _), ?_⟩
      rintro _ ⟨⟩
      have htreated : treated s.manager.factor s.nesting l.forgotten = .error (.error e) := by
        unfold treated
        rw [← hanswer]
        rfl
      have hjudges : e.ofReading = false := planned_judges hp.body hanswer.symm
      unfold LeftBy
      rw [hjudges]
      refine ⟨rewriteLoop_eq_error htag htreated, ?_⟩
      rw [← hl']
      rfl
  | ok answer =>
      cases answer with
      | none =>
          exact ⟨⟨{ s with manager := m' }, some l'.toStmt, none⟩, hplan.bind (yields_pure _),
            fun _ h => nomatch h⟩
      | some plan =>
          obtain ⟨r, hr, hforgotten, _⟩ := unrolled_ok hlegible plan.factor.toNat
            (testText plan.factor plan.induction plan.limit)
          rw [hl'] at hforgotten
          cases r with
          | ok stmt =>
              exact ⟨⟨{ s with manager := m', unrolled := s.unrolled + 1 }, some stmt, none⟩,
                hplan.bind ((yields_say _ _).bind ((yields_ofExcept hr).bind (yields_pure _))),
                fun _ h => nomatch h⟩
          | error e =>
              -- There is a plan, but the new loop cannot be read: the slot is empty by now.
              refine ⟨⟨{ s with manager := m' }, none, some e⟩, hplan.bind ((yields_say _ _).bind
                ((yields_ofExcept hr).bind (yields_pure _))), ?_⟩
              rintro _ ⟨⟩
              have htreated : treated s.manager.factor s.nesting l.forgotten
                  = .error (.error e) := by
                unfold treated
                rw [← hanswer]
                simp only [Except.mapError, bind, Except.bind, hforgotten, Except.map]
              have hreading : e.ofReading = true := ofReading_of_unrolled hlegible hr
              unfold LeftBy
              rw [hreading]
              exact ⟨rewriteLoop_eq_error htag htreated, rfl⟩

theorem treat_loop_leaves {l : Loop} (hl : l.Legible) (hnone : l.induction = none) (s : State) :
    ∃ r, (treat s (some l.toStmt)).Yields r ∧ ∀ e, r.failure = some e →
      LeftBy s.manager.factor e s.nesting l.forgotten (r.value.map Stmt.forgotten) := by
  have htreat : treat s (some l.toStmt) = if l.tags.has justUnrolled then _ else treatLoop s l :=
    rfl
  rw [htreat]
  by_cases htag : l.tags.has justUnrolled = true
  · rw [if_pos htag]
    have hremove : l.tags.remove justUnrolled = .ok (l.tags.erase justUnrolled) := if_pos htag
    exact ⟨_, (yields_say _ _).bind ((yields_ofExcept hremove).bind (yields_pure _)),
      fun _ h => nomatch h⟩
  · rw [if_neg htag]
    exact treatLoop_leaves hl hnone htag s

/-! ## §5. The walk. -/

end Unroll

/-- Where one branch of a conditional fails, the alternative is not
visited. -/
theorem Tour.stmt_cond_failed {σ : Type} (T : Tour σ) {s state : σ} {es : List Expr}
    {yes yes' : Stmt} {e : Error} (h : T.slot (T.exprs s es) yes = ⟨state, yes', some e⟩)
    (no : Stmt) (tags : Tags) : T.stmt s (.cond es yes (some no) tags)
      = ⟨state, .cond es yes' (some no) tags, some e⟩ := by
  unfold Tour.slot Tour.visit at h
  rw [Tour.stmt]
  simp only [h]

/-- Where it does not fail, the alternative is visited next. -/
theorem Tour.stmt_cond_passed {σ : Type} (T : Tour σ) {s state : σ} {es : List Expr}
    {yes yes' : Stmt} (h : T.slot (T.exprs s es) yes = ⟨state, yes', none⟩) (no : Stmt)
    (tags : Tags) : T.stmt s (.cond es yes (some no) tags)
      = (T.slot state no).map fun no => .cond es yes' (some no) tags := by
  unfold Tour.slot Tour.visit at h
  rw [Tour.stmt]
  simp only [h]
  rfl

namespace Unroll

open Loop (Stop)

/-- What did not fail was done to the end. -/
theorem Matches.completed {α β : Type} {same : α → β → Prop} {s : State} {r : Step State α}
    {x : Except Stop (β × Nat)} (h : Matches same s r x) (hnone : r.failure = none) :
    ∃ y k, x = .ok (y, k) ∧ same r.value y ∧ r.state.stack = s.stack
      ∧ r.state.manager.factor = s.manager.factor := by
  cases x with
  | error stop => exact absurd hnone h
  | ok y =>
      obtain ⟨_, hvalue, hstack, hfactor, _⟩ := h
      exact ⟨y.1, y.2, rfl, hvalue, hstack, hfactor⟩

/-- A statement that is no loop fails in its inside only. -/
theorem visit_halts_of_stmt {x : Stmt} {s : State} {e : Error}
    {ask : Features → Except Error Int} {Left : Nat → Loop → Option Stmt → Prop} {n : Nat}
    (hloop : (tour.stmt (tour.openStmt s x) x).value.loop? = none)
    (hinside : (tour.stmt (tour.openStmt s x) x).failure = some e →
      Halts ask Left n x (some (tour.stmt (tour.openStmt s x) x).value.forgotten))
    (hfail : (tour.visit s x).failure = some e) :
    Halts ask Left n x ((tour.visit s x).value.map Stmt.forgotten) := by
  unfold Tour.visit Tour.close at hfail ⊢
  generalize tour.stmt (tour.openStmt s x) x = r at hloop hinside hfail ⊢
  cases hr : r.failure with
  | some e' =>
      rw [hr] at hfail
      exact hinside (hr.trans hfail)
  | none =>
      rw [hr] at hfail
      dsimp only at hfail
      rw [closeStmt_eq (treat_yields_of_loop?_eq_none hloop r.state)] at hfail
      cases hfail

theorem forgotten_getD (slot : Option Stmt) :
    (slot.getD .empty).forgotten = (slot.map Stmt.forgotten).getD .empty := by
  cases slot <;> rfl

/-- The visit of a statement fails as a halted run does. -/
def HaltsAt (x : Stmt) : Prop :=
  ∀ s e, (tour.visit s x).failure = some e → Halts s.manager.factor (LeftBy s.manager.factor e)
    s.nesting x ((tour.visit s x).value.map Stmt.forgotten)

theorem stmts_halt {xs : List Stmt} (hxs : ∀ x ∈ xs, x.Legible) (h : ∀ x ∈ xs, HaltsAt x)
    (s : State) {e : Error} (hfail : (tour.stmts s xs).failure = some e) :
    HaltsIn s.manager.factor (LeftBy s.manager.factor e) s.nesting xs
      ((tour.stmts s xs).value.map Stmt.forgotten) := by
  induction xs generalizing s with
  | nil => cases hfail
  | cons x xs ih =>
      obtain ⟨hx, hxs⟩ := List.forall_mem_cons.1 hxs
      obtain ⟨hhalt, hhalts⟩ := List.forall_mem_cons.1 h
      rw [tour.stmts_eq_visitAll, visitAll] at hfail ⊢
      cases hvisit : (tour.visit s x).failure with
      | some e' =>
          rw [hvisit] at hfail
          obtain rfl : e' = e := Option.some.inj hfail
          -- The run halts here, and what follows is not visited.
          refine ⟨[], x, xs, [], 0, _, rfl, rfl, hhalt s e' hvisit, ?_⟩
          cases (tour.visit s x).value <;> rfl
      | none =>
          rw [hvisit] at hfail
          -- This statement is rewritten, and the run halts further back.
          obtain ⟨y, k, hrewrite, hfills, hstack, hfactor⟩ := (visit_matches hx s).completed hvisit
          obtain ⟨v, hv, rfl⟩ := Option.map_eq_some_iff.1 hfills
          have hrest := ih hxs hhalts (tour.visit s x).state (by
            rw [tour.stmts_eq_visitAll]
            exact hfail)
          rw [nesting_of_stack hstack, hfactor, tour.stmts_eq_visitAll] at hrest
          obtain ⟨before, x', after, before', k', y', rfl, hbefore, hhalted, hvalue⟩ := hrest
          refine ⟨x :: before, x', after, v.forgotten :: before', k + k', y', rfl, ?_, hhalted, ?_⟩
          · rw [rewriteAll, hrewrite, hbefore]
            rfl
          · dsimp only [Step.map]
            rw [hv, List.map_append, hvalue]
            rfl

theorem slot_halts {x : Stmt} (hx : HaltsAt x) {s : State} {e : Error}
    (h : (tour.slot s x).failure = some e) :
    ∃ y, Halts s.manager.factor (LeftBy s.manager.factor e) s.nesting x y
      ∧ (tour.slot s x).value.forgotten = y.getD .empty :=
  ⟨_, hx s e h, forgotten_getD _⟩

/-- A loop halts in its body, or behind it. -/
theorem loop_halts {d t i : Expr} {body : Stmt} {induction : Option Induction} {tags : Tags}
    (hd : d.Legible) (ht : t.Legible) (hi : i.Legible) (hbody : body.Legible)
    (h : HaltsAt body) : HaltsAt (.loop [d, t, i] body induction tags) := by
  intro s e hfail
  have hnesting : (tour.openStmt s (.loop [d, t, i] body induction tags)).nesting
      = s.nesting + 1 := nesting_openStmt_loop s ⟨[d, t, i], body, induction, tags⟩
  have hvisit : tour.visit s (.loop [d, t, i] body induction tags)
      = tour.close ((tour.slot (tour.openStmt s (.loop [d, t, i] body induction tags)) body).map
          (.loop [d, t, i] · none tags)) := by
    unfold Tour.visit
    rw [Tour.stmt, exprs_tour]
    rfl
  have hslot :
      (tour.slot (tour.openStmt s (.loop [d, t, i] body induction tags)) body).value.Legible :=
    visitor_follows.slot_legible_of (visitor_follows.stmt_legible hbody) _
  have hinside := fill_matches
    (visit_matches hbody (tour.openStmt s (.loop [d, t, i] body induction tags)))
  have hhalts := fun e => slot_halts (e := e) h
    (s := tour.openStmt s (.loop [d, t, i] body induction tags))
  change Matches SameStmt _ (tour.slot _ body) _ at hinside
  rw [hnesting] at hinside hhalts
  rw [hvisit] at hfail ⊢
  generalize tour.slot (tour.openStmt s (.loop [d, t, i] body induction tags)) body = r
    at hslot hinside hhalts hfail ⊢
  unfold Tour.close at hfail ⊢
  -- If the body halts, the loop is not treated.
  cases hr : r.failure with
  | some e' =>
      rw [show (r.map (Stmt.loop [d, t, i] · none tags)).failure = some e' from hr] at hfail ⊢
      obtain rfl : e' = e := Option.some.inj hfail
      obtain ⟨y, hy, hvalue⟩ := hhalts e' hr
      show Halts _ _ _ _ (some (Stmt.loop [d, t, i] r.value.forgotten none tags))
      rw [hvalue]
      exact .body hy
  | none =>
      obtain ⟨y, k, hrewrite, rfl, hstack, hfactor⟩ := hinside.completed hr
      rw [show (r.map (Stmt.loop [d, t, i] · none tags)).failure = none from hr] at hfail ⊢
      have hlegible : (⟨[d, t, i], r.value, none, tags⟩ : Loop).Legible := .loop hd ht hi hslot
      obtain ⟨q, hq, hleft⟩ := treat_loop_leaves hlegible rfl r.state
      dsimp only [Step.map] at hfail ⊢
      rw [show tour.closeStmt r.state (.loop [d, t, i] r.value none tags) = _ from closeStmt_eq hq]
        at hfail ⊢
      have hleft := hleft e hfail
      rw [(nesting_of_stack hstack).trans hnesting, hfactor] at hleft
      exact .here hrewrite hleft

/-- **The walk of a legible statement fails as a halted run does.** -/
theorem visit_halts {x : Stmt} (hx : x.Legible) : HaltsAt x := by
  induction hx with
  | empty | basic | raw =>
      intro s e
      refine visit_halts_of_stmt rfl ?_
      rw [Tour.stmt, exprs_tour]
      intro h
      cases h
  | @block ss b tags hss ih =>
      intro s e
      have hopened := nesting_openStmt (s := s) (x := .block [] ss b tags) (by simp [Stmt.kind])
      refine visit_halts_of_stmt rfl ?_
      rw [Tour.stmt, exprs_tour]
      intro hfail
      have hinside := stmts_halt hss ih _ hfail
      rw [hopened] at hinside
      obtain ⟨before, x, after, before', k, y, rfl, hbefore, hhalted, hvalue⟩ := hinside
      show Halts _ _ _ _ (some (.block [] (Stmt.renoteAll _ _) b tags))
      rw [Stmt.renoteAll_eq_map]
      show Halts _ _ _ _ (some (.block [] (List.map Stmt.forgotten _) b tags))
      rw [hvalue]
      exact .block hbefore hhalted
  | loop hd ht hi hbody ih => exact loop_halts hd ht hi hbody ih
  | @switch c body tags hc hbody ih =>
      intro s e
      have hopened := nesting_openStmt (s := s) (x := .switch [c] body tags) (by simp [Stmt.kind])
      refine visit_halts_of_stmt rfl ?_
      rw [Tour.stmt, exprs_tour]
      intro hfail
      obtain ⟨y, hy, hvalue⟩ := slot_halts ih hfail
      rw [hopened] at hy
      show Halts _ _ _ _ (some (.switch [c] (tour.slot _ body).value.forgotten tags))
      rw [hvalue]
      exact .switch hy
  | @cond c yes no tags hc hyes hno ihyes ihno =>
      intro s e
      have hopened := nesting_openStmt (s := s) (x := .cond [c] yes no tags) (by simp [Stmt.kind])
      cases no with
      | none =>
          refine visit_halts_of_stmt rfl ?_
          rw [Tour.stmt, exprs_tour]
          intro hfail
          obtain ⟨y, hy, hvalue⟩ := slot_halts ihyes hfail
          rw [hopened] at hy
          show Halts _ _ _ _ (some (.cond [c] (tour.slot _ yes).value.forgotten none tags))
          rw [hvalue]
          exact .yes hy
      | some no =>
          have hfirst := fill_matches
            (visit_matches hyes (tour.openStmt s (.cond [c] yes (some no) tags)))
          have hhalts := fun e => slot_halts (e := e) ihyes
            (s := tour.openStmt s (.cond [c] yes (some no) tags))
          change Matches SameStmt _ (tour.slot _ yes) _ at hfirst
          rw [hopened] at hfirst hhalts
          refine visit_halts_of_stmt ?_ ?_
          · rw [Tour.stmt]
            split <;> rfl
          · rcases hslot : tour.slot (tour.openStmt s (.cond [c] yes (some no) tags)) yes with
              ⟨state, yes', _ | e'⟩
            -- The alternative halts, so the first branch is rewritten.
            · rw [tour.stmt_cond_passed (by rwa [exprs_tour])]
              rw [hslot] at hfirst
              obtain ⟨y, k, hrewrite, rfl, hstack, hfactor⟩ := hfirst.completed rfl
              intro hfail
              obtain ⟨z, hz, hvalue⟩ := slot_halts (ihno no rfl) hfail
              rw [show state.nesting = s.nesting from (nesting_of_stack hstack).trans hopened,
                show state.manager.factor = s.manager.factor from hfactor] at hz
              show Halts _ _ _ _ (some (.cond [c] yes'.forgotten
                (some (tour.slot state no).value.forgotten) tags))
              rw [hvalue]
              exact .no hrewrite hz
            -- The first branch halts, so the alternative is as it was.
            · rw [tour.stmt_cond_failed (by rwa [exprs_tour])]
              intro hfail
              obtain rfl : e' = e := Option.some.inj hfail
              rw [hslot] at hhalts
              obtain ⟨z, hz, hvalue⟩ := hhalts e' rfl
              show Halts _ _ _ _ (some (.cond [c] yes'.forgotten (some no.forgotten) tags))
              rw [show yes'.forgotten = _ from hvalue]
              exact .yes hz

/-! ## §6. The pass. -/

/-- What a run that halts leaves of a rule body. -/
def HaltsBlock (ask : Features → Except Error Int) (Left : Nat → Loop → Option Stmt → Prop)
    (b b' : Block) : Prop :=
  b'.tags = b.tags ∧ HaltsIn ask Left 0 b.stmts b'.stmts

section

variable {ask : Features → Except Error Int} {n : Nat} {stop : Stop}

theorem rewriteAll_eq_error {before before' : List Stmt} {k : Nat}
    (hbefore : rewriteAll ask n before = .ok (before', k)) {x : Stmt}
    (hx : rewrite ask n x = .error stop) (after : List Stmt) :
    rewriteAll ask n (before ++ x :: after) = .error stop := by
  induction before generalizing before' k with
  | nil =>
      rw [List.nil_append, rewriteAll, hx]
      rfl
  | cons y before ih =>
      obtain ⟨⟨y', j⟩, hy, hbefore⟩ := bind_eq_ok.1 hbefore
      obtain ⟨⟨ys, j'⟩, hys, _⟩ := bind_eq_ok.1 hbefore
      rw [List.cons_append, rewriteAll, hy, ih hys]
      rfl

/-- Where a run halts, the recursion stops. -/
theorem Halts.rewrite_eq_error {Left : Nat → Loop → Option Stmt → Prop}
    (hleft : ∀ n l y, Left n l y → rewriteLoop ask n l = .error stop) {x : Stmt} {y : Option Stmt}
    (h : Halts ask Left n x y) : rewrite ask n x = .error stop := by
  induction h with
  | @here n k es body body' i tags y hbody hloop =>
      show (rewrite ask (n + 1) body >>= fun z => rewriteLoop ask (n + 1) ⟨es, z.1, none, tags⟩
        >>= fun z' => pure (z'.1, z.2 + z'.2)) = _
      rw [hbody]
      show (rewriteLoop ask (n + 1) ⟨es, body', none, tags⟩ >>= _) = _
      rw [hleft _ _ _ hloop]
      rfl
  | body _ ih =>
      rw [rewrite, ih]
      rfl
  | block hbefore _ ih =>
      rw [rewrite, rewriteAll_eq_error hbefore ih]
      rfl
  | @yes n es yes no tags y _ ih =>
      cases no <;>
      · rw [rewrite, ih]
        rfl
  | no hyes _ ih =>
      rw [rewrite, hyes, ih]
      rfl
  | switch _ ih =>
      rw [rewrite, ih]
      rfl

/-- A run that halts in a loop whose body is rewritten halts at the loop. -/
theorem Halts.at_loop {Left : Nat → Loop → Option Stmt → Prop}
    (hleft : ∀ n l y, Left n l y → rewriteLoop ask n l = .error stop) {es : List Expr}
    {body body' : Stmt} {i : Option Induction} {tags : Tags} {y : Option Stmt} {k : Nat}
    (h : Halts ask Left n (.loop es body i tags) y)
    (hbody : rewrite ask (n + 1) body = .ok (body', k)) :
    Left (n + 1) ⟨es, body', none, tags⟩ y := by
  cases h with
  | here hbody₁ hloop =>
      obtain ⟨rfl, _⟩ := Prod.mk.inj (Except.ok.inj (hbody₁.symm.trans hbody))
      exact hloop
  | body h => cases (h.rewrite_eq_error hleft).symm.trans hbody

/-- A run halts at the first statement at which the recursion stops. -/
theorem HaltsIn.at_stop {Left : Nat → Loop → Option Stmt → Prop}
    (hleft : ∀ n l y, Left n l y → rewriteLoop ask n l = .error stop)
    {before before' after ys : List Stmt} {x : Stmt} {k : Nat}
    (h : HaltsIn ask Left n (before ++ x :: after) ys)
    (hbefore : rewriteAll ask n before = .ok (before', k)) (hx : rewrite ask n x = .error stop) :
    ∃ y, Halts ask Left n x y ∧ ys = before' ++ (y.toList ++ after.map Stmt.forgotten) := by
  obtain ⟨before₁, x₁, after₁, before₁', k₁, y, hsplit, hbefore₁, hhalts, hys⟩ := h
  have hx₁ : rewrite ask n x₁ = .error stop := hhalts.rewrite_eq_error hleft
  rcases List.append_eq_append_iff.1 hsplit with ⟨more, hmore, hrest⟩ | ⟨more, hmore, hrest⟩
  · cases more with
    | nil =>
        obtain ⟨rfl, rfl⟩ := List.cons.inj hrest
        rw [hmore, List.append_nil] at hbefore₁
        obtain ⟨rfl, _⟩ := Prod.mk.inj (Except.ok.inj (hbefore₁.symm.trans hbefore))
        exact ⟨y, hhalts, hys⟩
    | cons x' more =>
        obtain ⟨rfl, _⟩ := List.cons.inj hrest
        rw [hmore, rewriteAll_eq_error hbefore hx more] at hbefore₁
        cases hbefore₁
  · cases more with
    | nil =>
        obtain ⟨rfl, rfl⟩ := List.cons.inj hrest
        rw [hmore, List.append_nil, hbefore₁] at hbefore
        obtain ⟨rfl, _⟩ := Prod.mk.inj (Except.ok.inj hbefore)
        exact ⟨y, hhalts, hys⟩
    | cons x' more =>
        obtain ⟨rfl, _⟩ := List.cons.inj hrest
        rw [hmore, rewriteAll_eq_error hbefore₁ hx₁ more] at hbefore
        cases hbefore

end

end Unroll

open Unroll (HaltsBlock Kept Lost LeftBy)

/-- What a failed run leaves of a legible rule body. -/
theorem runUnroll_halts {b : Block} (hb : b.Legible) {m : Manager} {t : Option Level}
    {out : Outcome} {e : Error} (hrun : (Pass.runUnroll b m t).2 = .ok out)
    (herror : out.effect = .error e) :
    HaltsBlock m.factor (LeftBy m.factor e) b out.block.forgotten := by
  rw [runUnroll_yields hb m t] at hrun
  obtain rfl := Except.ok.inj hrun
  have hhalt := Unroll.stmts_halt hb (fun x hx => Unroll.visit_halts (hb x hx)) { manager := m }
    (e := e)
  generalize Unroll.tour.stmts { manager := m } b.stmts = r at herror hhalt ⊢
  obtain ⟨state, stmts, failure⟩ := r
  cases failure with
  | none => cases herror
  | some e' =>
      obtain rfl : e' = e := Except.error.inj herror
      refine ⟨rfl, ?_⟩
      rw [Block.forgotten_eq]
      exact hhalt rfl

/-- **The pass fails where the recursion stops**, with the same error. -/
theorem runUnroll_effect_eq_error {b : Block} (hb : b.Legible) {m : Manager} {t : Option Level}
    {out : Outcome} (hrun : (Pass.runUnroll b m t).2 = .ok out) {e : Error} :
    out.effect = .error e ↔ Unroll.rewriteAll m.factor 0 b.stmts = .error (.error e) := by
  have hstops : ∀ {e : Error}, out.effect = .error e →
      Unroll.rewriteAll m.factor 0 b.stmts = .error (.error e) := by
    intro e heffect
    obtain ⟨_, before, x, after, before', k, y, hstmts, hbefore, hhalts, _⟩ :=
      runUnroll_halts hb hrun heffect
    rw [hstmts]
    refine Unroll.rewriteAll_eq_error hbefore (hhalts.rewrite_eq_error fun n l y hleft => ?_) after
    unfold Unroll.LeftBy at hleft
    split at hleft
    · exact hleft.1
    · exact hleft.1
  refine ⟨hstops, fun hrewrite => ?_⟩
  obtain ⟨out', hout', _, hmatches⟩ := runUnroll_of_rewriteAll hb m
  obtain rfl : out' = out := Except.ok.inj ((hout' t).symm.trans hrun)
  rw [hrewrite] at hmatches
  obtain ⟨e', he'⟩ := hmatches
  have hsame := (hstops he').symm.trans hrewrite
  rw [he', Loop.Stop.error.inj (Except.error.inj hsame)]

/-- Where the recursion stops with an error, every run fails with it. -/
theorem exists_runUnroll_eq_error {b : Block} (hb : b.Legible) {m : Manager} {e : Error}
    (h : Unroll.rewriteAll m.factor 0 b.stmts = .error (.error e)) (t : Option Level) :
    ∃ out, (Pass.runUnroll b m t).2 = .ok out ∧ out.effect = .error e := by
  obtain ⟨out, hrun, _⟩ := runUnroll_of_rewriteAll hb m
  exact ⟨out, hrun t, (runUnroll_effect_eq_error hb (hrun t)).2 h⟩

/-- **A failed run leaves everything but, at most, the loop it failed at.**
An error that is not one of reading leaves that loop in its place; an error
of reading leaves nothing of it.  In both cases the loops before it are
unrolled, and everything else stands as it stood. -/
theorem failed_run_leaves_the_rest {b : Block} (hb : Reachable b) {m : Manager}
    {t : Option Level} {out : Outcome} {e : Error} (hrun : (Pass.runUnroll b m t).2 = .ok out)
    (herror : out.effect = .error e) :
    (e.ofReading = false → HaltsBlock m.factor (Kept m.factor e) b out.block.forgotten)
      ∧ (e.ofReading = true → HaltsBlock m.factor (Lost m.factor e) b out.block.forgotten) := by
  have hhalts := runUnroll_halts hb.legible hrun herror
  unfold LeftBy at hhalts
  constructor
  · intro hreading
    rwa [hreading] at hhalts
  · intro hreading
    rwa [hreading] at hhalts

/-- An increment that fits no idiom, under a condition: nothing is lost. -/
theorem failed_run_leaves_the_rest_unsupported :
    let b : Block := ⟨[.ofExpr (.chain [.ident "a", .op "=", .lit "1"]),
      .cond [.ident "c"] (.ofBlock ⟨[.loop [.chain [.ident "i", .op "=", .lit "0"],
          .chain [.ident "i", .op "<", .ident "n"], .chain [.ident "i", .op "=", .ident "j"]]
          (.ofExpr (.chain [.ident "s", .op "+=", .lit "1"])) none {},
        .ofExpr (.chain [.ident "y", .op "=", .lit "2"])], {}⟩) none {}], {}⟩
    let m := Manager.withDefaults
    let e := Error.unsupported .loopIncrement "i = j"
    Block.parse "a = 1; if(c) \x7b for(i = 0; i < n; i = j) s += 1; y = 2; \x7d" {} = .ok b
      ∧ ∃ out, (Pass.runUnroll b m none).2 = .ok out ∧ out.effect = .error e ∧ out.block = b
        ∧ HaltsBlock m.factor (Kept m.factor e) b out.block.forgotten := by
  intro b m e
  have hparse : Block.parse "a = 1; if(c) \x7b for(i = 0; i < n; i = j) s += 1; y = 2; \x7d" {}
      = .ok b := by decide +kernel
  have hrun : (Pass.runUnroll b m none).2.map (fun out => (out.block, out.effect))
      = .ok (b, .error e) := by decide +kernel
  cases hout : (Pass.runUnroll b m none).2 with
  | error f =>
      rw [hout] at hrun
      cases hrun
  | ok out =>
      rw [hout] at hrun
      obtain ⟨hblock, heffect⟩ := Prod.mk.inj (Except.ok.inj hrun)
      exact ⟨hparse, out, rfl, heffect, hblock,
        (failed_run_leaves_the_rest (.parsed hparse) hout heffect).1 rfl⟩

/-- A variable in braces, with a factor of two: the test of the groups would
start with a brace, so it cannot be read, and of the loop nothing is left,
whatever manager gives the factor. -/
theorem braced_variable_is_lost :
    let ask : Features → Except Error Int := fun _ => .ok 2
    let x := Stmt.ofExpr (.chain [.ident "x", .op "=", .lit "1"])
    let y := Stmt.ofExpr (.chain [.ident "y", .op "=", .lit "2"])
    let i := Expr.chain [.op "\x7b", .ident "i", .op "\x7d"]
    let l := Stmt.loop [.nil, .chain [i, .op "<", .ident "n"], .chain [i, .op "++"]]
      (.ofExpr (.chain [.ident "s", .op "+=", .lit "1"])) none {}
    Block.parse "x = 1; for(; \x7b i \x7d < n; \x7b i \x7d ++) s += 1; y = 2;" {}
        = .ok ⟨[x, l, y], {}⟩
      ∧ ∃ e : Error, e.ofReading = true
        ∧ HaltsBlock ask (Lost ask e) ⟨[x, l, y], {}⟩ ⟨[x, y], {}⟩
        ∧ ∀ (m : Manager) (t : Option Level), (∀ f, m.factor f = .ok 2) →
          ∃ out, (Pass.runUnroll ⟨[x, l, y], {}⟩ m t).2 = .ok out ∧ out.effect = .error e
            ∧ out.block.forgotten = ⟨[x, y], {}⟩ := by
  intro ask x y i l
  let e : Error := .parse "\x7b i \x7d+2<n;" {} ⟨.misplaced, ⟨.rBrace, "\x7d", ⟨0, 4, 4⟩⟩⟩
  have hparse : Block.parse "x = 1; for(; \x7b i \x7d < n; \x7b i \x7d ++) s += 1; y = 2;" {}
      = .ok ⟨[x, l, y], {}⟩ := by decide +kernel
  have hloop : Unroll.rewrite ask 0 l = .error (.error e) := by decide +kernel
  have hbefore : Unroll.rewriteAll ask 0 [x] = .ok ([x], 0) := rfl
  have hrewrite : Unroll.rewriteAll ask 0 [x, l, y] = .error (.error e) :=
    Unroll.rewriteAll_eq_error hbefore hloop [y]
  refine ⟨hparse, e, rfl, ⟨rfl, [x], l, [y], [x], 0, none, rfl, hbefore, .here rfl ⟨?_, rfl⟩, rfl⟩,
    ?_⟩
  · decide +kernel
  intro m t hm
  have hfactor : m.factor = ask := funext hm
  have hlegible : (⟨[x, l, y], {}⟩ : Block).Legible := Reachable.legible (.parsed hparse)
  obtain ⟨out, hrun, heffect⟩ := exists_runUnroll_eq_error hlegible (hfactor ▸ hrewrite) t
  refine ⟨out, hrun, heffect, ?_⟩
  obtain ⟨htags, hhalts⟩ := runUnroll_halts hlegible hrun heffect
  have hlost : LeftBy m.factor e = Lost ask e := by
    rw [hfactor]
    exact if_pos rfl
  rw [hlost, hfactor] at hhalts
  have herror : ∀ n l y, Lost ask e n l y → Unroll.rewriteLoop ask n l = .error (.error e) :=
    fun _ _ _ h => h.1
  have hxs : [x, l, y] = [x] ++ l :: [y] := rfl
  obtain ⟨left, hleft, hstmts⟩ :=
    Unroll.HaltsIn.at_stop herror (hxs ▸ hhalts) hbefore hloop
  have hnone : left = none := (hleft.at_loop herror rfl).2
  rw [hnone] at hstmts
  exact congrArg₂ Block.mk hstmts htags

end RuleBody
