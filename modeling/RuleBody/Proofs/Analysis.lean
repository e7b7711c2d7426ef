/-
  RuleBody.Proofs.Analysis
  ────────────────────────
  **THE ANALYSIS OF A LEGIBLE LOOP.**

  A question about a loop may log, may fault where a message cannot be
  written, and may change what the loop remembers.  None of this matters for
  a legible loop that remembers the truth: a question has one answer, the
  same for all loops that differ only in their notes, and afterwards the loop
  differs only in what it remembers (`Query.Finds`).

  §1  idioms and increments of legible expressions;
  §2  the scan of a body;
  §3  questions with one answer;
  §4  what drives a loop, and its bound.
-/
import RuleBody.Proofs.Notes
import RuleBody.Proofs.Walk

namespace RuleBody

open Run (Yields Settles yields_pure settles_pure yields_say yields_log_print yields_ofExcept)

/-! ## §1. Idioms and increments. -/

theorem Expr.Legible.prints {e : Expr} (h : e.Legible) : ∃ text, e.print = .ok text := by
  obtain ⟨text, htext, _⟩ := h.written
  exact ⟨text, htext⟩

theorem Stmt.Legible.prints {s : Stmt} (h : s.Legible) : ∃ text, s.print = .ok text := by
  obtain ⟨text, htext, _⟩ := h.written
  exact ⟨text, htext⟩

namespace Idiom

section

variable {e : Expr} (he : e.Legible)
include he

theorem moves_ok {target : Expr} (ht : target.Legible) (direction : Direction) (step : String) :
    ∃ r, moves e target direction step = .ok r := by
  obtain ⟨text, htext⟩ := he.prints
  obtain ⟨name, hname⟩ := ht.prints
  unfold moves
  rw [htext, hname]
  exact ⟨_, rfl⟩

theorem behind_ok (op : String) (direction : Direction) : ∃ r, behind op direction e = .ok r := by
  have hparts := he.parts
  unfold behind
  split
  · rename_i target mark heq
    rw [heq] at hparts
    split
    · exact moves_ok he (hparts target (by simp)) direction "1"
    · exact ⟨_, rfl⟩
  · exact ⟨_, rfl⟩

theorem inFront_ok (op : String) (direction : Direction) :
    ∃ r, inFront op direction e = .ok r := by
  have hparts := he.parts
  unfold inFront
  split
  · rename_i mark target heq
    rw [heq] at hparts
    split
    · exact moves_ok he (hparts target (by simp)) direction "1"
    · exact ⟨_, rfl⟩
  · exact ⟨_, rfl⟩

theorem assigns_ok (op : String) (direction : Direction) :
    ∃ r, assigns op direction e = .ok r := by
  have hparts := he.parts
  unfold assigns
  split
  · rename_i target mark amount heq
    rw [heq] at hparts
    split
    · obtain ⟨step, hstep⟩ := (hparts amount (by simp)).prints
      rw [hstep]
      exact moves_ok he (hparts target (by simp)) direction step
    · exact ⟨_, rfl⟩
  · exact ⟨_, rfl⟩

omit he in
theorem scaling_ok (e : Expr) : ∃ r, scaling e = .ok r := by
  unfold scaling
  split <;> exact ⟨_, rfl⟩

theorem reassigns_ok {target operand amount : Expr} (ht : target.Legible) (ho : operand.Legible)
    (ha : amount.Legible) (mark op : Expr) :
    ∃ r, reassigns e target mark operand op amount = .ok r := by
  obtain ⟨name, hname⟩ := ht.prints
  obtain ⟨other, hother⟩ := ho.prints
  obtain ⟨step, hstep⟩ := ha.prints
  unfold reassigns
  rw [hname, hother, hstep]
  split
  · dsimp only [bind, Except.bind]
    split
    · cases direction? op with
      | none => exact ⟨_, rfl⟩
      | some direction => exact moves_ok he ht direction step
    · exact ⟨_, rfl⟩
  · exact ⟨_, rfl⟩

theorem variableFirst_ok : ∃ r, variableFirst e = .ok r := by
  have hparts := he.parts
  unfold variableFirst
  split
  · rename_i target mark operand op amount heq
    rw [heq] at hparts
    exact reassigns_ok he (hparts target (by simp)) (hparts operand (by simp))
      (hparts amount (by simp)) mark op
  · exact ⟨_, rfl⟩

theorem variableLast_ok : ∃ r, variableLast e = .ok r := by
  have hparts := he.parts
  unfold variableLast
  split
  · rename_i target mark amount op operand heq
    rw [heq] at hparts
    exact reassigns_ok he (hparts target (by simp)) (hparts operand (by simp))
      (hparts amount (by simp)) mark op
  · exact ⟨_, rfl⟩

/-- Every idiom of the table says something about a legible expression. -/
theorem table_ok : ∀ idiom ∈ table, ∃ r, idiom.fit? e = .ok r := by
  simp only [table, List.forall_mem_cons, List.not_mem_nil, false_imp_iff, implies_true, and_true]
  exact ⟨behind_ok he _ _, inFront_ok he _ _, behind_ok he _ _, inFront_ok he _ _,
    assigns_ok he _ _, assigns_ok he _ _, scaling_ok e, variableFirst_ok he, variableLast_ok he⟩

omit he in
theorem first?_ok {idioms : List Idiom} (h : ∀ idiom ∈ idioms, ∃ r, idiom.fit? e = .ok r) :
    ∃ r, first? e idioms = .ok r := by
  induction idioms with
  | nil => exact ⟨_, rfl⟩
  | cons idiom idioms ih =>
      obtain ⟨⟨r, hr⟩, hidioms⟩ := List.forall_mem_cons.1 h
      unfold first?
      rw [hr]
      cases r with
      | none => exact ih hidioms
      | some verdict => exact ⟨_, rfl⟩

end

end Idiom

namespace Expr

/-- The verdict on an expression; none also where it faults. -/
def verdict (e : Expr) : Option Verdict :=
  match e.idiom? with
  | .ok (some (_, verdict)) => some verdict
  | _ => none

theorem Legible.verdict_yields {e : Expr} (he : e.Legible) : e.verdict?.Yields e.verdict := by
  have hidiom : ∃ r, e.idiom? = .ok r := by
    unfold idiom?
    split
    · exact Idiom.first?_ok (Idiom.table_ok he)
    · exact ⟨_, rfl⟩
  obtain ⟨text, htext⟩ := he.prints
  obtain ⟨r, hr⟩ := hidiom
  refine (yields_ofExcept hr).bind ?_
  unfold verdict
  rw [hr]
  cases r with
  | none => exact yields_pure _
  | some r =>
      obtain ⟨idiom, verdict⟩ := r
      exact (yields_log_print htext _).bind (yields_pure _)

end Expr

namespace Induction

theorem choose_settles (test : Expr) (l r : Option Induction) : (choose test l r).Settles := by
  match l, r with
  | none, r => exact settles_pure r
  | some l, none => exact settles_pure (some l)
  | some l, some r =>
      simp only [choose]
      split
      · exact settles_pure _
      · split
        · exact settles_pure _
        · exact (yields_say _ _).then_settles (settles_pure _)

theorem ofSegment_settles {e : Expr} (he : e.Legible) : (ofSegment e).Settles := by
  obtain ⟨text, htext⟩ := he.prints
  refine he.verdict_yields.then_settles ?_
  match e.verdict with
  | none => exact (yields_ofExcept htext).then_settles (settles_pure _)
  | some (.drives i) => exact settles_pure _
  | some .scales => exact settles_pure _

theorem ofSegments_settles {test : Expr} {es : List Expr} (hes : ∀ e ∈ es, e.Legible) :
    (ofSegments test es).Settles := by
  induction es with
  | nil => exact settles_pure _
  | cons e es ih =>
      obtain ⟨he, hrest⟩ := List.forall_mem_cons.1 hes
      cases es with
      | nil => exact ofSegment_settles he
      | cons e' es =>
          refine (ofSegment_settles he).bind fun l => ?_
          cases l with
          | error err => exact settles_pure _
          | ok l =>
              refine (ih hrest).bind fun r => ?_
              cases r with
              | error err => exact settles_pure _
              | ok r => exact (choose_settles test l r).bind fun i => settles_pure _

end Induction

theorem mem_of_mem_cutWhere {α : Type} {p : α → Bool} {xs segment : List α}
    (h : segment ∈ cutWhere p xs) : ∀ x ∈ segment, x ∈ xs := by
  induction xs generalizing segment with
  | nil =>
      obtain rfl : segment = [] := by simpa [cutWhere] using h
      simp
  | cons x xs ih =>
      intro y hy
      unfold cutWhere at h
      split at h
      · rcases List.mem_cons.1 h with rfl | h
        · cases hy
        · exact List.mem_cons_of_mem x (ih h y hy)
      · split at h
        · rename_i hnil
          exact absurd hnil (cutWhere_ne_nil p xs)
        · rename_i first others hcut
          rcases List.mem_cons.1 h with rfl | h
          · rcases List.mem_cons.1 hy with rfl | hy
            · exact List.mem_cons_self
            · exact List.mem_cons_of_mem x (ih (by simp [hcut]) y hy)
          · exact List.mem_cons_of_mem x (ih (by simp [hcut, h]) y hy)

namespace Induction

theorem segments_legible {increment : Expr} (h : increment.Legible) :
    ∀ e ∈ segments increment, e.Legible := by
  unfold segments
  split
  · intro e he
    obtain ⟨segment, hsegment, rfl⟩ := List.mem_map.1 he
    exact .chain fun p hp => h.parts p (mem_of_mem_cutWhere hsegment p hp)
  · exact List.forall_mem_singleton.2 h

theorem ofIncrement_settles {increment : Expr} (h : increment.Legible) (test : Expr) :
    (ofIncrement increment test).Settles :=
  ofSegments_settles (segments_legible h)

end Induction

/-! ## §2. The scan of a body. -/

section

variable {σ : Type} {T : Tour σ}

theorem Tour.exprs_append (s : σ) (es fs : List Expr) :
    T.exprs s (es ++ fs) = T.exprs (T.exprs s es) fs := by
  induction es generalizing s with
  | nil => rfl
  | cons e es ih => rw [List.cons_append, exprs, ih, exprs]

/-- A tour that only looks at expressions visits them all and leaves the
tree alone, but the loops forget. -/
theorem Tour.stmt_of_exprs (hopen : ∀ s x, T.openStmt s x = s)
    (hclose : ∀ s x, T.closeStmt s x = ⟨s, some x, none⟩) (s : σ) (x : Stmt) :
    T.stmt s x = ⟨T.exprs s x.inner, x.forgotten, none⟩ := by
  have hvisit : ∀ {s : σ} {x : Stmt}, (∀ s, T.stmt s x = ⟨T.exprs s x.inner, x.forgotten, none⟩) →
      T.close (T.stmt (T.openStmt s x) x) = ⟨T.exprs s x.inner, some x.forgotten, none⟩ := by
    intro s x h
    rw [hopen, h]
    exact hclose _ _
  induction x using Stmt.inductionOn generalizing s with
  | basic | raw => rfl
  | block es ss b tags ih =>
      have hstmts : ∀ s, T.stmts s ss
          = ⟨T.exprs s (Stmt.innerOf ss), ss.map Stmt.forgotten, none⟩ := by
        induction ss with
        | nil => exact fun _ => rfl
        | cons x xs ihxs =>
            intro s
            obtain ⟨hx, hxs⟩ := List.forall_mem_cons.1 ih
            rw [Tour.stmts, hvisit hx]
            simp only [ihxs hxs, Stmt.innerOf, exprs_append]
            rfl
      rw [Tour.stmt, hstmts, Stmt.inner, exprs_append]
      simp only [Step.map, Stmt.forgotten, Stmt.renote, Stmt.renoteAll_eq_map]
      rfl
  | loop es body i tags ih =>
      rw [Tour.stmt, hvisit ih, Stmt.inner, exprs_append]
      rfl
  | switch es body tags ih =>
      rw [Tour.stmt, hvisit ih, Stmt.inner, exprs_append]
      rfl
  | cond es yes no tags ihyes ihno =>
      cases no with
      | none =>
          rw [Tour.stmt, hvisit ihyes, Stmt.inner, exprs_append]
          rfl
      | some no =>
          rw [Tour.stmt, hvisit ihyes, Stmt.inner, exprs_append, exprs_append]
          simp only [Tour.fill, Step.map, hvisit (ihno no rfl)]
          rfl

end

namespace Loop

/-- The scan as a tour. -/
def tour : Tour (List Candidate) where
  openExpr found e :=
    match e.verdict with
    | some (.drives i) => record i found
    | _ => found

theorem scanner_follows : Follows scanner tour where
  openExpr found e q he := by
    refine he.verdict_yields.bind ?_
    show Yields _ (⟨match e.verdict with
      | some (.drives i) => record i found
      | _ => found, ⟨some e, q⟩, none⟩ : Step (List Candidate) (Site Expr))
    match e.verdict with
    | none => exact yields_pure _
    | some .scales => exact yields_pure _
    | some (.drives i) => exact (yields_say _ _).bind (yields_pure _)
  closeExpr _ _ _ _ := yields_pure _
  openStmt _ _ _ _ := yields_pure _
  closeStmt _ _ _ _ _ := yields_pure _
  legible _ x hx _ y hy := Option.some.inj hy ▸ hx

/-- The candidates among the expressions of a body. -/
def candidates (body : Stmt) : List Candidate := tour.exprs [] body.inner

/-- The scan of a legible body finds the candidates, and the loops inside
forget. -/
theorem scan_eq {l : Loop} (hbody : l.body.Legible) (t : Option Level) :
    ∃ events, scan l t = (events, l.setBody l.body.forgotten, .ok (candidates l.body)) := by
  have hsteps : l.body.size < (Node.stmt l.body).steps := by
    simp only [Node.steps, Node.size]
    omega
  have hwalk := scanner_follows.accept hbody hsteps [] t
  rw [Tour.stmt_of_exprs (fun _ _ => rfl) (fun _ _ => rfl)] at hwalk
  unfold scan
  generalize Stmt.accept scanner (Node.stmt l.body).steps [] l.body t = result at hwalk ⊢
  obtain ⟨events, value⟩ := result
  obtain rfl : value = .ok _ := hwalk
  exact ⟨events, rfl⟩

end Loop

/-! ## §3. Questions with one answer. -/

namespace Loop

/-- A loop that can be written. -/
def Legible (l : Loop) : Prop := l.toStmt.Legible

/-- What drives a loop, found with nothing logged; none where that faults. -/
def driver (l : Loop) : Except Error (Option Induction) :=
  match (analyse l none).2.2 with
  | .ok found => .ok found
  | .error (.error e) => .error e
  | .error (.fault _) => .ok none

/-- What the loop remembers is what would be found. -/
def Coherent (l : Loop) : Prop := ∀ i, l.induction = some i → l.stripped.driver = .ok (some i)

/-- Loops that differ in what they remember do not differ without notes. -/
theorem stripped_of_forgotten {l l' : Loop} (h : l'.forgotten = l.forgotten) :
    l'.stripped = l.stripped := by
  rw [← l'.stripped_renote fun notes => (none, notes.2), ← l.stripped_renote fun notes =>
    (none, notes.2)]
  exact congrArg stripped h

theorem bodySize_of_forgotten {l l' : Loop} (h : l'.forgotten = l.forgotten) :
    l'.bodySize = l.bodySize := by
  rw [← l'.bodySize_renote fun notes => (none, notes.2), ← l.bodySize_renote fun notes =>
    (none, notes.2)]
  exact congrArg bodySize h

namespace Query

variable {α β : Type}

/-- The question has the answer, and the loop stays the same but for what it
remembers. -/
def FindsAt (q : Query α) (l : Loop) (x : Except Error α) : Prop :=
  ∃ l', (∀ t, ∃ events, q l t = (events, l', x.mapError .error)) ∧ l'.forgotten = l.forgotten
    ∧ l'.Coherent

/-- The question has the answer for all coherent loops that are `p` without
their notes. -/
def Finds (q : Query α) (p : Loop) (x : Except Error α) : Prop :=
  ∀ l, l.stripped = p → l.Coherent → q.FindsAt l x

/-- The question has one answer for all these loops. -/
def Settles (q : Query α) (p : Loop) : Prop := ∃ x, q.Finds p x

variable {p : Loop}

theorem finds_pure (a : α) : (pure a : Query α).Finds p (.ok a) :=
  fun l _ hl => ⟨l, fun _ => ⟨[], rfl⟩, rfl, hl⟩

theorem settles_pure (a : α) : (pure a : Query α).Settles p := ⟨_, finds_pure a⟩

theorem finds_fail (e : Error) : (fail e : Query α).Finds p (.error e) :=
  fun l _ hl => ⟨l, fun _ => ⟨[], rfl⟩, rfl, hl⟩

theorem finds_ofExcept (x : Except Error α) : (ofExcept x).Finds p x := by
  cases x with
  | ok a => exact finds_pure a
  | error e => exact finds_fail e

theorem finds_run {x : Run α} {a : α} (h : x.Yields a) : (liftM x : Query α).Finds p (.ok a) := by
  intro l _ hl
  refine ⟨l, fun t => ?_, rfl, hl⟩
  have hvalue := h t
  rcases hx : x t with ⟨events, value⟩
  rw [hx] at hvalue
  obtain rfl : value = .ok a := hvalue
  refine ⟨events, ?_⟩
  show ofRun x l t = _
  unfold ofRun
  rw [hx]
  rfl

theorem finds_except {x : Except Fault α} {a : α} (h : x = .ok a) :
    (liftM x : Query α).Finds p (.ok a) :=
  finds_run (yields_ofExcept h)

theorem finds_clause {c : Clause} {e : Expr} (h : p.clause c = .ok e) :
    (clause c).Finds p (.ok e) := by
  rintro l rfl hl
  have hclause : l.clause c = .ok e := h
  refine ⟨l, fun t => ⟨[], ?_⟩, rfl, hl⟩
  show ([] ++ (ofRun (.ofExcept (l.clause c)) l t).1, (ofRun (.ofExcept (l.clause c)) l t).2) = _
  rw [hclause]
  rfl

theorem Finds.bind {q : Query α} {f : α → Query β} {a : α} {y : Except Error β}
    (hq : q.Finds p (.ok a)) (hf : (f a).Finds p y) : (q >>= f).Finds p y := by
  intro l hp hl
  obtain ⟨l', hql, hp', hl'⟩ := hq l hp hl
  obtain ⟨l'', hfl, hp'', hl''⟩ := hf l' ((stripped_of_forgotten hp').trans hp) hl'
  refine ⟨l'', fun t => ?_, hp''.trans hp', hl''⟩
  obtain ⟨events, hql⟩ := hql t
  obtain ⟨events', hfl⟩ := hfl t
  refine ⟨events ++ events', ?_⟩
  rw [bind_apply, hql]
  simp only [Except.mapError, hfl]

theorem Finds.bind_error {q : Query α} {f : α → Query β} {e : Error}
    (hq : q.Finds p (.error e)) : (q >>= f).Finds p (.error e) := by
  intro l hp hl
  obtain ⟨l', hql, hp', hl'⟩ := hq l hp hl
  refine ⟨l', fun t => ?_, hp', hl'⟩
  obtain ⟨events, hql⟩ := hql t
  refine ⟨events, ?_⟩
  rw [bind_apply, hql]
  rfl

theorem Finds.then_settles {q : Query α} {f : α → Query β} {a : α} (hq : q.Finds p (.ok a))
    (hf : (f a).Settles p) : (q >>= f).Settles p := by
  obtain ⟨y, hy⟩ := hf
  exact ⟨y, hq.bind hy⟩

theorem Settles.bind {q : Query α} {f : α → Query β} (hq : q.Settles p)
    (hf : ∀ a, (f a).Settles p) : (q >>= f).Settles p := by
  obtain ⟨x, hx⟩ := hq
  cases x with
  | ok a => exact hx.then_settles (hf a)
  | error e => exact ⟨_, hx.bind_error⟩

theorem finds_loop {f : Loop → Query β} {y : Except Error β}
    (h : ∀ l, l.stripped = p → l.Coherent → (f l).FindsAt l y) : (loop >>= f).Finds p y :=
  fun l hp hl => h l hp hl

end Query

/-! ## §4. What drives a loop, and its bound. -/

theorem Legible.clause {l : Loop} (h : l.Legible) (c : Clause) :
    ∃ e, l.clause c = .ok e ∧ e.Legible := by
  obtain ⟨clauses, body, induction, tags⟩ := l
  cases h with
  | @loop d t i _ _ _ hd ht hi _ =>
      cases c with
      | decl => exact ⟨d, rfl, hd⟩
      | test => exact ⟨t, rfl, ht⟩
      | increment => exact ⟨i, rfl, hi⟩

theorem Legible.of_clause {l : Loop} (h : l.Legible) {c : Clause} {e : Expr}
    (he : l.clause c = .ok e) : e.Legible := by
  obtain ⟨e', he', hlegible⟩ := h.clause c
  rwa [← Except.ok.inj (he.symm.trans he')] at hlegible

theorem Legible.body {l : Loop} (h : l.Legible) : l.body.Legible := by
  obtain ⟨clauses, body, induction, tags⟩ := l
  cases h with
  | loop _ _ _ hbody => exact hbody

theorem coherent_of_none {l : Loop} (h : l.induction = none) : l.Coherent := by
  intro i hi
  rw [h] at hi
  cases hi

section

variable {p : Loop} (hp : p.Legible)
include hp

theorem scan_finds : scan.Finds p (.ok (candidates p.body)) := by
  rintro l rfl hl
  have hbody : l.body.Legible := .of_renote _ hp.body
  have hcandidates : candidates l.stripped.body = candidates l.body :=
    congrArg (tour.exprs []) (Stmt.inner_renote _ l.body)
  have hstrippedten : (l.setBody l.body.forgotten).forgotten = l.forgotten := by
    show (⟨l.clauses, l.body.forgotten.forgotten, none, l.tags⟩ : Loop) = _
    rw [Stmt.forgotten_forgotten]
    rfl
  rw [hcandidates]
  refine ⟨_, scan_eq hbody, hstrippedten, fun i hi => ?_⟩
  rw [stripped_of_forgotten hstrippedten]
  exact hl i hi

theorem ofBody_settles : ofBody.Settles p := by
  refine (scan_finds hp).then_settles ?_
  dsimp only
  split
  · obtain ⟨text, htext⟩ := hp.body.prints
    refine ⟨.ok none, Query.finds_loop ?_⟩
    rintro l rfl hl
    have hprint : l.body.print = .ok text := by
      rwa [← Stmt.print_renote]
    exact (Query.finds_run (yields_log_print hprint _)).bind (Query.finds_pure none) l rfl hl
  · exact Query.settles_pure _
  · obtain ⟨test, htest, _⟩ := hp.clause .test
    refine (Query.finds_clause htest).then_settles ?_
    split
    · exact Query.settles_pure _
    · exact ⟨_, Query.finds_fail _⟩

theorem ofIncrement_settles : ofIncrement.Settles p := by
  obtain ⟨increment, hincrement, hlegible⟩ := hp.clause .increment
  obtain ⟨test, htest, _⟩ := hp.clause .test
  refine (Query.finds_clause hincrement).then_settles ?_
  split
  · refine (Query.finds_clause htest).then_settles ?_
    obtain ⟨r, hr⟩ := Induction.ofIncrement_settles hlegible test
    exact (Query.finds_run hr).then_settles ⟨_, Query.finds_ofExcept r⟩
  · exact Query.settles_pure _

theorem analyse_settles : analyse.Settles p := by
  refine (ofIncrement_settles hp).bind ?_
  rintro (_ | i)
  on_goal 1 => refine (ofBody_settles hp).bind ?_
  on_goal 2 => refine (Query.settles_pure (some i)).bind ?_
  -- Both ways end with the report of what was found.
  all_goals
    rintro (_ | i)
    · exact Query.settles_pure _
    · exact (Query.finds_run (yields_say _ _)).then_settles (Query.settles_pure _)

omit hp in
theorem driver_of_finds (hstripped : p.stripped = p) {x : Except Error (Option Induction)}
    (hx : analyse.Finds p x) : p.driver = x := by
  have hnone : p.induction = none := by
    rw [← hstripped]
    rfl
  obtain ⟨l', hanalyse, _⟩ := hx p hstripped (coherent_of_none hnone)
  obtain ⟨events, hanalyse⟩ := hanalyse none
  unfold driver
  rw [hanalyse]
  cases x <;> rfl

/-- The analysis finds what drives the loop. -/
theorem analyse_finds (hstripped : p.stripped = p) : analyse.Finds p p.driver := by
  obtain ⟨x, hx⟩ := analyse_settles hp
  rwa [driver_of_finds hstripped hx]

/-- The loop may remember what was found. -/
theorem remember_finds (hstripped : p.stripped = p) :
    Query.Finds (do
      let found ← analyse
      Query.modify fun l => { l with induction := found }
      return found) p p.driver := by
  rintro l rfl hl
  obtain ⟨l', hanalyse, hl', hcoherent⟩ := analyse_finds hp hstripped l rfl hl
  cases hdriver : l.stripped.driver with
  | error e =>
      rw [hdriver] at hanalyse
      refine ⟨l', fun t => ?_, hl', hcoherent⟩
      obtain ⟨events, hanalyse⟩ := hanalyse t
      refine ⟨events, ?_⟩
      rw [Query.bind_apply, hanalyse]
      rfl
  | ok found =>
      rw [hdriver] at hanalyse
      refine ⟨{ l' with induction := found }, fun t => ?_, hl', ?_⟩
      · obtain ⟨events, hanalyse⟩ := hanalyse t
        refine ⟨events ++ ([] ++ []), ?_⟩
        rw [Query.bind_apply, hanalyse]
        rfl
      · rintro i rfl
        show l'.stripped.driver = _
        rw [stripped_of_forgotten hl', hdriver]

/-- **What drives a loop is found, whether the loop remembers it or not.** -/
theorem drive_finds (hstripped : p.stripped = p) : drive.Finds p p.driver := by
  refine Query.finds_loop ?_
  rintro l rfl hl
  cases hi : l.induction with
  | some i =>
      rw [hl i hi]
      exact Query.finds_pure (some i) l rfl hl
  | none => exact remember_finds hp hstripped l rfl hl

omit hp in
/-- The sides of a comparison, and that they can be written. -/
theorem sides_ok {test : Expr} (h : test.Legible) {op : String}
    (hop : test.comparison? = some op) (hdirect : test.hasDirect op = true) :
    test.lhs op = .ok (.chain (test.partsBefore op))
      ∧ (∃ text, (Expr.chain (test.partsBefore op)).print = .ok text)
      ∧ test.rhs op = .ok (.chain (test.partsBehind op))
      ∧ ∃ text, (Expr.chain (test.partsBehind op)).print = .ok text := by
  have hcheck : test.checkSplit op = .ok () := by
    unfold Expr.checkSplit
    simp [Expr.isComparison, hop, hdirect]
  have hbefore : (Expr.chain (test.partsBefore op)).Legible :=
    .chain fun e he => h.parts e ((List.takeWhile_sublist _).subset he)
  have hbehind : (Expr.chain (test.partsBehind op)).Legible :=
    .chain fun e he => h.parts e (List.dropWhile_subset _ (List.mem_of_mem_drop he))
  unfold Expr.lhs Expr.rhs
  rw [hcheck]
  exact ⟨rfl, hbefore.prints, rfl, hbehind.prints⟩

omit hp in
/-- The bound of a legible test, or an error. -/
theorem bound_ok {test : Expr} (h : test.Legible) (name : String) :
    ∃ r, bound test name = .ok r := by
  obtain ⟨text, htext⟩ := h.prints
  unfold bound
  rw [htext]
  split
  · exact ⟨_, rfl⟩
  · rename_i op hop
    split
    · rename_i hdirect
      obtain ⟨hlhs, ⟨left, hleft⟩, hrhs, right, hright⟩ := sides_ok h hop hdirect
      rw [hlhs, hrhs]
      dsimp only [bind, Except.bind]
      rw [hleft, hright]
      dsimp only
      split
      · exact ⟨_, rfl⟩
      · split <;> exact ⟨_, rfl⟩
    · exact ⟨_, rfl⟩

theorem suits_settles (hstripped : p.stripped = p) : Unroll.suits.Settles p := by
  obtain ⟨test, htest, hlegible⟩ := hp.clause .test
  obtain ⟨text, htext⟩ := hlegible.prints
  refine (Query.finds_clause htest).then_settles ?_
  split
  · exact (Query.finds_run (yields_log_print htext _)).then_settles (Query.settles_pure _)
  · split
    · exact (Query.finds_run (yields_log_print htext _)).then_settles (Query.settles_pure _)
    · rename_i op hop
      obtain ⟨hcomparison, hdirect⟩ := Option.filter_eq_some_iff.1 hop
      obtain ⟨hlhs, ⟨left, hleft⟩, hrhs, right, hright⟩ := sides_ok hlegible hcomparison hdirect
      have hleft' : (do (← test.lhs op).print : Except Fault String) = .ok left := by
        rw [hlhs]
        exact hleft
      have hright' : (do (← test.rhs op).print : Except Fault String) = .ok right := by
        rw [hrhs]
        exact hright
      refine Query.Settles.bind ⟨_, drive_finds hp hstripped⟩ fun found => ?_
      cases found with
      | none =>
          exact (Query.finds_run (yields_say _ _)).then_settles (Query.settles_pure _)
      | some i =>
          refine (Query.finds_except hleft').then_settles ?_
          refine (Query.finds_except hright').then_settles ?_
          split
          · exact Query.settles_pure _
          · exact (Query.finds_run (yields_log_print htext _)).then_settles (Query.settles_pure _)

theorem limit_settles (hstripped : p.stripped = p) : limit.Settles p := by
  obtain ⟨test, htest, hlegible⟩ := hp.clause .test
  refine Query.Settles.bind ⟨_, drive_finds hp hstripped⟩ fun found => ?_
  cases found with
  | none => exact Query.settles_pure _
  | some i =>
      refine (Query.finds_clause htest).then_settles ?_
      split
      · exact Query.settles_pure _
      · obtain ⟨r, hr⟩ := bound_ok hlegible i.name
        exact (Query.finds_except hr).then_settles ⟨_, Query.finds_ofExcept r⟩

/-- Whether and up to which bound a loop can be unrolled has one answer. -/
theorem usableLimit_settles (hstripped : p.stripped = p) : Unroll.usableLimit.Settles p := by
  refine (suits_settles hp hstripped).bind fun suits => ?_
  cases suits with
  | true => exact limit_settles hp hstripped
  | false => exact Query.settles_pure _

end

end Loop

end RuleBody
