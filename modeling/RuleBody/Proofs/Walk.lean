/-
  RuleBody.Proofs.Walk
  ────────────────────
  **A WALK AS A RECURSION ON THE TREE.**

  A visitor walks a tree through queues and slots, under a number of steps
  that may run out, and its hooks log.  A `Tour` is what is left of a
  visitor that inserts nothing and takes nothing away but the statement it
  looks at: four functions without a log.  Where the hooks of a visitor do
  what the functions of a tour do (`Follows`), the walk is a recursion on
  the tree, and the number of nodes is number of steps enough
  (`Follows.accept`, `Follows.apply`).

  §1  computations whose value is fixed;
  §2  visits of lists;
  §3  tours;
  §4  the visitors that follow a tour.
-/
import RuleBody.Proofs.Words
import RuleBody.Visitor

namespace RuleBody

/-! ## §1. Computations whose value is fixed. -/

namespace Run

variable {α β : Type}

/-- The computation ends with the value, whatever is logged. -/
def Yields (x : Run α) (a : α) : Prop := ∀ t, (x t).2 = .ok a

theorem yields_pure (a : α) : (pure a : Run α).Yields a := fun _ => rfl

theorem Yields.bind {x : Run α} {f : α → Run β} {a : α} {b : β} (hx : x.Yields a)
    (hf : (f a).Yields b) : (x >>= f).Yields b := by
  intro t
  rw [bind_apply]
  have hvalue := hx t
  rcases hxt : x t with ⟨events, value⟩
  rw [hxt] at hvalue
  obtain rfl : value = .ok a := hvalue
  exact hf t

/-- The computation always ends with the same value. -/
def Settles (x : Run α) : Prop := ∃ a, x.Yields a

theorem settles_pure (a : α) : (pure a : Run α).Settles := ⟨a, yields_pure a⟩

theorem Yields.then_settles {x : Run α} {f : α → Run β} {a : α} (hx : x.Yields a)
    (hf : (f a).Settles) : (x >>= f).Settles := by
  obtain ⟨b, hb⟩ := hf
  exact ⟨b, hx.bind hb⟩

theorem Settles.bind {x : Run α} {f : α → Run β} (hx : x.Settles) (hf : ∀ a, (f a).Settles) :
    (x >>= f).Settles := by
  obtain ⟨a, ha⟩ := hx
  exact ha.then_settles (hf a)

theorem yields_log {level : Level} {message : Unit → Except Fault String} {text : String}
    (h : message () = .ok text) : (log level message).Yields () := by
  intro t
  unfold log
  rw [h]
  split <;> rfl

/-- A message about a text that can be written. -/
theorem yields_log_print {level : Level} {x : Except Fault String} {text : String}
    (h : x = .ok text) (f : String → String) :
    (log level fun _ => do return f (← x)).Yields () := by
  have hmessage : (do return f (← x) : Except Fault String) = .ok (f text) := by
    rw [h]
    rfl
  exact yields_log hmessage

theorem yields_say (level : Level) (message : String) : (say level message).Yields () :=
  yields_log rfl

theorem yields_ofExcept {x : Except Fault α} {a : α} (h : x = .ok a) :
    (monadLift x : Run α).Yields a := by
  intro t
  exact h

end Run

open Run (Yields yields_pure yields_say)

/-! ## §2. Visits of lists. -/

section

variable {σ α : Type}

/-- Visit a list with a function in the place of the hooks. -/
def visitAll (f : σ → α → Step σ (Option α)) : σ → List α → Step σ (List α)
  | s, [] => ⟨s, [], none⟩
  | s, x :: xs =>
      match (f s x).failure with
      | some e => ⟨(f s x).state, (f s x).value.toList ++ xs, some e⟩
      | none => (visitAll f (f s x).state xs).map ((f s x).value.toList ++ ·)

theorem settle_eq (slot : Option α) (done pending : List α) :
    Site.settle ⟨slot, ⟨done, pending⟩⟩ = ⟨done ++ slot.toList, pending⟩ := by
  cases slot with
  | none => simp [Site.settle]
  | some x => rfl

variable {hooks : Hooks σ α} {descend : σ → α → Run (Step σ α)} {f : σ → α → Step σ (Option α)}

theorem sweep_yields {xs : List α}
    (h : ∀ s, ∀ x ∈ xs, ∀ q,
      (visitSite hooks descend s ⟨some x, q⟩).Yields ((f s x).map (⟨·, q⟩)))
    {fuel : Nat} (hfuel : xs.length < fuel) (s : σ) (done : List α) :
    ∃ r, (sweep hooks descend fuel s ⟨done, xs⟩).Yields r
      ∧ r.map Splicer.toList = (visitAll f s xs).map (done ++ ·) := by
  induction xs generalizing fuel s done with
  | nil =>
      obtain ⟨fuel, rfl⟩ : ∃ n, fuel = n + 1 := ⟨fuel - 1, by simp at hfuel; omega⟩
      exact ⟨⟨s, ⟨done, []⟩, none⟩, yields_pure _, rfl⟩
  | cons x xs ih =>
      obtain ⟨fuel, rfl⟩ : ∃ n, fuel = n + 1 := ⟨fuel - 1, by simp at hfuel; omega⟩
      have hsite := h s x List.mem_cons_self ⟨done, xs⟩
      cases hfail : (f s x).failure with
      | some e =>
          refine ⟨⟨(f s x).state, ⟨done ++ (f s x).value.toList, xs⟩, some e⟩, ?_, ?_⟩
          · refine hsite.bind ?_
            simp only [Step.map, Step.andThen, hfail, settle_eq]
            exact yields_pure _
          · simp [visitAll, hfail, Step.map, Splicer.toList]
      | none =>
          obtain ⟨r, hr, hvalue⟩ := ih (fun s y hy => h s y (List.mem_cons_of_mem x hy))
            (by simpa using hfuel) (f s x).state (done ++ (f s x).value.toList)
          refine ⟨r, hsite.bind ?_, ?_⟩
          · simpa only [Step.map, Step.andThen, hfail, settle_eq] using hr
          · rw [hvalue]
            simp [visitAll, hfail, Step.map]

/-- The visit of a list whose hooks do what a function does. -/
theorem visitList_yields {xs : List α}
    (henter : ∀ s q, (hooks.enter s q).Yields (s, q))
    (hleave : ∀ s q, (hooks.leave s q).Yields (s, q))
    (h : ∀ s, ∀ x ∈ xs, ∀ q,
      (visitSite hooks descend s ⟨some x, q⟩).Yields ((f s x).map (⟨·, q⟩)))
    {fuel : Nat} (hfuel : xs.length < fuel) (s : σ) :
    (visitList hooks descend fuel s xs).Yields (visitAll f s xs) := by
  obtain ⟨r, hr, hvalue⟩ := sweep_yields h hfuel s []
  have hresult : r.map Splicer.toList = visitAll f s xs := hvalue
  refine (henter s _).bind (hr.bind ((hleave _ _).bind ?_))
  rw [← hresult]
  exact yields_pure _

end

/-! ## §3. Tours. -/

/-- A walk by four functions: what a visitor does before and behind the
parts of an expression, and before and behind the statements inside a
statement.  Only the last of them may change the tree or fail. -/
structure Tour (σ : Type) where
  openExpr : σ → Expr → σ := fun s _ => s
  closeExpr : σ → Expr → σ := fun s _ => s
  openStmt : σ → Stmt → σ := fun s _ => s
  closeStmt : σ → Stmt → Step σ (Option Stmt) := fun s x => ⟨s, some x, none⟩

namespace Tour

variable {σ : Type} (T : Tour σ)

mutual

/-- The state behind the parts of an expression. -/
def expr : σ → Expr → σ
  | s, ⟨_, _, parts, _⟩ => exprs s parts

/-- The state behind some expressions. -/
def exprs : σ → List Expr → σ
  | s, [] => s
  | s, e :: es => exprs (T.closeExpr (expr (T.openExpr s e) e) e) es

end

/-- Leave a statement, unless something inside failed. -/
def close (r : Step σ Stmt) : Step σ (Option Stmt) :=
  match r.failure with
  | some e => ⟨r.state, some r.value, some e⟩
  | none => T.closeStmt r.state r.value

/-- What is left in a place for one statement. -/
def fill (r : Step σ (Option Stmt)) : Step σ Stmt := r.map fun slot => slot.getD .empty

mutual

/-- Walk the expressions of a statement, then the statements inside it. -/
def stmt : σ → Stmt → Step σ Stmt
  | s, .basic es tags => ⟨T.exprs s es, .basic es tags, none⟩
  | s, .raw es src tags => ⟨T.exprs s es, .raw es src tags, none⟩
  | s, .block es ss b tags => (stmts (T.exprs s es) ss).map (.block es · b tags)
  | s, .loop es body _ tags =>
      (fill (T.close (stmt (T.openStmt (T.exprs s es) body) body))).map (.loop es · none tags)
  | s, .cond es yes none tags =>
      (fill (T.close (stmt (T.openStmt (T.exprs s es) yes) yes))).map (.cond es · none tags)
  | s, .cond es yes (some no) tags =>
      let first := fill (T.close (stmt (T.openStmt (T.exprs s es) yes) yes))
      match first.failure with
      | some e => ⟨first.state, .cond es first.value (some no) tags, some e⟩
      | none =>
          (fill (T.close (stmt (T.openStmt first.state no) no))).map fun no =>
            .cond es first.value (some no) tags
  | s, .switch es body tags =>
      (fill (T.close (stmt (T.openStmt (T.exprs s es) body) body))).map (.switch es · tags)

/-- Visit some statements. -/
def stmts : σ → List Stmt → Step σ (List Stmt)
  | s, [] => ⟨s, [], none⟩
  | s, x :: xs =>
      let r := T.close (stmt (T.openStmt s x) x)
      match r.failure with
      | some e => ⟨r.state, r.value.toList ++ xs, some e⟩
      | none => (stmts r.state xs).map (r.value.toList ++ ·)

end

/-- Visit a statement: before it, inside it, behind it. -/
def visit (s : σ) (x : Stmt) : Step σ (Option Stmt) :=
  T.close (T.stmt (T.openStmt s x) x)

/-- Visit a statement that sits alone in its place. -/
def slot (s : σ) (x : Stmt) : Step σ Stmt := fill (T.visit s x)

theorem stmts_eq_visitAll (s : σ) (xs : List Stmt) : T.stmts s xs = visitAll T.visit s xs := by
  induction xs generalizing s with
  | nil => rfl
  | cons x xs ih => simp only [stmts, visitAll, visit, ih]

mutual

/-- A tour that does nothing at expressions keeps its state there. -/
theorem expr_idle (hopen : ∀ s e, T.openExpr s e = s) (hclose : ∀ s e, T.closeExpr s e = s)
    (s : σ) :
    ∀ e, T.expr s e = s
  | ⟨_, _, parts, _⟩ => exprs_idle hopen hclose s parts

/-- A tour that does nothing at expressions keeps its state there. -/
theorem exprs_idle (hopen : ∀ s e, T.openExpr s e = s) (hclose : ∀ s e, T.closeExpr s e = s)
    (s : σ) : ∀ es, T.exprs s es = s
  | [] => rfl
  | e :: es => by
      rw [exprs, hopen, hclose, expr_idle hopen hclose s e, exprs_idle hopen hclose s es]

end

theorem exprs_eq_visitAll (s : σ) (es : List Expr) :
    (⟨T.exprs s es, es, none⟩ : Step σ (List Expr))
      = visitAll (fun s e => ⟨T.closeExpr (T.expr (T.openExpr s e) e) e, some e, none⟩) s es := by
  induction es generalizing s with
  | nil => rfl
  | cons e es ih => rw [exprs, visitAll, ← ih]; rfl

end Tour

/-! ## §4. Visitors that follow a tour. -/

/-- A loop that remembers nothing, or no loop at all. -/
def Stmt.Uncached (x : Stmt) : Prop := ∀ es body i tags, x = .loop es body i tags → i = none

/-- The hooks of the visitor do to legible nodes what the tour does. -/
structure Follows {σ : Type} (v : Visitor σ) (T : Tour σ) : Prop where
  enterExprs : ∀ s q, (v.exprs.enter s q).Yields (s, q) := by exact fun _ _ => yields_pure _
  leaveExprs : ∀ s q, (v.exprs.leave s q).Yields (s, q) := by exact fun _ _ => yields_pure _
  enterStmts : ∀ s q, (v.stmts.enter s q).Yields (s, q) := by exact fun _ _ => yields_pure _
  leaveStmts : ∀ s q, (v.stmts.leave s q).Yields (s, q) := by exact fun _ _ => yields_pure _
  descends : ∀ s n, (v.descends s n).Yields (s, true) := by exact fun _ _ => yields_pure _
  beforeBlock : ∀ s b, (v.beforeBlock s b).Yields ⟨s, b, none⟩ := by
    exact fun _ _ => yields_pure _
  afterBlock : ∀ s b, (v.afterBlock s b).Yields ⟨s, b, none⟩ := by exact fun _ _ => yields_pure _
  openExpr : ∀ s e q, e.Legible →
    (v.exprs.before s ⟨some e, q⟩).Yields ⟨T.openExpr s e, ⟨some e, q⟩, none⟩
  closeExpr : ∀ s e q, e.Legible →
    (v.exprs.after s ⟨some e, q⟩).Yields ⟨T.closeExpr s e, ⟨some e, q⟩, none⟩
  openStmt : ∀ s x q, x.Legible →
    (v.stmts.before s ⟨some x, q⟩).Yields ⟨T.openStmt s x, ⟨some x, q⟩, none⟩
  closeStmt : ∀ s x q, x.Legible → x.Uncached →
    (v.stmts.after s ⟨some x, q⟩).Yields ((T.closeStmt s x).map (⟨·, q⟩))
  legible : ∀ s x, x.Legible → x.Uncached → ∀ y ∈ (T.closeStmt s x).value, y.Legible

theorem Tour.stmt_uncached {σ : Type} (T : Tour σ) (s : σ) (x : Stmt) :
    (T.stmt s x).value.Uncached := by
  intro es body i tags h
  cases x with
  | cond es yes no tags =>
      cases no with
      | none =>
          rw [stmt] at h
          cases h
      | some no =>
          rw [stmt] at h
          split at h <;> cases h
  | basic | block | raw | loop | switch =>
      rw [stmt] at h
      cases h
      try rfl

theorem Expr.Legible.parts {e : Expr} (h : e.Legible) : ∀ p ∈ e.parts, p.Legible := by
  cases h with
  | nil | leaf => exact fun p hp => absurd hp List.not_mem_nil
  | chain hparts => exact hparts
  | args hparts => exact hparts
  | @call name arguments hname hkind harguments =>
      have hcallee : (Expr.ident name).Legible := .leaf hname (by simp [Kind.admits, hkind])
      exact List.forall_mem_cons.2 ⟨hcallee, List.forall_mem_singleton.2 (.args harguments)⟩

theorem Expr.size_pos (e : Expr) : 0 < e.size := by
  obtain ⟨kind, text, parts, tags⟩ := e
  rw [size]
  omega

theorem Expr.size_le_sizeList {e : Expr} {es : List Expr} (h : e ∈ es) : e.size ≤ sizeList es := by
  induction es with
  | nil => cases h
  | cons p ps ih =>
      rw [sizeList]
      rcases List.mem_cons.1 h with rfl | h
      · omega
      · have := ih h
        omega

theorem Expr.length_le_sizeList (es : List Expr) : es.length ≤ sizeList es := by
  induction es with
  | nil => exact Nat.le_refl 0
  | cons e es ih =>
      have := size_pos e
      rw [sizeList, List.length_cons]
      omega

theorem Stmt.size_pos (x : Stmt) : 0 < x.size := by
  cases x with
  | cond es yes no tags => cases no <;> (rw [size]; omega)
  | basic | block | raw | loop | switch => rw [size]; omega

theorem Stmt.size_le_sizeList {x : Stmt} {xs : List Stmt} (h : x ∈ xs) :
    x.size ≤ sizeList xs := by
  induction xs with
  | nil => cases h
  | cons y ys ih =>
      rw [sizeList]
      rcases List.mem_cons.1 h with rfl | h
      · omega
      · have := ih h
        omega

theorem Stmt.length_le_sizeList (xs : List Stmt) : xs.length ≤ sizeList xs := by
  induction xs with
  | nil => exact Nat.le_refl 0
  | cons x xs ih =>
      have := size_pos x
      rw [sizeList, List.length_cons]
      omega

theorem Stmt.Legible.exprs {x : Stmt} (h : x.Legible) : ∀ e ∈ x.exprs, e.Legible := by
  cases h with
  | empty | block | raw => exact fun e he => absurd he List.not_mem_nil
  | basic he => exact List.forall_mem_singleton.2 he
  | loop hd ht hi => exact List.forall_mem_cons.2 ⟨hd, List.forall_mem_cons.2
      ⟨ht, List.forall_mem_singleton.2 hi⟩⟩
  | cond hc => exact List.forall_mem_singleton.2 hc
  | switch hc => exact List.forall_mem_singleton.2 hc

theorem Stmt.sizeList_exprs_lt (x : Stmt) : Expr.sizeList x.exprs < x.size := by
  cases x with
  | cond es yes no tags => cases no <;> (rw [size]; simp only [exprs]; omega)
  | basic | block | raw | loop | switch => rw [size]; simp only [exprs]; omega

namespace Follows

variable {σ : Type} {v : Visitor σ} {T : Tour σ} (hv : Follows v T)
include hv

theorem descend {α : Type} {asNode : α → Node} {accept : σ → α → Run (Step σ α)} {s : σ} {x : α}
    {r : Step σ α} (h : (accept s x).Yields r) : (v.descend asNode accept s x).Yields r :=
  (hv.descends s (asNode x)).bind h

theorem exprSite {accept : σ → Expr → Run (Step σ Expr)} {s : σ} {e : Expr} (he : e.Legible)
    (h : ∀ s, (accept s e).Yields ⟨T.expr s e, e, none⟩) (q : Splicer Expr) :
    (visitSite v.exprs (v.descend .expr accept) s ⟨some e, q⟩).Yields
      ⟨T.closeExpr (T.expr (T.openExpr s e) e) e, ⟨some e, q⟩, none⟩ :=
  (hv.openExpr s e q he).bind ((hv.descend (h _)).bind (hv.closeExpr _ e q he))

theorem visitExprs_of {fuel : Nat} {es : List Expr} (hes : ∀ e ∈ es, e.Legible)
    (hlength : es.length < fuel)
    (h : ∀ e ∈ es, ∀ s, (Expr.accept v fuel s e).Yields ⟨T.expr s e, e, none⟩) (s : σ) :
    (v.visitExprs fuel s es).Yields ⟨T.exprs s es, es, none⟩ := by
  rw [T.exprs_eq_visitAll]
  refine visitList_yields hv.enterExprs hv.leaveExprs ?_ hlength s
  intro s e he q
  exact hv.exprSite (hes e he) (h e he) q

/-- The walk of an expression. -/
theorem exprAccept {fuel : Nat} {e : Expr} (he : e.Legible) (hfuel : e.size < fuel) (s : σ) :
    (Expr.accept v fuel s e).Yields ⟨T.expr s e, e, none⟩ := by
  induction fuel generalizing e s with
  | zero => omega
  | succ fuel ih =>
      obtain ⟨kind, text, parts, tags⟩ := e
      have hsize : Expr.sizeList parts < fuel := by
        rw [Expr.size] at hfuel
        omega
      have hlength := Expr.length_le_sizeList parts
      have hlegible : ∀ p ∈ parts, p.Legible := he.parts
      have hparts : (v.visitExprs fuel s parts).Yields ⟨T.exprs s parts, parts, none⟩ := by
        refine hv.visitExprs_of hlegible (by omega) ?_ s
        intro p hp s
        have := Expr.size_le_sizeList hp
        exact ih (hlegible p hp) (by omega) s
      exact hparts.bind (yields_pure _)

theorem visitExprs {fuel : Nat} {es : List Expr} (hes : ∀ e ∈ es, e.Legible)
    (hfuel : Expr.sizeList es < fuel) (s : σ) :
    (v.visitExprs fuel s es).Yields ⟨T.exprs s es, es, none⟩ := by
  have hlength := Expr.length_le_sizeList es
  refine hv.visitExprs_of hes (by omega) ?_ s
  intro e he s
  have := Expr.size_le_sizeList he
  exact hv.exprAccept (hes e he) (by omega) s

theorem visit_legible_of {x : Stmt} (h : ∀ s, (T.stmt s x).value.Legible) (s : σ) :
    ∀ y ∈ (T.visit s x).value, y.Legible := by
  have hlegible := h (T.openStmt s x)
  have huncached := T.stmt_uncached (T.openStmt s x) x
  unfold Tour.visit Tour.close
  cases (T.stmt (T.openStmt s x) x).failure with
  | some e =>
      intro y hy
      obtain rfl := Option.some.inj hy
      exact hlegible
  | none => exact hv.legible _ _ hlegible huncached

theorem slot_legible_of {x : Stmt} (h : ∀ s, (T.stmt s x).value.Legible) (s : σ) :
    (T.slot s x).value.Legible := by
  have hvisit := hv.visit_legible_of h s
  show ((T.visit s x).value.getD .empty).Legible
  cases hvalue : (T.visit s x).value with
  | none => exact .empty
  | some y => exact hvisit y hvalue

theorem stmts_legible_of {xs : List Stmt} (hxs : ∀ x ∈ xs, x.Legible)
    (h : ∀ x ∈ xs, ∀ s, (T.stmt s x).value.Legible) (s : σ) :
    ∀ y ∈ (T.stmts s xs).value, y.Legible := by
  induction xs generalizing s with
  | nil => exact fun y hy => absurd hy List.not_mem_nil
  | cons x xs ih =>
      obtain ⟨_, hxs'⟩ := List.forall_mem_cons.1 hxs
      obtain ⟨hx, hrest⟩ := List.forall_mem_cons.1 h
      have hvisit : ∀ y ∈ (T.visit s x).value.toList, y.Legible := by
        intro y hy
        exact hv.visit_legible_of hx s y (Option.mem_toList.1 hy)
      rw [T.stmts_eq_visitAll, visitAll]
      cases (T.visit s x).failure with
      | some e => exact List.forall_mem_append.2 ⟨hvisit, hxs'⟩
      | none =>
          refine List.forall_mem_append.2 ⟨hvisit, ?_⟩
          rw [← T.stmts_eq_visitAll]
          exact ih hxs' hrest _

/-- The walk of a legible tree leaves it legible. -/
theorem stmt_legible {x : Stmt} (hx : x.Legible) (s : σ) : (T.stmt s x).value.Legible := by
  induction hx generalizing s with
  | empty => exact .empty
  | basic he => exact .basic he
  | raw hsrc => exact .raw hsrc
  | block hss ih => exact .block (hv.stmts_legible_of hss ih _)
  | loop hd ht hi _ ih => exact .loop hd ht hi (hv.slot_legible_of ih _)
  | switch hc _ ih => exact .switch hc (hv.slot_legible_of ih _)
  | @cond c yes no tags hc _ hno ihyes ihno =>
      have hyes := hv.slot_legible_of ihyes (T.exprs s [c])
      cases no with
      | none => exact .cond hc hyes (by simp)
      | some no =>
          have hno' := hv.slot_legible_of (ihno no rfl)
          rw [Tour.stmt]
          split
          · exact .cond hc hyes hno
          · refine .cond hc hyes fun z hz => ?_
            obtain rfl := Option.some.inj hz
            exact hno' _

theorem stmtSite {accept : σ → Stmt → Run (Step σ Stmt)} {s : σ} {x : Stmt} (hx : x.Legible)
    (h : ∀ s, (accept s x).Yields (T.stmt s x)) (q : Splicer Stmt) :
    (visitSite v.stmts (v.descend .stmt accept) s ⟨some x, q⟩).Yields
      ((T.visit s x).map (⟨·, q⟩)) := by
  refine (hv.openStmt s x q hx).bind ((hv.descend (h _)).bind ?_)
  have hlegible := hv.stmt_legible hx (T.openStmt s x)
  have huncached := T.stmt_uncached (T.openStmt s x) x
  unfold Tour.visit Tour.close Step.andThen
  cases (T.stmt (T.openStmt s x) x).failure with
  | some e => exact yields_pure _
  | none => exact hv.closeStmt _ _ q hlegible huncached

theorem visitStmts_of {fuel : Nat} {xs : List Stmt} (hxs : ∀ x ∈ xs, x.Legible)
    (hlength : xs.length < fuel)
    (h : ∀ x ∈ xs, ∀ s, (Stmt.accept v fuel s x).Yields (T.stmt s x)) (s : σ) :
    (v.visitStmts fuel s xs).Yields (T.stmts s xs) := by
  rw [T.stmts_eq_visitAll]
  refine visitList_yields hv.enterStmts hv.leaveStmts ?_ hlength s
  intro s x hx q
  exact hv.stmtSite (hxs x hx) (h x hx) q

theorem visitSlot_of {fuel : Nat} {x : Stmt} (hx : x.Legible) (hfuel : 1 < fuel)
    (h : ∀ s, (Stmt.accept v fuel s x).Yields (T.stmt s x)) (s : σ) :
    (visitSlot (v.visitStmts fuel) s x).Yields (T.slot s x) := by
  have hlist : (v.visitStmts fuel s [x]).Yields (T.stmts s [x]) := by
    refine hv.visitStmts_of (by simpa using hx) (by simpa using hfuel) ?_ s
    intro y hy
    obtain rfl := List.mem_singleton.1 hy
    exact h
  refine hlist.bind ?_
  have hvalue : (T.stmts s [x]).map Stmt.ofVisited = T.slot s x := by
    simp only [Tour.stmts, Tour.slot, Tour.fill, Tour.visit]
    generalize T.close (T.stmt (T.openStmt s x) x) = r
    obtain ⟨state, value, failure⟩ := r
    cases failure <;> cases value <;> rfl
  rw [← hvalue]
  exact yields_pure _

theorem visitBlock_of {visitStmts : σ → List Stmt → Run (Step σ (List Stmt))} {s : σ} {b : Block}
    {r : Step σ (List Stmt)} (h : (visitStmts s b.stmts).Yields r) :
    (v.visitBlock visitStmts s b).Yields (r.map fun stmts => { b with stmts }) := by
  have hinner : (v.descend .block (fun s b => do
      let r ← visitStmts s b.stmts
      return r.map fun stmts => ({ b with stmts } : Block)) s b).Yields
      (r.map fun stmts => { b with stmts }) :=
    hv.descend (h.bind (yields_pure _))
  refine (hv.beforeBlock s b).bind (hinner.bind ?_)
  obtain ⟨state, stmts, failure⟩ := r
  cases failure with
  | some e => exact yields_pure _
  | none => exact hv.afterBlock _ _

/-- **The walk of a statement is the recursion.** -/
theorem accept {fuel : Nat} {x : Stmt} (hx : x.Legible) (hfuel : x.size < fuel) (s : σ) :
    (Stmt.accept v fuel s x).Yields (T.stmt s x) := by
  induction fuel generalizing x s with
  | zero => omega
  | succ fuel ih =>
      have hsize := x.sizeList_exprs_lt
      have hexprs : (v.visitExprs fuel s x.exprs).Yields ⟨T.exprs s x.exprs, x.exprs, none⟩ :=
        hv.visitExprs hx.exprs (by omega) s
      have hslot : ∀ {y : Stmt}, y.Legible → y.size < fuel → ∀ s,
          (visitSlot (v.visitStmts fuel) s y).Yields (T.slot s y) := by
        intro y hy hsize s
        have := y.size_pos
        exact hv.visitSlot_of hy (by omega) (fun s => ih hy hsize s) s
      cases hx with
      | empty | basic | raw => exact hexprs.bind (yields_pure _)
      | @block ss b tags hss =>
          rw [Stmt.size] at hfuel
          have hlength := Stmt.length_le_sizeList ss
          have hstmts : ∀ s, (v.visitStmts fuel s ss).Yields (T.stmts s ss) := by
            refine hv.visitStmts_of hss (by omega) ?_
            intro y hy s
            have := Stmt.size_le_sizeList hy
            exact ih (hss y hy) (by omega) s
          exact hexprs.bind ((hv.visitBlock_of (hstmts _)).bind (yields_pure _))
      | @loop d t i body _ tags hd ht hi hbody =>
          rw [Stmt.size] at hfuel
          exact hexprs.bind ((hslot hbody (by omega) _).bind (yields_pure _))
      | @switch c body tags hc hbody =>
          rw [Stmt.size] at hfuel
          exact hexprs.bind ((hslot hbody (by omega) _).bind (yields_pure _))
      | @cond c yes no tags hc hyes hno =>
          cases no with
          | none =>
              rw [Stmt.size] at hfuel
              exact hexprs.bind ((hslot hyes (by omega) _).bind (yields_pure _))
          | some no =>
              rw [Stmt.size] at hfuel
              refine hexprs.bind ((hslot hyes (by omega) _).bind ?_)
              have hcond : T.stmt s (.cond [c] yes (some no) tags)
                  = match (T.slot (T.exprs s [c]) yes).failure with
                    | some e => ⟨(T.slot (T.exprs s [c]) yes).state,
                        .cond [c] (T.slot (T.exprs s [c]) yes).value (some no) tags, some e⟩
                    | none => (T.slot (T.slot (T.exprs s [c]) yes).state no).map fun no =>
                        .cond [c] (T.slot (T.exprs s [c]) yes).value (some no) tags := rfl
              rw [hcond]
              show Yields (Step.andThen (T.slot (T.exprs s [c]) yes) _ _) _
              generalize T.slot (T.exprs s [c]) yes = first
              obtain ⟨state, value, failure⟩ := first
              cases failure with
              | some e => exact yields_pure _
              | none => exact (hslot (hno no rfl) (by omega) _).bind (yields_pure _)

theorem visitStmts {fuel : Nat} {xs : List Stmt} (hxs : ∀ x ∈ xs, x.Legible)
    (hfuel : Stmt.sizeList xs < fuel) (s : σ) : (v.visitStmts fuel s xs).Yields (T.stmts s xs) := by
  have hlength := Stmt.length_le_sizeList xs
  refine hv.visitStmts_of hxs (by omega) ?_ s
  intro x hx s
  have := Stmt.size_le_sizeList hx
  exact hv.accept (hxs x hx) (by omega) s

/-- **The walk of a rule body is the recursion**, and it leaves the body
legible. -/
theorem apply {b : Block} (hb : b.Legible) (s : σ) :
    (v.apply (Node.block b).steps s b).Yields
        ((T.stmts s b.stmts).map fun stmts => { b with stmts })
      ∧ Block.Legible { b with stmts := (T.stmts s b.stmts).value } := by
  have hfuel : Stmt.sizeList b.stmts < (Node.block b).steps := by
    simp only [Node.steps, Node.size]
    omega
  refine ⟨(yields_say _ _).bind (hv.visitBlock_of (hv.visitStmts hb hfuel s)), ?_⟩
  exact hv.stmts_legible_of hb (fun x hx => hv.stmt_legible (hb x hx)) s

end Follows

end RuleBody
