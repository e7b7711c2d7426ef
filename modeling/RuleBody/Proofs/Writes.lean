/-
  RuleBody.Proofs.Writes
  ──────────────────────
  **HOW OFTEN A BODY WRITES ITS VARIABLE.**

  A variable that the scan of a body finds is moved by one expression of the
  body.  An expression that moves a variable writes it once and writes
  nothing else (`writes_of_induction?`).  But not all that writes a variable
  moves it in this sense:

      i ++              — moves `i`, and is counted
      i ++ , j = 0      — writes `i` and is not counted
      i = 0, i *= 2     — write `i` and are not counted

  So the variable is written once exactly if no expression that is not
  counted writes it (`found_variable_written_once_iff`).

  §1  walks that keep count;
  §2  writes;
  §3  what the scan finds.
-/
import RuleBody.Proofs.Census
import RuleBody.Proofs.Rightmost
import RuleBody.Proofs.Traversal

namespace RuleBody

open Run (Leads leads_pure)

/-! ## §1. Walks that keep count. -/

namespace Node

/-- The expression that a node is. -/
def expr? : Node → Option Expr
  | .expr e => some e
  | _ => none

/-- The expressions below a node. -/
def exprsBelow : Node → List Expr
  | .expr e => Expr.nodesOf e.parts
  | .stmt s => Expr.nodesOf s.inner
  | .block b => Expr.nodesOf (Stmt.innerOf b.stmts)

theorem exprsBelow_exprs (es : List Expr) :
    ((es.map Node.expr).flatMap fun c => c.expr?.toList ++ c.exprsBelow) = Expr.nodesOf es := by
  rw [Expr.nodesOf_eq_flatMap, List.flatMap_map]
  refine List.flatMap_congr fun e _ => ?_
  obtain ⟨kind, text, parts, tags⟩ := e
  rfl

theorem exprsBelow_stmts (ss : List Stmt) :
    ((ss.map Node.stmt).flatMap fun c => c.expr?.toList ++ c.exprsBelow)
      = Expr.nodesOf (Stmt.innerOf ss) := by
  induction ss with
  | nil => rfl
  | cons s ss ih =>
      rw [Stmt.innerOf, Expr.nodesOf_append, List.map_cons, List.flatMap_cons, ih]
      rfl

theorem exprsBelow_eq (n : Node) :
    n.exprsBelow = n.children.flatMap fun c => c.expr?.toList ++ c.exprsBelow := by
  cases n with
  | expr e => exact (exprsBelow_exprs e.parts).symm
  | block b => exact (exprsBelow_stmts b.stmts).symm
  | stmt s =>
      cases s with
      | basic es tags | raw es src tags => exact (exprsBelow_exprs es).symm
      | block es ss b tags | loop es body i tags | switch es body tags =>
          rw [children, List.flatMap_append, exprsBelow_exprs, List.flatMap_singleton, exprsBelow,
            Stmt.inner, Expr.nodesOf_append]
          rfl
      | cond es yes no tags =>
          cases no with
          | none =>
              rw [children, List.flatMap_append, exprsBelow_exprs, List.flatMap_singleton,
                exprsBelow, Stmt.inner, Expr.nodesOf_append]
              rfl
          | some no =>
              rw [children, List.flatMap_append, exprsBelow_exprs, List.flatMap_cons,
                List.flatMap_singleton, exprsBelow, Stmt.inner, Expr.nodesOf_append,
                Expr.nodesOf_append]
              rfl

/-- Going down from child to child, one comes by the expressions below a
node. -/
theorem filterMap_preorder (n : Node) : n.preorder.filterMap expr? = n.exprsBelow := by
  induction n using childrenInduction with
  | h n ih =>
      rw [preorder_eq, exprsBelow_eq, List.filterMap_flatMap]
      refine List.flatMap_congr fun c hc => ?_
      rw [← ih c hc]
      cases c <;> rfl

end Node

/-- Take note of the expressions that are entered. -/
def Call.noteExpr {σ : Type} (note : σ → Expr → σ) (s : σ) (call : Call) : σ :=
  (call.before?.bind Node.expr?).elim s (note s)

/-- **A walk that keeps count meets every expression below a node.** -/
theorem Call.foldl_noteExpr {σ : Type} (note : σ → Expr → σ) (n : Node) (s : σ) :
    n.calls.foldl (noteExpr note) s = n.exprsBelow.foldl note s := by
  rw [← n.filterMap_preorder, ← n.filterMap_before_calls, List.filterMap_filterMap,
    List.foldl_filterMap]
  congr 1
  funext s call
  unfold noteExpr
  cases call.before?.bind Node.expr? <;> rfl

namespace Loop

theorem scanner_records : scanner.Records False (Call.noteExpr tour.openExpr) where
  exprs := {
    before := fun found e q => by
      have hverdict : Leads False e.verdict? (· = e.verdict) :=
        ⟨fun _ _ h => (Expr.verdict_of_verdict? h).symm, nofun⟩
      refine hverdict.bind ?_
      rintro _ rfl
      show Leads False _ (· = (⟨tour.openExpr found e, ⟨some e, q⟩, none⟩ :
        Step (List Candidate) (Site Expr)))
      rw [tour_openExpr]
      unfold Expr.induction?
      match e.verdict with
      | none => exact leads_pure rfl
      | some .scales => exact leads_pure rfl
      | some (.drives i) => exact (Run.leads_any _).bind fun _ _ => leads_pure rfl
    after := fun _ _ _ => leads_pure rfl }
  stmts := {
    before := fun _ _ _ => leads_pure rfl
    after := fun _ _ _ => leads_pure rfl }
  beforeBlock _ _ := leads_pure rfl
  afterBlock _ _ := leads_pure rfl

/-- A scan that ends has found the candidates, also where the body cannot be
written. -/
theorem candidates_of_scan {l : Loop} {t : Option Level} {found : List Candidate}
    (h : (scan l t).2.2 = .ok found) : found = candidates l.body := by
  unfold scan at h
  unfold candidates
  rw [tour_exprs]
  rcases hwalk : l.body.accept scanner (Node.stmt l.body).steps [] t with ⟨events, f | r⟩
  · rw [hwalk] at h
    cases h
  · rw [hwalk] at h
    have hr := (scanner_records.acceptStmt (x := l.body) nofun []).ensures t r (by rw [hwalk])
    rw [Call.foldl_noteExpr] at hr
    subst hr
    exact (Except.ok.inj h).symm

theorem Query.ok_of_bind {α β : Type} {q : Query α} {f : α → Query β} {l : Loop}
    {t : Option Level} {b : β} (h : ((q >>= f) l t).2.2 = .ok b) :
    ∃ a l', (q l t).2.2 = .ok a ∧ (f a l' t).2.2 = .ok b := by
  rw [bind_apply] at h
  rcases hq : q l t with ⟨events, l', stop | a⟩
  · rw [hq] at h
    cases h
  · rw [hq] at h
    exact ⟨a, l', rfl, h⟩

/-- What the scan of a body finds is among the candidates that are moved
once. -/
theorem mem_single_of_ofBody {l : Loop} {t : Option Level} {i : Induction}
    (h : (ofBody l t).2.2 = .ok (some i)) : i ∈ single (candidates l.body) := by
  obtain ⟨found, l', hscan, h⟩ := Query.ok_of_bind h
  obtain rfl := candidates_of_scan hscan
  match hsingle : single (candidates l.body) with
  | [] =>
      rw [hsingle] at h
      -- The loop is told in a warning, and the answer is none.
      obtain ⟨_, _, _, h⟩ := Query.ok_of_bind h
      obtain ⟨_, _, _, h⟩ := Query.ok_of_bind h
      cases h
  | [j] =>
      rw [hsingle] at h
      cases h
      exact List.mem_singleton_self _
  | j :: k :: found =>
      rw [hsingle] at h
      obtain ⟨test, l'', _, h⟩ := Query.ok_of_bind h
      match hfilter : (j :: k :: found).filter fun i => test.containsLeaf i.name with
      | [u] =>
          rw [hfilter] at h
          cases h
          have hu : i ∈ (j :: k :: found).filter fun i => test.containsLeaf i.name := by
            rw [hfilter]
            exact List.mem_singleton_self i
          exact (List.mem_filter.1 hu).1
      | [] =>
          rw [hfilter] at h
          cases h
      | _ :: _ :: _ =>
          rw [hfilter] at h
          cases h

end Loop

/-! ## §2. Writes. -/

namespace Expr

/-- The operators that move the variable before or behind them. -/
def steppers : List String := ["++", "--"]

/-- The operators that assign to what stands before them. -/
def assigners : List String :=
  ["=", "+=", "-=", "*=", "/=", "%=", "&=", "|=", "^=", "<<=", ">>="]

/-- The operators that the idioms are made of, and all that write. -/
def operators : List String := ["+", "-"] ++ steppers ++ assigners

/-- Whether this is a leaf with one of the texts. -/
def isOneOf (e : Expr) (texts : List String) : Bool := texts.any e.isLeafText

/-- Whether the expression is the variable and nothing else. -/
def isVariable (e : Expr) (name : String) : Bool := e.print.toOption == some name

/-- How often a variable is written in some parts that stand behind another
one. -/
def writesBehind (name : String) : Option Expr → List Expr → Nat
  | _, [] => 0
  | before, p :: ps =>
      (if p.isVariable name && (before.any (·.isOneOf steppers)
          || ps.head?.any (·.isOneOf (steppers ++ assigners))) then 1 else 0)
        + writesBehind name (some p) ps

/-- How often a chain writes a variable with its own parts. -/
def writes (name : String) (e : Expr) : Nat :=
  if e.kind = .chain then writesBehind name none e.parts else 0

end Expr

/-- How often the expressions of a statement write a variable, at any
depth. -/
def Stmt.writes (name : String) (s : Stmt) : Nat := ((Expr.nodesOf s.inner).map (·.writes name)).sum

namespace Expr

section

variable {e : Expr} {text name : String}

theorem isOneOf_of_isLeafText (h : e.isLeafText text = true) (texts : List String) :
    e.isOneOf texts = texts.contains text := by
  unfold isLeafText at h
  rw [Bool.and_eq_true, beq_iff_eq] at h
  unfold isOneOf isLeafText
  rw [h.1, h.2, List.contains_eq_any_beq]
  simp

theorem isVariable_of_print (h : e.print = .ok text) : e.isVariable name = (text == name) := by
  unfold isVariable
  rw [h]
  simp [Except.toOption]

/-- A leaf is written as its text, or as nothing, or not at all. -/
theorem isVariable_of_isLeafText (h : e.isLeafText text = true) (hempty : name ≠ "")
    (hname : name ≠ text) : e.isVariable name = false := by
  obtain ⟨kind, text', parts, tags⟩ := e
  unfold isLeafText isLeaf at h
  rw [Bool.and_eq_true, beq_iff_eq, List.isEmpty_iff] at h
  obtain ⟨rfl, rfl⟩ := h
  have hprint : ∀ written ∈ (print ⟨kind, text', [], tags⟩).toOption,
      written = text' ∨ written = "" := by
    cases kind <;> simp [print, printJoined, Except.toOption, bind, Except.bind, pure, Except.pure]
  refine Bool.eq_false_iff.2 fun hvariable => ?_
  rcases hprint name (beq_iff_eq.1 hvariable) with rfl | rfl
  · exact hname rfl
  · exact hempty rfl

end

/-- **An expression that moves a variable writes it once, and writes no
other variable.** -/
theorem writes_of_induction? {e : Expr} {i : Induction} (h : e.induction? = some i) {name : String}
    (hname : name ∉ "" :: operators) : e.writes name = if i.name = name then 1 else 0 := by
  obtain ⟨hkind, hshape⟩ := shape_of_induction? h
  have hempty : name ≠ "" := fun h => hname (h ▸ List.mem_cons_self)
  have hoperator : ∀ {mark : Expr} {text : String}, mark.isLeafText text = true →
      text ∈ operators → mark.isVariable name = false := by
    intro mark text hmark htext
    refine isVariable_of_isLeafText hmark hempty fun heq => ?_
    exact hname (List.mem_cons_of_mem _ (heq ▸ htext))
  have hmark : i.direction.mark ∈ steppers := by cases i.direction <;> decide
  have hassignment : i.direction.assignment ∈ assigners ∧ i.direction.assignment ∉ steppers := by
    cases i.direction <;> decide
  have hequals : "=" ∈ assigners ∧ "=" ∉ steppers := by decide
  have hsign : i.direction.sign ∈ operators ∧ i.direction.sign ∉ steppers
      ∧ i.direction.sign ∉ assigners := by cases i.direction <;> decide
  unfold writes
  rw [if_pos hkind]
  generalize e.parts = parts at hshape
  -- Only the target stands next to an operator that writes.
  cases hshape with
  | behind htarget hleaf _ | inFront htarget hleaf _ =>
      have hother := hoperator hleaf (by simp [operators, hmark])
      simp [writesBehind, isVariable_of_print htarget, isOneOf_of_isLeafText hleaf, hmark, hother]
  | assigns htarget hleaf _ =>
      have hother := hoperator hleaf (by simp [operators, hassignment])
      simp [writesBehind, isVariable_of_print htarget, isOneOf_of_isLeafText hleaf, hassignment,
        hother]
  | variableFirst htarget hleaf _ hop _ | variableLast htarget hleaf _ hop _ =>
      have hother := hoperator hleaf (by decide)
      have hother' := hoperator hop hsign.1
      simp [writesBehind, isVariable_of_print htarget, isOneOf_of_isLeafText hleaf,
        isOneOf_of_isLeafText hop, hequals, hsign, hother, hother']

end Expr

/-! ## §3. What the scan finds. -/

/-- A variable that is found is moved by one expression of the body. -/
theorem Loop.split_of_mem_single {body : Stmt} {i : Induction}
    (h : i ∈ single (candidates body)) :
    ∃ front e behind, Expr.nodesOf body.inner = front ++ e :: behind ∧ e.induction? = some i
      ∧ ∀ e' ∈ front ++ behind, ∀ j, e'.induction? = some j → j.name ≠ i.name := by
  obtain ⟨hmem, hone⟩ := count_of_mem_single h
  obtain ⟨e, he, hi⟩ := List.mem_filterMap.1 hmem
  obtain ⟨front, behind, hsplit⟩ := List.append_of_mem he
  refine ⟨front, e, behind, hsplit, hi, fun e' he' j hj hname => ?_⟩
  -- A second one would be counted too.
  unfold moved at hone
  rw [hsplit, List.filterMap_append, List.filterMap_cons_some hi, List.countP_append,
    List.countP_cons_of_pos (by simp)] at hone
  have hnone : ((front ++ behind).filterMap Expr.induction?).countP (·.name == i.name) = 0 := by
    rw [List.filterMap_append, List.countP_append]
    omega
  exact List.countP_eq_zero.1 hnone j (List.mem_filterMap.2 ⟨e', he', hj⟩) (beq_iff_eq.2 hname)

/-- **A variable that the scan finds is written once exactly if no expression
that is not counted writes it.**  For every loop: if the scan of the body finds
a variable whose name is no operator, then one expression of the body moves it
and writes it once, and all others that move a variable do not write it.  What
fits no idiom, or scales, is not counted, whether it writes the variable or
not. -/
theorem found_variable_written_once_iff {l : Loop} {level : Option Level} {i : Induction}
    (hfound : (Loop.ofBody l level).2.2 = .ok (some i)) (hname : i.name ∉ "" :: Expr.operators) :
    (∃ front e behind, Expr.nodesOf l.body.inner = front ++ e :: behind
        ∧ e.induction? = some i ∧ e.writes i.name = 1
        ∧ ∀ e' ∈ front ++ behind, e'.induction?.isSome = true → e'.writes i.name = 0)
      ∧ (l.body.writes i.name = 1
        ↔ ∀ e ∈ Expr.nodesOf l.body.inner, e.induction? = none → e.writes i.name = 0) := by
  obtain ⟨front, e, behind, hsplit, hi, hothers⟩ :=
    Loop.split_of_mem_single (Loop.mem_single_of_ofBody hfound)
  have hone : e.writes i.name = 1 := by
    rw [Expr.writes_of_induction? hi hname, if_pos rfl]
  have hcounted : ∀ e' ∈ front ++ behind, e'.induction?.isSome = true → e'.writes i.name = 0 := by
    intro e' he' hsome
    obtain ⟨j, hj⟩ := Option.isSome_iff_exists.1 hsome
    rw [Expr.writes_of_induction? hj hname, if_neg (hothers e' he' j hj)]
  refine ⟨⟨front, e, behind, hsplit, hi, hone, hcounted⟩, ?_⟩
  have hsum : l.body.writes i.name = 1 + ((front ++ behind).map (·.writes i.name)).sum := by
    unfold Stmt.writes
    rw [hsplit]
    simp only [List.map_append, List.map_cons, List.sum_append, List.sum_cons, hone]
    omega
  have hrest : ((front ++ behind).map (·.writes i.name)).sum = 0
      ↔ ∀ e' ∈ front ++ behind, e'.writes i.name = 0 := by
    rw [List.sum_eq_zero_iff_forall_eq_nat, List.forall_mem_map]
  rw [hsum, hsplit]
  constructor
  · intro htotal e' he' hnone
    -- Nothing is left for the others once the counted write is taken off.
    have hzero := hrest.1 (by omega)
    rcases List.mem_append.1 he' with he' | he'
    · exact hzero e' (List.mem_append_left _ he')
    · rcases List.mem_cons.1 he' with rfl | he'
      · rw [hi] at hnone
        cases hnone
      · exact hzero e' (List.mem_append_right _ he')
  · intro hnone
    rw [hrest.2 fun e' he' => ?_]
    cases hinduction : e'.induction? with
    | some j => exact hcounted e' he' (by rw [hinduction]; rfl)
    | none =>
        refine hnone e' ?_ hinduction
        exact (List.mem_append.1 he').elim (List.mem_append_left _) fun h =>
          List.mem_append_right _ (List.mem_cons_of_mem e h)

/-- The variable is read in a subscript and as an argument, and written
once. -/
theorem found_variable_written_once :
    let i : Induction := ⟨"i", .increasing, "i += 2", "2"⟩
    let l : Loop := ⟨[.nil, .chain [.ident "i", .op "<", .ident "n"], .nil], .block [] [
      .ofExpr (.chain [.chain [.ident "a", .op "[", .ident "i", .op "]"], .op "=",
        .call (.ident "f") (.args [.ident "i", .chain [.ident "j", .op "--"]])]),
      .cond [.ident "j"] (.ofExpr (.chain [.ident "i", .op "+=", .lit "2"])) none {}] {} {},
      none, {}⟩
    (Loop.ofBody l none).2.2 = .ok (some i) ∧ i.name ∉ "" :: Expr.operators
      ∧ l.body.writes "i" = 1 := by
  intro i l
  have hfound : (Loop.ofBody l none).2.2 = .ok (some i) := by decide +kernel
  have hname : i.name ∉ "" :: Expr.operators := by decide
  refine ⟨hfound, hname, (found_variable_written_once_iff hfound hname).2.2 ?_⟩
  decide +kernel

/-- A variable that the scan finds is not always written once: here a second
statement of the body writes it in a comma chain, by an assignment or by
scaling. -/
theorem found_variable_written_twice :
    let i : Induction := ⟨"i", .increasing, "i ++", "1"⟩
    let l : Expr → Loop := fun second => ⟨[.nil, .chain [.ident "i", .op "<", .ident "n"], .nil],
      .block [] [.ofExpr (.chain [.ident "i", .op "++"]), .ofExpr second] {} {}, none, {}⟩
    let second : Expr := .chain [.ident "i", .op "++", .op ",", .ident "j", .op "=", .lit "0"]
    Stmt.parse "while(i < n) \x7b i ++; i ++, j = 0; \x7d" {} = .ok (l second).toStmt
      ∧ ∀ other ∈ [second, .chain [.ident "i", .op "=", .lit "0"],
          .chain [.ident "i", .op "*=", .lit "2"]],
        (Loop.ofBody (l other) none).2.2 = .ok (some i) ∧ (l other).body.writes "i" = 2 := by
  decide +kernel

end RuleBody
