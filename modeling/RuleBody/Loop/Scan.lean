/-
  RuleBody.Loop.Scan
  ──────────────────
  **THE SCAN OF THE BODY.**

  The scan counts, for every variable, the expressions below the body that
  move it.  It walks the body like any other visitor, so the loops inside
  forget what they remember.

  A walk takes the list it works on out of the tree and puts it back at the
  end.  Where an expression cannot be written, the scan faults, and of the
  body only those pieces remain that the walk had not taken out.
-/
import RuleBody.Induction.Idiom
import RuleBody.Loop.Query
import RuleBody.Ordered
import RuleBody.Visitor

namespace RuleBody

/-! ## §1. Candidates. -/

/-- A variable that some expression of the body moves, and how many do. -/
structure Loop.Candidate where
  count : Nat
  /-- The induction that was found first. -/
  induction : Induction
  deriving DecidableEq, Repr

namespace Loop

/-- Count an induction; the candidates are ordered by name. -/
def record (i : Induction) : List Candidate → List Candidate :=
  insertByName (·.induction.name) (fun c => { c with count := c.count + 1 }) ⟨1, i⟩

/-- The inductions of the variables that are moved exactly once. -/
def single (found : List Candidate) : List Induction :=
  (found.filter (·.count == 1)).map (·.induction)

end Loop

/-! ## §2. What a scan leaves when it faults. -/

/-- Whether the verdict on an expression faults. -/
def Expr.lacksVerdict (e : Expr) (threshold : Option Level) : Bool :=
  !(e.verdict? threshold).2.isOk

/-- What remains of a statement when its walk breaks off at a bad
expression: the list that was walked is gone, and in a place for one
statement stands the empty statement. -/
def Stmt.remains (bad : Expr → Bool) (s : Stmt) : Stmt :=
  if Expr.anyNodeIn bad s.exprs then s.withExprs []
  else
    match s with
    | .basic .. | .raw .. => s
    | .block es _ b tags => .block es [] b tags
    | .loop es _ _ tags => .loop es .empty none tags
    | .cond es yes no tags =>
        if yes.anyExpr bad then .cond es .empty no tags
        else .cond es yes (no.map fun _ => .empty) tags
    | .switch es _ tags => .switch es .empty tags

/-! ## §3. The scan. -/

namespace Loop

/-- The visitor that counts which variables are moved. -/
def scanner : Visitor (List Candidate) where
  exprs.before := fun found site => do
    match site.slot with
    | none => return ⟨found, site, none⟩
    | some e =>
        match ← e.verdict? with
        | some (.drives i) =>
            Run.say .debug ("Induction candidate " ++ i.display)
            return ⟨record i found, site, none⟩
        | _ => return ⟨found, site, none⟩

/-- The variables that the body moves. -/
def scan : Query (List Candidate) := fun l threshold =>
  match l.body.accept scanner (Node.stmt l.body).steps [] threshold with
  | (events, .ok r) =>
      (events, l.setBody r.value, r.failure.elim (.ok r.state) fun e => .error (.error e))
  | (events, .error f) =>
      (events, l.setBody (l.body.remains (·.lacksVerdict threshold)), .error (.fault f))

end Loop
end RuleBody
