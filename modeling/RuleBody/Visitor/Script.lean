/-
  RuleBody.Visitor.Script
  ───────────────────────
  **VISITORS MADE OF RULES.**

  A script is a list of rules.  A rule names the moment of a walk at which
  it acts, the nodes it is meant for, which of its hits count, and what to
  do then.  At each moment the rules are tried in order on the node as the
  rules before have left it.

  A script can add work without end, so it has a budget of hooks; beyond
  the budget it fails.
-/
import RuleBody.Parse.Fragment
import RuleBody.Visitor.Print

namespace RuleBody

namespace Script

/-! ## §1. Rules. -/

/-- The moments of a walk at which a rule may act. -/
inductive Moment where
  | beforeExpr
  | afterExpr
  | beforeStmt
  | afterStmt
  | beforeBlock
  | afterBlock
  /-- The question whether to walk the children of a node. -/
  | skip
  deriving DecidableEq, Repr

/-- The name of a moment. -/
def Moment.name : Moment → String
  | .beforeExpr => "before_expr"
  | .afterExpr => "after_expr"
  | .beforeStmt => "before_stmt"
  | .afterStmt => "after_stmt"
  | .beforeBlock => "before_block"
  | .afterBlock => "after_block"
  | .skip => "skip"

/-- Every moment. -/
def Moment.all : List Moment :=
  [.beforeExpr, .afterExpr, .beforeStmt, .afterStmt, .beforeBlock, .afterBlock, .skip]

/-- What a rule does with the node it fires on.  New nodes are given by
their source. -/
inductive Action where
  | delete
  | replace (src : String)
  | insertBefore (src : String)
  | insertAfter (src : String)
  | removeNext
  | fail (message : String)
  | tag (name : String) (value : Option String)
  | untag (name : String)
  /-- Add a statement to a block. -/
  | append (src : String)
  /-- Drop the statements of a block. -/
  | clear
  deriving DecidableEq, Repr

/-- A rule.  A condition that is not given holds of every node. -/
structure Rule where
  moment : Moment
  /-- The name of the node's kind. -/
  kind : Option String := none
  /-- A leaf that occurs in the node. -/
  leaf : Option String := none
  /-- The text of the node. -/
  text : Option String := none
  /-- A tag that the node has. -/
  has : Option String := none
  /-- The only hit to fire at, counted from one. -/
  nth : Option Nat := none
  /-- Fire only at multiples of this number of hits. -/
  every : Option Nat := none
  actions : List Action := []
  deriving DecidableEq, Repr

/-- A rule and how often it was hit. -/
structure Armed where
  rule : Rule
  hits : Nat := 0
  deriving DecidableEq, Repr

/-- Whether an optional condition holds. -/
def ifGiven {α : Type} (condition : Option α) (test : α → Bool) : Bool :=
  condition.elim true test

/-- Whether a rule is hit by a node at a moment.  The text is only made for
a rule that asks for it and has found no other reason to refuse. -/
def Rule.hit (r : Rule) (moment : Moment) (n : Node) : Except Fault Bool :=
  if r.moment = moment && ifGiven r.kind (n.kind.name == ·)
      && ifGiven r.leaf (fun leaf => moment != .skip && n.containsLeaf leaf) then
    match r.text with
    | none => .ok (ifGiven r.has n.tags.has)
    | some text => do return (← n.print) == text && ifGiven r.has n.tags.has
  else .ok false

/-- Count a hit. -/
def Armed.count (a : Armed) : Armed := { a with hits := a.hits + 1 }

/-- Whether the last hit makes the rule fire. -/
def Armed.fires (a : Armed) : Bool :=
  ifGiven a.rule.nth (· == a.hits) && ifGiven a.rule.every (a.hits % · == 0)

/-! ## §2. Actions. -/

/-- What a script needs to know about the nodes of a list. -/
structure Material (α : Type) where
  asNode : α → Node
  parse : String → Location → Except Error α
  withTags : α → Tags → α

/-- Expressions as material. -/
def Material.expr : Material Expr := ⟨.expr, Expr.parse, fun e tags => { e with tags }⟩

/-- Statements as material. -/
def Material.stmt : Material Stmt := ⟨.stmt, Stmt.parse, Stmt.withTags⟩

/-- The trace of a walk, kept only if it is wanted. -/
structure Trace where
  wanted : Bool
  lines : List String := []
  deriving DecidableEq, Repr

/-- Note a line; it is only made if the trace is wanted. -/
def Trace.note (t : Trace) (line : Unit → Except Fault String) : Except Fault Trace :=
  if t.wanted then do return { t with lines := t.lines ++ [← line ()] } else .ok t

/-- Do something with a node given by its source, if that can be read. -/
def withSource {α β : Type} (read : Except Error α) (t : Trace) (old : β) (f : α → β) :
    Step Trace β :=
  match read with
  | .ok x => ⟨t, f x, none⟩
  | .error e => ⟨t, old, some e⟩

/-- Act on the node in a slot.  Tags of a deleted node are left alone. -/
def actOnSite {α : Type} (m : Material α) (t : Trace) (site : Site α) :
    Action → Run (Step Trace (Site α))
  | .delete => return ⟨t, { site with slot := none }, none⟩
  | .replace src =>
      return withSource (m.parse src {}) t site fun x => { site with slot := some x }
  | .insertBefore src =>
      return withSource (m.parse src {}) t site fun x =>
        { site with splicer := site.splicer.insertBefore x }
  | .insertAfter src =>
      return withSource (m.parse src {}) t site fun x =>
        { site with splicer := site.splicer.insertAfter x }
  | .removeNext => do
      let (splicer, removed) := site.splicer.removeNext
      let t ← t.note fun _ =>
        match removed with
        | none => .ok "removed -"
        | some x => do return "removed " ++ (← (m.asNode x).print)
      return ⟨t, { site with splicer }, none⟩
  | .fail message => return ⟨t, site, some (.custom message)⟩
  | .tag name value =>
      match site.slot with
      | none => return ⟨t, site, none⟩
      | some x => do
          let tags ← (m.asNode x).tags.add name value
          return ⟨t, { site with slot := some (m.withTags x tags) }, none⟩
  | .untag name =>
      match site.slot with
      | none => return ⟨t, site, none⟩
      | some x => do
          let tags ← ((m.asNode x).tags.remove name : Run _)
          return ⟨t, { site with slot := some (m.withTags x tags) }, none⟩
  | .append _ | .clear => return ⟨t, site, none⟩

/-- Act on a block. -/
def actOnBlock (t : Trace) (b : Block) : Action → Run (Step Trace Block)
  | .append src => return withSource (Stmt.parse src {}) t b b.addStmt
  | .clear => return ⟨t, { b with stmts := [] }, none⟩
  | .fail message => return ⟨t, b, some (.custom message)⟩
  | .tag name value => do return ⟨t, { b with tags := ← b.tags.add name value }, none⟩
  | .untag name => do return ⟨t, { b with tags := ← (b.tags.remove name : Run _) }, none⟩
  | .delete | .replace _ | .insertBefore _ | .insertAfter _ | .removeNext =>
      return ⟨t, b, none⟩

/-! ## §3. Trying the rules. -/

section

variable {τ : Type} (act : Trace → τ → Action → Run (Step Trace τ)) (view : τ → Option Node)

/-- Act until an action fails. -/
def actAll : Trace → τ → List Action → Run (Step Trace τ)
  | t, x, [] => return ⟨t, x, none⟩
  | t, x, a :: as => do
      let r ← act t x a
      r.andThen id fun t x => actAll t x as

/-- Try the rules in order; the answer holds the rules with their hits. -/
def tryRules (moment : Moment) : Trace → τ → List Armed → Run (Step (Trace × List Armed) τ)
  | t, x, [] => return ⟨(t, []), x, none⟩
  | t, x, a :: others => do
      let hit ← ((view x).elim (.ok false) (a.rule.hit moment) : Except Fault Bool)
      let a := if hit then a.count else a
      let r ← if hit && a.fires then actAll act t x a.rule.actions else pure ⟨t, x, none⟩
      match r.failure with
      | some e => return ⟨(r.state, a :: others), r.value, some e⟩
      | none =>
          let q ← tryRules moment r.state r.value others
          return ⟨(q.state.1, a :: q.state.2), q.value, q.failure⟩

end

/-- Whether one of the rules forbids to walk the children of a node; the
first that fires ends the search. -/
def forbids (n : Node) : List Armed → Except Fault (List Armed × Bool)
  | [] => .ok ([], false)
  | a :: others => do
      let hit ← a.rule.hit .skip n
      let a := if hit then a.count else a
      if hit && a.fires then return (a :: others, true)
      else
        let (others, forbidden) ← forbids n others
        return (a :: others, forbidden)

/-! ## §4. The visitor. -/

/-- What a script holds during a walk. -/
structure State where
  rules : List Armed
  trace : Trace
  /-- The hooks that may still be called. -/
  budget : Nat
  deriving DecidableEq, Repr

/-- The number of hooks that a script may call. -/
def hookBudget : Nat := 20000

/-- Steps that are enough for every walk within the budget: each node that
is visited costs a hook, and only a node that is visited is entered. -/
def steps : Nat := hookBudget + 8

/-- A script before a walk. -/
def start (rules : List Rule) (traced : Bool) : State :=
  ⟨rules.map fun r => ⟨r, 0⟩, ⟨traced, []⟩, hookBudget⟩

/-- The lengths of the two queues. -/
def lengths {α : Type} (q : Splicer α) : String :=
  toString q.done.length ++ "/" ++ toString q.pending.length

/-- The hook of one moment for the node in a slot. -/
def siteHook {α : Type} (m : Material α) (moment : Moment) : Hook State α := fun s site => do
  let trace ← s.trace.note fun _ =>
    .ok (moment.name ++ " " ++ (site.slot.elim "-" fun x => (m.asNode x).label) ++ " "
      ++ lengths site.splicer)
  match s.budget with
  | 0 => return ⟨{ s with trace }, site, some (.custom "out of fuel")⟩
  | budget + 1 =>
      let r ← tryRules (actOnSite m) (fun site => site.slot.map m.asNode) moment trace site s.rules
      return ⟨⟨r.state.2, r.state.1, budget⟩, r.value, r.failure⟩

/-- The hook of one moment for a block. -/
def blockHook (moment : Moment) (s : State) (b : Block) : Run (Step State Block) := do
  let trace ← s.trace.note fun _ => .ok (moment.name ++ " " ++ toString b.stmts.length)
  let r ← tryRules actOnBlock (some ∘ Node.block) moment trace b s.rules
  return ⟨{ s with rules := r.state.2, trace := r.state.1 }, r.value, r.failure⟩

/-- Note that the visit of a list begins or ends. -/
def listHook {α : Type} (name : String) (s : State) (q : Splicer α) :
    Run (State × Splicer α) := do
  let trace ← s.trace.note fun _ => .ok (name ++ " " ++ lengths q)
  return ({ s with trace }, q)

/-- The visitor that follows the rules. -/
def visitor : Visitor State where
  exprs :=
    { before := siteHook .expr .beforeExpr
      after := siteHook .expr .afterExpr
      enter := listHook "push_expr"
      leave := listHook "pop_expr" }
  stmts :=
    { before := siteHook .stmt .beforeStmt
      after := siteHook .stmt .afterStmt
      enter := listHook "push_stmt"
      leave := listHook "pop_stmt" }
  beforeBlock := blockHook .beforeBlock
  afterBlock := blockHook .afterBlock
  descends := fun s n => do
    let (rules, forbidden) ← (forbids n s.rules : Run _)
    let trace ← s.trace.note fun _ =>
      .ok ("descend " ++ n.kind.name ++ (if forbidden then " false" else " true"))
    return ({ s with rules, trace }, !forbidden)

end Script

/-- Walk the children of a node by a script. -/
def Node.acceptScript (n : Node) (rules : List Script.Rule) (traced : Bool) :
    Run (Step Script.State Node) :=
  n.accept Script.visitor Script.steps (Script.start rules traced)

/-- Write a node with its children left to a script. -/
def Node.printWithScript (n : Node) (rules : List Script.Rule) (traced : Bool) :
    Run (Step Script.State (Written Node)) :=
  n.printWith Script.visitor Script.steps (Script.start rules traced)

/-- Walk a whole rule body by a script. -/
def Block.applyScript (b : Block) (rules : List Script.Rule) (traced : Bool) :
    Run (Step Script.State Block) :=
  Script.visitor.apply Script.steps (Script.start rules traced) b

end RuleBody
