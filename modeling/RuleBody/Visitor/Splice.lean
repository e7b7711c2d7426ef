/-
  RuleBody.Visitor.Splice
  ───────────────────────
  **LISTS THAT CHANGE WHILE THEY ARE VISITED.**

  The list under a visit is held as two queues: the nodes that will form the
  new list, and the nodes that are still to be visited.  The node in between
  sits in a slot that its visitor may empty or fill anew.  Whatever happens,
  the list can be put together again: the done nodes, then the pending ones.
-/
import RuleBody.Run
import RuleBody.Error

namespace RuleBody

/-! ## §1. The two queues. -/

/-- The queues of a list under a visit. -/
structure Splicer (α : Type) where
  /-- Nodes that will form the new list. -/
  done : List α
  /-- Nodes that are still to be visited. -/
  pending : List α
  deriving DecidableEq, Repr

namespace Splicer

variable {α : Type}

/-- Nothing is done yet. -/
def ofList (xs : List α) : Splicer α := ⟨[], xs⟩

/-- The list as it stands. -/
def toList (q : Splicer α) : List α := q.done ++ q.pending

/-- Insert a node before the current one; it is not visited. -/
def insertBefore (q : Splicer α) (x : α) : Splicer α := { q with done := q.done ++ [x] }

/-- Insert a node behind the current one; it is visited next. -/
def insertAfter (q : Splicer α) (x : α) : Splicer α := { q with pending := x :: q.pending }

/-- Take the next node out before it is visited. -/
def removeNext (q : Splicer α) : Splicer α × Option α :=
  ({ q with pending := q.pending.tail }, q.pending.head?)

@[simp] theorem toList_ofList (xs : List α) : (ofList xs).toList = xs := rfl

@[simp] theorem toList_insertBefore (q : Splicer α) (x : α) :
    (q.insertBefore x).toList = q.done ++ x :: q.pending := by
  simp [insertBefore, toList]

@[simp] theorem toList_insertAfter (q : Splicer α) (x : α) :
    (q.insertAfter x).toList = q.done ++ x :: q.pending := rfl

end Splicer

/-- A slot and the queues around it. -/
structure Site (α : Type) where
  /-- The current node; none if it was deleted. -/
  slot : Option α
  splicer : Splicer α
  deriving DecidableEq, Repr

/-- The queues once the current node is done. -/
def Site.settle {α : Type} (site : Site α) : Splicer α :=
  match site.slot with
  | some x => site.splicer.insertBefore x
  | none => site.splicer

/-! ## §2. Steps that may fail halfway. -/

/-- What a step of a visit leaves: the visitor's state and the visited thing
as they stand, also when the step failed. -/
structure Step (σ α : Type) where
  state : σ
  value : α
  failure : Option Error := none

namespace Step

variable {σ α β : Type}

/-- The same step on something made of the visited thing. -/
def map (f : α → β) (r : Step σ α) : Step σ β := ⟨r.state, f r.value, r.failure⟩

/-- Go on after a step; a failure stays, with the thing rebuilt. -/
def andThen (r : Step σ α) (rebuild : α → β) (next : σ → α → Run (Step σ β)) :
    Run (Step σ β) :=
  match r.failure with
  | some e => pure ⟨r.state, rebuild r.value, some e⟩
  | none => next r.state r.value

end Step

/-- A hook for the node in a slot. -/
abbrev Hook (σ α : Type) : Type := σ → Site α → Run (Step σ (Site α))

/-- The hook that does nothing. -/
def Hook.idle {σ α : Type} : Hook σ α := fun s site => pure ⟨s, site, none⟩

/-- The hooks for lists of one type of nodes. -/
structure Hooks (σ α : Type) where
  /-- Called with each node before its children are visited. -/
  before : Hook σ α := Hook.idle
  /-- Called with each node after its children were visited. -/
  after : Hook σ α := Hook.idle
  /-- Called when the visit of a list begins. -/
  enter : σ → Splicer α → Run (σ × Splicer α) := fun s q => pure (s, q)
  /-- Called when the visit of a list ends, also by a failure. -/
  leave : σ → Splicer α → Run (σ × Splicer α) := fun s q => pure (s, q)

/-! ## §3. Visiting a list. -/

section

variable {σ α : Type} (hooks : Hooks σ α) (descend : σ → α → Run (Step σ α))

/-- Visit the node in a slot: before it, inside it, after it.  A node that
was deleted before is not entered. -/
def visitSite (s : σ) (site : Site α) : Run (Step σ (Site α)) := do
  let entered ← hooks.before s site
  entered.andThen id fun s site => do
    match site.slot with
    | none => hooks.after s site
    | some x =>
        let inner ← descend s x
        inner.andThen (fun x => { site with slot := some x }) fun s x =>
          hooks.after s { site with slot := some x }

/-- Visit the pending nodes one after the other, until one fails. -/
def sweep : Nat → σ → Splicer α → Run (Step σ (Splicer α))
  | 0, _, _ => Run.fault .exhausted
  | _ + 1, s, ⟨done, []⟩ => pure ⟨s, ⟨done, []⟩, none⟩
  | fuel + 1, s, ⟨done, x :: pending⟩ => do
      let r ← visitSite hooks descend s ⟨some x, ⟨done, pending⟩⟩
      (r.map Site.settle).andThen id fun s q => sweep fuel s q

/-- Visit a list.  The nodes that a failure leaves unvisited stay in their
places. -/
def visitList (fuel : Nat) (s : σ) (xs : List α) : Run (Step σ (List α)) := do
  let (s, q) ← hooks.enter s (.ofList xs)
  let r ← sweep hooks descend fuel s q
  let (s, q) ← hooks.leave r.state r.value
  return ⟨s, q.toList, r.failure⟩

end

end RuleBody
