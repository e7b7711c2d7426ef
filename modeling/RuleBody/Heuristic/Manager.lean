/-
  RuleBody.Heuristic.Manager
  ──────────────────────────
  **THE HEURISTICS OF ONE RUN.**

  Every heuristic has a default.  An override of the same name wins over it,
  unless only the defaults are wanted.  The manager remembers which
  heuristics were asked for.
-/
import RuleBody.Heuristic
import RuleBody.Error
import RuleBody.Run

namespace RuleBody

/-- The name of the heuristic that gives the factor of unrolling. -/
def unrollingNumber : String := "UnrollingOptimizer_unrollingNumber"

/-- Heuristics by name, at most one of each name. -/
abbrev Shelf : Type := List (String × Heuristic)

namespace Shelf

/-- The heuristic of a name. -/
def get? (s : Shelf) (name : String) : Option Heuristic :=
  (s.find? (·.1 == name)).map (·.2)

/-- Put a heuristic in the place of its name. -/
def put (s : Shelf) (name : String) (h : Heuristic) : Shelf :=
  (name, h) :: s.filter (·.1 != name)

end Shelf

/-- The heuristics of one run. -/
structure Manager where
  defaults : Shelf := []
  overrides : Shelf := []
  /-- The names of the heuristics that were asked for, in order. -/
  used : List String := []
  /-- Whether overrides are ignored. -/
  onlyDefaults : Bool := false

namespace Manager

/-! ## §1. Settings. -/

/-- Give a heuristic a default without bounds. -/
def registerDefault (m : Manager) (name : String) (formula : Formula) : Manager :=
  { m with defaults := m.defaults.put name { formula } }

/-- The manager with the defaults of the passes: nothing is unrolled, and no
override unrolls by more than sixteen. -/
def withDefaults : Manager :=
  { defaults := [(unrollingNumber, { formula := .const 1, min := 1, max := 16 })] }

/-- Override a heuristic.  The bounds of its default carry over. -/
def setOverride (m : Manager) (name : String) (formula : Formula) : Run Manager := do
  Run.say .debug ("Override for heuristic " ++ name)
  let h : Heuristic :=
    match m.defaults.get? name with
    | some d => { formula, min := d.min, max := d.max }
    | none => { formula }
  return { m with overrides := m.overrides.put name h }

/-! ## §2. Look-up. -/

/-- Whether the override of a name is in force. -/
def isOverridden (m : Manager) (name : String) : Bool :=
  !m.onlyDefaults && (m.overrides.get? name).isSome

/-- The heuristic that is in force for a name. -/
def lookup? (m : Manager) (name : String) : Option Heuristic :=
  if m.isOverridden name then m.overrides.get? name else m.defaults.get? name

/-- Put a heuristic in the place of the one in force. -/
def replace (m : Manager) (name : String) (h : Heuristic) : Manager :=
  if m.isOverridden name then { m with overrides := m.overrides.put name h }
  else { m with defaults := m.defaults.put name h }

/-- Change the heuristic that is in force for a name. -/
def edit (m : Manager) (name : String) (f : Heuristic → Heuristic) : Except Error Manager :=
  match m.lookup? name with
  | some h => .ok (m.replace name (f h))
  | none => .error (.unknownHeuristic name)

/-- Set the lower bound of a heuristic. -/
def setMin (m : Manager) (name : String) (min : Float) : Except Error Manager :=
  m.edit name fun h => { h with min }

/-- Set the upper bound of a heuristic. -/
def setMax (m : Manager) (name : String) (max : Float) : Except Error Manager :=
  m.edit name fun h => { h with max }

/-- Ask for a heuristic; the manager remembers it. -/
def get (m : Manager) (name : String) : Except Error (Manager × Heuristic) :=
  match m.lookup? name with
  | some h => .ok ({ m with used := insertName name m.used }, h)
  | none => .error (.unknownHeuristic name)

/-- Ask a heuristic something. -/
def ask {α : Type} (m : Manager) (name : String) (question : Heuristic → Heuristic × α) :
    Except Error (Manager × α) := do
  let (m, h) ← m.get name
  let (h, answer) := question h
  return (m.replace name h, answer)

end Manager
end RuleBody
