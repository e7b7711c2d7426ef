/-
  RuleBody.Heuristic
  ──────────────────
  **HEURISTICS.**

  A heuristic turns named features of the code into a number.  The formula
  behind it is hidden from those who ask: they see the result after it was
  moved into the heuristic's bounds.  A heuristic counts how often it was
  asked, how often the bounds had to move the result, and which features it
  was given.
-/
import RuleBody.Number.Shortest
import RuleBody.Ordered
import RuleBody.Text.Quoted

namespace RuleBody

/-! ## §1. Features. -/

/-- Named numbers, ordered by name. -/
structure Features where
  entries : List (String × Float) := []

namespace Features

/-- Set a feature; a feature of the same name is replaced. -/
def insert (f : Features) (name : String) (value : Float) : Features :=
  ⟨insertByName (·.1) (fun _ => (name, value)) (name, value) f.entries⟩

/-- The features of a list; of two with one name the later counts. -/
def ofList (entries : List (String × Float)) : Features :=
  entries.foldl (fun f e => f.insert e.1 e.2) {}

/-- The names of the features, in order. -/
def names (f : Features) : List String := f.entries.map (·.1)

/-- The value of a feature; zero if it is not given. -/
def value (f : Features) (name : String) : Float :=
  ((f.entries.find? (·.1 == name)).map (·.2)).getD 0

/-- The features in braces. -/
def display (f : Features) : String :=
  "\x7b" ++ ", ".intercalate (f.entries.map fun e => Text.quote e.1 ++ ": " ++ Number.display e.2)
    ++ "\x7d"

end Features

/-! ## §2. Formulas. -/

/-- A way to turn features into a number. -/
structure Formula where
  eval : Features → Float
  /-- Whether the formula is known to ignore the features. -/
  constant : Bool := false

namespace Formula

/-- The formula that ignores the features. -/
def const (value : Float) : Formula := ⟨fun _ => value, true⟩

instance : Inhabited Formula := ⟨const 0⟩

/-- A weighted sum of features, added to an offset from left to right. -/
def linear (offset : Float) (terms : List (String × Float)) : Formula :=
  ⟨fun f => terms.foldl (fun sum t => sum + t.2 * f.value t.1) offset, false⟩

/-- A choice between two formulas by whether a feature is above a bound. -/
def choice (feature : String) (bound : Float) (above others : Formula) : Formula :=
  ⟨fun f => if bound < f.value feature then above.eval f else others.eval f, false⟩

end Formula

/-! ## §3. Heuristics. -/

/-- A formula with bounds and counters. -/
structure Heuristic where
  formula : Formula
  min : Float := -(1.0 / 0.0)
  max : Float := 1.0 / 0.0
  /-- How often the heuristic was asked. -/
  uses : Nat := 0
  /-- How often a result was below the bounds. -/
  tooLow : Nat := 0
  /-- How often a result was above the bounds. -/
  tooHigh : Nat := 0
  /-- The names of all features that were given so far, in order. -/
  features : List String := []

namespace Heuristic

/-- Count a question. -/
def record (h : Heuristic) (f : Features) : Heuristic :=
  { h with uses := h.uses + 1, features := f.names.foldl (fun ns n => insertName n ns) h.features }

/-- Move a result into the bounds.  What is neither below nor above them
stays as it is. -/
def clamp (h : Heuristic) (x : Float) : Heuristic × Float :=
  if x < h.min then ({ h with tooLow := h.tooLow + 1 }, h.min)
  else if h.max < x then ({ h with tooHigh := h.tooHigh + 1 }, h.max)
  else (h, x)

/-- Ask for a number. -/
def evalFloat (h : Heuristic) (f : Features) : Heuristic × Float :=
  (h.record f).clamp (h.formula.eval f)

/-- Ask for an integer of 64 bits: the result is rounded, a half away from
zero, before it is moved into the bounds, and what is no number counts as
zero. -/
def evalInt (h : Heuristic) (f : Features) : Heuristic × Int :=
  let (h, x) := (h.record f).clamp (h.formula.eval f).round
  (h, x.toInt64.toInt)

/-- Ask a question: everything but zero is a yes.  The bounds play no part. -/
def evalBool (h : Heuristic) (f : Features) : Heuristic × Bool :=
  (h.record f, h.formula.eval f != 0)

/-- A summary of the heuristic. -/
def display (h : Heuristic) : String :=
  "Heuristic \x7b constant: " ++ toString h.formula.constant ++ ", min: " ++ Number.display h.min
    ++ ", max: " ++ Number.display h.max ++ ", uses: " ++ toString h.uses ++ " \x7d"

end Heuristic
end RuleBody
