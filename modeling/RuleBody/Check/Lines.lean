/-
  RuleBody.Check.Lines
  ────────────────────
  **COMPARING TEXTS LINE BY LINE.**

  Two texts agree exactly if they have the same lines, blanks around a line
  aside.  A text contains another if the lines of the other occur inside
  lines of the first, in the same order, each in a line of its own; empty
  lines are not looked for.
-/
import RuleBody.Fault
import RuleBody.Text.Blank

namespace RuleBody.Check

/-- The lines of a text, without the blanks at its two ends. -/
def linesOf (s : String) : List String := Text.lines (Text.trim s)

/-! ## §1. Exact agreement. -/

/-- Insist that two lists of lines agree; `i` is the number of the first
line. -/
def sameLines : Nat → List String → List String → Except Fault Unit
  | _, [], [] => .ok ()
  | i, [], _ :: _ => .error (.lineNotActual i)
  | i, _ :: _, [] => .error (.lineNotExpected i)
  | i, a :: actual, e :: expected =>
      if Text.trim a = Text.trim e then sameLines (i + 1) actual expected
      else .error .lineDiffers

/-- Insist that two texts agree. -/
def exact (actual expected : String) : Except Fault Unit :=
  sameLines 0 (linesOf actual) (linesOf expected)

/-! ## §2. Containment. -/

/-- Whether a line contains another. -/
def lineContains (line part : String) : Bool :=
  Text.occursIn part.toList line.toList

/-- The lines behind the first one that contains the part. -/
def behind? (part : String) : List String → Option (List String)
  | [] => none
  | line :: lines => if lineContains line part then some lines else behind? part lines

/-- The number of the first expected line that cannot be found; `i` is the
number of the first line. -/
def missing? : Nat → List String → List String → Option Nat
  | _, _, [] => none
  | i, actual, e :: expected =>
      let part := Text.trim e
      if part.isEmpty then missing? (i + 1) actual expected
      else
        match behind? part actual with
        | some rest => missing? (i + 1) rest expected
        | none => some i

/-- The expected lines with a mark behind one of them. -/
def showMissing (expected : List String) (i : Nat) : String :=
  "A line is missing from the output:\n" ++ "\n".intercalate
    ("```" :: expected.modify i (· ++ "   <== missing") ++ ["```"])

/-- Insist that a text contains another. -/
def contain (actual expected : String) : Except Fault Unit :=
  match missing? 0 (linesOf actual) (linesOf expected) with
  | none => .ok ()
  | some i => .error (.lineMissing (showMissing (linesOf expected) i))

end RuleBody.Check
