/-
  RuleBody.Location
  ─────────────────
  **PLACES IN A SOURCE TEXT.**

  A place is a line, a column and an index, all counted from zero in
  characters.  `Location.past` moves a place over characters, `offsetBy`
  carries a place inside a fragment over to the text that the fragment was
  taken from, and `picture` shows a message under the line it is about.
-/
import RuleBody.Text.Blank

namespace RuleBody

/-- A place in a source text. -/
structure Location where
  /-- Line feeds before the place. -/
  line : Nat := 0
  /-- Characters between the last line feed and the place. -/
  column : Nat := 0
  /-- Characters before the place. -/
  start : Nat := 0
  deriving DecidableEq, Repr, Inhabited

namespace Location

/-! ## §1. Moving. -/

/-- The place behind one more character. -/
def next (l : Location) (c : Char) : Location :=
  if c = '\n' then ⟨l.line + 1, 0, l.start + 1⟩ else ⟨l.line, l.column + 1, l.start + 1⟩

/-- The place behind some characters. -/
def past (l : Location) (cs : List Char) : Location :=
  cs.foldl next l

@[simp] theorem past_nil (l : Location) : l.past [] = l := rfl

@[simp] theorem past_cons (l : Location) (c : Char) (cs : List Char) :
    l.past (c :: cs) = (l.next c).past cs := rfl

theorem past_append (l : Location) (cs ds : List Char) :
    l.past (cs ++ ds) = (l.past cs).past ds := by
  simp [past, List.foldl_append]

/-- A place inside a fragment, seen from the text that holds the fragment
at `origin`.  Only the first line of the fragment shares its columns. -/
def offsetBy (l origin : Location) : Location :=
  ⟨origin.line + l.line, if l.line = 0 then origin.column + l.column else l.column,
    origin.start + l.start⟩

/-! ## §2. Showing. -/

/-- A place as it stands in messages. -/
def display (l : Location) : String :=
  "loc(:" ++ toString l.line ++ ":" ++ toString l.column ++ ")"

/-- A message below the line it is about and the line before that.  A place
behind the last line is shown on the last line. -/
def picture (src : String) (l : Location) (message : String) : String :=
  let lines := (Text.splitLines src.toList).map String.ofList
  let n := min l.line (lines.length - 1)
  let before :=
    if n = 0 then "" else "\n" ++ toString (n - 1) ++ "  | " ++ lines.getD (n - 1) ""
  let number := toString n
  "```" ++ before ++ "\n" ++ number ++ "  | " ++ lines.getD n ""
    ++ "\n" ++ String.ofList (List.replicate (l.column + (4 + number.length)) ' ')
    ++ "^ " ++ message ++ "\n```"

end Location
end RuleBody
