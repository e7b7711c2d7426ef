/-
  RuleBody.Text.Blank
  ───────────────────
  **BLANKS, TRIMMING AND LINES.**

  White space is the Unicode property `White_Space`.  A text is cut into
  lines at line feeds; a carriage return that stands right before a line
  feed belongs to the line end, and a final line feed starts no new line.
-/
import RuleBody.Segments

namespace RuleBody.Text

/-! ## §1. White space. -/

/-- Whether a character is white space. -/
def isWhite (c : Char) : Bool :=
  let n := c.toNat
  (decide (9 ≤ n) && decide (n ≤ 13)) || n == 0x20 || n == 0x85 || n == 0xA0
    || n == 0x1680 || (decide (0x2000 ≤ n) && decide (n ≤ 0x200A))
    || n == 0x2028 || n == 0x2029 || n == 0x202F || n == 0x205F || n == 0x3000

/-- A list of characters without the white space at its end. -/
def dropWhiteEnd (cs : List Char) : List Char :=
  (cs.reverse.dropWhile isWhite).reverse

/-- A text without the white space at its two ends. -/
def trim (s : String) : String :=
  String.ofList (dropWhiteEnd (s.toList.dropWhile isWhite))

/-! ## §2. Lines. -/

/-- Cut at every line feed; there is one more piece than line feeds. -/
def splitLines (cs : List Char) : List (List Char) := cutWhere (· == '\n') cs

/-- A line that ended in a line feed, without a carriage return at its end. -/
def dropReturn (line : List Char) : List Char :=
  if line.getLast? = some '\r' then line.dropLast else line

/-- The lines of a text. -/
def lines (s : String) : List String :=
  (go (splitLines s.toList)).map String.ofList
where
  go : List (List Char) → List (List Char)
    | [] => []
    | [last] => if last.isEmpty then [] else [last]
    | line :: rest => dropReturn line :: go rest

/-! ## §3. Occurrences. -/

/-- Whether the first list of characters occurs in the second. -/
def occursIn (needle : List Char) : List Char → Bool
  | [] => needle.isEmpty
  | c :: cs => needle.isPrefixOf (c :: cs) || occursIn needle cs

/-- Two blanks for each level of indentation; none below zero. -/
def spaces (indent : Int) : String :=
  String.ofList (List.replicate (2 * indent.toNat) ' ')

end RuleBody.Text
