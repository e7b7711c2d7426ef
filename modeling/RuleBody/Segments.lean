/-
  RuleBody.Segments
  ─────────────────
  **CUTTING LISTS INTO SEGMENTS.**

  A text is cut into lines at line feeds, a chain into segments at commas:
  there is always one segment more than there are places to cut at.
-/

namespace RuleBody

section

variable {α : Type} (p : α → Bool)

/-- Cut a list at every element that satisfies `p`; those elements belong to
no segment. -/
def cutWhere : List α → List (List α)
  | [] => [[]]
  | x :: xs =>
      if p x then [] :: cutWhere xs
      else
        match cutWhere xs with
        | [] => [[x]]
        | segment :: others => (x :: segment) :: others

theorem cutWhere_ne_nil (xs : List α) : cutWhere p xs ≠ [] := by
  cases xs with
  | nil => simp [cutWhere]
  | cons x xs =>
      unfold cutWhere
      split
      · simp
      · split <;> simp

end

end RuleBody
