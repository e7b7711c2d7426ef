/-
  RuleBody.Ordered
  ────────────────
  **LISTS ORDERED BY NAME.**

  Tags, features, candidates and lists of names are kept ordered by name,
  with one entry for each name.  There is one way to add to such a list;
  what happens to an entry that is there already is up to the caller.
-/

namespace RuleBody

section

variable {α : Type} (name : α → String)

/-- Put an entry in its place in a list that is ordered by name.  An entry
of the same name becomes what `meet` makes of it. -/
def insertByName (meet : α → α) (x : α) : List α → List α
  | [] => [x]
  | y :: ys =>
      if name x < name y then x :: y :: ys
      else if name x = name y then meet y :: ys
      else y :: insertByName meet x ys

/-- After an insertion the list has the names it had, and the new one. -/
theorem mem_names_insertByName (meet : α → α) (x : α)
    (h : ∀ y, name x = name y → name (meet y) = name y) (n : String) (ys : List α) :
    n ∈ (insertByName name meet x ys).map name ↔ n = name x ∨ n ∈ ys.map name := by
  induction ys with
  | nil => simp [insertByName]
  | cons y ys ih =>
      unfold insertByName
      split
      · simp
      · split
        · rename_i hxy
          simp [h y hxy, hxy]
        · simp only [List.map_cons, List.mem_cons, ih]
          constructor
          · rintro (hn | hn | hn)
            · exact .inr (.inl hn)
            · exact .inl hn
            · exact .inr (.inr hn)
          · rintro (hn | hn | hn)
            · exact .inr (.inl hn)
            · exact .inl hn
            · exact .inr (.inr hn)

end

/-- Add a name to an ordered list of names. -/
def insertName : String → List String → List String :=
  insertByName id id

end RuleBody
