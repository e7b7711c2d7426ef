/-
  RuleBody.Tags
  ─────────────
  **TAGS ON NODES.**

  Passes mark nodes with named tags, such as `justUnrolled`.  A tag may
  carry a value, but most tags are plain marks.  Tags are kept in the order
  of their names.
-/
import RuleBody.Ordered
import RuleBody.Run

namespace RuleBody

/-- Named tags, ordered by name. -/
structure Tags where
  entries : List (String × Option String) := []
  deriving DecidableEq, Repr, Inhabited

namespace Tags

/-! ## §1. Queries. -/

/-- Whether no tag is set. -/
def isEmpty (tags : Tags) : Bool :=
  tags.entries.isEmpty

/-- The number of tags. -/
def size (tags : Tags) : Nat :=
  tags.entries.length

/-- The names of the tags, in order. -/
def names (tags : Tags) : List String :=
  tags.entries.map (·.1)

/-- Whether the tag is set. -/
def has (tags : Tags) (name : String) : Bool :=
  tags.names.contains name

/-- The value of the tag; none also for a tag without value. -/
def get? (tags : Tags) (name : String) : Option String :=
  (tags.entries.find? (·.1 == name)).bind (·.2)

/-- The tags in braces. -/
def display (tags : Tags) : String :=
  "\x7b" ++ ", ".intercalate (tags.entries.map entry) ++ "\x7d"
where
  entry : String × Option String → String
    | (name, none) => name
    | (name, some value) => name ++ "=" ++ value

/-! ## §2. Changes. -/

/-- Set a tag; a tag of the same name is replaced. -/
def insert (tags : Tags) (name : String) (value : Option String) : Tags :=
  ⟨insertByName (·.1) (fun _ => (name, value)) (name, value) tags.entries⟩

/-- Unset a tag. -/
def erase (tags : Tags) (name : String) : Tags :=
  ⟨tags.entries.filter (·.1 != name)⟩

/-- Set a tag, with a warning if it is set already. -/
def add (tags : Tags) (name : String) (value : Option String) : Run Tags := do
  if tags.has name then
    Run.say .warn ("Annotation " ++ name ++ " was already present")
  return tags.insert name value

/-- Unset a tag that has to be set. -/
def remove (tags : Tags) (name : String) : Except Fault Tags :=
  if tags.has name then .ok (tags.erase name) else .error (.noTag name)

end Tags
end RuleBody
