/-
  RuleBody.Proofs.Containment
  ───────────────────────────
  **LOOKING FOR LINES IN ORDER.**

  A text is checked against lines that it has to contain: each in a line of
  its own, in the same order, with other lines in between.  The check goes
  through the text once.  It takes the first line that contains what it is
  looking for, and never goes back:

      looked for      a, b
      text            xay, ab, b      — `a` is found in `xay`, `b` in `ab`

  Nothing is missed that way (`contained_iff_assigned`).  Where the lines can
  be found at all, the first one can be found in the first line that contains
  it, because that leaves the most lines for the others
  (`laidOut_cons_iff`).  Where they cannot, the line that is reported is the
  first with which they can no longer be.

  §1  lines that contain lines;
  §2  the first line that contains a part;
  §3  one expected line;
  §4  all of them.
-/
import Mathlib.Data.List.Forall2
import Mathlib.Data.List.NodupEquivFin
import RuleBody.Check.Lines

namespace RuleBody

/-! ## §1. Lines that contain lines. -/

theorem Text.occursIn_iff {needle cs : List Char} :
    Text.occursIn needle cs = true ↔ needle <:+: cs := by
  induction cs with
  | nil => simp [Text.occursIn]
  | cons c cs ih =>
      rw [Text.occursIn, Bool.or_eq_true, List.isPrefixOf_iff_prefix, ih]
      exact List.infix_cons_iff.symm

namespace Check

/-- The part stands somewhere in the line. -/
def Inside (part line : String) : Prop := part.toList <:+: line.toList

theorem lineContains_iff {line part : String} : lineContains line part = true ↔ Inside part line :=
  Text.occursIn_iff

/-- The parts can be assigned to lines that contain them, in order and each
to a line of its own. -/
def LaidOut (parts lines : List String) : Prop :=
  ∃ f : Fin parts.length → Fin lines.length, StrictMono f
    ∧ ∀ i, Inside (parts.get i) (lines.get (f i))

/-- An assignment is a choice of lines, one for each part. -/
theorem laidOut_iff_sublistForall₂ {parts lines : List String} :
    LaidOut parts lines ↔ List.SublistForall₂ Inside parts lines := by
  rw [List.sublistForall₂_iff]
  constructor
  · rintro ⟨f, hmono, hinside⟩
    -- The lines that the assignment names are in the order of the text.
    refine ⟨List.ofFn fun i => lines.get (f i), ?_, ?_⟩
    · refine List.forall₂_iff_get.2 ⟨by simp, fun i hi hi' => ?_⟩
      simpa using hinside ⟨i, hi⟩
    · refine List.sublist_iff_exists_fin_orderEmbedding_get_eq.2
        ⟨OrderEmbedding.ofStrictMono (fun i => f (i.cast (by simp))) fun i j hij => hmono hij, ?_⟩
      exact fun i => List.get_ofFn _ i
  · rintro ⟨chosen, hall, hsub⟩
    obtain ⟨g, hg⟩ := List.sublist_iff_exists_fin_orderEmbedding_get_eq.1 hsub
    refine ⟨fun i => g (i.cast hall.length_eq), fun i j hij => g.strictMono hij, fun i => ?_⟩
    rw [← hg]
    exact hall.get i.isLt (hall.length_eq ▸ i.isLt)

theorem laidOut_nil (lines : List String) : LaidOut [] lines :=
  laidOut_iff_sublistForall₂.2 .nil

/-! ## §2. The first line that contains a part. -/

section

variable {part : String} {parts lines : List String}

/-- What can be found behind a part can be found without it. -/
theorem sublistForall₂_tail (h : List.SublistForall₂ Inside (part :: parts) lines) :
    List.SublistForall₂ Inside parts lines := by
  induction lines with
  | nil => cases h
  | cons line lines ih =>
      cases h with
      | cons _ hrest => exact .cons_right hrest
      | cons_right hlater => exact .cons_right (ih hlater)

/-- **The first line that contains a part is as good as any.**  If the part
and others behind it can be found, then the others can be found behind that
line. -/
theorem laidOut_cons_iff :
    LaidOut (part :: parts) lines
      ↔ ∃ rest, behind? part lines = some rest ∧ LaidOut parts rest := by
  simp only [laidOut_iff_sublistForall₂]
  induction lines with
  | nil =>
      constructor
      · intro h
        cases h
      · rintro ⟨rest, hrest, _⟩
        cases hrest
  | cons line lines ih =>
      unfold behind?
      by_cases hline : lineContains line part = true
      · simp only [hline, ↓reduceIte, Option.some.injEq, exists_eq_left']
        constructor
        · intro h
          cases h with
          | cons _ hrest => exact hrest
          -- A later line was chosen for the part: this one could have been.
          | cons_right hlater => exact sublistForall₂_tail hlater
        · exact fun hrest => .cons (lineContains_iff.1 hline) hrest
      · rw [if_neg hline, ← ih]
        constructor
        · intro h
          cases h with
          | cons hinside _ => exact absurd (lineContains_iff.2 hinside) hline
          | cons_right hlater => exact hlater
        · exact .cons_right

end

/-! ## §3. One expected line. -/

/-- What is looked for: the lines without the blanks at their ends, as far as
something is left of them. -/
def wanted (expected : List String) : List String :=
  (expected.map Text.trim).filter (· ≠ "")

theorem wanted_cons (e : String) (expected : List String) :
    wanted (e :: expected)
      = if (Text.trim e).isEmpty then wanted expected else Text.trim e :: wanted expected := by
  by_cases h : Text.trim e = "" <;> simp [wanted, h]

/-- What the check does with one expected line: it goes on behind some line,
from where the other lines can be found if they can be with this one, or it
stops, and then this one cannot be found. -/
theorem missing?_cons (i : Nat) (actual : List String) (e : String) (expected : List String) :
    (∃ rest, missing? i actual (e :: expected) = missing? (i + 1) rest expected
        ∧ ∀ others, LaidOut (wanted (e :: others)) actual ↔ LaidOut (wanted others) rest)
      ∨ (missing? i actual (e :: expected) = some i
        ∧ ∀ others, ¬ LaidOut (wanted (e :: others)) actual) := by
  simp only [missing?, wanted_cons]
  by_cases hempty : (Text.trim e).isEmpty = true
  · -- A blank line is counted, but not looked for.
    exact .inl ⟨actual, by rw [if_pos hempty], fun others => by rw [if_pos hempty]⟩
  · simp only [if_neg hempty, laidOut_cons_iff]
    cases hbehind : behind? (Text.trim e) actual with
    | none => exact .inr ⟨rfl, by simp⟩
    | some rest => exact .inl ⟨rest, rfl, by simp⟩

/-! ## §4. All of them. -/

/-- The line is the first with which the expected lines cannot be found. -/
structure FirstMissing (actual expected : List String) (k : Nat) : Prop where
  isLine : k < expected.length
  before : LaidOut (wanted (expected.take k)) actual
  missing : ¬ LaidOut (wanted (expected.take (k + 1))) actual

/-- The check ends without a missing line if all can be found, and else with
the first that cannot be. -/
theorem missing?_spec (i : Nat) (actual expected : List String) :
    (missing? i actual expected = none ∧ LaidOut (wanted expected) actual)
      ∨ ∃ k, missing? i actual expected = some (i + k) ∧ FirstMissing actual expected k
        ∧ ¬ LaidOut (wanted expected) actual := by
  -- The lines of the text that are left, and the number of the line, vary.
  induction expected generalizing i actual with
  | nil => exact .inl ⟨rfl, laidOut_nil actual⟩
  | cons e expected ih =>
      rcases missing?_cons i actual e expected with ⟨rest, hstep, hlaid⟩ | ⟨hstop, hnone⟩
      · rw [hstep, hlaid]
        refine (ih (i + 1) rest).imp id ?_
        rintro ⟨k, hk, hfirst, hnot⟩
        refine ⟨k + 1, by rw [hk, Nat.add_right_comm, Nat.add_assoc], ?_, hnot⟩
        exact ⟨Nat.succ_lt_succ hfirst.isLine, (hlaid _).2 hfirst.before,
          fun h => hfirst.missing ((hlaid _).1 h)⟩
      · exact .inr ⟨0, hstop, ⟨Nat.succ_pos _, laidOut_nil actual, hnone _⟩, hnone _⟩

/-- **A text contains the expected lines exactly if they can be assigned to
its lines**, strictly in order and each to a line that contains it, blank
lines aside.  If they cannot, the first one is reported with which they
cannot. -/
theorem contained_iff_assigned (actual expected : String) :
    (contain actual expected = .ok ()
        ↔ ∃ f : Fin (wanted (linesOf expected)).length → Fin (linesOf actual).length,
          StrictMono f
            ∧ ∀ i, Inside ((wanted (linesOf expected)).get i) ((linesOf actual).get (f i)))
      ∧ (contain actual expected = .ok ()
        ∨ ∃ k, contain actual expected
              = .error (.lineMissing (showMissing (linesOf expected) k))
            ∧ FirstMissing (linesOf actual) (linesOf expected) k) := by
  rcases missing?_spec 0 (linesOf actual) (linesOf expected) with
    ⟨hnone, hlaid⟩ | ⟨k, hk, hfirst, hnot⟩
  · have hok : contain actual expected = .ok () := by
      unfold contain
      rw [hnone]
    exact ⟨iff_of_true hok hlaid, .inl hok⟩
  · rw [Nat.zero_add] at hk
    have herror : contain actual expected
        = .error (.lineMissing (showMissing (linesOf expected) k)) := by
      unfold contain
      rw [hk]
    refine ⟨iff_of_false (fun hok => ?_) hnot, .inr ⟨k, herror, hfirst⟩⟩
    rw [herror] at hok
    cases hok

-- One line that contains two parts is not enough for both.
example : contain "xay\nab\nb" "a\n\n  b" = .ok () ∧ contain "ab" "a\nb" ≠ .ok () := by
  decide +kernel

end Check
end RuleBody
