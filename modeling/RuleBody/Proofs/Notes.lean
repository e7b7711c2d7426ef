/-
  RuleBody.Proofs.Notes
  ─────────────────────
  **NOTES ON LOOPS.**

  Every loop carries notes: its tags, and the induction that it may
  remember.  `renote` changes the notes of all loops of a tree and nothing
  else, so neither the text of the tree nor the number of its nodes depends
  on it.  Two changes matter: a tree that forgets all its inductions, and a
  tree whose loops lose the tag of an unrolling.

  §1  induction over statements;
  §2  the change of notes;
  §3  what does not depend on notes;
  §4  the loops of a tree.
-/
import RuleBody.Proofs.Words
import RuleBody.Node
import RuleBody.Pass.Unroll

namespace RuleBody

/-! ## §1. Induction over statements. -/

/-- A property of all statements follows from what holds inside them. -/
theorem Stmt.inductionOn {P : Stmt → Prop} (basic : ∀ es tags, P (.basic es tags))
    (block : ∀ es ss b tags, (∀ s ∈ ss, P s) → P (.block es ss b tags))
    (raw : ∀ es src tags, P (.raw es src tags))
    (loop : ∀ es body i tags, P body → P (.loop es body i tags))
    (cond : ∀ es yes no tags, P yes → (∀ s ∈ no, P s) → P (.cond es yes no tags))
    (switch : ∀ es body tags, P body → P (.switch es body tags)) (s : Stmt) : P s :=
  @Stmt.rec P (fun ss => ∀ s ∈ ss, P s) (fun no => ∀ s ∈ no, P s) basic
    (fun es ss b tags h => block es ss b tags h) raw (fun es body i tags h => loop es body i tags h)
    (fun es yes no tags hyes hno => cond es yes no tags hyes hno)
    (fun es body tags h => switch es body tags h) (fun _ h => absurd h List.not_mem_nil)
    (fun _ _ hs hss => List.forall_mem_cons.2 ⟨hs, hss⟩) (fun _ h => nomatch h)
    (fun _ hs _ h => Option.some.inj h ▸ hs) s

/-! ## §2. The change of notes. -/

/-- The notes on a loop: what it remembers, and its tags. -/
abbrev Notes : Type := Option Induction × Tags

namespace Stmt

mutual

/-- The statement with other notes on its loops. -/
def renote (f : Notes → Notes) : Stmt → Stmt
  | .basic es tags => .basic es tags
  | .block es ss b tags => .block es (renoteAll f ss) b tags
  | .raw es src tags => .raw es src tags
  | .loop es body i tags => .loop es (renote f body) (f (i, tags)).1 (f (i, tags)).2
  | .cond es yes none tags => .cond es (renote f yes) none tags
  | .cond es yes (some no) tags => .cond es (renote f yes) (some (renote f no)) tags
  | .switch es body tags => .switch es (renote f body) tags

/-- The statements with other notes on their loops. -/
def renoteAll (f : Notes → Notes) : List Stmt → List Stmt
  | [] => []
  | s :: ss => renote f s :: renoteAll f ss

end

theorem renoteAll_eq_map (f : Notes → Notes) (ss : List Stmt) :
    renoteAll f ss = ss.map (renote f) := by
  induction ss with
  | nil => rfl
  | cons s ss ih => rw [renoteAll, ih, List.map_cons]

theorem renote_cond (f : Notes → Notes) (es : List Expr) (yes : Stmt) (no : Option Stmt)
    (tags : Tags) : (Stmt.cond es yes no tags).renote f
      = .cond es (yes.renote f) (no.map (renote f)) tags := by
  cases no <;> rfl

/-- The statement whose loops remember nothing. -/
def forgotten (s : Stmt) : Stmt := s.renote fun notes => (none, notes.2)

/-- The statement whose loops do not carry the tag of an unrolling. -/
def untagged (s : Stmt) : Stmt :=
  s.renote fun notes => (notes.1, notes.2.erase Unroll.justUnrolled)

/-- Two changes of notes are one. -/
theorem renote_renote (f g : Notes → Notes) (s : Stmt) :
    (s.renote f).renote g = s.renote (g ∘ f) := by
  induction s using Stmt.inductionOn with
  | basic | raw => rfl
  | block es ss b tags ih =>
      simp only [renote, renoteAll_eq_map, List.map_map]
      congr 1
      exact List.map_congr_left ih
  | loop es body i tags ih => simp only [renote, ih, Function.comp_apply]
  | cond es yes no tags ihyes ihno =>
      cases no with
      | none => simp only [renote, ihyes]
      | some no => simp only [renote, ihyes, ihno no rfl]
  | switch es body tags ih => simp only [renote, ih]

theorem forgotten_forgotten (s : Stmt) : s.forgotten.forgotten = s.forgotten :=
  renote_renote _ _ s

/-- It does not matter which notes go first. -/
theorem forgotten_untagged (s : Stmt) : s.untagged.forgotten = s.forgotten.untagged := by
  unfold forgotten untagged
  rw [renote_renote, renote_renote]
  rfl

end Stmt

/-- The block with other notes on its loops. -/
def Block.renote (f : Notes → Notes) (b : Block) : Block :=
  { b with stmts := Stmt.renoteAll f b.stmts }

/-- The block whose loops remember nothing. -/
def Block.forgotten (b : Block) : Block := b.renote fun notes => (none, notes.2)

theorem Block.forgotten_eq (b : Block) :
    b.forgotten = { b with stmts := b.stmts.map Stmt.forgotten } := by
  unfold Block.forgotten Block.renote
  rw [Stmt.renoteAll_eq_map]
  rfl

/-- The block whose loops do not carry the tag of an unrolling. -/
def Block.untagged (b : Block) : Block :=
  b.renote fun notes => (notes.1, notes.2.erase Unroll.justUnrolled)

theorem Block.untagged_eq (b : Block) :
    b.untagged = { b with stmts := b.stmts.map Stmt.untagged } := by
  unfold Block.untagged Block.renote
  rw [Stmt.renoteAll_eq_map]
  rfl

/-- The loop with other notes, and its body with other notes too. -/
def Loop.renote (f : Notes → Notes) (l : Loop) : Loop :=
  ⟨l.clauses, l.body.renote f, (f (l.induction, l.tags)).1, (f (l.induction, l.tags)).2⟩

/-- The loop that remembers nothing, nor do the loops inside. -/
def Loop.forgotten (l : Loop) : Loop := l.renote fun notes => (none, notes.2)

/-- The loop without any notes, nor have the loops inside. -/
def Loop.stripped (l : Loop) : Loop := l.renote fun _ => (none, {})

/-- Notes that were changed before do not matter to a loop without any. -/
theorem Loop.stripped_renote (f : Notes → Notes) (l : Loop) :
    (l.renote f).stripped = l.stripped := by
  show (⟨l.clauses, (l.body.renote f).renote _, none, {}⟩ : Loop) = _
  rw [Stmt.renote_renote]
  rfl

/-! ## §3. What does not depend on notes. -/

namespace Stmt

variable (f : Notes → Notes)

theorem printLines_map {ss : List Stmt} {g : Stmt → Stmt} (h : ∀ s ∈ ss, (g s).print = s.print) :
    printLines (ss.map g) = printLines ss := by
  induction ss with
  | nil => rfl
  | cons s ss ih =>
      obtain ⟨hs, hss⟩ := List.forall_mem_cons.1 h
      cases ss with
      | nil => exact hs
      | cons s' ss =>
          have hrest : printLines (g s' :: ss.map g) = printLines (s' :: ss) := ih hss
          show (do
            let first ← (g s).print
            let others ← printLines (g s' :: ss.map g)
            return first ++ "\n" ++ others : Except Fault String) = _
          rw [hs, hrest]
          rfl

theorem print_renote (s : Stmt) : (s.renote f).print = s.print := by
  induction s using Stmt.inductionOn with
  | basic | raw => rfl
  | block es ss b tags ih => rw [renote, renoteAll_eq_map, print, printLines_map ih, print]
  | loop es body i tags ih =>
      rcases es with _ | ⟨_, _ | ⟨_, _ | ⟨_, _⟩⟩⟩
      · rfl
      · rfl
      · rfl
      · rw [renote, print, ih, print]
  | cond es yes no tags ihyes ihno =>
      rcases es with _ | ⟨_, _ | ⟨_, _⟩⟩
      · cases no <;> rfl
      · cases no with
        | none => rw [renote, print, ihyes, print]
        | some no => rw [renote, print, ihyes, ihno no rfl, print]
      · cases no <;> rfl
  | switch es body tags ih =>
      rcases es with _ | ⟨_, _ | ⟨_, _⟩⟩
      · rfl
      · rw [renote, print, ih, print]
      · rfl

theorem countList_map {ss : List Stmt} {g : Stmt → Stmt} {k : Node.Kind}
    (h : ∀ s ∈ ss, (g s).count k = s.count k) : countList k (ss.map g) = countList k ss := by
  induction ss with
  | nil => rfl
  | cons s ss ih =>
      obtain ⟨hs, hss⟩ := List.forall_mem_cons.1 h
      rw [List.map_cons, countList, countList, hs, ih hss]

theorem count_renote (k : Node.Kind) (s : Stmt) : (s.renote f).count k = s.count k := by
  induction s using Stmt.inductionOn with
  | basic | raw => rfl
  | block es ss b tags ih => rw [renote, renoteAll_eq_map, count, countList_map ih, count]
  | loop es body i tags ih => rw [renote, count, ih, count]
  | cond es yes no tags ihyes ihno =>
      cases no with
      | none => rw [renote, count, ihyes, count]
      | some no => rw [renote, count, ihyes, ihno no rfl, count]
  | switch es body tags ih => rw [renote, count, ih, count]

theorem Legible.renote {s : Stmt} (h : s.Legible) : (s.renote f).Legible := by
  induction h with
  | empty => exact .empty
  | basic he => exact .basic he
  | raw hsrc => exact .raw hsrc
  | block _ ih =>
      rw [Stmt.renote, renoteAll_eq_map]
      exact .block (List.forall_mem_map.2 ih)
  | loop hd ht hi _ ih => exact .loop hd ht hi ih
  | @cond c yes no tags hc _ _ ihyes ihno =>
      rw [renote_cond]
      refine .cond hc ihyes fun s hs => ?_
      obtain ⟨no', hno, rfl⟩ := Option.map_eq_some_iff.1 hs
      exact ihno no' hno
  | switch hc _ ih => exact .switch hc ih

theorem Legible.of_renote {s : Stmt} (h : (s.renote f).Legible) : s.Legible := by
  induction s using Stmt.inductionOn with
  | basic | raw => exact h
  | block es ss b tags ih =>
      rw [Stmt.renote, renoteAll_eq_map] at h
      cases h with
      | block hss => exact .block fun s hs => ih s hs (hss _ (List.mem_map_of_mem hs))
  | loop es body i tags ih =>
      cases h with
      | loop hd ht hi hbody => exact .loop hd ht hi (ih hbody)
  | cond es yes no tags ihyes ihno =>
      rw [renote_cond] at h
      cases h with
      | cond hc hyes hno =>
          exact .cond hc (ihyes hyes) fun s hs => ihno s hs
            (hno _ (Option.map_eq_some_iff.2 ⟨s, hs, rfl⟩))
  | switch es body tags ih =>
      cases h with
      | switch hc hbody => exact .switch hc (ih hbody)

mutual

/-- The expressions of a statement and of the statements inside it, in the
order in which they are written. -/
def inner : Stmt → List Expr
  | .basic es _ | .raw es _ _ => es
  | .block es ss _ _ => es ++ innerOf ss
  | .loop es body _ _ => es ++ inner body
  | .cond es yes none _ => es ++ inner yes
  | .cond es yes (some no) _ => es ++ (inner yes ++ inner no)
  | .switch es body _ => es ++ inner body

/-- The expressions of some statements and of the statements inside them. -/
def innerOf : List Stmt → List Expr
  | [] => []
  | s :: ss => inner s ++ innerOf ss

end

theorem innerOf_map {ss : List Stmt} {g : Stmt → Stmt} (h : ∀ s ∈ ss, (g s).inner = s.inner) :
    innerOf (ss.map g) = innerOf ss := by
  induction ss with
  | nil => rfl
  | cons s ss ih =>
      obtain ⟨hs, hss⟩ := List.forall_mem_cons.1 h
      rw [List.map_cons, innerOf, innerOf, hs, ih hss]

theorem inner_renote (s : Stmt) : (s.renote f).inner = s.inner := by
  induction s using Stmt.inductionOn with
  | basic | raw => rfl
  | block es ss b tags ih => rw [renote, renoteAll_eq_map, inner, innerOf_map ih, inner]
  | loop es body i tags ih => rw [renote, inner, ih, inner]
  | cond es yes no tags ihyes ihno =>
      cases no with
      | none => rw [renote, inner, ihyes, inner]
      | some no => rw [renote, inner, ihyes, ihno no rfl, inner]
  | switch es body tags ih => rw [renote, inner, ih, inner]

end Stmt

theorem Block.print_renote (f : Notes → Notes) (b : Block) : (b.renote f).print = b.print := by
  unfold Block.print Block.renote
  rw [Stmt.renoteAll_eq_map]
  exact Stmt.printLines_map fun s _ => s.print_renote f

namespace Loop

variable (f : Notes → Notes) (l : Loop)

theorem toStmt_renote : (l.renote f).toStmt = l.toStmt.renote f := rfl

theorem bodySize_renote : (l.renote f).bodySize = l.bodySize := by
  obtain ⟨clauses, body, induction, tags⟩ := l
  cases body with
  | block es ss b tags =>
      show (Stmt.renoteAll f ss).length = ss.length
      rw [Stmt.renoteAll_eq_map, List.length_map]
  | cond es yes no tags => cases no <;> rfl
  | basic | raw | loop | switch => rfl

theorem operators_renote :
    (Node.stmt (l.renote f).toStmt).operators = (Node.stmt l.toStmt).operators := by
  rw [toStmt_renote]
  exact Stmt.count_renote f _ _

end Loop

/-! ## §4. The loops of a tree. -/

namespace Stmt

mutual

/-- The loops of a statement, at any depth. -/
def loops : Stmt → List Loop
  | .basic _ _ | .raw _ _ _ => []
  | .block _ ss _ _ => loopsOf ss
  | .loop es body i tags => ⟨es, body, i, tags⟩ :: loops body
  | .cond _ yes none _ => loops yes
  | .cond _ yes (some no) _ => loops yes ++ loops no
  | .switch _ body _ => loops body

/-- The loops of some statements, at any depth. -/
def loopsOf : List Stmt → List Loop
  | [] => []
  | s :: ss => loops s ++ loopsOf ss

end

theorem loopsOf_map {ss : List Stmt} {g : Stmt → Stmt} {k : Loop → Loop}
    (h : ∀ s ∈ ss, (g s).loops = s.loops.map k) : loopsOf (ss.map g) = (loopsOf ss).map k := by
  induction ss with
  | nil => rfl
  | cons s ss ih =>
      obtain ⟨hs, hss⟩ := List.forall_mem_cons.1 h
      rw [List.map_cons, loopsOf, loopsOf, hs, ih hss, List.map_append]

theorem loops_renote (f : Notes → Notes) (s : Stmt) :
    (s.renote f).loops = s.loops.map (Loop.renote f) := by
  induction s using Stmt.inductionOn with
  | basic | raw => rfl
  | block es ss b tags ih => rw [renote, renoteAll_eq_map, loops, loopsOf_map ih, loops]
  | loop es body i tags ih =>
      rw [renote, loops, ih, loops, List.map_cons]
      rfl
  | cond es yes no tags ihyes ihno =>
      cases no with
      | none => rw [renote, loops, ihyes, loops]
      | some no => rw [renote, loops, ihyes, ihno no rfl, loops, List.map_append]
  | switch es body tags ih => rw [renote, loops, ih, loops]

end Stmt

/-- The loops of a block, at any depth. -/
def Block.loops (b : Block) : List Loop := Stmt.loopsOf b.stmts

theorem Block.loops_renote (f : Notes → Notes) (b : Block) :
    (b.renote f).loops = b.loops.map (Loop.renote f) := by
  unfold Block.loops Block.renote
  rw [Stmt.renoteAll_eq_map]
  exact Stmt.loopsOf_map fun s _ => s.loops_renote f

end RuleBody
