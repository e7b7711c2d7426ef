/-
  RuleBody.Proofs.ReadAgain
  ─────────────────────────
  **WHAT IS WRITTEN IS READ AGAIN.**

  The passes change trees, and the compiler ends by writing a tree down.
  What is written must be a rule body once more, and it must say what the
  tree says: no `else` may go to another condition, no label may swallow the
  statement behind it, and no two tokens may become one.  A rule body that
  was read is in order as long as its clauses hold no words of blocks and
  labels; the passes leave it in order (`runPass_orderly`), so after any of
  them the text is read as the tree, without its notes
  (`written_is_read_again`).

  §1  notes;
  §2  the passes;
  §3  texts.
-/
import RuleBody.Proofs.Faultless
import RuleBody.Proofs.Looking
import RuleBody.Proofs.Trouble

namespace RuleBody

open Unroll (rewriteAll)

/-! ## §1. Notes. -/

namespace Stmt

/-- What the reader makes remembers nothing. -/
theorem Pristine.forgotten_eq {s : Stmt} (h : s.Pristine) : s.forgotten = s := by
  unfold forgotten
  induction h with
  | empty | basic | raw => rfl
  | block _ ih => rw [renote, renoteAll_eq_map, List.map_congr_left ih, List.map_id']
  | loop _ _ _ _ ih => rw [renote, ih]
  | @cond c yes no _ _ _ ihyes ihno =>
      cases no with
      | none => rw [renote, ihyes]
      | some no => rw [renote, ihyes, ihno no rfl]
  | switch _ _ ih => rw [renote, ih]

theorem bareAll_map {ss : List Stmt} {g : Stmt → Stmt} (h : ∀ s ∈ ss, (g s).bare = s.bare) :
    bareAll (ss.map g) = bareAll ss := by
  induction ss with
  | nil => rfl
  | cons s ss ih =>
      obtain ⟨hs, hss⟩ := List.forall_mem_cons.1 h
      rw [List.map_cons, bareAll, bareAll, hs, ih hss]

/-- Without its notes, a statement is the same whatever they were. -/
theorem bare_renote (f : Notes → Notes) (s : Stmt) : (s.renote f).bare = s.bare := by
  induction s using Stmt.inductionOn with
  | basic | raw => rfl
  | block es ss b tags ih => rw [renote, renoteAll_eq_map, bare, bareAll_map ih, bare]
  | loop es body i tags ih => rw [renote, bare, ih, bare]
  | cond es yes no tags ihyes ihno =>
      cases no with
      | none => rw [renote, bare, ihyes, bare]
      | some no => rw [renote, bare, ihyes, ihno no rfl, bare]
  | switch es body tags ih => rw [renote, bare, ih, bare]

end Stmt

theorem Block.bare_renote (f : Notes → Notes) (b : Block) : (b.renote f).bare = b.bare := by
  unfold Block.bare Block.renote
  rw [Stmt.renoteAll_eq_map]
  exact congrArg (Block.mk · {}) (Stmt.bareAll_map fun s _ => s.bare_renote f)

/-! ## §2. The passes. -/

/-- A rule body whose statements are in order, whatever its loops
remember. -/
def Block.Orderly (b : Block) : Prop := ∀ s ∈ b.forgotten.stmts, s.Orderly

theorem Block.orderly_of_parse {src : String} {origin : Location} {b : Block}
    (hparse : Block.parse src origin = .ok b) (hplain : ∀ l ∈ b.loops, l.Plain) : b.Orderly := by
  obtain ⟨_, hpristine, _⟩ := Block.parse_spec hparse
  intro s hs
  rw [Block.forgotten_eq] at hs
  obtain ⟨x, hx, rfl⟩ := List.mem_map.1 hs
  rw [(hpristine x hx).forgotten_eq]
  exact ⟨Block.tidy_of_parse hparse x hx, fun l hl =>
    .inl (hplain l (Stmt.mem_loopsOf.2 ⟨x, hx, hl⟩))⟩

/-- The pass that unrolls loops leaves order where it finds order. -/
theorem runUnroll_orderly {b : Block} (hb : b.Legible) (horderly : b.Orderly) {m : Manager}
    {out : Outcome} (h : (Pass.runUnroll b m).Yields out) {effect : Effect}
    (heffect : out.effect = .ok effect) : out.block.Orderly := by
  obtain ⟨out', hout', _, hmatches⟩ := runUnroll_of_rewriteAll hb m
  obtain rfl : out' = out := Except.ok.inj ((hout' none).symm.trans (h none))
  cases hrewrite : rewriteAll m.factor 0 b.stmts with
  | error stop =>
      rw [hrewrite] at hmatches
      obtain ⟨e, he⟩ := hmatches
      rw [he] at heffect
      cases heffect
  | ok y =>
      obtain ⟨stmts, n⟩ := y
      rw [hrewrite] at hmatches
      obtain ⟨_, _, hforgotten⟩ := hmatches
      intro s hs
      rw [hforgotten] at hs
      -- The recursion sees the tree that remembers nothing.
      rw [← Unroll.rewriteAll_forgotten_of fun x _ n => Unroll.rewrite_forgotten x n] at hrewrite
      obtain ⟨x, hx, _, hstep⟩ := Unroll.exists_of_mem_rewriteAll hrewrite s hs
      exact Unroll.rewrite_orderly (horderly x (by rwa [Block.forgotten_eq])) hstep

/-- **A pass that succeeds leaves order where it finds order.** -/
theorem runPass_orderly {b : Block} (hb : b.Legible) (horderly : b.Orderly) {m : Manager}
    {name : String} {out : Outcome} (h : (Pipeline.runPass b m name).Yields out) {effect : Effect}
    (heffect : out.effect = .ok effect) : out.block.Orderly := by
  unfold Pipeline.runPass at h
  split at h
  · exact runUnroll_orderly hb horderly h heffect
  · obtain ⟨out', hout', hfades⟩ := Pass.runOutline_fades b m none
    obtain rfl : out' = out := Except.ok.inj (hout'.symm.trans (h none))
    unfold Block.Orderly
    rwa [hfades.tree]
  · obtain rfl : _ = out := Except.ok.inj (h none)
    cases heffect

/-! ## §3. Texts. -/

/-- What is in order is read again, without its notes. -/
theorem Block.Orderly.parse_print {b : Block} (h : b.Orderly) :
    ∃ text, b.print = .ok text ∧ ∀ there, Block.parse text there = .ok b.bare := by
  obtain ⟨text, htext, hparse⟩ := Block.parse_of_tidy fun s hs => (h s hs).tidy
  refine ⟨text, ?_, fun there => ?_⟩
  · rw [← Block.print_renote (fun notes => (none, notes.2)) b]
    exact htext
  · rw [hparse there]
    exact congrArg Except.ok (Block.bare_renote _ b)

/-- **What the compiler writes is read again.**  On a rule body that was read
and whose clauses hold no words of blocks or labels, let some passes succeed,
with any heuristics and whatever is logged: the text of what they leave is a
rule body again, the same without tags and remembered inductions. -/
theorem written_is_read_again {src : String} {origin : Location} {b : Block}
    (hparse : Block.parse src origin = .ok b) (hplain : ∀ l ∈ b.loops, l.Plain)
    {names : List String} {printBefore : Bool} {m : Manager} {t : Option Level} {out : Outcome}
    (hrun : ((⟨names⟩ : Pipeline).run printBefore b m t).2 = .ok out) {effect : Effect}
    (heffect : out.effect = .ok effect) :
    ∃ text, out.block.print = .ok text ∧ ∀ there, Block.parse text there = .ok out.block.bare := by
  obtain ⟨_, hpristine, _⟩ := Block.parse_spec hparse
  obtain ⟨out', hout', _, horderly⟩ := runPasses_yields Block.Orderly
    (fun _ _ _ _ _ hb ho h heffect => runPass_orderly hb ho h heffect)
    (fun s hs => (hpristine s hs).legible) (Block.orderly_of_parse hparse hplain) m .unchanged
    printBefore names
  obtain rfl : out' = out := Except.ok.inj ((hout' t).symm.trans hrun)
  exact (horderly effect heffect).parse_print

/-- A loop over a condition with an `else`, which may be unrolled: the copies
of the condition stand next to each other. -/
theorem written_is_read_again_else :
    let b : Block := ⟨[.loop [.chain [.ident "i", .op "=", .lit "0"],
        .chain [.ident "i", .op "<", .ident "n"], .chain [.ident "i", .op "++"]]
        (.cond [.chain [.ident "a", .op "[", .ident "i", .op "]"]]
          (.ofExpr (.chain [.ident "s", .op "+=", .ident "i"]))
          (some (.ofExpr (.chain [.ident "s", .op "--"]))) {}) none {}], {}⟩
    let p : Pipeline := ⟨["unroll-loops"]⟩
    let m := Manager.withDefaults
    Block.parse "for(i = 0; i < n; i++) if(a[i]) s += i; else s--;" {} = .ok b
      ∧ (∀ l ∈ b.loops, l.Plain)
      ∧ ∃ out effect text, (p.run false b m none).2 = .ok out ∧ out.effect = .ok effect
        ∧ out.block.print = .ok text ∧ ∀ there, Block.parse text there = .ok out.block.bare := by
  intro b p m
  have hparse : Block.parse "for(i = 0; i < n; i++) if(a[i]) s += i; else s--;" {} = .ok b := by
    decide +kernel
  have hplain : ∀ l ∈ b.loops, l.Plain := by decide +kernel
  have hloose : ∀ l ∈ b.loops, ∀ test ∈ (l.clause .test).toOption, test.Loose := by decide +kernel
  -- No loop is in trouble, whatever the factor is.
  have hfound : (Unroll.metAll m.factor 0 b.stmts).findSome? Loop.trouble? = none := by
    decide +kernel
  have hsome : (m.lookup? unrollingNumber).isSome = true := by decide +kernel
  obtain ⟨heuristic, hm⟩ := Option.isSome_iff_exists.1 hsome
  obtain ⟨⟨stmts, n⟩, hrewrite⟩ := (Block.rewriteAll_stopsAt hparse hplain hloose fun f =>
    ⟨_, Manager.factor_eq_of_lookup? hm f⟩).ok hfound
  obtain ⟨_, hpristine, _⟩ := Block.parse_spec hparse
  obtain ⟨r, hr, _, hmatches⟩ := runUnroll_of_rewriteAll (fun s hs => (hpristine s hs).legible) m
  rw [hrewrite] at hmatches
  have hrun : (p.run false b m).Yields
      ⟨r.block, r.manager, .ok (Effect.unchanged.andThen (.ofCount n))⟩ := by
    refine Run.Yields.bind hr ?_
    rw [hmatches.1]
    exact Run.yields_pure _
  obtain ⟨text, hwritten⟩ := written_is_read_again hparse hplain (hrun none) rfl
  exact ⟨hparse, hplain, _, _, text, hrun none, rfl, hwritten⟩

end RuleBody
