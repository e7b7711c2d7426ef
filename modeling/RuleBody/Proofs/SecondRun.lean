/-
  RuleBody.Proofs.SecondRun
  ─────────────────────────
  **THE SECOND RUN.**

  A loop of a rule body that went through the pass is in one of two states:

      it carries the tag      — the second run takes the tag away
      it was left alone       — the second run leaves it alone again

  A loop in the second state is asked about again with another body, as the
  loops inside have lost their tags; but neither the analysis nor what the
  heuristic is told depends on tags.  Copies of a body stand at the same
  level of nesting as the body itself did, so they fare as it does.

  §1  what the recursion makes of its own result;
  §2  the pass.
-/
import RuleBody.Proofs.Trouble

namespace RuleBody

/-! ## §1. What the recursion makes of its own result. -/

namespace Unroll

variable {ask : Features → Except Error Int} {n : Nat}

/-- The recursion takes the tags away and does nothing else. -/
def OnlyUntags (ask : Features → Except Error Int) (n : Nat) (x : Stmt) : Prop :=
  rewrite ask n x = .ok (x.untagged, 0)

theorem rewriteAll_of_onlyUntags {xs : List Stmt} (h : ∀ x ∈ xs, OnlyUntags ask n x) :
    rewriteAll ask n xs = .ok (xs.map Stmt.untagged, 0) := by
  induction xs with
  | nil => rfl
  | cons x xs ih =>
      obtain ⟨hx, hxs⟩ := List.forall_mem_cons.1 h
      rw [rewriteAll, show rewrite ask n x = .ok (x.untagged, 0) from hx, ih hxs]
      rfl

theorem onlyUntags_block {xs : List Stmt} (h : ∀ x ∈ xs, OnlyUntags ask n x) (es : List Expr)
    (b tags : Tags) : OnlyUntags ask n (.block es xs b tags) := by
  unfold OnlyUntags
  rw [rewrite, rewriteAll_of_onlyUntags h, Stmt.untagged, Stmt.renote, Stmt.renoteAll_eq_map]
  rfl

/-- A loop with the tag loses it. -/
theorem onlyUntags_tagged {es : List Expr} {body : Stmt} {tags : Tags}
    (hbody : OnlyUntags ask (n + 1) body) (htag : tags.has justUnrolled = true) :
    OnlyUntags ask n (.loop es body none tags) := by
  unfold OnlyUntags
  rw [rewrite, show rewrite ask (n + 1) body = .ok (body.untagged, 0) from hbody]
  show (rewriteLoop ask (n + 1) ⟨es, body.untagged, none, tags⟩ >>= fun z =>
    pure (z.1, 0 + z.2)) = _
  rw [rewriteLoop, if_pos htag]
  rfl

/-- An unrolled form loses its two tags, and the copies of the body fare as
the body does. -/
theorem onlyUntags_form {body : Stmt} (hbody : OnlyUntags ask (n + 1) body) (d t i : Expr)
    (tags : Tags) (factor : Nat) (test : Expr) (increment : Option Expr) :
    OnlyUntags ask n (form d t i body tags factor test increment) := by
  have hcopies : ∀ x ∈ copies factor body increment, OnlyUntags ask (n + 1) x := by
    intro x hx
    rcases mem_copies hx with rfl | ⟨e, _, rfl⟩
    · exact hbody
    · rfl
  have hbefore : ∀ x ∈ (if d.parts.isEmpty then [] else [Stmt.ofExpr d]), OnlyUntags ask n x := by
    split
    · exact fun x hx => absurd hx List.not_mem_nil
    · exact List.forall_mem_singleton.2 rfl
  have htag := Tags.has_insert tags justUnrolled none
  refine onlyUntags_block (List.forall_mem_append.2 ⟨hbefore, List.forall_mem_cons.2
    ⟨?_, List.forall_mem_singleton.2 (onlyUntags_tagged hbody htag)⟩⟩) _ _ _
  exact onlyUntags_tagged (onlyUntags_block hcopies _ _ _) htag

/-- A loop that was left alone is left alone again. -/
theorem onlyUntags_left {d t i : Expr} {body : Stmt} (hd : d.Legible) (ht : t.Legible)
    (hi : i.Legible) (hlegible : body.Legible) (hbody : OnlyUntags ask (n + 1) body)
    (hplan : planned ask (n + 1) ⟨[d, t, i], body, none, {}⟩ = .ok none) :
    OnlyUntags ask n (.loop [d, t, i] body none {}) := by
  have hl : (⟨[d, t, i], body, none, {}⟩ : Loop).Legible := .loop hd ht hi hlegible
  have hagain : planned ask (n + 1) ⟨[d, t, i], body.untagged, none, {}⟩ = .ok none := by
    rw [← hplan]
    refine planned_congr hl rfl rfl ?_ ask (n + 1)
    exact Loop.stripped_renote (fun notes => (notes.1, notes.2.erase justUnrolled))
      ⟨[d, t, i], body, none, {}⟩
  unfold OnlyUntags
  rw [rewrite, show rewrite ask (n + 1) body = .ok (body.untagged, 0) from hbody]
  show (rewriteLoop ask (n + 1) ⟨[d, t, i], body.untagged, none, {}⟩ >>= fun z =>
    pure (z.1, 0 + z.2)) = _
  rw [rewriteLoop, if_neg (Bool.eq_false_iff.1 (Tags.has_empty justUnrolled)), treated, hagain]
  rfl

/-- **What the recursion leaves of a statement that was read only has tags
to lose.** -/
theorem onlyUntags_rewrite {x : Stmt} (hx : x.Pristine) {y : Stmt} {k : Nat}
    (h : rewrite ask n x = .ok (y, k)) : OnlyUntags ask n y := by
  induction hx generalizing n y k with
  | empty | basic | raw =>
      obtain ⟨rfl, _⟩ := Prod.mk.inj (Except.ok.inj h)
      rfl
  | block _ ih =>
      obtain ⟨⟨ys, _⟩, hys, h⟩ := bind_eq_ok.1 h
      obtain ⟨rfl, _⟩ := Prod.mk.inj (Except.ok.inj h)
      refine onlyUntags_block (fun y hy => ?_) _ _ _
      obtain ⟨x, hx, j, hrewrite⟩ := exists_of_mem_rewriteAll hys y hy
      exact ih x hx hrewrite
  | @loop d t i body hd ht hi hpristine ih =>
      obtain ⟨⟨body', _⟩, hrewrite, h⟩ := bind_eq_ok.1 h
      obtain ⟨⟨s, _⟩, hs, h⟩ := bind_eq_ok.1 h
      obtain ⟨rfl, _⟩ := Prod.mk.inj (Except.ok.inj h)
      have hbody : OnlyUntags ask (n + 1) body' := ih hrewrite
      have hlegible : body'.Legible := rewrite_legible hpristine.legible hrewrite
      rw [rewriteLoop, if_neg (Bool.eq_false_iff.1 (Tags.has_empty justUnrolled))] at hs
      obtain ⟨z, hz, hs⟩ := bind_eq_ok.1 hs
      rcases treated_eq_ok hz with ⟨rfl, hplan⟩ | ⟨factor, test, increment, rfl⟩
      · obtain ⟨rfl, _⟩ := Prod.mk.inj (Except.ok.inj hs)
        exact onlyUntags_left hd ht hi hlegible hbody hplan
      · obtain ⟨rfl, _⟩ := Prod.mk.inj (Except.ok.inj hs)
        exact onlyUntags_form hbody d t i {} factor test increment
  | switch _ _ ih =>
      obtain ⟨⟨body, _⟩, hbody, h⟩ := bind_eq_ok.1 h
      obtain ⟨rfl, _⟩ := Prod.mk.inj (Except.ok.inj h)
      unfold OnlyUntags
      rw [rewrite, show rewrite ask n body = .ok (body.untagged, 0) from ih hbody]
      rfl
  | @cond c yes no _ _ _ ihyes ihno =>
      cases no with
      | none =>
          obtain ⟨⟨yes', _⟩, hyes, h⟩ := bind_eq_ok.1 h
          obtain ⟨rfl, _⟩ := Prod.mk.inj (Except.ok.inj h)
          unfold OnlyUntags
          rw [rewrite, show rewrite ask n yes' = .ok (yes'.untagged, 0) from ihyes hyes]
          rfl
      | some no =>
          obtain ⟨⟨yes', _⟩, hyes, h⟩ := bind_eq_ok.1 h
          obtain ⟨⟨no', _⟩, hno, h⟩ := bind_eq_ok.1 h
          obtain ⟨rfl, _⟩ := Prod.mk.inj (Except.ok.inj h)
          unfold OnlyUntags
          rw [rewrite, show rewrite ask n yes' = .ok (yes'.untagged, 0) from ihyes hyes,
            show rewrite ask n no' = .ok (no'.untagged, 0) from ihno no rfl hno]
          rfl

end Unroll

/-! ## §2. The pass. -/

/-- The loops of a block that lost the tag do not carry it. -/
theorem Block.has_loops_untagged (b : Block) :
    ∀ l ∈ b.untagged.loops, l.tags.has Unroll.justUnrolled = false := by
  intro l hl
  unfold Block.untagged at hl
  rw [Block.loops_renote] at hl
  obtain ⟨l', _, rfl⟩ := List.mem_map.1 hl
  exact Tags.has_erase l'.tags Unroll.justUnrolled

/-- The second run of the recursion on a body that was read. -/
theorem rewriteAll_again {b : Block} (hb : ∀ s ∈ b.stmts, s.Pristine)
    {ask : Features → Except Error Int} {stmts : List Stmt} {n : Nat}
    (h : Unroll.rewriteAll ask 0 b.stmts = .ok (stmts, n)) {b' : Block}
    (hb' : b'.forgotten = { b with stmts }) :
    Unroll.rewriteAll ask 0 b'.stmts = .ok (b'.forgotten.untagged.stmts, 0) := by
  have hstmts : b'.stmts.map Stmt.forgotten = stmts := by
    rw [Block.forgotten_eq] at hb'
    exact congrArg Block.stmts hb'
  have honly : ∀ y ∈ stmts, Unroll.OnlyUntags ask 0 y := by
    intro y hy
    obtain ⟨x, hx, j, hrewrite⟩ := Unroll.exists_of_mem_rewriteAll h y hy
    exact Unroll.onlyUntags_rewrite (hb x hx) hrewrite
  rw [← Unroll.rewriteAll_forgotten_of fun x _ n => Unroll.rewrite_forgotten x n, hstmts,
    Unroll.rewriteAll_of_onlyUntags honly, Block.untagged_eq, hb']

/-- **The second run only takes the tags away.**  Where the pass succeeds on
a rule body that was read, it succeeds again on what it left, with the
heuristics as it left them: nothing is unrolled, the text stays, and the
tree is the same but for the tags, which no loop carries any more. -/
theorem second_run_only_untags {src : String} {origin : Location} {b : Block}
    (hparse : Block.parse src origin = .ok b) {m : Manager} {t : Option Level} {out : Outcome}
    (hrun : (Pass.runUnroll b m t).2 = .ok out) {effect : Effect}
    (heffect : out.effect = .ok effect) (t' : Option Level) :
    ∃ out', (Pass.runUnroll out.block out.manager t').2 = .ok out'
      ∧ out'.effect = .ok .unchanged
      ∧ (∃ text, out.block.print = .ok text ∧ out'.block.print = .ok text)
      ∧ out'.block.forgotten = out.block.untagged.forgotten
      ∧ ∀ l ∈ out'.block.loops, l.tags.has Unroll.justUnrolled = false := by
  obtain ⟨_, hpristine, _⟩ := Block.parse_spec hparse
  obtain ⟨first, hfirst, hlegible, hmatches⟩ :=
    runUnroll_of_rewriteAll (fun s hs => (hpristine s hs).legible) m
  obtain rfl : first = out := Except.ok.inj ((hfirst t).symm.trans hrun)
  cases hx : Unroll.rewriteAll m.factor 0 b.stmts with
  | error stop =>
      rw [hx] at hmatches
      obtain ⟨e, he⟩ := hmatches
      rw [he] at heffect
      cases heffect
  | ok y =>
      obtain ⟨stmts, n⟩ := y
      rw [hx] at hmatches
      obtain ⟨_, hfactor, hforgotten⟩ := hmatches
      obtain ⟨second, hsecond, _, hmatches'⟩ := runUnroll_of_rewriteAll hlegible first.manager
      rw [hfactor, rewriteAll_again hpristine hx hforgotten] at hmatches'
      obtain ⟨hunchanged, _, hforgotten'⟩ := hmatches'
      have htree : second.block.forgotten = first.block.forgotten.untagged := hforgotten'
      have hcommute : first.block.untagged.forgotten = first.block.forgotten.untagged := by
        rw [Block.forgotten_eq, Block.untagged_eq, Block.untagged_eq, Block.forgotten_eq]
        simp only [List.map_map]
        congr 1
        exact List.map_congr_left fun s _ => s.forgotten_untagged
      have hprint : second.block.print = first.block.print := by
        rw [← Block.print_renote (fun notes => (none, notes.2)) second.block,
          ← Block.print_renote (fun notes => (none, notes.2)) first.block]
        exact (congrArg Block.print htree).trans (Block.print_renote _ _)
      obtain ⟨text, htext, _⟩ := hlegible.written
      refine ⟨second, hsecond t', hunchanged, ⟨text, htext, hprint.trans htext⟩,
        htree.trans hcommute.symm, fun l hl => ?_⟩
      have hmem : l.forgotten ∈ second.block.forgotten.loops := by
        unfold Block.forgotten
        rw [Block.loops_renote]
        exact List.mem_map_of_mem hl
      rw [htree] at hmem
      exact Block.has_loops_untagged _ l.forgotten hmem

/-- A loop that may be unrolled in the body of one that stays.  With a factor
of two the first run unrolls it, and the second run changes nothing. -/
theorem second_run_only_untags_nested :
    let b : Block := ⟨[.loop [.nil, .ident "k", .nil]
      (.loop [.chain [.ident "i", .op "=", .lit "1"], .chain [.ident "i", .op "<", .ident "n"],
        .chain [.ident "i", .op "+=", .lit "2"]]
        (.basic [.call (.ident "f") (.args [.ident "i"])] {}) none {}) none {}], {}⟩
    let m := Manager.twofold
    Block.parse "while(k) for(i = 1; i < n; i += 2) f(i);" {} = .ok b
    ∧ ∃ k out effect out', (∀ f, m.factor f = .ok k) ∧ (Pass.runUnroll b m none).2 = .ok out
      ∧ out.effect = .ok effect ∧ (k = 2 → effect = .changed)
      ∧ (Pass.runUnroll out.block out.manager none).2 = .ok out'
      ∧ out'.effect = .ok .unchanged
      ∧ (∃ text, out.block.print = .ok text ∧ out'.block.print = .ok text)
      ∧ out'.block.forgotten = out.block.untagged.forgotten
      ∧ ∀ l ∈ out'.block.loops, l.tags.has Unroll.justUnrolled = false := by
  intro b m
  have hparse : Block.parse "while(k) for(i = 1; i < n; i += 2) f(i);" {} = .ok b := by
    decide +kernel
  have hplain : ∀ l ∈ b.loops, l.Plain := by decide +kernel
  have hloose : ∀ l ∈ b.loops, ∀ test ∈ (l.clause .test).toOption, test.Loose := by decide +kernel
  -- No loop is in trouble, whatever the factor is.
  have hfound : (Unroll.metAll m.factor 0 b.stmts).findSome? Loop.trouble? = none := by
    rw [Unroll.metAll, List.findSome?_append, Unroll.findSome?_met_loop rfl rfl]
    decide +kernel
  obtain ⟨k, stmts, n, hk, hrewrite, htwo⟩ := Block.rewriteAll_twofold hparse hplain hloose hfound
  obtain ⟨_, hpristine, _⟩ := Block.parse_spec hparse
  obtain ⟨out, hrun, _, hmatches⟩ :=
    runUnroll_of_rewriteAll (fun s hs => (hpristine s hs).legible) m
  rw [hrewrite] at hmatches
  obtain ⟨heffect, _, _⟩ := hmatches
  obtain ⟨out', hout'⟩ := second_run_only_untags hparse (hrun none) heffect none
  refine ⟨hparse, k, out, _, out', hk, hrun none, heffect, ?_, hout'⟩
  intro hk
  have hcount : (Unroll.rewriteAll (fun _ => .ok 2) 0 b.stmts).map (·.2) = .ok 1 := by
    decide +kernel
  rw [htwo hk] at hcount
  obtain rfl : n = 1 := Except.ok.inj hcount
  rfl

end RuleBody
