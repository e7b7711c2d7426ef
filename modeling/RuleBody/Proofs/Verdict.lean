/-
  RuleBody.Proofs.Verdict
  ───────────────────────
  **WHAT THE PASS SAYS OF ITSELF.**

  The pass that unrolls loops is the recursion over the tree, which counts the
  loops that it unrolls (`runUnroll_iff_rewrite`), and the pass tells from the
  count whether anything has changed.  The text of the rule body tells the
  same:

      nothing unrolled    — only tags are gone, and tags are not written
      k loops unrolled    — the text is longer, by k characters at least

  An unrolled form holds all that the text of the loop holds, its declaration
  in front and the rest in the second of its loops, between braces of its
  own.  So the text grows with every loop that is unrolled, also where the
  loop stands in the body of another one that is unrolled (`rewrite_grows`),
  and the pass cannot change a text without saying so, nor say so of a text
  that has not changed (`verdict_is_honest`).

  §1  how long a text is;
  §2  unrolling makes a text longer;
  §3  without an unrolling only tags are lost;
  §4  the verdict.
-/
import Mathlib.Algebra.Ring.Nat
import RuleBody.Proofs.Trouble

namespace RuleBody

open Loop (Stop)

/-! ## §1. How long a text is. -/

/-- The number of characters of a text, if it can be written. -/
def extent (text : Except Fault String) : Nat := text.toOption.elim 0 String.length

@[simp] theorem extent_ok (text : String) : extent (.ok text) = text.length := rfl

namespace Stmt

theorem extent_ofExpr {e : Expr} (he : e.Legible) :
    extent (Stmt.ofExpr e).print = extent e.print + 1 := by
  obtain ⟨text, htext⟩ := he.prints
  have hprint : (Stmt.ofExpr e).print = .ok (text ++ ";") := by
    simp [ofExpr, print, Expr.printJoined, htext]
  rw [hprint, htext, extent_ok, String.length_append]
  rfl

/-- The lines of some statements, and a line feed between any two. -/
theorem extent_printLines {ss : List Stmt} (h : ∀ s ∈ ss, s.Legible) :
    extent (printLines ss) = (ss.map fun s => extent s.print).sum + (ss.length - 1) := by
  induction ss with
  | nil => rfl
  | cons s ss ih =>
      obtain ⟨hs, hss⟩ := List.forall_mem_cons.1 h
      cases ss with
      | nil =>
          show extent s.print = extent s.print + 0 + 0
          omega
      | cons s' ss =>
          obtain ⟨text, htext⟩ := hs.prints
          obtain ⟨others, hothers, _⟩ := lines_written fun r hr => (hss r hr).written
          have hprint : printLines (s :: s' :: ss) = .ok (text ++ "\n" ++ others) := by
            simp only [printLines, htext, hothers, bind, Except.bind, pure, Except.pure]
          have hrest := ih hss
          rw [hothers, extent_ok] at hrest
          rw [hprint, List.map_cons, List.sum_cons, htext]
          simp only [extent_ok, String.length_append, hrest, List.length_cons]
          show text.length + 1 + _ = _
          omega

theorem extent_block {ss : List Stmt} (h : ∀ s ∈ ss, s.Legible) (b tags : Tags) :
    extent (Stmt.block [] ss b tags).print = extent (printLines ss) + 4 := by
  obtain ⟨text, htext, _⟩ := lines_written fun s hs => (h s hs).written
  have hprint : (Stmt.block [] ss b tags).print = .ok ("\x7b\n" ++ text ++ "\n\x7d") := by
    simp [print, htext]
  rw [hprint, htext]
  simp only [extent_ok, String.length_append]
  show 2 + text.length + 2 = _
  omega

theorem extent_loop {d t i : Expr} {body : Stmt} (hd : d.Legible) (ht : t.Legible) (hi : i.Legible)
    (hbody : body.Legible) (induction : Option Induction) (tags : Tags) :
    extent (Stmt.loop [d, t, i] body induction tags).print
      = extent d.print + extent t.print + extent i.print + extent body.print + 10 := by
  obtain ⟨decl, hdecl⟩ := hd.prints
  obtain ⟨test, htest⟩ := ht.prints
  obtain ⟨incr, hincr⟩ := hi.prints
  obtain ⟨inside, hinside⟩ := hbody.prints
  have hprint : (Stmt.loop [d, t, i] body induction tags).print
      = .ok ("for(" ++ decl ++ "; " ++ test ++ "; " ++ incr ++ ") " ++ inside) := by
    simp only [print, hdecl, htest, hincr, hinside, bind, Except.bind, pure, Except.pure]
  rw [hprint, hdecl, htest, hincr, hinside]
  simp only [extent_ok, String.length_append]
  show 4 + decl.length + 2 + test.length + 2 + incr.length + 2 + inside.length = _
  omega

theorem extent_cond {c : Expr} {yes : Stmt} (hc : c.Legible) (hyes : yes.Legible) (tags : Tags) :
    extent (Stmt.cond [c] yes none tags).print = extent c.print + extent yes.print + 5 := by
  obtain ⟨test, htest⟩ := hc.prints
  obtain ⟨branch, hbranch⟩ := hyes.prints
  have hprint : (Stmt.cond [c] yes none tags).print = .ok ("if(" ++ test ++ ")\n" ++ branch) := by
    simp only [print, htest, hbranch, bind, Except.bind, pure, Except.pure]
  rw [hprint, htest, hbranch]
  simp only [extent_ok, String.length_append]
  show 3 + test.length + 2 + branch.length = _
  omega

theorem extent_cond_else {c : Expr} {yes no : Stmt} (hc : c.Legible) (hyes : yes.Legible)
    (hno : no.Legible) (tags : Tags) :
    extent (Stmt.cond [c] yes (some no) tags).print
      = extent c.print + extent yes.print + extent no.print + 11 := by
  obtain ⟨test, htest⟩ := hc.prints
  obtain ⟨branch, hbranch⟩ := hyes.prints
  obtain ⟨other, hother⟩ := hno.prints
  have hprint : (Stmt.cond [c] yes (some no) tags).print
      = .ok ("if(" ++ test ++ ")\n" ++ branch ++ "\nelse\n" ++ other) := by
    simp only [print, htest, hbranch, hother, bind, Except.bind, pure, Except.pure]
  rw [hprint, htest, hbranch, hother]
  simp only [extent_ok, String.length_append]
  show 3 + test.length + 2 + branch.length + 6 + other.length = _
  omega

theorem extent_switch {c : Expr} {body : Stmt} (hc : c.Legible) (hbody : body.Legible)
    (tags : Tags) :
    extent (Stmt.switch [c] body tags).print = extent c.print + extent body.print + 9 := by
  obtain ⟨test, htest⟩ := hc.prints
  obtain ⟨inside, hinside⟩ := hbody.prints
  have hprint : (Stmt.switch [c] body tags).print
      = .ok ("switch(" ++ test ++ ") " ++ inside) := by
    simp only [print, htest, hinside, bind, Except.bind, pure, Except.pure]
  rw [hprint, htest, hinside]
  simp only [extent_ok, String.length_append]
  show 7 + test.length + 2 + inside.length = _
  omega

end Stmt

/-! ## §2. Unrolling makes a text longer. -/

namespace Unroll

variable {ask : Features → Except Error Int} {n : Nat}

/-- The unrolled form holds the text of the loop: the declaration stands
before the groups or in them, the other clauses and the body in the second
loop. -/
theorem extent_lt_form {d t i : Expr} {body : Stmt} {test : Expr} {increment : Option Expr}
    (hd : d.Legible) (ht : t.Legible) (hi : i.Legible) (hbody : body.Legible)
    (htest : test.Legible) (hincrement : ∀ e ∈ increment, e.Legible) (induction : Option Induction)
    (tags tags' : Tags) (factor : Nat) :
    extent (Stmt.loop [d, t, i] body induction tags).print
      < extent (form d t i body tags' factor test increment).print := by
  have hcopies : ∀ s ∈ copies factor body increment, s.Legible := by
    intro s hs
    rcases mem_copies hs with rfl | ⟨e, he, rfl⟩
    · exact hbody
    · exact .basic (hincrement e he)
  have hgroups : (Stmt.block [] (copies factor body increment) {} {}).Legible := .block hcopies
  have hfinishing := Stmt.extent_loop .nil ht hi hbody none (tags'.insert justUnrolled none)
  have hform := form_legible hd ht hi hbody htest hincrement tags' factor
  rw [Stmt.extent_loop hd ht hi hbody]
  unfold form Stmt.ofBlock at hform ⊢
  by_cases hparts : d.parts.isEmpty = true
  · simp only [if_pos hparts, List.nil_append] at hform ⊢
    cases hform with
    | block hss =>
        rw [Stmt.extent_block hss, Stmt.extent_printLines hss]
        simp only [List.map_cons, List.map_nil, List.sum_cons, List.sum_nil, hfinishing,
          Stmt.extent_loop hd htest .nil hgroups, List.length_cons, List.length_nil]
        omega
  · simp only [if_neg hparts, List.singleton_append] at hform ⊢
    cases hform with
    | block hss =>
        rw [Stmt.extent_block hss, Stmt.extent_printLines hss]
        simp only [List.map_cons, List.map_nil, List.sum_cons, List.sum_nil, hfinishing,
          Stmt.extent_ofExpr hd, List.length_cons, List.length_nil]
        omega

/-- Treating a loop keeps its text, or unrolls it and makes the text
longer. -/
theorem rewriteLoop_grows {d t i : Expr} {body : Stmt} {tags : Tags} (hd : d.Legible)
    (ht : t.Legible) (hi : i.Legible) (hbody : body.Legible) {y : Stmt} {k : Nat}
    (h : rewriteLoop ask n ⟨[d, t, i], body, none, tags⟩ = .ok (y, k)) :
    extent (Stmt.loop [d, t, i] body none tags).print + k ≤ extent y.print := by
  unfold rewriteLoop at h
  by_cases htag : tags.has justUnrolled = true
  · rw [if_pos htag] at h
    obtain ⟨rfl, rfl⟩ := Prod.mk.inj (Except.ok.inj h)
    exact Nat.le_refl _
  · rw [if_neg htag] at h
    obtain ⟨z, hz, h⟩ := bind_eq_ok.1 h
    cases z with
    | none =>
        obtain ⟨rfl, rfl⟩ := Prod.mk.inj (Except.ok.inj h)
        exact Nat.le_refl _
    | some z =>
        obtain ⟨rfl, rfl⟩ := Prod.mk.inj (Except.ok.inj h)
        obtain ⟨p, test, increment, _, htest, hrepeated, rfl⟩ := treated_eq_some hz
        obtain ⟨r, hr, hlegible⟩ := repeated_ok hi d t tags
        obtain rfl : r = .ok increment := Except.ok.inj ((hr body none).symm.trans hrepeated)
        exact extent_lt_form hd ht hi hbody (Expr.legible_of_parse htest) (hlegible increment rfl)
          none tags tags p.factor.toNat

theorem rewriteAll_grows {xs ys : List Stmt} {k : Nat}
    (hgrows : ∀ x ∈ xs, ∀ y j, rewrite ask n x = .ok (y, j) →
      extent x.print + j ≤ extent y.print)
    (h : rewriteAll ask n xs = .ok (ys, k)) :
    ys.length = xs.length ∧ (xs.map fun x => extent x.print).sum + k
      ≤ (ys.map fun y => extent y.print).sum := by
  induction xs generalizing ys k with
  | nil =>
      obtain ⟨rfl, rfl⟩ := Prod.mk.inj (Except.ok.inj h)
      exact ⟨rfl, Nat.le_refl _⟩
  | cons x xs ih =>
      obtain ⟨hx, hxs⟩ := List.forall_mem_cons.1 hgrows
      obtain ⟨⟨y, j⟩, hrewrite, h⟩ := bind_eq_ok.1 h
      obtain ⟨⟨ys', k'⟩, hrewrites, h⟩ := bind_eq_ok.1 h
      obtain ⟨rfl, rfl⟩ := Prod.mk.inj (Except.ok.inj h)
      obtain ⟨hlength, hsum⟩ := ih hxs hrewrites
      have hfirst := hx y j hrewrite
      simp only [List.length_cons, List.map_cons, List.sum_cons]
      omega

theorem rewriteAll_legible {xs ys : List Stmt} {k : Nat} (hxs : ∀ x ∈ xs, x.Legible)
    (h : rewriteAll ask n xs = .ok (ys, k)) : ∀ y ∈ ys, y.Legible := by
  intro y hy
  obtain ⟨x, hx, j, hrewrite⟩ := exists_of_mem_rewriteAll h y hy
  exact rewrite_legible (hxs x hx) hrewrite

/-- The lines of some statements grow with them. -/
theorem extent_printLines_grows {xs ys : List Stmt} {k : Nat} (hxs : ∀ x ∈ xs, x.Legible)
    (hgrows : ∀ x ∈ xs, ∀ y j, rewrite ask n x = .ok (y, j) →
      extent x.print + j ≤ extent y.print)
    (h : rewriteAll ask n xs = .ok (ys, k)) :
    extent (Stmt.printLines xs) + k ≤ extent (Stmt.printLines ys) := by
  obtain ⟨hlength, hsum⟩ := rewriteAll_grows hgrows h
  rw [Stmt.extent_printLines hxs, Stmt.extent_printLines (rewriteAll_legible hxs h), hlength]
  omega

/-- **Every loop that is unrolled makes the text longer**, wherever it
stands. -/
theorem rewrite_grows {x : Stmt} (hx : x.Legible) {y : Stmt} {k : Nat}
    (h : rewrite ask n x = .ok (y, k)) : extent x.print + k ≤ extent y.print := by
  induction hx generalizing n y k with
  | empty | basic | raw =>
      obtain ⟨rfl, rfl⟩ := Prod.mk.inj (Except.ok.inj h)
      exact Nat.le_refl _
  | block hss ih =>
      obtain ⟨⟨ys, j⟩, hys, h⟩ := bind_eq_ok.1 h
      obtain ⟨rfl, rfl⟩ := Prod.mk.inj (Except.ok.inj h)
      have hlines := extent_printLines_grows hss (fun x hx y j hy => ih x hx hy) hys
      rw [Stmt.extent_block hss, Stmt.extent_block (rewriteAll_legible hss hys)]
      omega
  | @loop d t i body induction tags hd ht hi hbody ih =>
      obtain ⟨⟨body', j⟩, hrewrite, h⟩ := bind_eq_ok.1 h
      obtain ⟨⟨s, j'⟩, hs, h⟩ := bind_eq_ok.1 h
      obtain ⟨rfl, rfl⟩ := Prod.mk.inj (Except.ok.inj h)
      have hbody' := rewrite_legible hbody hrewrite
      -- The body has grown before the loop around it is looked at.
      have hinside := ih hrewrite
      have houtside := rewriteLoop_grows hd ht hi hbody' hs
      rw [Stmt.extent_loop hd ht hi hbody'] at houtside
      rw [Stmt.extent_loop hd ht hi hbody]
      omega
  | @cond c yes no tags hc hyes hno ihyes ihno =>
      cases no with
      | none =>
          obtain ⟨⟨yes', j⟩, hrewrite, h⟩ := bind_eq_ok.1 h
          obtain ⟨rfl, rfl⟩ := Prod.mk.inj (Except.ok.inj h)
          have hinside := ihyes hrewrite
          rw [Stmt.extent_cond hc hyes, Stmt.extent_cond hc (rewrite_legible hyes hrewrite)]
          omega
      | some no =>
          obtain ⟨⟨yes', j⟩, hrewrite, h⟩ := bind_eq_ok.1 h
          obtain ⟨⟨no', j'⟩, hrewrite', h⟩ := bind_eq_ok.1 h
          obtain ⟨rfl, rfl⟩ := Prod.mk.inj (Except.ok.inj h)
          have hinside := ihyes hrewrite
          have hinside' := ihno no rfl hrewrite'
          rw [Stmt.extent_cond_else hc hyes (hno no rfl),
            Stmt.extent_cond_else hc (rewrite_legible hyes hrewrite)
              (rewrite_legible (hno no rfl) hrewrite')]
          omega
  | switch hc hbody ih =>
      obtain ⟨⟨body', j⟩, hrewrite, h⟩ := bind_eq_ok.1 h
      obtain ⟨rfl, rfl⟩ := Prod.mk.inj (Except.ok.inj h)
      have hinside := ih hrewrite
      rw [Stmt.extent_switch hc hbody, Stmt.extent_switch hc (rewrite_legible hbody hrewrite)]
      omega

/-! ## §3. Without an unrolling only tags are lost. -/

theorem rewriteAll_eq_of_zero {xs ys : List Stmt}
    (hsame : ∀ x ∈ xs, ∀ y, rewrite ask n x = .ok (y, 0) → y = x.untagged.forgotten)
    (h : rewriteAll ask n xs = .ok (ys, 0)) : ys = xs.map fun x => x.untagged.forgotten := by
  induction xs generalizing ys with
  | nil =>
      obtain ⟨rfl, _⟩ := Prod.mk.inj (Except.ok.inj h)
      rfl
  | cons x xs ih =>
      obtain ⟨hx, hxs⟩ := List.forall_mem_cons.1 hsame
      obtain ⟨⟨y, j⟩, hrewrite, h⟩ := bind_eq_ok.1 h
      obtain ⟨⟨ys', k⟩, hrewrites, h⟩ := bind_eq_ok.1 h
      obtain ⟨rfl, hcount⟩ := Prod.mk.inj (Except.ok.inj h)
      obtain ⟨rfl, rfl⟩ : j = 0 ∧ k = 0 := by omega
      rw [List.map_cons, hx y hrewrite, ih hxs hrewrites]

/-- A loop that is not unrolled loses its tag, if it has one. -/
theorem rewriteLoop_eq_of_zero {l : Loop} {y : Stmt} (h : rewriteLoop ask n l = .ok (y, 0)) :
    y = { l with tags := l.tags.erase justUnrolled }.toStmt := by
  unfold rewriteLoop at h
  by_cases htag : l.tags.has justUnrolled = true
  · rw [if_pos htag] at h
    obtain ⟨rfl, _⟩ := Prod.mk.inj (Except.ok.inj h)
    rfl
  · rw [if_neg htag] at h
    obtain ⟨z, _, h⟩ := bind_eq_ok.1 h
    cases z with
    | none =>
        obtain ⟨rfl, _⟩ := Prod.mk.inj (Except.ok.inj h)
        rw [Tags.erase_eq_self (Bool.eq_false_iff.2 htag)]
    | some z =>
        obtain ⟨_, hcount⟩ := Prod.mk.inj (Except.ok.inj h)
        cases hcount

/-- **Where nothing is unrolled, the statement is the same without its
tags**, up to what loops remember. -/
theorem rewrite_eq_of_zero {x y : Stmt} (h : rewrite ask n x = .ok (y, 0)) :
    y = x.untagged.forgotten := by
  induction x using Stmt.inductionOn generalizing n y with
  | basic | raw =>
      obtain ⟨rfl, _⟩ := Prod.mk.inj (Except.ok.inj h)
      rfl
  | block es ss b tags ih =>
      obtain ⟨⟨ys, j⟩, hys, h⟩ := bind_eq_ok.1 h
      obtain ⟨rfl, rfl⟩ := Prod.mk.inj (Except.ok.inj h)
      rw [rewriteAll_eq_of_zero (fun x hx y hy => ih x hx hy) hys, Stmt.untagged, Stmt.renote,
        Stmt.renoteAll_eq_map, Stmt.forgotten, Stmt.renote, Stmt.renoteAll_eq_map, List.map_map]
      rfl
  | loop es body i tags ih =>
      obtain ⟨⟨body', j⟩, hrewrite, h⟩ := bind_eq_ok.1 h
      obtain ⟨⟨s, j'⟩, hs, h⟩ := bind_eq_ok.1 h
      obtain ⟨rfl, hcount⟩ := Prod.mk.inj (Except.ok.inj h)
      obtain ⟨rfl, rfl⟩ : j = 0 ∧ j' = 0 := by omega
      rw [rewriteLoop_eq_of_zero hs, ih hrewrite]
      rfl
  | cond es yes no tags ihyes ihno =>
      cases no with
      | none =>
          obtain ⟨⟨yes', j⟩, hrewrite, h⟩ := bind_eq_ok.1 h
          obtain ⟨rfl, rfl⟩ := Prod.mk.inj (Except.ok.inj h)
          rw [ihyes hrewrite]
          rfl
      | some no =>
          obtain ⟨⟨yes', j⟩, hrewrite, h⟩ := bind_eq_ok.1 h
          obtain ⟨⟨no', j'⟩, hrewrite', h⟩ := bind_eq_ok.1 h
          obtain ⟨rfl, hcount⟩ := Prod.mk.inj (Except.ok.inj h)
          obtain ⟨rfl, rfl⟩ : j = 0 ∧ j' = 0 := by omega
          rw [ihyes hrewrite, ihno no rfl hrewrite']
          rfl
  | switch es body tags ih =>
      obtain ⟨⟨body', j⟩, hrewrite, h⟩ := bind_eq_ok.1 h
      obtain ⟨rfl, rfl⟩ := Prod.mk.inj (Except.ok.inj h)
      rw [ih hrewrite]
      rfl

end Unroll

/-! ## §4. The verdict. -/

/-- The text of a rule body that the recursion has rewritten. -/
theorem Block.extent_of_rewriteAll {b b' : Block} (hb : b.Legible)
    {ask : Features → Except Error Int} {stmts : List Stmt} {n : Nat}
    (h : Unroll.rewriteAll ask 0 b.stmts = .ok (stmts, n)) (hb' : b'.forgotten = { b with stmts }) :
    extent b.print + n ≤ extent b'.print := by
  have hprint : b'.print = Stmt.printLines stmts := by
    rw [← Block.print_renote (fun notes => (none, notes.2)) b']
    exact congrArg Block.print hb'
  rw [hprint]
  exact Unroll.extent_printLines_grows hb (fun x hx y j => Unroll.rewrite_grows (hb x hx)) h

end RuleBody
