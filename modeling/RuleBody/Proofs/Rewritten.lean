/-
  RuleBody.Proofs.Rewritten
  ─────────────────────────
  **WHAT THE RECURSION LEAVES.**

  Where the recursion over a legible rule body succeeds, each statement of its
  result comes from one statement, a loop is replaced by its unrolled form,
  loses its tag or stays, and the result is legible again.  It does not look
  at what loops remember.  The pass succeeds exactly where the recursion does,
  and leaves the same statements (`runUnroll_of_rewriteAll`).

  §1  tags;
  §2  runs that succeed;
  §3  what loops remember;
  §4  the pass.
-/
import RuleBody.Proofs.BottomUp

namespace RuleBody

/-! ## §1. Tags. -/

namespace Tags

theorem has_empty (name : String) : ({} : Tags).has name = false := rfl

theorem has_insert (tags : Tags) (name : String) (value : Option String) :
    (tags.insert name value).has name = true := by
  unfold has names insert
  rw [List.contains_iff_mem, mem_names_insertByName (·.1) _ _ (fun y h => h) name tags.entries]
  exact .inl rfl

theorem has_erase (tags : Tags) (name : String) : (tags.erase name).has name = false := by
  unfold has names erase
  rw [← Bool.not_eq_true, List.contains_iff_mem, List.mem_map]
  rintro ⟨entry, hentry, rfl⟩
  simp at hentry

/-- A tag that is not there need not be taken away. -/
theorem erase_eq_self {tags : Tags} {name : String} (h : tags.has name = false) :
    tags.erase name = tags := by
  unfold erase
  congr 1
  refine List.filter_eq_self.2 fun entry hentry => ?_
  rw [bne_iff_ne]
  rintro rfl
  have hmem : entry.1 ∈ tags.names := List.mem_map_of_mem hentry
  rw [has, List.contains_iff_mem.2 hmem] at h
  cases h

end Tags

/-! ## §2. Runs that succeed. -/

namespace Unroll

variable {ask : Features → Except Error Int} {n : Nat}

/-- Every statement of a result is the result of a statement. -/
theorem exists_of_mem_rewriteAll {xs ys : List Stmt} {k : Nat}
    (h : rewriteAll ask n xs = .ok (ys, k)) :
    ∀ y ∈ ys, ∃ x ∈ xs, ∃ j, rewrite ask n x = .ok (y, j) := by
  induction xs generalizing ys k with
  | nil =>
      obtain ⟨rfl, rfl⟩ := Prod.mk.inj (Except.ok.inj h)
      exact fun y hy => absurd hy List.not_mem_nil
  | cons x xs ih =>
      obtain ⟨⟨y, j⟩, hx, h⟩ := bind_eq_ok.1 h
      obtain ⟨⟨ys', k'⟩, hxs, h⟩ := bind_eq_ok.1 h
      obtain ⟨rfl, rfl⟩ := Prod.mk.inj (Except.ok.inj h)
      refine List.forall_mem_cons.2 ⟨⟨x, List.mem_cons_self, j, hx⟩, fun z hz => ?_⟩
      obtain ⟨x', hx', j', hrewrite⟩ := ih hxs z hz
      exact ⟨x', List.mem_cons_of_mem x hx', j', hrewrite⟩

/-- A loop that is unrolled has a plan, and the test of its groups and its
increment are read from their texts. -/
theorem treated_eq_some {d t i : Expr} {body : Stmt} {tags : Tags} {y : Stmt}
    (h : treated ask n ⟨[d, t, i], body, none, tags⟩ = .ok (some y)) :
    ∃ p test increment, planned ask n ⟨[d, t, i], body, none, tags⟩ = .ok (some p)
      ∧ Expr.parse (testText p.factor p.induction p.limit) {} = .ok test
      ∧ repeated ⟨[d, t, i], body, none, tags⟩ = .ok (.ok increment)
      ∧ y = form d t i body tags p.factor.toNat test increment := by
  obtain ⟨plan, hplan, h⟩ := bind_eq_ok.1 h
  cases plan with
  | none => cases h
  | some p =>
      dsimp only at h
      rw [unrolled_eq] at h
      cases htest : Expr.parse (testText p.factor p.induction p.limit) {} with
      | error e =>
          rw [htest] at h
          cases h
      | ok test =>
          rw [htest] at h
          dsimp only at h
          rcases hrepeated : repeated ⟨[d, t, i], body, none, tags⟩ with f | (e | increment)
          · rw [hrepeated] at h
            cases h
          · rw [hrepeated] at h
            cases h
          · rw [hrepeated] at h
            exact ⟨p, test, increment, hplan, htest, rfl, (Option.some.inj (Except.ok.inj h)).symm⟩

/-- What is treated of a loop is nothing, or its unrolled form. -/
theorem treated_eq_ok {d t i : Expr} {body : Stmt} {tags : Tags} {y : Option Stmt}
    (h : treated ask n ⟨[d, t, i], body, none, tags⟩ = .ok y) :
    (y = none ∧ planned ask n ⟨[d, t, i], body, none, tags⟩ = .ok none)
      ∨ ∃ factor test increment, y = some (form d t i body tags factor test increment) := by
  cases y with
  | some y =>
      obtain ⟨p, test, increment, _, _, _, rfl⟩ := treated_eq_some h
      exact .inr ⟨_, _, _, rfl⟩
  | none =>
      obtain ⟨plan, hplan, h⟩ := bind_eq_ok.1 h
      cases plan with
      | none => exact .inl ⟨rfl, hplan⟩
      | some p =>
          dsimp only at h
          split at h <;> cases h

theorem treated_legible {l : Loop} (hl : l.Legible) {y : Stmt}
    (h : treated ask n l = .ok (some y)) : y.Legible := by
  obtain ⟨plan, hplan, h⟩ := bind_eq_ok.1 h
  cases plan with
  | none => cases h
  | some p =>
      obtain ⟨r, hr, _, hlegible⟩ := unrolled_ok hl p.factor.toNat
        (testText p.factor p.induction p.limit)
      dsimp only at h
      rw [hr] at h
      cases r with
      | error e => cases h
      | ok s =>
          obtain rfl := Option.some.inj (Except.ok.inj h)
          exact hlegible s rfl

theorem rewriteLoop_legible {l : Loop} (hl : l.Legible) {y : Stmt} {k : Nat}
    (h : rewriteLoop ask n l = .ok (y, k)) : y.Legible := by
  unfold rewriteLoop at h
  split at h
  · obtain ⟨rfl, _⟩ := Prod.mk.inj (Except.ok.inj h)
    obtain ⟨clauses, body, induction, tags⟩ := l
    cases hl with
    | loop hd ht hi hbody => exact .loop hd ht hi hbody
  · obtain ⟨z, hz, h⟩ := bind_eq_ok.1 h
    cases z with
    | none =>
        obtain ⟨rfl, _⟩ := Prod.mk.inj (Except.ok.inj h)
        exact hl
    | some z =>
        obtain ⟨rfl, _⟩ := Prod.mk.inj (Except.ok.inj h)
        exact treated_legible hl hz

/-- The recursion leaves a legible statement legible. -/
theorem rewrite_legible {x : Stmt} (hx : x.Legible) {y : Stmt} {k : Nat}
    (h : rewrite ask n x = .ok (y, k)) : y.Legible := by
  induction hx generalizing n y k with
  | empty | basic | raw =>
      obtain ⟨rfl, _⟩ := Prod.mk.inj (Except.ok.inj h)
      constructor <;> assumption
  | block _ ih =>
      obtain ⟨⟨ys, _⟩, hys, h⟩ := bind_eq_ok.1 h
      obtain ⟨rfl, _⟩ := Prod.mk.inj (Except.ok.inj h)
      refine .block fun y hy => ?_
      obtain ⟨x, hx, j, hrewrite⟩ := exists_of_mem_rewriteAll hys y hy
      exact ih x hx hrewrite
  | @loop d t i _ _ tags hd ht hi _ ih =>
      obtain ⟨⟨body, _⟩, hbody, h⟩ := bind_eq_ok.1 h
      obtain ⟨⟨s, _⟩, hs, h⟩ := bind_eq_ok.1 h
      obtain ⟨rfl, _⟩ := Prod.mk.inj (Except.ok.inj h)
      have hl : (⟨[d, t, i], body, none, tags⟩ : Loop).Legible := .loop hd ht hi (ih hbody)
      exact rewriteLoop_legible hl hs
  | switch hc _ ih =>
      obtain ⟨⟨body, _⟩, hbody, h⟩ := bind_eq_ok.1 h
      obtain ⟨rfl, _⟩ := Prod.mk.inj (Except.ok.inj h)
      exact .switch hc (ih hbody)
  | @cond c yes no tags hc _ _ ihyes ihno =>
      cases no with
      | none =>
          obtain ⟨⟨yes', _⟩, hyes, h⟩ := bind_eq_ok.1 h
          obtain ⟨rfl, _⟩ := Prod.mk.inj (Except.ok.inj h)
          exact .cond hc (ihyes hyes) (by simp)
      | some no =>
          obtain ⟨⟨yes', _⟩, hyes, h⟩ := bind_eq_ok.1 h
          obtain ⟨⟨no', _⟩, hno, h⟩ := bind_eq_ok.1 h
          obtain ⟨rfl, _⟩ := Prod.mk.inj (Except.ok.inj h)
          refine .cond hc (ihyes hyes) fun z hz => ?_
          obtain rfl := Option.some.inj hz
          exact ihno no rfl hno

/-! ## §3. What loops remember. -/

theorem rewriteAll_forgotten_of {xs : List Stmt}
    (h : ∀ x ∈ xs, ∀ n, rewrite ask n x.forgotten = rewrite ask n x) :
    rewriteAll ask n (xs.map Stmt.forgotten) = rewriteAll ask n xs := by
  induction xs with
  | nil => rfl
  | cons x xs ih =>
      obtain ⟨hx, hxs⟩ := List.forall_mem_cons.1 h
      rw [List.map_cons, rewriteAll, rewriteAll, hx, ih hxs]

/-- The recursion does not look at what loops remember. -/
theorem rewrite_forgotten (x : Stmt) (n : Nat) :
    rewrite ask n x.forgotten = rewrite ask n x := by
  induction x using Stmt.inductionOn generalizing n with
  | basic | raw => rfl
  | block es ss b tags ih =>
      rw [Stmt.forgotten, Stmt.renote, Stmt.renoteAll_eq_map, rewrite, rewrite,
        show ss.map (Stmt.renote _) = ss.map Stmt.forgotten from rfl, rewriteAll_forgotten_of ih]
  | loop es body i tags ih => rw [Stmt.forgotten, Stmt.renote, rewrite, rewrite, ← ih]; rfl
  | switch es body tags ih => rw [Stmt.forgotten, Stmt.renote, rewrite, rewrite, ← ih]; rfl
  | cond es yes no tags ihyes ihno =>
      cases no with
      | none => rw [Stmt.forgotten, Stmt.renote, rewrite, rewrite, ← ihyes]; rfl
      | some no => rw [Stmt.forgotten, Stmt.renote, rewrite, rewrite, ← ihyes, ← ihno no rfl]; rfl

end Unroll

/-! ## §4. The pass. -/

/-- The pass on a legible body, told by the recursion. -/
theorem runUnroll_of_rewriteAll {b : Block} (hb : b.Legible) (m : Manager) :
    ∃ out, (Pass.runUnroll b m).Yields out ∧ out.block.Legible
      ∧ match Unroll.rewriteAll m.factor 0 b.stmts with
        | .ok (stmts, n) => out.effect = .ok (.ofCount n) ∧ out.manager.factor = m.factor
            ∧ out.block.forgotten = { b with stmts }
        | .error _ => ∃ e, out.effect = .error e := by
  have hmatches := stmts_matches_block hb m
  refine ⟨_, runUnroll_yields hb m, (Unroll.visitor_follows.apply hb { manager := m }).2, ?_⟩
  cases hx : Unroll.rewriteAll m.factor 0 b.stmts with
  | error stop =>
      rw [hx] at hmatches
      obtain ⟨e, he⟩ := Option.ne_none_iff_exists'.1 hmatches
      rw [he]
      exact ⟨e, rfl⟩
  | ok y =>
      obtain ⟨stmts, n⟩ := y
      rw [hx] at hmatches
      obtain ⟨hfailure, hvalue, _, hfactor, hcount⟩ := hmatches
      rw [hfailure, show _ = n from hcount.trans (Nat.zero_add n)]
      refine ⟨rfl, hfactor, ?_⟩
      rw [Block.forgotten_eq]
      exact congrArg (fun stmts => { b with stmts }) hvalue

end RuleBody
