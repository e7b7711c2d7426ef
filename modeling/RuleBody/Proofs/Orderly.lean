/-
  RuleBody.Proofs.Orderly
  ───────────────────────
  **TREES THAT THE PASS LEAVES IN ORDER.**

  An unrolling builds statements that were never read: a clause becomes a
  statement, a test is read from a text that was put together, and copies of
  a body stand next to each other.  What is built is tidy all the same, as
  long as every loop is in one of two states:

      plain    — no clause holds a word that starts a block or a label
      grouped  — the body is made of copies, and the increment is empty

  A plain loop that is unrolled leaves a grouped and a plain one.  A grouped
  loop is never unrolled: every variable that its body moves is moved as
  often as there are copies, so none drives the loop (`planned_grouped`).
  Hence the recursion leaves order where it finds order (`rewrite_orderly`),
  as often as it is run.

  §1  plain and grouped loops;
  §2  grouped loops are left alone;
  §3  the unrolled form of a plain loop;
  §4  the recursion.
-/
import RuleBody.Proofs.Links

namespace RuleBody

open Token (Reads Lexeme kindOf)
open Parse (Paired leafKind? brackets marks)
open Unroll (copies form repeated testText planned decided treated rewrite rewriteAll rewriteLoop
  justUnrolled)

/-! ## §1. Plain and grouped loops. -/

/-- The words that start a block or a label. -/
def Stmt.openers : List String := ["\x7b", "case", "default"]

/-- No clause of the loop holds a word that starts a block or a label. -/
def Loop.Plain (l : Loop) : Prop := ∀ e ∈ l.clauses, ∀ word ∈ Stmt.openers, word ∉ e.words

instance (l : Loop) : Decidable l.Plain :=
  inferInstanceAs (Decidable (∀ e ∈ l.clauses, ∀ word ∈ Stmt.openers, word ∉ e.words))

/-- The loop has no increment, and its body is made of two or more copies. -/
def Loop.Grouped (l : Loop) : Prop :=
  (∃ d t, l.clauses = [d, t, .nil]) ∧ ∃ factor body increment, 2 ≤ factor
    ∧ l.body = .ofBlock ⟨copies factor body increment, {}⟩

/-- A tidy statement whose loops are plain or grouped. -/
structure Stmt.Orderly (s : Stmt) : Prop where
  tidy : s.Tidy
  loops : ∀ l ∈ s.loops, l.Plain ∨ l.Grouped

theorem Stmt.mem_loopsOf {ss : List Stmt} {l : Loop} : l ∈ loopsOf ss ↔ ∃ s ∈ ss, l ∈ s.loops := by
  induction ss with
  | nil => simp [loopsOf]
  | cons s ss ih => simp [loopsOf, ih]

/-- What the reader makes holds only loops that it makes. -/
theorem Stmt.Pristine.of_mem_loops {s : Stmt} (h : s.Pristine) :
    ∀ l ∈ s.loops, l.toStmt.Pristine := by
  induction h with
  | empty | basic | raw => nofun
  | block _ ih =>
      intro l hl
      obtain ⟨s, hs, hl⟩ := mem_loopsOf.1 hl
      exact ih s hs l hl
  | loop hd ht hi hbody ih => exact List.forall_mem_cons.2 ⟨.loop hd ht hi hbody, ih⟩
  | @cond c yes no _ _ _ ihyes ihno =>
      cases no with
      | none => exact ihyes
      | some no => exact List.forall_mem_append.2 ⟨ihyes, ihno no rfl⟩
  | switch _ _ ih => exact ih

theorem Expr.IsSpelt.paired {purpose : Parse.Purpose} {e : Expr} (h : e.IsSpelt purpose) :
    Paired e.words := by
  obtain ⟨parts, hparts, rfl⟩ := h.parts
  rw [Parse.collapse_words]
  exact paired_wordsOf fun p hp => (hparts p hp).paired

/-- Paired words start like an expression, unless the first one starts a
block or a label. -/
theorem Parse.Paired.opens {words : List String} (h : Paired words) {word : String}
    (hword : word ∈ words.head?) (hne : word ∉ Stmt.openers) : OpensExpr (.plain word) := by
  have hlabel : ∀ label ∈ ["case", "default"], (Token.plain word).isKeyword label = false := by
    intro label hlabel
    refine Bool.eq_false_iff.2 fun hkeyword => hne ?_
    obtain ⟨_, rfl⟩ := isKeyword_iff.1 hkeyword
    exact List.mem_cons_of_mem _ hlabel
  refine ⟨?_, hlabel _ (by decide), hlabel _ (by decide)⟩
  cases h with
  | nil => cases hword
  | leaf _ hkind _ =>
      obtain rfl := Option.some.inj hword
      intro hbrace
      unfold leafKind? at hkind
      rw [hbrace] at hkind
      cases hkind
  | bracket hmem _ _ =>
      obtain rfl := Option.some.inj hword
      have hall : ∀ pair ∈ brackets, pair.1 ∈ Stmt.openers
          ∨ (Token.plain pair.1).kind ≠ .lBrace := by decide
      exact (hall _ hmem).resolve_left hne

/-- A clause without the words that start a block or a label can stand as a
statement. -/
theorem Expr.IsSpelt.opens {purpose : Parse.Purpose} {e : Expr} (h : e.IsSpelt purpose)
    (havoids : ∀ word ∈ Stmt.openers, word ∉ e.words) : e.Opens := fun word hword =>
  h.paired.opens hword fun hopener => havoids word hopener (List.mem_of_mem_head? hword)

/-! ## §2. Grouped loops are left alone. -/

namespace Stmt

theorem innerOf_append (xs ys : List Stmt) : innerOf (xs ++ ys) = innerOf xs ++ innerOf ys := by
  induction xs with
  | nil => rfl
  | cons x xs ih => rw [List.cons_append, innerOf, innerOf, ih, List.append_assoc]

end Stmt

namespace Unroll

theorem copies_succ (factor : Nat) (body : Stmt) (increment : Option Expr) :
    copies (factor + 1) body increment
      = body :: ((increment.map Stmt.ofExpr).toList ++ copies factor body increment) := by
  unfold copies
  rw [List.replicate_succ, List.flatten_cons, List.cons_append]

/-- What a copy moves, all copies together move as many times. -/
theorem countP_moved_copies (p : Induction → Bool) (factor : Nat) (body : Stmt)
    (increment : Option Expr) :
    (Loop.moved (Stmt.innerOf (copies factor body increment))).countP p
      = factor * (Loop.moved (Stmt.innerOf (copies 1 body increment))).countP p := by
  induction factor with
  | zero => simp [copies, Stmt.innerOf, Loop.moved, Expr.nodesOf]
  | succ factor ih =>
      have hsplit : copies (factor + 1) body increment
          = copies 1 body increment ++ copies factor body increment := by
        rw [copies_succ, copies_succ]
        simp [copies]
      rw [hsplit, Stmt.innerOf_append, Loop.moved_append, List.countP_append, ih]
      ring

theorem single_copies {factor : Nat} (hfactor : 2 ≤ factor) (body : Stmt)
    (increment : Option Expr) :
    Loop.single (Loop.candidates (.ofBlock ⟨copies factor body increment, {}⟩)) = [] := by
  refine List.eq_nil_iff_forall_not_mem.2 fun i hi => ?_
  obtain ⟨_, hone⟩ := Loop.count_of_mem_single hi
  have hinner : (Stmt.ofBlock ⟨copies factor body increment, {}⟩).inner
      = Stmt.innerOf (copies factor body increment) := by
    simp [Stmt.ofBlock, Stmt.inner]
  rw [hinner, countP_moved_copies] at hone
  have := Nat.eq_one_of_mul_eq_one_right hone
  omega

/-- Where nothing drives a loop, there is no plan. -/
theorem decided_of_judge {ask : Features → Except Error Int} {nesting : Nat} {l : Loop}
    {test increment : Expr} (h : Loop.judge test increment l.body = .ok none) :
    decided ask nesting l test increment = .ok none := by
  unfold decided usable
  rw [h]
  cases test.split? <;> rfl

/-- **Grouped loops are left alone.** -/
theorem planned_grouped {l : Loop} (hl : l.Legible) (hnone : l.induction = none)
    (hgrouped : l.Grouped) (ask : Features → Except Error Int) (nesting : Nat) :
    planned ask nesting l = .ok none := by
  obtain ⟨⟨d, t, hclauses⟩, factor, body, increment, hfactor, hbody⟩ := hgrouped
  have htest : l.clause .test = .ok t := by
    unfold Loop.clause
    rw [hclauses]
    rfl
  have hincrement : l.clause .increment = .ok .nil := by
    unfold Loop.clause
    rw [hclauses]
    rfl
  rw [planned_eq_decided hl htest hincrement hnone]
  refine decided_of_judge ?_
  have hsingle : Loop.judgeBody t l.body = .ok none := by
    unfold Loop.judgeBody
    rw [hbody, single_copies hfactor]
  exact hsingle

/-! ## §3. The unrolled form of a plain loop. -/

/-- No expression holds a semicolon. -/
theorem semicolon_not_mem {words : List String} (h : Paired words) : ";" ∉ words := by
  induction h with
  | nil => exact List.not_mem_nil
  | @leaf word _ _ _ hkind _ ih =>
      refine fun hmem => (List.mem_cons.1 hmem).elim (fun hword => ?_) ih
      rw [← hword, show leafKind? (.plain ";") = none by decide] at hkind
      cases hkind
  | bracket hmem _ _ ihinner ih =>
      have hne : ∀ pair ∈ brackets, ";" ≠ pair.1 ∧ ";" ≠ pair.2 := by decide
      simp [ihinner, ih, hne _ hmem]

section

variable {p : Plan} {t target amount : Expr} {side bound : List Expr}
  (hp : p.From t target amount side bound) (hfactor : 0 ≤ p.factor) (ht : t.IsSpelt .statement)
  (hplain : ∀ word ∈ Stmt.openers, word ∉ t.words)
include hp hfactor ht hplain

/-- The text of the test of a group starts like an expression. -/
theorem testText_first {word : String} {words : List String}
    (h : Reads (testText p.factor p.induction p.limit ++ ";").toList (word :: words)) :
    word ∉ ";" :: Stmt.openers := by
  intro hopener
  obtain ⟨front, ops, distance, ops', behind, hreads, hfront, hne, hops, _⟩ :=
    testText_reads hp.taken.item hp.taken.name hp.taken.legible hp.taken.step
      (fun e he => (hp.items ht).2 e (.inr he)) hp.nonempty hp.limit hfactor
  have hwords := h.unique hreads
  cases front with
  | nil =>
      -- The text starts with an operator.
      obtain ⟨op, ops, rfl⟩ := List.exists_cons_of_ne_nil hne
      obtain rfl : word = op := List.head_eq_of_cons_eq hwords
      have hkind : kindOf word = .operator := (hops word (by simp)).kindOf_eq
      have hall : ∀ opener ∈ ";" :: Stmt.openers, kindOf opener ≠ .operator := by decide
      exact hall word hopener hkind
  | cons first front =>
      obtain rfl : word = first := List.head_eq_of_cons_eq hwords
      have hmem : word ∈ target.words := by
        rcases hfront with hfront | hfront
        · rw [← hfront]
          exact List.mem_cons_self
        · cases hfront
      have htest := hp.mem_words ht hmem
      rcases List.mem_cons.1 hopener with rfl | hopener
      · exact semicolon_not_mem ht.paired htest
      · exact hplain word hopener htest

/-- **The test of a group is spelt.** -/
theorem isSpelt_test {test : Expr}
    (h : Expr.parse (testText p.factor p.induction p.limit) {} = .ok test) :
    test.IsSpelt .statement := by
  refine Expr.isSpelt_of_parse h fun word words hreads hlabel => ?_
  refine testText_first hp hfactor ht hplain hreads ?_
  have hall : ∀ label ∈ [";", "case", "default"], label ∈ ";" :: Stmt.openers := by decide
  exact hall word hlabel

end

/-- The increment that is repeated is the clause itself. -/
theorem repeated_eq {i : Expr} (hi : i.IsSpelt .statement) (hopens : i.Opens) (d t : Expr)
    (body : Stmt) (tags : Tags) : repeated ⟨[d, t, i], body, none, tags⟩
      = .ok (.ok (if i.parts.isEmpty then none else some i)) := by
  obtain ⟨text, htext⟩ := hi.legible.prints
  by_cases hparts : i.parts.isEmpty = true
  · rw [if_pos hparts]
    exact if_pos hparts
  · rw [if_neg hparts]
    refine (if_neg hparts).trans ?_
    rw [htext]
    show Except.ok ((Expr.parse text {}).map some) = _
    rw [hi.parse_print hopens htext]
    rfl

/-- A clause with parts stands as a statement. -/
theorem tidy_clause {e : Expr} (he : e.IsSpelt .statement) (hopens : e.Opens)
    (hparts : ¬ e.parts.isEmpty = true) : (Stmt.ofExpr e).Tidy := by
  refine .simple he hopens ?_
  rintro rfl
  exact hparts rfl

/-- **The unrolled form of a plain loop is in order.** -/
theorem form_orderly {d t i : Expr} {body : Stmt} {test : Expr} {increment : Option Expr}
    {tags : Tags} {factor : Nat} (hd : d.IsSpelt .statement) (ht : t.IsSpelt .statement)
    (hi : i.IsSpelt .statement) (hplain : (⟨[d, t, i], body, none, tags⟩ : Loop).Plain)
    (hbody : body.Orderly) (htest : test.IsSpelt .statement)
    (hincrement : increment = if i.parts.isEmpty then none else some i) (hfactor : 2 ≤ factor) :
    (form d t i body tags factor test increment).Orderly := by
  have hopens : ∀ e ∈ [d, t, i], e.IsSpelt .statement → e.Opens := fun e he hspelt =>
    hspelt.opens (hplain e he)
  have hcopies : ∀ s ∈ copies factor body increment, s.Tidy ∧ ∀ l ∈ s.loops, l ∈ body.loops := by
    intro s hs
    rcases mem_copies hs with rfl | ⟨e, he, rfl⟩
    · exact ⟨hbody.tidy, fun l hl => hl⟩
    · rw [hincrement] at he
      split at he
      · cases he
      · rename_i hparts
        obtain rfl := Option.some.inj he
        exact ⟨tidy_clause hi (hopens i (by simp) hi) hparts, nofun⟩
  have hbefore : ∀ s ∈ (if d.parts.isEmpty then [] else [Stmt.ofExpr d]),
      s.Tidy ∧ s.loops = [] := by
    by_cases hparts : d.parts.isEmpty = true
    · rw [if_pos hparts]
      nofun
    · rw [if_neg hparts]
      exact List.forall_mem_singleton.2 ⟨tidy_clause hd (hopens d (by simp) hd) hparts, rfl⟩
  have hdecl : (if d.parts.isEmpty then d else .nil).IsSpelt .statement := by
    split
    · exact hd
    · exact Expr.isSpelt_nil _
  have hnil := Expr.isSpelt_nil .statement
  constructor
  · refine .block (List.forall_mem_append.2 ⟨fun s hs => (hbefore s hs).1, List.forall_mem_cons.2
      ⟨.loop hdecl htest hnil (.block fun s hs => (hcopies s hs).1),
        List.forall_mem_singleton.2 (.loop hnil ht hi hbody.tidy)⟩⟩)
  · intro l hl
    obtain ⟨s, hs, hl⟩ := Stmt.mem_loopsOf.1 hl
    rcases List.mem_append.1 hs with hs | hs
    · rw [(hbefore s hs).2] at hl
      cases hl
    · simp only [List.mem_cons, List.not_mem_nil, or_false] at hs
      rcases hs with rfl | rfl
      · rcases List.mem_cons.1 hl with rfl | hl
        · exact .inr ⟨⟨_, _, rfl⟩, factor, body, increment, hfactor, rfl⟩
        · obtain ⟨s, hs, hl⟩ := Stmt.mem_loopsOf.1 hl
          exact hbody.loops l ((hcopies s hs).2 l hl)
      · rcases List.mem_cons.1 hl with rfl | hl
        · refine .inl fun e he => ?_
          rcases List.mem_cons.1 he with rfl | he
          · exact fun _ _ => List.not_mem_nil
          · exact hplain e (List.mem_cons_of_mem _ he)
        · exact hbody.loops l hl

/-! ## §4. The recursion. -/

section

variable {ask : Features → Except Error Int} {n : Nat}

/-- The copies of a body fare as the body does. -/
theorem rewriteAll_copies {body body' : Stmt} {j : Nat} (h : rewrite ask n body = .ok (body', j))
    (factor : Nat) (increment : Option Expr) :
    ∃ k, rewriteAll ask n (copies factor body increment)
      = .ok (copies factor body' increment, k) := by
  induction factor with
  | zero => exact ⟨0, rfl⟩
  | succ factor ih =>
      obtain ⟨k, hk⟩ := ih
      rw [copies_succ, copies_succ]
      cases increment with
      | none =>
          refine ⟨j + k, ?_⟩
          rw [Option.map_none, Option.toList_none, List.nil_append, List.nil_append, rewriteAll, h,
            hk]
          rfl
      | some e =>
          refine ⟨j + (0 + k), ?_⟩
          have hstep : rewriteAll ask n (.ofExpr e :: copies factor body (some e))
              = .ok (.ofExpr e :: copies factor body' (some e), 0 + k) := by
            rw [rewriteAll, hk]
            rfl
          rw [Option.map_some, Option.toList_some, List.singleton_append, List.singleton_append,
            rewriteAll, h, hstep]
          rfl

/-- A grouped loop stays grouped where its body is rewritten. -/
theorem rewrite_grouped {clauses : List Expr} {body body' : Stmt} {induction : Option Induction}
    {tags : Tags} {k : Nat} (hl : (⟨clauses, body, induction, tags⟩ : Loop).Grouped)
    (h : rewrite ask n body = .ok (body', k)) :
    (⟨clauses, body', none, tags⟩ : Loop).Grouped := by
  obtain ⟨hclauses, factor, body, increment, hfactor, rfl⟩ := hl
  obtain ⟨⟨stmts, _⟩, hstmts, h⟩ := bind_eq_ok.1 h
  obtain ⟨rfl, _⟩ := Prod.mk.inj (Except.ok.inj h)
  -- There is a copy, and it was rewritten.
  obtain ⟨rest, rfl⟩ : ∃ rest, factor = rest + 1 := ⟨factor - 1, by omega⟩
  have hfirst := hstmts
  dsimp only at hfirst
  rw [copies_succ] at hfirst
  obtain ⟨⟨body', _⟩, hbody, _⟩ := bind_eq_ok.1 hfirst
  obtain ⟨_, hcopies⟩ := rewriteAll_copies hbody (rest + 1) increment
  obtain ⟨rfl, _⟩ := Prod.mk.inj (Except.ok.inj (hstmts.symm.trans hcopies))
  exact ⟨hclauses, rest + 1, body', increment, hfactor, rfl⟩

/-- **What becomes of a loop in order is in order.** -/
theorem rewriteLoop_orderly {d t i : Expr} {body : Stmt} {tags : Tags} {y : Stmt} {k : Nat}
    (hd : d.IsSpelt .statement) (ht : t.IsSpelt .statement) (hi : i.IsSpelt .statement)
    (hbody : body.Orderly)
    (hl : (⟨[d, t, i], body, none, tags⟩ : Loop).Plain
      ∨ (⟨[d, t, i], body, none, tags⟩ : Loop).Grouped)
    (h : rewriteLoop ask n ⟨[d, t, i], body, none, tags⟩ = .ok (y, k)) : y.Orderly := by
  have hstays : ∀ tags', (Stmt.loop [d, t, i] body none tags').Orderly := fun tags' =>
    ⟨.loop hd ht hi hbody.tidy, List.forall_mem_cons.2 ⟨hl, hbody.loops⟩⟩
  unfold rewriteLoop at h
  split at h
  · obtain ⟨rfl, _⟩ := Prod.mk.inj (Except.ok.inj h)
    exact hstays _
  · obtain ⟨z, hz, h⟩ := bind_eq_ok.1 h
    cases z with
    | none =>
        obtain ⟨rfl, _⟩ := Prod.mk.inj (Except.ok.inj h)
        exact hstays _
    | some z =>
        obtain ⟨rfl, _⟩ := Prod.mk.inj (Except.ok.inj h)
        have hlegible : (⟨[d, t, i], body, none, tags⟩ : Loop).Legible :=
          .loop hd.legible ht.legible hi.legible hbody.tidy.legible
        obtain ⟨p, test, increment, hplan, htest, hrepeated, rfl⟩ := treated_eq_some hz
        rcases hl with hplain | hgrouped
        · rw [planned_eq_decided hlegible rfl rfl rfl] at hplan
          obtain ⟨_, _, _, _, _, hfactor⟩ := decided_eq_some hplan
          obtain ⟨target, amount, side, bound, hp⟩ := plan_from hi hbody.tidy hplan
          have hspelt := isSpelt_test hp (by omega) ht (hplain t (by simp)) htest
          rw [repeated_eq hi (hi.opens (hplain i (by simp)))] at hrepeated
          exact form_orderly hd ht hi hplain hbody hspelt
            (Except.ok.inj (Except.ok.inj hrepeated)).symm (by omega)
        · rw [planned_grouped hlegible rfl hgrouped] at hplan
          cases hplan

theorem rewriteLoop_closed {d t i : Expr} {body : Stmt} {tags : Tags} {y : Stmt} {k : Nat}
    (hbody : body.closed = true)
    (h : rewriteLoop ask n ⟨[d, t, i], body, none, tags⟩ = .ok (y, k)) : y.closed = true := by
  unfold rewriteLoop at h
  split at h
  · obtain ⟨rfl, _⟩ := Prod.mk.inj (Except.ok.inj h)
    exact hbody
  · obtain ⟨z, hz, h⟩ := bind_eq_ok.1 h
    rcases treated_eq_ok hz with ⟨rfl, _⟩ | ⟨factor, test, increment, rfl⟩
    · obtain ⟨rfl, _⟩ := Prod.mk.inj (Except.ok.inj h)
      exact hbody
    · obtain ⟨rfl, _⟩ := Prod.mk.inj (Except.ok.inj h)
      rfl

/-- The recursion leaves a closed statement closed. -/
theorem rewrite_closed {x y : Stmt} {k : Nat} (hlegible : x.Legible)
    (h : rewrite ask n x = .ok (y, k)) (hx : x.closed = true) : y.closed = true := by
  induction hlegible generalizing n y k with
  | empty | basic | raw =>
      obtain ⟨rfl, _⟩ := Prod.mk.inj (Except.ok.inj h)
      rfl
  | block =>
      obtain ⟨⟨ys, _⟩, _, h⟩ := bind_eq_ok.1 h
      obtain ⟨rfl, _⟩ := Prod.mk.inj (Except.ok.inj h)
      rfl
  | loop _ _ _ _ ih =>
      obtain ⟨⟨body, _⟩, hbody, h⟩ := bind_eq_ok.1 h
      obtain ⟨⟨s, _⟩, hs, h⟩ := bind_eq_ok.1 h
      obtain ⟨rfl, _⟩ := Prod.mk.inj (Except.ok.inj h)
      exact rewriteLoop_closed (ih hbody hx) hs
  | switch _ _ ih =>
      obtain ⟨⟨body, _⟩, hbody, h⟩ := bind_eq_ok.1 h
      obtain ⟨rfl, _⟩ := Prod.mk.inj (Except.ok.inj h)
      exact (ih hbody hx : body.closed = true)
  | @cond c yes no tags _ _ _ _ ihno =>
      cases no with
      | none => cases hx
      | some no =>
          obtain ⟨⟨yes', _⟩, _, h⟩ := bind_eq_ok.1 h
          obtain ⟨⟨no', _⟩, hno, h⟩ := bind_eq_ok.1 h
          obtain ⟨rfl, _⟩ := Prod.mk.inj (Except.ok.inj h)
          exact (ihno no rfl hno hx : no'.closed = true)

/-- **The recursion leaves order where it finds order.** -/
theorem rewrite_orderly {x y : Stmt} {k : Nat} (hx : x.Orderly)
    (h : rewrite ask n x = .ok (y, k)) : y.Orderly := by
  obtain ⟨htidy, hloops⟩ := hx
  induction htidy generalizing n y k with
  | empty =>
      obtain ⟨rfl, _⟩ := Prod.mk.inj (Except.ok.inj h)
      exact ⟨.empty, nofun⟩
  | simple he hopens hnil =>
      obtain ⟨rfl, _⟩ := Prod.mk.inj (Except.ok.inj h)
      exact ⟨.simple he hopens hnil, nofun⟩
  | case he =>
      obtain ⟨rfl, _⟩ := Prod.mk.inj (Except.ok.inj h)
      exact ⟨.case he, nofun⟩
  | default =>
      obtain ⟨rfl, _⟩ := Prod.mk.inj (Except.ok.inj h)
      exact ⟨.default, nofun⟩
  | raw hsrc =>
      obtain ⟨rfl, _⟩ := Prod.mk.inj (Except.ok.inj h)
      exact ⟨.raw hsrc, nofun⟩
  | block _ ih =>
      obtain ⟨⟨ys, _⟩, hys, h⟩ := bind_eq_ok.1 h
      obtain ⟨rfl, _⟩ := Prod.mk.inj (Except.ok.inj h)
      have hall : ∀ y ∈ ys, y.Orderly := by
        intro y hy
        obtain ⟨x, hx, j, hrewrite⟩ := exists_of_mem_rewriteAll hys y hy
        exact ih x hx hrewrite fun l hl => hloops l (Stmt.mem_loopsOf.2 ⟨x, hx, hl⟩)
      refine ⟨.block fun y hy => (hall y hy).tidy, fun l hl => ?_⟩
      obtain ⟨y, hy, hl⟩ := Stmt.mem_loopsOf.1 hl
      exact (hall y hy).loops l hl
  | loop hd ht hi _ ih =>
      obtain ⟨⟨body, _⟩, hbody, h⟩ := bind_eq_ok.1 h
      obtain ⟨⟨s, _⟩, hs, h⟩ := bind_eq_ok.1 h
      obtain ⟨rfl, _⟩ := Prod.mk.inj (Except.ok.inj h)
      obtain ⟨hl, hinner⟩ := List.forall_mem_cons.1 hloops
      exact rewriteLoop_orderly hd ht hi (ih hbody hinner)
        (hl.imp (fun hplain => hplain) fun hgrouped => rewrite_grouped hgrouped hbody) hs
  | switch hc _ ih =>
      obtain ⟨⟨body, _⟩, hbody, h⟩ := bind_eq_ok.1 h
      obtain ⟨rfl, _⟩ := Prod.mk.inj (Except.ok.inj h)
      have hinner := ih hbody hloops
      exact ⟨.switch hc hinner.tidy, hinner.loops⟩
  | @cond c yes no tags hc htidy _ hclosed ihyes ihno =>
      cases no with
      | none =>
          obtain ⟨⟨yes', _⟩, hyes, h⟩ := bind_eq_ok.1 h
          obtain ⟨rfl, _⟩ := Prod.mk.inj (Except.ok.inj h)
          have hinner := ihyes hyes hloops
          exact ⟨.cond hc hinner.tidy (by simp) (by simp), hinner.loops⟩
      | some no =>
          obtain ⟨⟨yes', _⟩, hyes, h⟩ := bind_eq_ok.1 h
          obtain ⟨⟨no', _⟩, hno, h⟩ := bind_eq_ok.1 h
          obtain ⟨rfl, _⟩ := Prod.mk.inj (Except.ok.inj h)
          obtain ⟨hloopsyes, hloopsno⟩ := List.forall_mem_append.1 hloops
          have hinner := ihyes hyes hloopsyes
          have hother := ihno no rfl hno hloopsno
          refine ⟨.cond hc hinner.tidy ?_ fun _ => ?_,
            List.forall_mem_append.2 ⟨hinner.loops, hother.loops⟩⟩
          · intro s hs
            obtain rfl := Option.some.inj hs
            exact hother.tidy
          · exact rewrite_closed htidy.legible hyes (hclosed rfl)

end

end Unroll

end RuleBody
