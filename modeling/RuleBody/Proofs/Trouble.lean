/-
  RuleBody.Proofs.Trouble
  ───────────────────────
  **WHERE THE PASS STOPS.**

  Most loops that cannot be unrolled only get a warning.  The pass stops at a
  loop for one reason only: its test compares two sides, so that it would be
  unrolled if it had a variable, and the search for that variable fails.  The
  bound of the loop, the test of its groups and the increment, which are
  derived and read anew, do not fail (`parses_test`, `rewriteLoop_stopsAt`).
  There is one exception, a comparison that stands alone in brackets:

      for(; ( < ); ( += )) x;      — the test of the groups is `(+2*())<)`

  §1  the test of a group is read;
  §2  troubles;
  §3  the recursion stops at the first trouble;
  §4  the pass.
-/
import RuleBody.Proofs.Halted
import RuleBody.Proofs.Orderly

namespace RuleBody

open Token (Reads Lexeme kindOf)
open Parse (Paired Spelt brackets)
open Loop (Stop judge)
open Unroll (form repeated testText planned decided treated rewrite rewriteAll rewriteLoop
  justUnrolled Plan)
open RuleBody.Expr (wordsOf)

/-! ## §1. The test of a group is read. -/

/-- The test is not a comparison alone in a pair of brackets. -/
def Expr.Loose (test : Expr) : Prop :=
  ∀ op ∈ Expr.comparisons, ∀ pair ∈ brackets, test.words ≠ [pair.1, op, pair.2]

instance (test : Expr) : Decidable test.Loose :=
  inferInstanceAs (Decidable (∀ op ∈ Expr.comparisons, ∀ pair ∈ brackets, test.words ≠ _))

namespace Unroll

/-- **The test of a group is read** from its text. -/
theorem parses_test {p : Plan} {t target amount : Expr} {side bound : List Expr}
    (hp : p.From t target amount side bound) (hfactor : 0 ≤ p.factor) (ht : t.IsSpelt .statement)
    (hplain : ∀ word ∈ Stmt.openers, word ∉ t.words) (hloose : t.Loose) :
    ∃ test, Expr.parse (testText p.factor p.induction p.limit) {} = .ok test := by
  obtain ⟨htarget, hamount, hbound⟩ := hp.parts ht (hplain "case" (by decide)) hloose
  obtain ⟨front, ops, distance, ops', behind, hreads, hfront, _, hops, hdistance, hbehind⟩ :=
    testText_reads hp.taken.item hp.taken.name hp.taken.legible hp.taken.step
      (fun e he => (hp.items ht).2 e (.inr he)) hp.nonempty hp.limit hfactor
  obtain ⟨hops, hops'⟩ := List.forall_mem_append.1 hops
  have hpaired : Paired (front ++ (ops ++ (distance ++ (ops' ++ behind)))) := by
    have hfront' : Paired front := by
      rcases hfront with rfl | rfl
      · exact htarget.paired
      · exact .nil
    have hbehind' : Paired behind := by
      rcases hbehind with rfl | rfl
      · exact Expr.paired_wordsOf fun e he => (hbound e he).paired
      · exact Expr.paired_wordsOf fun e he => (hbound e (List.mem_of_mem_tail he)).paired
    exact hfront'.append ((Parse.paired_operators hops).append
      ((hdistance hamount.paired).append ((Parse.paired_operators hops').append hbehind')))
  have hreads' : Reads (testText p.factor p.induction p.limit ++ ";").toList
      ((front ++ (ops ++ (distance ++ (ops' ++ behind)))) ++ [";"]) := by
    simpa using hreads
  generalize front ++ (ops ++ (distance ++ (ops' ++ behind))) = words at hpaired hreads'
  obtain ⟨parts, hspelt⟩ := hpaired.spelt
  obtain ⟨_, _, hwords⟩ := hspelt.spec
  have hwords' : (Parse.collapse parts).words = words := by
    rw [Parse.collapse_words]
    exact hwords.symm
  refine ⟨Parse.collapse parts, Expr.IsSpelt.parse ⟨words, parts, hspelt, rfl⟩ ?_ ?_ {}⟩
  · intro word hword
    rw [hwords'] at hword
    refine hpaired.opens hword fun hopener => ?_
    obtain ⟨more, rfl⟩ := List.head?_eq_some_iff.1 hword
    exact testText_first hp hfactor ht hplain hreads' (List.mem_cons_of_mem _ hopener)
  · rw [hwords']
    simpa [String.toList_append] using hreads'

end Unroll

/-! ## §2. Troubles. -/

/-- The error at which the pass stops: the test compares two sides, and the
search for the variable fails. -/
def Loop.trouble? (l : Loop) : Option Error :=
  match l.clause .test, l.quietly Loop.drive with
  | .ok test, .error (.error e) => if test.split?.isSome then some e else none
  | _, _ => none

namespace Unroll

mutual

/-- The loops of a statement inside of some loops as the recursion meets
them: from the inside out, and each with the body that was rewritten. -/
def met (ask : Features → Except Error Int) : Nat → Stmt → List Loop
  | _, .basic _ _ | _, .raw _ _ _ => []
  | enclosing, .block _ ss _ _ => metAll ask enclosing ss
  | enclosing, .loop es body _ tags =>
      met ask (enclosing + 1) body ++ ((rewrite ask (enclosing + 1) body).toOption.map
        fun y => ⟨es, y.1, none, tags⟩).toList
  | enclosing, .cond _ yes none _ => met ask enclosing yes
  | enclosing, .cond _ yes (some no) _ => met ask enclosing yes ++ met ask enclosing no
  | enclosing, .switch _ body _ => met ask enclosing body

/-- The loops of some statements as the recursion meets them. -/
def metAll (ask : Features → Except Error Int) : Nat → List Stmt → List Loop
  | _, [] => []
  | enclosing, s :: ss => met ask enclosing s ++ metAll ask enclosing ss

end

end Unroll

/-- The error of a search for a variable: an increment fits no idiom, or a
body moves several variables. -/
def Error.OfAnalysis (e : Error) : Prop :=
  (∃ text, e = .unsupported .loopIncrement text) ∨ ∃ names, e = .ambiguous names

theorem Induction.judgeSegments_eq_error {test : Expr} {es : List Expr} {e : Error}
    (h : Induction.judgeSegments test es = .error e) :
    ∃ text, e = .unsupported .loopIncrement text := by
  have hsegment : ∀ {part : Expr}, Induction.judgeSegment part = .error e →
      ∃ text, e = .unsupported .loopIncrement text := by
    intro part h
    unfold Induction.judgeSegment at h
    split at h
    · cases h
    · cases h
    · exact ⟨_, (Except.error.inj h).symm⟩
  induction es with
  | nil => cases h
  | cons part es ih =>
      cases es with
      | nil => exact hsegment h
      | cons part' es =>
          rcases bind_eq_error h with h | ⟨l, _, h⟩
          · exact hsegment h
          · rcases bind_eq_error h with h | ⟨r, _, h⟩
            · exact ih h
            · cases h

/-- A plain loop as it was read, with a test that is not a comparison alone
in brackets. -/
structure Loop.Fresh (l : Loop) : Prop where
  plain : l.Plain
  loose : ∀ test ∈ (l.clause .test).toOption, test.Loose
  untagged : ¬ l.tags.has justUnrolled = true

namespace Loop

theorem trouble?_eq_some {d t i : Expr} {body : Stmt} {tags : Tags}
    (hl : (⟨[d, t, i], body, none, tags⟩ : Loop).Legible) {e : Error} :
    trouble? ⟨[d, t, i], body, none, tags⟩ = some e
      ↔ t.split?.isSome = true ∧ judge t i body = .error e := by
  have htest : (⟨[d, t, i], body, none, tags⟩ : Loop).clause .test = .ok t := rfl
  have hdrive : (⟨[d, t, i], body, none, tags⟩ : Loop).quietly Loop.drive
      = (judge t i body).mapError .error :=
    (Unroll.drive_finds_judge hl rfl rfl).quietly rfl
  unfold trouble?
  rw [htest, hdrive]
  cases judge t i body with
  | ok found => simp [Except.mapError]
  | error e' => simp [Except.mapError]

/-- A loop whose test compares nothing is in no trouble. -/
theorem trouble?_of_not_split {l : Loop} {test : Expr} (htest : l.clause .test = .ok test)
    (hsplit : test.split? = none) : l.trouble? = none := by
  unfold trouble?
  rw [htest]
  split
  · rename_i test' e h _
    obtain rfl : test = test' := Except.ok.inj h
    rw [hsplit]
    rfl
  · rfl

theorem judge_eq_error {test increment : Expr} {body : Stmt} {e : Error}
    (h : judge test increment body = .error e) : e.OfAnalysis := by
  unfold judge at h
  rcases bind_eq_error h with hincrement | ⟨found, _, h⟩
  · unfold judgeIncrement at hincrement
    split at hincrement
    · exact .inl (Induction.judgeSegments_eq_error hincrement)
    · cases hincrement
  · cases found with
    | some i => cases h
    | none =>
        have hbody : judgeBody test body = .error e := h
        unfold judgeBody at hbody
        split at hbody
        · cases hbody
        · cases hbody
        · split at hbody
          · cases hbody
          · exact .inr ⟨_, (Except.error.inj hbody).symm⟩

end Loop

/-! ## §3. The recursion stops at the first trouble. -/

namespace Unroll

/-- The computation stops with the error that was found, which is one of the
analysis, and it succeeds if none was found. -/
structure StopsAt {α : Type} (found : Option Error) (x : Except Stop α) : Prop where
  error : ∀ e ∈ found, x = .error (.error e) ∧ e.OfAnalysis
  ok : found = none → ∃ y, x = .ok y

theorem stopsAt_pure {α : Type} (y : α) : StopsAt none (pure y) := ⟨nofun, fun _ => ⟨y, rfl⟩⟩

theorem StopsAt.bind {α β : Type} {found found' : Option Error} {x : Except Stop α}
    {f : α → Except Stop β} (hx : StopsAt found x) (hf : ∀ y, x = .ok y → StopsAt found' (f y)) :
    StopsAt (found.or found') (x >>= f) := by
  cases found with
  | some e =>
      refine ⟨fun e' he' => ?_, nofun⟩
      obtain rfl := Option.some.inj he'
      obtain ⟨rfl, he⟩ := hx.error e rfl
      exact ⟨rfl, he⟩
  | none =>
      obtain ⟨y, rfl⟩ := hx.ok rfl
      exact hf y rfl

/-- What is only rebuilt afterwards does not stop anything. -/
theorem StopsAt.rebuild {α β : Type} {found : Option Error} {x : Except Stop α}
    {f : α → Except Stop β} (hx : StopsAt found x) (hf : ∀ y, ∃ z, f y = pure z) :
    StopsAt found (x >>= f) := by
  have hbind : StopsAt (found.or none) (x >>= f) := hx.bind fun y _ => by
    obtain ⟨z, hz⟩ := hf y
    rw [hz]
    exact stopsAt_pure z
  rwa [Option.or_none] at hbind

/-- A loop with a plan is unrolled if the test of its groups and its
increment can be read. -/
theorem treated_of_planned {ask : Features → Except Error Int} {n : Nat} {d t i : Expr}
    {body : Stmt} {tags : Tags} {p : Plan} {test : Expr} {increment : Option Expr}
    (hplan : planned ask n ⟨[d, t, i], body, none, tags⟩ = .ok (some p))
    (htest : Expr.parse (testText p.factor p.induction p.limit) {} = .ok test)
    (hrepeated : repeated ⟨[d, t, i], body, none, tags⟩ = .ok (.ok increment)) :
    treated ask n ⟨[d, t, i], body, none, tags⟩
      = .ok (some (form d t i body tags p.factor.toNat test increment)) := by
  have hunrolled : unrolled ⟨[d, t, i], body, none, tags⟩ p.factor.toNat
      (testText p.factor p.induction p.limit)
      = .ok (.ok (form d t i body tags p.factor.toNat test increment)) := by
    rw [unrolled_eq, htest, hrepeated]
    rfl
  refine bind_eq_ok.2 ⟨some p, hplan, ?_⟩
  dsimp only
  rw [hunrolled]
  rfl

/-- A loop whose test compares nothing adds no trouble to that of its body. -/
theorem findSome?_met_loop {ask : Features → Except Error Int} {n : Nat} {es : List Expr}
    {body : Stmt} {i : Option Induction} {tags : Tags} {test : Expr}
    (htest : (⟨es, body, none, tags⟩ : Loop).clause .test = .ok test)
    (hsplit : test.split? = none) :
    (met ask n (.loop es body i tags)).findSome? Loop.trouble?
      = (met ask (n + 1) body).findSome? Loop.trouble? := by
  have hloop : ∀ l ∈ ((rewrite ask (n + 1) body).toOption.map
      fun y => (⟨es, y.1, none, tags⟩ : Loop)).toList, l.trouble? = none := by
    intro l hl
    obtain ⟨y, _, rfl⟩ := Option.map_eq_some_iff.1 (Option.mem_toList.1 hl)
    exact Loop.trouble?_of_not_split htest hsplit
  rw [met, List.findSome?_append, List.findSome?_eq_none_iff.2 hloop, Option.or_none]

theorem rewriteAll_stopsAt {ask : Features → Except Error Int} {n : Nat} {xs : List Stmt}
    (h : ∀ x ∈ xs, StopsAt ((met ask n x).findSome? Loop.trouble?) (rewrite ask n x)) :
    StopsAt ((metAll ask n xs).findSome? Loop.trouble?) (rewriteAll ask n xs) := by
  induction xs with
  | nil => exact stopsAt_pure _
  | cons x xs ih =>
      obtain ⟨hx, hxs⟩ := List.forall_mem_cons.1 h
      rw [metAll, List.findSome?_append, rewriteAll]
      refine hx.bind ?_
      rintro ⟨y, k⟩ _
      exact (ih hxs).rebuild fun _ => ⟨_, rfl⟩

section

variable {ask : Features → Except Error Int} (hask : ∀ f, ∃ factor, ask f = .ok factor) {n : Nat}
include hask

/-- **One loop.** -/
theorem rewriteLoop_stopsAt {d t i : Expr} {body : Stmt} {tags : Tags}
    (hd : d.IsSpelt .statement) (ht : t.IsSpelt .statement) (hi : i.IsSpelt .statement)
    (hbody : body.Orderly) (hplain : (⟨[d, t, i], body, none, tags⟩ : Loop).Plain)
    (hloose : t.Loose) (htag : ¬ tags.has justUnrolled = true) :
    StopsAt (Loop.trouble? ⟨[d, t, i], body, none, tags⟩)
      (rewriteLoop ask n ⟨[d, t, i], body, none, tags⟩) := by
  have hl : (⟨[d, t, i], body, none, tags⟩ : Loop).Legible :=
    .loop hd.legible ht.legible hi.legible hbody.tidy.legible
  have hplanned : planned ask n ⟨[d, t, i], body, none, tags⟩
      = decided ask n ⟨[d, t, i], body, none, tags⟩ t i :=
    planned_eq_decided hl rfl rfl rfl ask n
  constructor
  · intro e he
    have htrouble := (Loop.trouble?_eq_some hl).1 he
    refine ⟨rewriteLoop_eq_error htag ?_, Loop.judge_eq_error htrouble.2⟩
    unfold treated
    rw [hplanned, (decided_eq_error hask).2 ⟨e, rfl, htrouble⟩]
    rfl
  · intro hnone
    unfold rewriteLoop
    rw [if_neg (show ¬ (⟨[d, t, i], body, none, tags⟩ : Loop).tags.has justUnrolled = true
      from htag)]
    match hdecided : decided ask n ⟨[d, t, i], body, none, tags⟩ t i with
    | .error stop =>
        obtain ⟨e, _, htrouble⟩ := (decided_eq_error hask).1 hdecided
        rw [(Loop.trouble?_eq_some hl).2 htrouble] at hnone
        cases hnone
    | .ok none =>
        unfold treated
        rw [hplanned, hdecided]
        exact ⟨_, rfl⟩
    | .ok (some p) =>
        obtain ⟨_, _, _, _, _, hfactor⟩ := decided_eq_some hdecided
        obtain ⟨target, amount, side, bound, hp⟩ := plan_from hi hbody.tidy hdecided
        obtain ⟨test, htest⟩ := parses_test hp (by omega) ht (hplain t (by simp)) hloose
        have hrepeated := repeated_eq hi (hi.opens (hplain i (by simp))) d t body tags
        rw [treated_of_planned (hplanned.trans hdecided) htest hrepeated]
        exact ⟨_, rfl⟩

/-- **The recursion stops at the first trouble**, if there is one. -/
theorem rewrite_stopsAt {x : Stmt} (hx : x.Tidy) (hloops : ∀ l ∈ x.loops, l.Fresh) :
    StopsAt ((met ask n x).findSome? Loop.trouble?) (rewrite ask n x) := by
  induction hx generalizing n with
  | empty | simple | case | default | raw => exact stopsAt_pure _
  | block _ ih =>
      rw [met, rewrite]
      refine StopsAt.rebuild (rewriteAll_stopsAt fun x hx => ih x hx fun l hl => ?_)
        fun _ => ⟨_, rfl⟩
      exact hloops l (Stmt.mem_loopsOf.2 ⟨x, hx, hl⟩)
  | @loop d t i body induction tags hd ht hi hbody ih =>
      obtain ⟨hfresh, hinner⟩ := List.forall_mem_cons.1 hloops
      rw [met, rewrite, List.findSome?_append]
      refine (ih hinner).bind ?_
      rintro ⟨body', k⟩ hrewrite
      have horderly : body'.Orderly :=
        rewrite_orderly ⟨hbody, fun l hl => .inl (hinner l hl).plain⟩ hrewrite
      have hloop : StopsAt (Loop.trouble? ⟨[d, t, i], body', none, tags⟩)
          (rewriteLoop ask (n + 1) ⟨[d, t, i], body', none, tags⟩) :=
        rewriteLoop_stopsAt hask hd ht hi horderly hfresh.plain (hfresh.loose t rfl) hfresh.untagged
      rw [hrewrite]
      show StopsAt (([⟨[d, t, i], body', none, tags⟩] : List Loop).findSome? Loop.trouble?) _
      rw [List.findSome?_singleton]
      exact hloop.rebuild fun _ => ⟨_, rfl⟩
  | switch _ _ ih =>
      rw [met, rewrite]
      exact (ih hloops).rebuild fun _ => ⟨_, rfl⟩
  | @cond c yes no tags _ _ _ _ ihyes ihno =>
      cases no with
      | none =>
          rw [met, rewrite]
          exact (ihyes hloops).rebuild fun _ => ⟨_, rfl⟩
      | some no =>
          obtain ⟨hyes, hno⟩ := List.forall_mem_append.1 hloops
          rw [met, rewrite, List.findSome?_append]
          refine (ihyes hyes).bind ?_
          rintro ⟨yes', k⟩ _
          exact (ihno no rfl hno).rebuild fun _ => ⟨_, rfl⟩

end

end Unroll

/-! ## §4. The pass. -/

theorem Stmt.Pristine.tags_loops {s : Stmt} (h : s.Pristine) : ∀ l ∈ s.loops, l.tags = {} := by
  rintro ⟨clauses, body, induction, tags⟩ hl
  cases h.of_mem_loops _ hl
  rfl

/-- The recursion on a rule body that was read. -/
theorem Block.rewriteAll_stopsAt {src : String} {origin : Location} {b : Block}
    (hparse : Block.parse src origin = .ok b) (hplain : ∀ l ∈ b.loops, l.Plain)
    (hloose : ∀ l ∈ b.loops, ∀ test ∈ (l.clause .test).toOption, test.Loose)
    {ask : Features → Except Error Int} (hask : ∀ f, ∃ factor, ask f = .ok factor) :
    Unroll.StopsAt ((Unroll.metAll ask 0 b.stmts).findSome? Loop.trouble?)
      (rewriteAll ask 0 b.stmts) := by
  obtain ⟨_, hpristine, _⟩ := Block.parse_spec hparse
  refine Unroll.rewriteAll_stopsAt fun s hs =>
    Unroll.rewrite_stopsAt hask (Block.tidy_of_parse hparse s hs) fun l hl => ?_
  have hmem : l ∈ b.loops := Stmt.mem_loopsOf.2 ⟨s, hs, hl⟩
  refine ⟨hplain l hmem, hloose l hmem, ?_⟩
  rw [(hpristine s hs).tags_loops l hl, Tags.has_empty]
  exact Bool.false_ne_true

/-- A rule body without trouble is rewritten whatever the factor is, and as
for two if it is two. -/
theorem Block.rewriteAll_twofold {src : String} {origin : Location} {b : Block}
    (hparse : Block.parse src origin = .ok b) (hplain : ∀ l ∈ b.loops, l.Plain)
    (hloose : ∀ l ∈ b.loops, ∀ test ∈ (l.clause .test).toOption, test.Loose)
    (hfound : (Unroll.metAll Manager.twofold.factor 0 b.stmts).findSome? Loop.trouble? = none) :
    ∃ k stmts n, (∀ f, Manager.twofold.factor f = .ok k)
      ∧ rewriteAll Manager.twofold.factor 0 b.stmts = .ok (stmts, n)
      ∧ (k = 2 → rewriteAll (fun _ => .ok 2) 0 b.stmts = .ok (stmts, n)) := by
  obtain ⟨k, hk⟩ := Manager.exists_twofold_factor
  obtain ⟨⟨stmts, n⟩, hrewrite⟩ :=
    (Block.rewriteAll_stopsAt hparse hplain hloose fun f => ⟨k, hk f⟩).ok hfound
  refine ⟨k, stmts, n, hk, hrewrite, ?_⟩
  rintro rfl
  rwa [show Manager.twofold.factor = fun _ => .ok 2 from funext hk] at hrewrite

/-- **The pass stops only where the search for a variable fails.**  On a rule
body that was read, with clauses that hold no words of blocks or labels and
with tests that are not a comparison alone in brackets, and with a heuristic
for the factor: the pass fails exactly if one of the loops that it meets,
each with its body already rewritten, compares two sides in its test and its
variable cannot be found.  The error is that of the first such loop from the
inside out, and no other error ever comes out of the pass. -/
theorem pass_stops_at_first_trouble {src : String} {origin : Location} {b : Block}
    (hparse : Block.parse src origin = .ok b) (hplain : ∀ l ∈ b.loops, l.Plain)
    (hloose : ∀ l ∈ b.loops, ∀ test ∈ (l.clause .test).toOption, test.Loose)
    {m : Manager} {heuristic : Heuristic} (hm : m.lookup? unrollingNumber = some heuristic)
    (t : Option Level) :
    ∃ out, (Pass.runUnroll b m t).2 = .ok out
      ∧ (∀ e, out.effect = .error e
          ↔ (Unroll.metAll m.factor 0 b.stmts).findSome? Loop.trouble? = some e)
      ∧ ∀ e, out.effect = .error e → e.OfAnalysis := by
  obtain ⟨_, hpristine, _⟩ := Block.parse_spec hparse
  have hlegible : b.Legible := fun s hs => (hpristine s hs).legible
  have hstops := Block.rewriteAll_stopsAt hparse hplain hloose fun f =>
    ⟨_, Manager.factor_eq_of_lookup? hm f⟩
  obtain ⟨out, hout, _⟩ := runUnroll_of_rewriteAll hlegible m
  have hiff : ∀ e, out.effect = .error e
      ↔ (Unroll.metAll m.factor 0 b.stmts).findSome? Loop.trouble? = some e := by
    intro e
    rw [runUnroll_effect_eq_error hlegible (hout t)]
    refine ⟨fun herror => ?_, fun hfound => (hstops.error e hfound).1⟩
    cases hfound : (Unroll.metAll m.factor 0 b.stmts).findSome? Loop.trouble? with
    | none =>
        obtain ⟨y, hy⟩ := hstops.ok hfound
        rw [hy] at herror
        cases herror
    | some e' =>
        obtain ⟨herror', _⟩ := hstops.error e' hfound
        rw [Stop.error.inj (Except.error.inj (herror'.symm.trans herror))]
  exact ⟨out, hout t, hiff, fun e he => (hstops.error e ((hiff e).1 he)).2⟩

/-- A loop that may be unrolled, and behind it one whose increment fits no
idiom. -/
theorem pass_stops_at_first_trouble_second :
    let b : Block := ⟨[.loop [.nil, .chain [.ident "i", .op "<", .ident "n"],
        .chain [.ident "i", .op "++"]] (.ofExpr (.call (.ident "f") (.args [.ident "i"]))) none {},
      .loop [.nil, .chain [.ident "j", .op "<", .ident "n"],
        .chain [.ident "j", .op "=", .call (.ident "g") (.args [.ident "j"])]]
        (.ofExpr (.chain [.ident "s", .op "+=", .lit "1"])) none {}], {}⟩
    let e := Error.unsupported .loopIncrement "j = g(j)"
    Block.parse "for(; i < n; i++) f(i); for(; j < n; j = g(j)) s += 1;" {} = .ok b
      ∧ (∀ l ∈ b.loops, l.Plain ∧ ∀ test ∈ (l.clause .test).toOption, test.Loose)
      ∧ (Manager.withDefaults.lookup? unrollingNumber).isSome = true
      ∧ ∃ out, (Pass.runUnroll b Manager.withDefaults none).2 = .ok out
        ∧ out.effect = .error e := by
  intro b e
  have hparse : Block.parse "for(; i < n; i++) f(i); for(; j < n; j = g(j)) s += 1;" {}
      = .ok b := by decide +kernel
  have hloops : ∀ l ∈ b.loops, l.Plain ∧ ∀ test ∈ (l.clause .test).toOption, test.Loose := by
    decide +kernel
  have hsome : (Manager.withDefaults.lookup? unrollingNumber).isSome = true := by decide +kernel
  have hfound : (Unroll.metAll Manager.withDefaults.factor 0 b.stmts).findSome? Loop.trouble?
      = some e := by decide +kernel
  obtain ⟨heuristic, hm⟩ := Option.isSome_iff_exists.1 hsome
  obtain ⟨out, hrun, heffect, _⟩ := pass_stops_at_first_trouble hparse
    (fun l hl => (hloops l hl).1) (fun l hl => (hloops l hl).2) hm none
  exact ⟨hparse, hloops, hsome, out, hrun, (heffect e).2 hfound⟩

/-- A comparison alone in brackets, with a factor of two: the search for the
variable does not fail, it finds a bracket, but the test of the groups has
brackets without their match, so it cannot be read.  The pass stops there,
whatever manager gives the factor. -/
theorem caged_comparison_stops :
    let ask : Features → Except Error Int := fun _ => .ok 2
    let l : Loop := ⟨[.nil, .chain [.op "(", .op "<", .op ")"],
      .chain [.op "(", .op "+=", .op ")"]], .ofExpr (.ident "x"), none, {}⟩
    Block.parse "for(; ( < ); ( += )) x;" {} = .ok ⟨[l.toStmt], {}⟩ ∧ l.Plain
      ∧ (Unroll.metAll ask 0 [l.toStmt]).findSome? Loop.trouble? = none
      ∧ ∃ e : Error, e.ofReading = true
        ∧ rewriteAll ask 0 [l.toStmt] = .error (.error e)
        ∧ ∀ (m : Manager) (t : Option Level), (∀ f, m.factor f = .ok 2) →
          ∃ out, (Pass.runUnroll ⟨[l.toStmt], {}⟩ m t).2 = .ok out ∧ out.effect = .error e := by
  intro ask l
  let e : Error := .parse "(+2*())<);" {} ⟨.misplaced, ⟨.rParen, ")", ⟨0, 8, 8⟩⟩⟩
  have hparse : Block.parse "for(; ( < ); ( += )) x;" {} = .ok ⟨[l.toStmt], {}⟩ := by
    decide +kernel
  have hrewrite : rewriteAll ask 0 [l.toStmt] = .error (.error e) := by decide +kernel
  refine ⟨hparse, by decide +kernel, by decide +kernel, e, rfl, hrewrite, ?_⟩
  intro m t hm
  have hfactor : m.factor = ask := funext hm
  have hlegible : (⟨[l.toStmt], {}⟩ : Block).Legible := Reachable.legible (.parsed hparse)
  exact exists_runUnroll_eq_error hlegible (hfactor ▸ hrewrite) t

end RuleBody
