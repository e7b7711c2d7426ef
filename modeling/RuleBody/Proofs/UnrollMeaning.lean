/-
  RuleBody.Proofs.UnrollMeaning
  ─────────────────────────────
  **UNROLLING KEEPS THE MEANING OF COUNTED LOOPS.**

  Where the test of a group holds, the variable is a whole group of rounds
  away from its bound, so the test of the loop holds before every round of
  the group.  The groups, and then the rounds that are left, are therefore
  the rounds of the loop, whatever the bound, the step and the factor leave
  over (`unrolled_runs_as_loop`).

  §1  the unrolled form runs;
  §2  rounds that move the variable;
  §3  counted loops.
-/
import RuleBody.Proofs.GroupTest

namespace RuleBody

open Token (Reads)

/-! ## §1. The unrolled form runs. -/

/-- The increment of a counted loop is read as it was. -/
theorem Strides.parse {v c : String} {direction : Direction} {inc : Expr}
    (h : Strides v direction c inc) (hlegible : inc.Legible) {text : String}
    (htext : inc.print = .ok text) : Expr.parse text {} = .ok inc := by
  obtain ⟨hv, hc⟩ := h.operands hlegible
  have hmark : (Expr.op direction.mark).IsRead := by
    cases direction <;> exact Expr.isRead_op (.longOperator (by decide))
  have hassignment : (Expr.op direction.assignment).IsRead := by
    cases direction <;> exact Expr.isRead_op (.longOperator (by decide))
  have hsign := Expr.isRead_op direction.sign_lexeme
  have hset : (Expr.op "=").IsRead := Expr.isRead_op (.shortOperator (by decide))
  obtain ⟨xs, rfl, hlength, hxs⟩ :
      ∃ xs, inc = .chain xs ∧ 2 ≤ xs.length ∧ ∀ x ∈ xs, x.IsRead := by
    cases h with
    | behind => exact ⟨_, rfl, by simp, by simp [hmark, hv.isRead, Expr.ident]⟩
    | inFront => exact ⟨_, rfl, by simp, by simp [hmark, hv.isRead, Expr.ident]⟩
    | assigns =>
        exact ⟨_, rfl, by simp, by simp [hassignment, hv.isRead, hc.isRead, Expr.ident, Expr.lit]⟩
    | variableFirst =>
        exact ⟨_, rfl, by simp, by simp [hset, hsign, hv.isRead, hc.isRead, Expr.ident, Expr.lit]⟩
    | variableLast =>
        have hplus : (Expr.op "+").IsRead := hsign
        exact ⟨_, rfl, by simp, by simp [hset, hplus, hv.isRead, hc.isRead, Expr.ident, Expr.lit]⟩
  obtain ⟨_, hprint, hreads⟩ := hlegible.written
  obtain rfl := Except.ok.inj (htext.symm.trans hprint)
  refine (Readable.append_leaves .nil hxs).parse hlength ?_ {}
  have hend : Reads [';'] [";"] := .mark (by rfl) .done
  have hall := hreads _ _ (Token.endsWord_cons [] (by decide) (by decide)) hend
  rwa [Expr.words_chain] at hall

theorem Expr.jump?_ne_normal (e : Expr) : e.jump? ≠ some .normal := by
  unfold jump?
  split <;> simp

theorem Strides.jump? {v c : String} {direction : Direction} {inc : Expr}
    (h : Strides v direction c inc) : inc.jump? = none := by
  cases h <;> rfl

namespace Unroll

/-- A jump in the place of the declaration is all that the form does. -/
theorem form_jumps {I : Interp} {d t inc test : Expr} {body : Stmt} {tags : Tags} {n : Nat}
    {increment : Option Expr} {o : Ending} (hd : d.jump? = some o) (σ : Store) :
    Exec I (.stmt (form d t inc body tags n test increment)) σ o (I.after σ d) := by
  have hne : o ≠ .normal := by
    rintro rfl
    exact d.jump?_ne_normal hd
  refine .block ?_
  split
  · exact .stop (.jump hd rfl) hne
  · exact .stop (.basic (by rw [hd]; rfl) rfl) hne

section

variable {I : Interp} {inc : Expr} {body : Stmt} {β : Store → Store} {increment : Option Expr}
  (hbody : ∀ σ, Exec I (.stmt body) σ .normal (β σ))
  (hincrement : increment = some inc ∧ inc.jump? = none ∨ increment = none ∧ inc = .nil)
include hbody hincrement

/-- Copies of a body run as so many rounds. -/
theorem copies_run (n : Nat) (σ : Store) :
    Exec I (.seq (copies n body increment)) σ .normal ((fun σ => I.after (β σ) inc)^[n] σ) := by
  induction n generalizing σ with
  | zero => exact .done
  | succ n ih =>
      rcases hincrement with ⟨rfl, hjump⟩ | ⟨rfl, rfl⟩
      · refine .next (hbody σ) (.next (.basic ?_ rfl) (ih _))
        rw [hjump]
        rfl
      · refine .next (hbody σ) ?_
        have hrest := ih (I.after (β σ) .nil)
        rwa [I.after_nil] at hrest

/-- A loop and its unrolled form run alike, where the groups and the rounds
that are left are the rounds of the loop. -/
theorem form_runs {d t test : Expr} {tags : Tags} {n : Nat} (htest : ∀ σ, I.after σ t = σ)
    (hgroup : ∀ σ, I.after σ test = σ) {σ ρ τ : Store}
    (hρ : Settled (fun σ => I.holds σ test = true) (fun σ => I.after (β σ) inc)^[n] (I.after σ d) ρ)
    (hτ : Settled (fun σ => I.holds σ t = true) (fun σ => I.after (β σ) inc) ρ τ)
    (hrounds : Settled (fun σ => I.holds σ t = true) (fun σ => I.after (β σ) inc) (I.after σ d) τ) :
    ∃ τ, Exec I (.stmt (.loop [d, t, inc] body none tags)) σ (d.jump?.getD .normal) τ
      ∧ Exec I (.stmt (form d t inc body tags n test increment)) σ (d.jump?.getD .normal) τ := by
  have hcopies : ∀ σ, Exec I (.stmt (.ofBlock ⟨copies n body increment, {}⟩)) σ .normal
      ((fun σ => I.after (β σ) inc)^[n] σ) := fun σ => .block (copies_run hbody hincrement n σ)
  have hgroups : Exec I (.rounds test .nil (.ofBlock ⟨copies n body increment, {}⟩))
      (I.after σ d) .normal ρ := by
    refine .of_settled hgroup hcopies ?_
    simp only [I.after_nil]
    exact hρ
  have hleft : Exec I (.seq [.loop [.nil, t, inc] body none (tags.insert justUnrolled none)])
      ρ .normal τ := by
    refine .next (.loop rfl ?_) .done
    rw [I.after_nil]
    exact .of_settled htest hbody hτ
  cases hd : d.jump? with
  | none =>
      refine ⟨τ, .loop hd (.of_settled htest hbody hrounds), .block ?_⟩
      split
      · exact .next (.loop hd hgroups) hleft
      · refine .next (.basic (by rw [hd]; rfl) rfl) (.next (.loop rfl ?_) hleft)
        rwa [I.after_nil]
  | some o => exact ⟨I.after σ d, .jump hd rfl, form_jumps hd σ⟩

end

end Unroll

/-- The unrolled form of a loop, given its clauses. -/
theorem Loop.Legible.unrolled_eq {l : Loop} (hl : l.Legible) (hnone : l.induction = none)
    {d t inc : Expr} (hdecl : l.clause .decl = .ok d) (htest : l.clause .test = .ok t)
    (hinc : l.clause .increment = .ok inc) {text : String} {test : Expr}
    (hparse : Expr.parse text {} = .ok test) {increment : Option Expr}
    (hrepeated : Unroll.repeated l = .ok (.ok increment)) (factor : Nat) :
    Unroll.unrolled l factor text
        = .ok (.ok (Unroll.form d t inc l.body l.tags factor test increment))
      ∧ l.toStmt = .loop [d, t, inc] l.body none l.tags := by
  obtain ⟨clauses, body, induction, tags⟩ := l
  cases hl with
  | loop _ _ _ _ =>
      obtain rfl := Except.ok.inj hdecl
      obtain rfl := Except.ok.inj htest
      obtain rfl := Except.ok.inj hinc
      obtain rfl : induction = none := hnone
      rw [Unroll.unrolled_eq, hparse]
      dsimp only
      rw [hrepeated]
      exact ⟨rfl, rfl⟩

/-- The pass replaces a loop that it has a plan for. -/
theorem Unroll.treatLoop_of_planned {l : Loop} (hl : l.Legible) (hnone : l.induction = none)
    (s : State) {p : Plan} (hplanned : planned s.manager.factor s.nesting l = .ok (some p))
    {u : Stmt}
    (hu : unrolled l p.factor.toNat (testText p.factor p.induction p.limit) = .ok (.ok u)) :
    ∃ r, (treatLoop s l).Yields r ∧ r.failure = none
      ∧ r.value.map Stmt.forgotten = some u.forgotten := by
  have hforget : l.forgotten.induction = none := rfl
  rw [← planned_congr hl hnone hforget (l.stripped_renote _)] at hplanned
  obtain ⟨_, hr, hforgotten, _⟩ := unrolled_ok hl p.factor.toNat
    (testText p.factor p.induction p.limit)
  obtain rfl := Except.ok.inj (hr.symm.trans hu)
  have htreated : treated s.manager.factor s.nesting l.forgotten = .ok (some u.forgotten) := by
    unfold treated
    rw [hplanned]
    dsimp only [bind, Except.bind]
    rw [hforgotten]
    rfl
  obtain ⟨r, hyields, _, hmatches⟩ := treatLoop_yields hl hnone s
  rw [htreated] at hmatches
  exact ⟨r, hyields, hmatches.1, hmatches.2.1⟩

/-! ## §2. Rounds that move the variable. -/

/-- One round of a loop moves `v` by the amount: by its increment clause, or
in its body.  In the second case the amount is what the analysis has found,
and the body keeps its value, so that all rounds are equally long. -/
inductive Steps (I : Interp) (l : Loop) (β : Store → Store) (v : String) (direction : Direction) :
    Expr → Prop where
  | clause {c : String} {inc : Expr} : l.clause .increment = .ok inc → Strides v direction c inc →
      (∀ σ, β σ v = σ v) → Steps I l β v direction (.lit c)
  | body {a : Expr} {i : Induction} : l.clause .increment = .ok .nil →
      l.stripped.driver = .ok (some i) → i.name = v → i.direction = direction →
      a.print = .ok i.step → a.IsAmount →
      (∀ σ k, I.value? σ a = some k →
        β σ v = σ v + direction.signed k ∧ I.value? (β σ) a = some k) → Steps I l β v direction a

namespace Steps

variable {I : Interp} {l : Loop} {β : Store → Store} {v : String} {direction : Direction} {a : Expr}
  (h : Steps I l β v direction a) (hl : l.Legible)
include h hl

/-- The analysis finds the variable, the direction and the amount. -/
theorem driver : ∃ i : Induction, l.stripped.driver = .ok (some i) ∧ i.name = v
    ∧ i.direction = direction ∧ a.print = .ok i.step ∧ a.IsAmount := by
  cases h with
  | @clause c inc hinc hstrides _ =>
      obtain ⟨t, htest, _⟩ := hl.clause .test
      have hlegible : inc.Legible := hl.of_clause hinc
      obtain ⟨text, hdriver⟩ := Loop.driver_of_strides hl htest hinc hstrides
      have hc := (hstrides.operands hlegible).2
      exact ⟨_, hdriver, rfl, rfl, Expr.print_leaf hc.admitted, .operand hc⟩
  | body _ hdriver hname hdirection hstep ha _ =>
      exact ⟨_, hdriver, hname, hdirection, hstep, ha⟩

variable {inc : Expr} (hinc : l.clause .increment = .ok inc)
include hinc

/-- The increment of the unrolled body is the increment clause. -/
theorem repeated : ∃ increment, Unroll.repeated l = .ok (.ok increment)
    ∧ (increment = some inc ∧ inc.jump? = none ∨ increment = none ∧ inc = .nil) := by
  unfold Unroll.repeated
  rw [hinc]
  cases h with
  | @clause c inc' hinc' hstrides _ =>
      obtain rfl : inc = inc' := Except.ok.inj (hinc.symm.trans hinc')
      have hlegible : inc.Legible := hl.of_clause hinc
      obtain ⟨text, htext⟩ := hlegible.prints
      have hparts : inc.parts.isEmpty = false := by
        cases hstrides <;> rfl
      refine ⟨some inc, (if_neg (by simp [hparts])).trans ?_, .inl ⟨rfl, hstrides.jump?⟩⟩
      rw [htext]
      show Except.ok ((Expr.parse text {}).map some) = _
      rw [hstrides.parse hlegible htext]
      rfl
  | body hnil =>
      obtain rfl : inc = .nil := Except.ok.inj (hinc.symm.trans hnil)
      exact ⟨none, rfl, .inr ⟨rfl, rfl⟩⟩

/-- One round moves the variable, and keeps its bound and the amount. -/
theorem round {e : Expr} (he : e.IsBound v) (hkeeps : ∀ σ, I.value? (β σ) e = I.value? σ e)
    {σ : Store} {k : Int} (hk : I.value? σ a = some k) :
    I.after (β σ) inc v = σ v + direction.signed k
      ∧ I.value? (I.after (β σ) inc) a = some k
      ∧ I.value? (I.after (β σ) inc) e = I.value? σ e := by
  cases h with
  | @clause c inc' hinc' hstrides hv =>
      obtain rfl : inc = inc' := Except.ok.inj (hinc.symm.trans hinc')
      have hlegible : inc.Legible := hl.of_clause hinc
      rw [I.value?_lit] at hk
      rw [hstrides.meaning hlegible hk, hv, I.value?_lit]
      refine ⟨Store.set_self _ _ _, hk, (?_ : _ = I.value? (β σ) e).trans (hkeeps σ)⟩
      cases he with
      | name hne => rw [I.value?_ident, I.value?_ident, Store.set_of_ne _ _ hne]
      | literal => rw [I.value?_lit, I.value?_lit]
  | body hnil _ _ _ _ _ hmoves =>
      obtain rfl : inc = .nil := Except.ok.inj (hinc.symm.trans hnil)
      obtain ⟨hv, ha⟩ := hmoves σ k hk
      rw [I.after_nil]
      exact ⟨hv, ha, hkeeps σ⟩

end Steps

/-! ## §3. Counted loops. -/

/-- A counted loop whose body does `β`: its test compares the variable with
a bound that the body keeps, and a round moves the variable by the amount in
the direction of the test. -/
structure Counted (I : Interp) (l : Loop) (β : Store → Store) (v : String) (direction : Direction)
    (e a : Expr) : Prop where
  legible : l.Legible
  fresh : l.induction = none
  test : ∃ t, l.clause .test = .ok t ∧ Bounded v e direction t
  bound : e.IsBound v
  bound_value : ∀ σ, (I.value? σ e).isSome = true
  body : ∀ σ, Exec I (.stmt l.body) σ .normal (β σ)
  keeps : ∀ σ, I.value? (β σ) e = I.value? σ e
  steps : Steps I l β v direction a
  amount_value : ∀ σ, (I.value? σ a).isSome = true

example : Counted ⟨fun _ => none, fun _ _ => 0, fun _ σ => σ, fun _ σ => σ⟩
    ⟨[.chain [.ident "i", .op "=", .lit "0"], .chain [.ident "n", .op ">=", .ident "i"],
      .chain [.ident "i", .op "=", .lit "3", .op "+", .ident "i"]],
      .ofExpr (.call (.ident "f") (.args [.ident "i"])), none, {}⟩
    id "i" .increasing (.ident "n") (.lit "3") where
  legible := by
    have hparse : Block.parse "for(i = 0; n >= i; i = 3 + i) f(i);" {} = .ok
        ⟨[.loop [.chain [.ident "i", .op "=", .lit "0"], .chain [.ident "n", .op ">=", .ident "i"],
          .chain [.ident "i", .op "=", .lit "3", .op "+", .ident "i"]]
          (.ofExpr (.call (.ident "f") (.args [.ident "i"]))) none {}], {}⟩ := by decide +kernel
    exact ((Block.parse_spec hparse).2.1 _ List.mem_cons_self).legible
  fresh := rfl
  test := ⟨_, rfl, .back (by decide)⟩
  bound := .name (by decide)
  bound_value _ := rfl
  body _ := .basic rfl rfl
  keeps _ := rfl
  steps := .clause rfl .variableLast fun _ => rfl
  amount_value _ := rfl

namespace Counted

variable {I : Interp} {l : Loop} {β : Store → Store} {v : String} {direction : Direction}
  {e a : Expr} (h : Counted I l β v direction e a)
include h

/-- The variable is a name, and the bound another name or a literal. -/
theorem operands : Expr.IsOperand .ident v
    ∧ ∃ kind w, e = .leaf kind w ∧ Expr.IsOperand kind w ∧ w ≠ v := by
  obtain ⟨t, ht, hbounded⟩ := h.test
  have hmem : .ident v ∈ t.parts ∧ e ∈ t.parts := by
    cases hbounded <;> simp
  have hparts := (h.legible.of_clause ht).parts
  have hv := Expr.isOperand_ident (hparts _ hmem.1)
  exact ⟨hv, h.bound.operand (hparts e hmem.2) hv⟩

section

variable {i : Induction} (hname : i.name = v) {factor : Int} {parts : List Expr}
  (hoffset : Unroll.IsOffset I factor a (Unroll.offset factor i.step) parts)
include hname hoffset

theorem parse_testText :
    Expr.parse (Unroll.testText factor i e.text) {} = .ok (Unroll.groupTest i parts [e]) := by
  subst hname
  obtain ⟨hv, kind, w, rfl, hw, _⟩ := h.operands
  exact Unroll.parse_testText hoffset hv (Unroll.isLimit_operand hw)

theorem after_groupTest (σ : Store) : I.after σ (Unroll.groupTest i parts [e]) = σ := by
  subst hname
  obtain ⟨hv, kind, w, rfl, hw, _⟩ := h.operands
  obtain ⟨k, hk⟩ := Option.isSome_iff_exists.1 (h.amount_value σ)
  obtain ⟨b, hb⟩ := Option.isSome_iff_exists.1 (h.bound_value σ)
  exact (Unroll.group_meaning hoffset hv (Unroll.isLimit_operand hw) hk
    (Interp.sum?_singleton hw hb)).2

end

section

variable {t : Expr} (ht : l.clause .test = .ok t) (hbounded : Bounded v e direction t)
  {i : Induction} (hname : i.name = v) (hdirection : i.direction = direction) {factor : Int}
  (hfactor : 2 ≤ factor)
include hbounded

theorem after_test (σ : Store) : I.after σ t = σ := by
  obtain ⟨hv, kind, w, rfl, hw, _⟩ := h.operands
  obtain ⟨b, hb⟩ := Option.isSome_iff_exists.1 (h.bound_value σ)
  exact (hbounded.meaning hv hw hb).2.2

include hname hdirection hfactor

/-- The groups and the rounds that are left are the rounds of the loop. -/
theorem settled {inc : Expr} (hinc : l.clause .increment = .ok inc) {parts : List Expr}
    (hoffset : Unroll.IsOffset I factor a (Unroll.offset factor i.step) parts) {σ : Store} {k : Int}
    (hk : I.value? σ a = some k) (hpositive : 0 < k) :
    ∃ ρ τ, Settled (fun σ => I.holds σ (Unroll.groupTest i parts [e]) = true)
        (fun σ => I.after (β σ) inc)^[factor.toNat] σ ρ
      ∧ Settled (fun σ => I.holds σ t = true) (fun σ => I.after (β σ) inc) ρ τ
      ∧ Settled (fun σ => I.holds σ t = true) (fun σ => I.after (β σ) inc) σ τ := by
  subst hname hdirection
  obtain ⟨hv, kind, w, rfl, hw, _⟩ := h.operands
  have hb : ∀ σ, I.value? σ (.leaf kind w) = some ((I.value? σ (.leaf kind w)).getD 0) := by
    intro σ
    obtain ⟨b, hb⟩ := Option.isSome_iff_exists.1 (h.bound_value σ)
    rw [hb]
    rfl
  have htoNat : (factor.toNat : Int) = factor := Int.toNat_of_nonneg (by omega)
  refine Settled.of_distance (P := fun σ => I.value? σ a = some k)
    (fun σ => i.direction.gap (σ i.name) ((I.value? σ (.leaf kind w)).getD 0)) (by omega) hpositive
    ?_ ?_ ?_ hk
  · intro σ hk
    obtain ⟨hmoved, hamount, hbound⟩ := h.steps.round h.legible hinc h.bound h.keeps hk
    refine ⟨hamount, ?_⟩
    rw [hmoved, hbound, Direction.gap_signed]
  · intro σ _
    have hmeaning := hbounded.meaning hv hw (hb σ)
    exact ⟨hmeaning.1, hmeaning.2.1⟩
  · intro σ hk hholds
    rw [htoNat]
    exact Unroll.le_gap_of_group hoffset hv (Unroll.isLimit_operand hw) hk
      (Interp.sum?_singleton hw (hb σ)) hholds

include ht

/-- The pass replaces the loop. -/
theorem treatLoop (hdriver : l.stripped.driver = .ok (some i)) {u : Stmt}
    (hu : Unroll.unrolled l factor.toNat (Unroll.testText factor i e.text) = .ok (.ok u))
    (s : Unroll.State) (hask : s.manager.factor (Unroll.features s.nesting l.bodySize
      (Node.stmt l.toStmt).operators) = .ok factor) :
    ∃ r, (Unroll.treatLoop s l).Yields r ∧ r.failure = none
      ∧ r.value.map Stmt.forgotten = some u.forgotten := by
  subst hname hdirection
  obtain ⟨hv, kind, w, rfl, hw, hne⟩ := h.operands
  have hplanned := Loop.planned_eq h.legible ht hdriver hbounded hv hw hne h.fresh hask hfactor
  exact Unroll.treatLoop_of_planned h.legible h.fresh s hplanned hu

end

end Counted

end RuleBody
