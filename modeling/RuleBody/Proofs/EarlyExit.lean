/-
  RuleBody.Proofs.EarlyExit
  ─────────────────────────
  **LOOPS THAT ARE LEFT EARLY.**

  A loop that counts up by one, `for(i = 0; i < n; i++) body`, and its
  unrolled form run alike where no round of a group ends early.  Where the
  first that does ends with a `break`, they do so exactly if the round, run
  again, breaks at once and changes nothing, as in a search; where it ends
  with a `continue`, the form runs the round again, and if that continues
  without a change it never ends (`unrolled_repeats_early_exit`).

  §1  loops that count up;
  §2  early exits.
-/
import RuleBody.Proofs.Comparisons
import RuleBody.Proofs.Rounds

namespace RuleBody

open Token (Lexeme)

/-! ## §1. Loops that count up. -/

/-- A loop that counts up to a bound, but for its declaration. -/
structure Ascent where
  name : String
  bound : List Expr
  increment : Expr
  body : Stmt
  tags : Tags

namespace Ascent

def test (c : Ascent) : Expr := .chain (.ident c.name :: .op "<" :: c.bound)

/-- The loop `for(d; name < bound; increment) body`. -/
def loop (c : Ascent) (d : Expr) : Loop := ⟨[d, c.test, c.increment], c.body, none, c.tags⟩

theorem spelt_test {c : Ascent} {d : Expr} (htidy : (c.loop d).toStmt.Tidy) :
    c.test.IsSpelt .statement := by
  obtain ⟨test, _, htest, _, hspelt⟩ := Loop.clauses_of_tidy htidy
  obtain rfl : c.test = test := Except.ok.inj htest
  exact hspelt

/-- The store before a round, if all rounds before it end normally. -/
def before (c : Ascent) (β : Store → Ending × Store) (σ : Store) (r : Nat) : Store :=
  (Unroll.advance β c.name)^[r] σ

/-- The increment adds one, and the body does `β`.  It keeps the variable and
the bound, and it does not return; the bound does not depend on the
variable. -/
structure Does (c : Ascent) (I : Interp) (β : Store → Ending × Store) : Prop where
  increment : Strides c.name .increasing "1" c.increment
  value : ∀ σ, (I.sum? σ c.bound).isSome = true
  free : ∀ σ n, I.sum? (σ.set c.name n) c.bound = I.sum? σ c.bound
  body : ∀ σ, Exec I (.stmt c.body) σ (β σ).1 (β σ).2
  stays : ∀ σ, (β σ).1 ≠ .returned
  variable_kept : ∀ σ, (β σ).2 c.name = σ c.name
  bound_kept : ∀ σ, I.sum? (β σ).2 c.bound = I.sum? σ c.bound

namespace Does

variable {c : Ascent} {I : Interp} {β : Store → Ending × Store} (h : c.Does I β) {d : Expr}
include h

theorem value_eq (σ : Store) : I.sum? σ c.bound = some ((I.sum? σ c.bound).getD 0) := by
  obtain ⟨b, hb⟩ := Option.isSome_iff_exists.1 (h.value σ)
  rw [hb]
  rfl

theorem steps (d : Expr) :
    Steps I (c.loop d) (fun σ => (β σ).2) c.name .increasing (.lit "1") :=
  .clause rfl h.increment h.variable_kept

variable (hl : (c.loop d).Legible)
include hl

theorem identifier : Lexeme .identifier c.name.toList := by
  have hlegible : c.increment.Legible := hl.of_clause (c := .increment) rfl
  have hv := (h.increment.operands hlegible).1
  have hkind : Token.kindOf c.name = .identifier := by
    simpa [Expr.Kind.admits] using hv.admitted
  have hlexeme : Lexeme (Token.kindOf c.name) c.name.toList := hv.lexeme
  rwa [hkind] at hlexeme

/-- The sides of the test. -/
theorem sides : c.test.hasDirect "<" = true
    ∧ (⟨"<", true⟩ : Comparison).bound c.test = c.bound
    ∧ (Expr.chain ((⟨"<", true⟩ : Comparison).side c.test)).print = .ok c.name := by
  have hv := Expr.isOperand_of_identifier (h.identifier hl)
  have hother : (Expr.ident c.name).isLeafText "<" = false := hv.plain "<" (by decide)
  have hmark : (Expr.op "<").isLeafText "<" = true := by decide
  refine ⟨by simp [test, Expr.hasDirect, hmark], ?_, ?_⟩
  · simp [Comparison.bound, Expr.partsBehind, test, hother, hmark]
  · have hside : (⟨"<", true⟩ : Comparison).side c.test = [.ident c.name] := by
      simp [Comparison.side, Expr.partsBefore, test, hother, hmark]
    rw [hside]
    exact hv.print_chain

theorem unrolled_eq {f : Nat} {text : String} {g : Expr} (hparse : Expr.parse text {} = .ok g) :
    Unroll.unrolled (c.loop d) f text = .ok (.ok
      (Unroll.form d c.test c.increment c.body c.tags f g (some c.increment))) := by
  obtain ⟨increment, hrepeated, hincrement⟩ := (h.steps d).repeated hl rfl
  obtain rfl : increment = some c.increment := by
    rcases hincrement with ⟨hsome, _⟩ | ⟨_, hnil⟩
    · exact hsome
    · have hstrides := h.increment
      rw [hnil] at hstrides
      cases hstrides
  exact (hl.unrolled_eq rfl rfl rfl rfl hparse hrepeated f).1

omit hl

variable (htidy : (c.loop d).toStmt.Tidy)
include htidy

theorem terms : Expr.Terms c.bound := by
  obtain ⟨hdirect, hbound, hside⟩ := h.sides htidy.legible
  have hvalue := h.value_eq fun _ => 0
  rw [← hbound] at hvalue ⊢
  exact Comparison.terms_bound (spelt_test htidy) (by simp [Expr.comparisons]) hdirect
    (h.identifier htidy.legible) hside hvalue

theorem test_meaning (σ : Store) :
    I.holds σ c.test = decide (σ c.name < (I.sum? σ c.bound).getD 0) ∧ I.after σ c.test = σ := by
  obtain ⟨hdirect, hbound, hside⟩ := h.sides htidy.legible
  have hvalue := h.value_eq σ
  rw [← hbound] at hvalue
  obtain ⟨htruth, hafter⟩ := Comparison.meaning (spelt_test htidy) (by simp [Expr.comparisons])
    hdirect (h.identifier htidy.legible) hside hvalue
  rw [hbound] at htruth
  exact ⟨(Option.some.inj htruth).symm, hafter⟩

/-- The test of the groups is read, and the loop and its groups count. -/
theorem ascends {f : Nat} (hf : 0 < f) : ∃ i limit g, (c.loop d).stripped.driver = .ok (some i)
    ∧ i.name = c.name ∧ (Expr.chain c.bound).print = .ok limit ∧ limit ≠ ""
    ∧ Expr.parse (Unroll.testText f i limit) {} = .ok g
    ∧ Unroll.Ascends I c.test g c.increment c.body β c.name
      (fun σ => (I.sum? σ c.bound).getD 0) f := by
  have hlegible : (c.loop d).Legible := htidy.legible
  obtain ⟨i, hdriver, hname, hdirection, hstep, hamount⟩ := (h.steps d).driver hlegible
  obtain ⟨parts, hoffset⟩ := Unroll.exists_offset I (Int.natCast_nonneg f) hamount hstep
  have hterms := h.terms htidy
  obtain ⟨limit, hlimit⟩ : ∃ limit, (Expr.chain c.bound).print = .ok limit :=
    Expr.Legible.prints (.chain (hterms.readable .nil (by simp)).legible)
  have hbound := hterms.isLimit hlimit
  have hne : limit ≠ "" := by
    -- An operator would not end before an empty text.
    rintro rfl
    have hstops : Token.Kind.operator.stops ['='] = true := hbound.starts ['=']
    cases hstops
  have hv : Expr.IsOperand .ident i.name := by
    rw [hname]
    exact Expr.isOperand_of_identifier (h.identifier hlegible)
  have hone : ∀ σ, I.value? σ (.lit "1") = some 1 := fun σ =>
    (I.value?_lit σ "1").trans (I.number?_toString 1)
  have hgroup : ∀ σ, _ := fun σ => Unroll.group_meaning hoffset hv hbound (hone σ) (h.value_eq σ)
  have hincrement : c.increment.Legible := hlegible.of_clause (c := .increment) rfl
  refine ⟨i, limit, _, hdriver, hname, hlimit, hne, Unroll.parse_testText hoffset hv hbound,
    { body := h.body
      stays := h.stays
      variable_kept := h.variable_kept
      bound_kept := fun σ n => by rw [h.free, h.bound_kept]
      test := fun σ => (h.test_meaning htidy σ).1
      test_after := fun σ => (h.test_meaning htidy σ).2
      group := fun σ => ?_
      group_after := fun σ => (hgroup σ).2
      increment := fun σ => h.increment.meaning hincrement (I.number?_toString 1) σ
      jump := h.increment.jump?
      positive := hf }⟩
  have htruth := (hgroup σ).1
  rw [hdirection, hname, Int.mul_one] at htruth
  exact (Option.some.inj htruth).symm

/-- The pass replaces a loop that suits. -/
theorem treatLoop {level : Option Level} {l' : Loop}
    (hsuits : ((c.loop d).ask Unroll.suits level).2 = .ok (l', .ok true)) {i : Induction}
    (hdriver : (c.loop d).stripped.driver = .ok (some i)) (hname : i.name = c.name)
    {limit : String} (hlimit : (Expr.chain c.bound).print = .ok limit) (hne : limit ≠ "")
    {f : Nat} (hf : 2 ≤ f) {u : Stmt}
    (hu : Unroll.unrolled (c.loop d) f (Unroll.testText f i limit) = .ok (.ok u))
    (s : Unroll.State) (hask : s.manager.factor (Unroll.features s.nesting (c.loop d).bodySize
      (Node.stmt (c.loop d).toStmt).operators) = .ok (f : Int)) :
    ∃ r, (Unroll.treatLoop s (c.loop d)).Yields r ∧ r.failure = none
      ∧ r.value.map Stmt.forgotten = some u.forgotten := by
  have hlegible : (c.loop d).Legible := htidy.legible
  obtain ⟨hdirect, hbehind, hside⟩ := h.sides hlegible
  have hsuited : Unroll.suited c.test c.increment c.body = .ok true :=
    (Unroll.suits_finds_suited hlegible rfl rfl).eq_of_ask rfl hsuits
  obtain ⟨op, i', _, hsplit, hjudge, _⟩ := Unroll.suited_eq_ok hsuited
  obtain rfl : i' = i := by
    rw [Loop.driver_eq_judge hlegible rfl rfl] at hdriver
    exact Option.some.inj (Except.ok.inj (hjudge.symm.trans hdriver))
  -- No other part of the test is a comparison.
  obtain rfl : "<" = op := by
    obtain ⟨_, hcomparison, hdirect'⟩ := Expr.split?_eq_some hsplit
    have hop : op ∈ "," :: Expr.comparisons :=
      List.mem_cons_of_mem _ (List.mem_of_find?_eq_some hcomparison)
    have hv := Expr.isOperand_of_identifier (h.identifier hlegible)
    obtain ⟨p, hp, hleaf⟩ := List.any_eq_true.1 hdirect'
    rcases List.mem_cons.1 hp with rfl | hp
    · exact absurd hleaf (by simp [Expr.ident, hv.plain op hop])
    · rcases List.mem_cons.1 hp with rfl | hp
      · simpa using hleaf
      · exact absurd hleaf (by simp [(h.terms htidy).plain p hp op hop])
  have hbound : c.test.bound? "<" i'.name = some limit := by
    have hleft : (Expr.chain (c.test.partsBefore "<")).print = .ok c.name := hside
    have hright : (Expr.chain (c.test.partsBehind "<")).print = .ok limit := by
      rw [show c.test.partsBehind "<" = c.bound from hbehind, hlimit]
    unfold Expr.bound?
    rw [hleft, hright, hname]
    exact if_pos rfl
  have hplanned : Unroll.planned s.manager.factor s.nesting (c.loop d)
      = .ok (some ⟨f, i', limit⟩) := by
    rw [Unroll.planned_eq_decided hlegible rfl rfl rfl]
    exact Unroll.decided_of_bound hsplit hjudge hbound hne hask (by omega)
  exact Unroll.treatLoop_of_planned hlegible rfl s hplanned hu

end Does

end Ascent

/-! ## §2. Early exits. -/

/-- **A round that ends early in a group is run again.**  The pass replaces
the loop, and the loop ends.  Where the rounds in groups end normally, the
form runs as the loop, whatever the rounds that are left do.  Where the first
of them that does not ends with a `break`, the form goes on with the loop
from where it stopped, which is no difference exactly if the round, run again,
breaks and changes nothing.  Where it ends with a `continue`, the form starts
again without the increment, and never ends if the round, run again, continues
and changes nothing. -/
theorem unrolled_repeats_early_exit {c : Ascent} {I : Interp} {β : Store → Ending × Store}
    (h : c.Does I β) {d : Expr} (htidy : (c.loop d).toStmt.Tidy) {level : Option Level} {l' : Loop}
    (hsuits : ((c.loop d).ask Unroll.suits level).2 = .ok (l', .ok true)) {f : Nat} (hf : 2 ≤ f) :
    ∃ i limit u u₀, (c.loop d).stripped.driver = .ok (some i)
      ∧ (Expr.chain c.bound).print = .ok limit
      ∧ Unroll.unrolled (c.loop d) f (Unroll.testText f i limit) = .ok (.ok u)
      ∧ Unroll.unrolled (c.loop .nil) f (Unroll.testText f i limit) = .ok (.ok u₀)
      ∧ (∀ s : Unroll.State, s.manager.factor (Unroll.features s.nesting (c.loop d).bodySize
            (Node.stmt (c.loop d).toStmt).operators) = .ok (f : Int) →
          ∃ r, (Unroll.treatLoop s (c.loop d)).Yields r ∧ r.failure = none
            ∧ r.value.map Stmt.forgotten = some u.forgotten)
      ∧ ∀ σ b, I.sum? (I.after σ d) c.bound = some b →
          (∃ τ, Exec I (.stmt (c.loop d).toStmt) σ (d.jump?.getD .normal) τ)
          ∧ ((d.jump? = none → ∀ r, Unroll.InGroup f (I.after σ d c.name) b r →
                (β (c.before β (I.after σ d) r)).1 = .normal) →
              RunsAs I u σ (c.loop d).toStmt σ)
          ∧ (d.jump? = none → ∀ r ρ, Unroll.InGroup f (I.after σ d c.name) b r →
              (∀ j < r, (β (c.before β (I.after σ d) j)).1 = .normal) →
              (β (c.before β (I.after σ d) r) = (.broke, ρ) →
                Exec I (.stmt (c.loop d).toStmt) σ .normal ρ
                  ∧ RunsAs I u σ (c.loop .nil).toStmt ρ
                  ∧ (RunsAs I u σ (c.loop d).toStmt σ ↔ β ρ = (.broke, ρ)))
              ∧ (β (c.before β (I.after σ d) r) = (.continued, ρ) →
                RunsAs I (c.loop d).toStmt σ (c.loop .nil).toStmt (ρ.set c.name (ρ c.name + 1))
                  ∧ RunsAs I u σ u₀ ρ
                  ∧ (β ρ = (.continued, ρ) → I.after σ d c.name + r + f < b →
                    ∀ o τ, ¬ Exec I (.stmt u) σ o τ))) := by
  obtain ⟨i, limit, g, hdriver, hname, hlimit, hne, hparse, hascends⟩ :=
    h.ascends htidy (by omega : 0 < f)
  have hlegible : (c.loop d).Legible := htidy.legible
  have hrest : (c.loop .nil).Legible := by
    cases hlegible with
    | loop _ ht hi hbody => exact .loop .nil ht hi hbody
  have hu := h.unrolled_eq hlegible hparse (f := f)
  refine ⟨i, limit, _, _, hdriver, hlimit, hu, h.unrolled_eq hrest hparse,
    h.treatLoop htidy hsuits hdriver hname hlimit hne hf hu, fun σ b hb => ?_⟩
  obtain rfl : (I.sum? (I.after σ d) c.bound).getD 0 = b := by
    rw [hb]
    rfl
  exact ⟨hascends.loop_ends σ, hascends.form_of_normal, fun hd r ρ hr hnormal =>
    ⟨hascends.form_of_broke hd hr hnormal, hascends.form_of_continued hd hr hnormal⟩⟩

/-- A search: the round in which it ends changes nothing. -/
theorem unrolled_repeats_early_exit_search :
    let I : Interp := ⟨fun _ => none, fun _ _ => 0, fun _ σ => σ, fun _ σ => σ⟩
    let c : Ascent := ⟨"i", [.ident "n"], .chain [.ident "i", .op "++"],
      .cond [.chain [.ident "i", .op "==", .ident "m"]] (.ofExpr (.keyword "break"))
        (some (.ofExpr (.chain [.ident "s", .op "+=", .ident "i"]))) {}, {}⟩
    let l : Loop := c.loop (.chain [.ident "i", .op "=", .lit "0"])
    Block.parse "for(i = 0; i < n; i ++) if(i == m) break; else s += i;" {} = .ok ⟨[l.toStmt], {}⟩
      ∧ ∃ u, Unroll.unrolled l 4 "i+4<n" = .ok (.ok u)
        ∧ ∀ σ, RunsAs I u σ l.toStmt σ ∧ ∃ τ, Exec I (.stmt u) σ .normal τ := by
  intro I c l
  have hparse : Block.parse "for(i = 0; i < n; i ++) if(i == m) break; else s += i;" {}
      = .ok ⟨[l.toStmt], {}⟩ := by decide +kernel
  have htidy : l.toStmt.Tidy := Block.tidy_of_parse hparse _ List.mem_cons_self
  have hsuits : (l.ask Unroll.suits none).2
      = .ok ({ l with induction := some ⟨"i", .increasing, "i ++", "1"⟩ }, .ok true) := by
    decide +kernel
  let β : Store → Ending × Store := fun σ =>
    if σ "i" = σ "m" then (.broke, σ) else (.normal, σ.set "s" (σ "s" + σ "i"))
  have hbroke : ∀ σ, (β σ).1 ≠ .normal → β σ = (.broke, σ) := by
    intro σ hearly
    by_cases hfound : σ "i" = σ "m"
    · exact if_pos hfound
    · exact absurd (by simp [β, hfound]) hearly
  have hkept : ∀ σ name, name ≠ "s" → (β σ).2 name = σ name := by
    intro σ name hname
    by_cases hfound : σ "i" = σ "m"
    · simp [β, hfound]
    · simp [β, hfound, Store.set_of_ne _ _ hname]
  have hvalue : ∀ σ, I.sum? σ [.ident "n"] = some (σ "n") := fun σ => by
    simp [Interp.sum?, Interp.more?]
  have htest : ∀ σ, I.holds σ (.chain [.ident "i", .op "==", .ident "m"])
      = ((if decide (0 + σ "i" = 0 + σ "m") then (1 : Int) else 0) != 0) := fun _ => rfl
  have hadds : ∀ σ, I.after σ (.chain [.ident "s", .op "+=", .ident "i"])
      = σ.set "s" (σ "s" + σ "i") := by
    intro σ
    simp [Interp.after, Induction.segments, Expr.hasDirect, Interp.single, Interp.assign?,
      Interp.sum?, Interp.more?]
  have hdoes : c.Does I β :=
    { increment := .behind
      value := fun σ => by rw [hvalue]; rfl
      free := fun σ n => by rw [hvalue, hvalue, Store.set_of_ne σ n (by decide)]
      body := fun σ => by
        by_cases hfound : σ "i" = σ "m"
        · have hβ : β σ = (.broke, σ) := if_pos hfound
          rw [hβ]
          exact .yes (by rw [htest, hfound]; simp) (.basic rfl rfl)
        · have hβ : β σ = (.normal, σ.set "s" (σ "s" + σ "i")) := if_neg hfound
          rw [hβ]
          exact .no (by rw [htest]; simp [hfound]) (.basic rfl (hadds σ).symm)
      stays := fun σ => by
        by_cases hfound : σ "i" = σ "m" <;> simp [β, hfound]
      variable_kept := fun σ => hkept σ "i" (by decide)
      bound_kept := fun σ => by rw [hvalue, hvalue, hkept σ "n" (by decide)] }
  obtain ⟨i, limit, u, _, hdriver, hlimit, hu, _, _, hruns⟩ :=
    unrolled_repeats_early_exit hdoes htidy hsuits (by decide : 2 ≤ 4)
  have hdriver' : l.stripped.driver = .ok (some ⟨"i", .increasing, "i ++", "1"⟩) := by
    decide +kernel
  obtain rfl := Option.some.inj (Except.ok.inj (hdriver'.symm.trans hdriver))
  obtain rfl : "n" = limit := Except.ok.inj hlimit
  have htext : Unroll.testText 4 ⟨"i", .increasing, "i ++", "1"⟩ "n" = "i+4<n" := by
    decide +kernel
  refine ⟨hparse, u, htext ▸ hu, fun σ => ?_⟩
  obtain ⟨⟨τ, hloop⟩, hwithout, hearly⟩ := hruns σ _ (hvalue _)
  suffices halike : RunsAs I u σ l.toStmt σ from ⟨halike, τ, (halike _ _).2 hloop⟩
  -- The first round of a group that ends early, if there is one.
  let start := I.after σ (.chain [.ident "i", .op "=", .lit "0"])
  by_cases hfirst : ∃ r, Unroll.InGroup 4 (start "i") (start "n") r
      ∧ (β (c.before β start r)).1 ≠ .normal
  · classical
    obtain ⟨hgroup, hends⟩ := Nat.find_spec hfirst
    have hnormal : ∀ j < Nat.find hfirst, (β (c.before β start j)).1 = .normal := by
      intro j hj
      by_contra hnot
      exact Nat.find_min hfirst hj ⟨hgroup.of_le hj.le, hnot⟩
    have hbreaks := hbroke _ hends
    exact ((hearly rfl _ _ hgroup hnormal).1 hbreaks).2.2.2 hbreaks
  · refine hwithout fun _ r hr => ?_
    by_contra hnot
    exact hfirst ⟨r, hr, hnot⟩

/-- A round that breaks only once: the loop ends in its first round, and the
second loop of the form runs all three. -/
theorem broken_round_is_run_again :
    let I : Interp := ⟨fun _ => none, fun _ _ => 0, fun _ σ => σ, fun _ σ => σ⟩
    let c : Ascent := ⟨"i", [.ident "n"], .chain [.ident "i", .op "++"],
      .ofBlock ⟨[.ofExpr (.chain [.ident "s", .op "++"]),
        .cond [.chain [.ident "s", .op "==", .lit "1"]] (.ofExpr (.keyword "break")) none {}], {}⟩,
      {}⟩
    let l : Loop := c.loop (.chain [.ident "i", .op "=", .lit "0"])
    let u : Stmt := Unroll.form (.chain [.ident "i", .op "=", .lit "0"]) c.test c.increment c.body
      {} 2 (.chain [.ident "i", .op "+", .lit "2", .op "<", .ident "n"]) (some c.increment)
    let σ : Store := fun name => if name = "n" then 3 else 0
    Block.parse "for(i = 0; i < n; i ++) \x7b s ++; if(s == 1) break; \x7d" {}
        = .ok ⟨[l.toStmt], {}⟩
      ∧ (∃ l', (l.ask Unroll.suits none).2 = .ok (l', .ok true))
      ∧ Unroll.unrolled l 2 "i+2<n" = .ok (.ok u)
      ∧ (∃ τ, Exec I (.stmt l.toStmt) σ .normal τ ∧ τ "i" = 0 ∧ τ "s" = 1)
      ∧ ∃ τ, Exec I (.stmt u) σ .normal τ ∧ τ "i" = 3 ∧ τ "s" = 4 := by
  intro I c l u σ
  let next : Store → Store := fun ρ => I.after (I.after ρ (.chain [.ident "s", .op "++"]))
    (.chain [.ident "s", .op "==", .lit "1"])
  have htest : ∀ ρ, I.holds (I.after ρ (.chain [.ident "s", .op "++"]))
      (.chain [.ident "s", .op "==", .lit "1"])
        = ((if decide (0 + (ρ "s" + 1) = 0 + 1) then (1 : Int) else 0) != 0) := fun _ => rfl
  have hbreaks : ∀ ρ, ρ "s" = 0 → Exec I (.stmt c.body) ρ .broke (next ρ) := fun ρ hzero =>
    .block (.next (.basic rfl rfl)
      (.stop (.yes (by rw [htest, hzero]; rfl) (.basic rfl rfl)) (by decide)))
  have hgoes : ∀ ρ, ρ "s" ≠ 0 → Exec I (.stmt c.body) ρ .normal (next ρ) := fun ρ hother =>
    .block (.next (.basic rfl rfl) (.next (.skip (by rw [htest]; simpa using hother)) .done))
  have hround : ∀ ρ τ, I.holds ρ c.test = true → ρ "s" ≠ 0 →
      Exec I (.rounds c.test c.increment c.body) (I.after (next ρ) c.increment) .normal τ →
      Exec I (.rounds c.test c.increment c.body) ρ .normal τ := fun ρ τ ht hother hrest =>
    .round ht (hgoes ρ hother) (.inl rfl) hrest
  refine ⟨by decide +kernel, ⟨{ l with induction := some ⟨"i", .increasing, "i ++", "1"⟩ },
    by decide +kernel⟩, by decide +kernel, ⟨_, .loop rfl (.leave (by decide +kernel)
      (hbreaks _ (by decide +kernel))), by decide +kernel, by decide +kernel⟩, ?_⟩
  refine ⟨_, .block (.next (.basic rfl rfl) (.next (.loop rfl (.leave (by decide +kernel)
    (.block (.stop (hbreaks _ (by decide +kernel)) (by decide))))) (.next (.loop rfl
    (hround _ _ (by decide +kernel) (by decide +kernel) (hround _ _ (by decide +kernel)
      (by decide +kernel) (hround _ _ (by decide +kernel) (by decide +kernel)
        (.exit (by decide +kernel)))))) .done))), by decide +kernel, by decide +kernel⟩

end RuleBody
