/-
  RuleBody.Proofs.BottomUp
  ────────────────────────
  **THE PASS AS A PLAIN RECURSION.**

  The pass that unrolls loops is a visitor with a stack of the kinds of the
  statements around it, slots, queues and a log.  Here it is written down as
  a recursion on the tree: the statements inside a statement come first, and
  then, for a loop only,

      tag of an unrolling    — the tag is dropped
      no use in unrolling    — the loop stays
      a factor of two, more  — the loop is replaced by its unrolled form

  The factor is asked for by a function of the features; a manager gives the
  same function before and after every question (`Manager.factor_of_ask`).
  The walk of the visitor is the recursion on every legible rule body
  (`stmts_matches_block`), and legible are all that were read or that passes
  have left (`Reachable.legible`).

  §1  the recursion;
  §2  the factor;
  §3  the unrolled form;
  §4  one loop;
  §5  the walk;
  §6  rule bodies that occur.
-/
import RuleBody.Pipeline
import RuleBody.Proofs.RoundTrip
import RuleBody.Proofs.Traversal

namespace RuleBody

open Run (Yields yields_pure yields_say yields_ofExcept)

/-! ## §1. The recursion. -/

/-- The answer to a question about a loop, with nothing logged. -/
def Loop.quietly {α : Type} (l : Loop) (q : Loop.Query α) : Except Loop.Stop α := (q l none).2.2

namespace Unroll

open Loop (Stop)

/-- What the heuristic is told about a loop at a level of nesting: how many
operators stand in the loop, how many statements its body has, where a body
that is no block counts as one, and the level. -/
def told (nesting : Nat) (l : Loop) : Features where
  entries :=
    [("loopBodyOps", ((Node.stmt l.toStmt).preorder.countP (·.kind = .expr .op)).toFloat),
      ("loopBodySize", (match l.body with
        | .block _ stmts _ _ => stmts.length
        | _ => 1).toFloat),
      ("loopNestingLevel", nesting.toFloat)]

/-- How to unroll a loop at a level of nesting, given how factors are
answered; none if it is better left alone. -/
def planned (ask : Features → Except Error Int) (nesting : Nat) (l : Loop) :
    Except Stop (Option Plan) := do
  let limit ← l.quietly usableLimit
  if limit.isEmpty then return none
  else
    let factor ← (ask (told nesting l)).mapError .error
    if factor < 2 then return none
    else return (← l.quietly Loop.drive).map fun i => ⟨factor, i, limit⟩

/-- The unrolled form of a loop at a level of nesting; none if the loop is
better left alone. -/
def treated (ask : Features → Except Error Int) (nesting : Nat) (l : Loop) :
    Except Stop (Option Stmt) := do
  match ← planned ask nesting l with
  | none => return none
  | some p =>
      match unrolled l p.factor.toNat (testText p.factor p.induction p.limit) with
      | .error f => .error (.fault f)
      | .ok (.error e) => .error (.error e)
      | .ok (.ok s) => return some s

/-- Treat a loop whose body was treated, and count it if it was unrolled. -/
def rewriteLoop (ask : Features → Except Error Int) (nesting : Nat) (l : Loop) :
    Except Stop (Stmt × Nat) := do
  if l.tags.has justUnrolled then
    return ({ l with tags := l.tags.erase justUnrolled }.toStmt, 0)
  else
    match ← treated ask nesting l with
    | none => return (l.toStmt, 0)
    | some s => return (s, 1)

mutual

/-- Unroll the loops of a statement inside of some loops, from the inside
out, and count the loops that were unrolled. -/
def rewrite (ask : Features → Except Error Int) : Nat → Stmt → Except Stop (Stmt × Nat)
  | _, .basic es tags => return (.basic es tags, 0)
  | _, .raw es src tags => return (.raw es src tags, 0)
  | enclosing, .block es ss b tags => do
      let (ss, n) ← rewriteAll ask enclosing ss
      return (.block es ss b tags, n)
  | enclosing, .loop es body _ tags => do
      let (body, n) ← rewrite ask (enclosing + 1) body
      let (s, k) ← rewriteLoop ask (enclosing + 1) ⟨es, body, none, tags⟩
      return (s, n + k)
  | enclosing, .cond es yes none tags => do
      let (yes, n) ← rewrite ask enclosing yes
      return (.cond es yes none tags, n)
  | enclosing, .cond es yes (some no) tags => do
      let (yes, n) ← rewrite ask enclosing yes
      let (no, k) ← rewrite ask enclosing no
      return (.cond es yes (some no) tags, n + k)
  | enclosing, .switch es body tags => do
      let (body, n) ← rewrite ask enclosing body
      return (.switch es body tags, n)

/-- Unroll the loops of some statements, one after the other. -/
def rewriteAll (ask : Features → Except Error Int) :
    Nat → List Stmt → Except Stop (List Stmt × Nat)
  | _, [] => return ([], 0)
  | enclosing, s :: ss => do
      let (s, n) ← rewrite ask enclosing s
      let (ss, k) ← rewriteAll ask enclosing ss
      return (s :: ss, n + k)

end

/-- Unroll the loops of a rule body. -/
def rewriteBlock (ask : Features → Except Error Int) (b : Block) : Except Stop (Block × Nat) := do
  let (stmts, n) ← rewriteAll ask 0 b.stmts
  return ({ b with stmts }, n)

end Unroll

/-! ## §2. The factor. -/

theorem Heuristic.clamp_snd (h : Heuristic) (x : Float) :
    (h.clamp x).2 = if x < h.min then h.min else if h.max < x then h.max else x := by
  unfold clamp
  split
  · rfl
  · split <;> rfl

namespace Manager

/-- The factor that a manager answers for some features. -/
def factor (m : Manager) (f : Features) : Except Error Int :=
  (m.ask unrollingNumber (·.evalInt f)).map (·.2)

theorem get?_put (s : Shelf) (name : String) (h : Heuristic) :
    (s.put name h).get? name = some h := by
  unfold Shelf.get? Shelf.put
  simp

theorem lookup?_replace (m : Manager) (name : String) (h : Heuristic) :
    (m.replace name h).lookup? name = some h := by
  unfold replace
  by_cases hover : m.isOverridden name = true
  · have hover' : ({ m with overrides := m.overrides.put name h } : Manager).isOverridden name
        = true := by
      simp only [isOverridden, get?_put, Option.isSome_some, Bool.and_true]
      simp only [isOverridden, Bool.and_eq_true] at hover
      exact hover.1
    rw [if_pos hover, lookup?, if_pos hover']
    exact get?_put _ _ _
  · have hover' : ¬ ({ m with defaults := m.defaults.put name h } : Manager).isOverridden name
        = true := hover
    rw [if_neg hover, lookup?, if_neg hover']
    exact get?_put _ _ _

theorem factor_eq_of_lookup? {m : Manager} {h : Heuristic} (hm : m.lookup? unrollingNumber = some h)
    (f : Features) : m.factor f = .ok (h.evalInt f).2 := by
  unfold factor ask get
  rw [hm]
  rfl

/-- A constant gives the same factor for all loops. -/
theorem exists_factor_of_const {m : Manager} {h : Heuristic} {x : Float}
    (hm : m.lookup? unrollingNumber = some h) (hformula : h.formula = .const x) :
    ∃ k, ∀ f, m.factor f = .ok k := by
  refine ⟨(if x.round < h.min then h.min
    else if h.max < x.round then h.max else x.round).toInt64.toInt, fun f => ?_⟩
  have heval : (h.evalInt f).2
      = ((h.record f).clamp (h.formula.eval f).round).2.toInt64.toInt := rfl
  rw [factor_eq_of_lookup? hm f, heval, Heuristic.clamp_snd, hformula]
  rfl

/-- Every loop is to be unrolled by two, within the bounds of the default. -/
def twofold : Manager :=
  { withDefaults with
    overrides := [(unrollingNumber, { formula := .const 2, min := 1, max := 16 })] }

theorem exists_twofold_factor : ∃ k, ∀ f, twofold.factor f = .ok k := by
  have hm : twofold.lookup? unrollingNumber
      = some { formula := .const 2, min := 1, max := 16 } := rfl
  exact exists_factor_of_const hm rfl

/-- What a heuristic answers depends on its formula and its bounds only. -/
theorem evalInt_congr {h h' : Heuristic} (hformula : h'.formula = h.formula) (hmin : h'.min = h.min)
    (hmax : h'.max = h.max) (f : Features) : (h'.evalInt f).2 = (h.evalInt f).2 := by
  unfold Heuristic.evalInt Heuristic.clamp Heuristic.record
  simp only [hformula, hmin, hmax]
  split
  · rfl
  · split <;> rfl

/-- A heuristic keeps its formula and its bounds. -/
theorem evalInt_keeps (h : Heuristic) (f : Features) :
    (h.evalInt f).1.formula = h.formula ∧ (h.evalInt f).1.min = h.min
      ∧ (h.evalInt f).1.max = h.max := by
  unfold Heuristic.evalInt Heuristic.clamp Heuristic.record
  dsimp only
  split
  · exact ⟨rfl, rfl, rfl⟩
  · split <;> exact ⟨rfl, rfl, rfl⟩

/-- **A question does not change what later questions are answered.** -/
theorem factor_of_ask {m m' : Manager} {f : Features} {n : Int}
    (h : m.ask unrollingNumber (·.evalInt f) = .ok (m', n)) :
    m'.factor = m.factor ∧ m.factor f = .ok n := by
  cases hm : m.lookup? unrollingNumber with
  | none =>
      unfold ask get at h
      rw [hm] at h
      cases h
  | some g =>
      unfold ask get at h
      rw [hm] at h
      have hpair := Except.ok.inj h
      have hmanager : ({ m with used := insertName unrollingNumber m.used } : Manager).replace
          unrollingNumber (g.evalInt f).1 = m' := congrArg Prod.fst hpair
      have hfactor : (g.evalInt f).2 = n := congrArg Prod.snd hpair
      obtain ⟨hformula, hmin, hmax⟩ := evalInt_keeps g f
      refine ⟨funext fun f' => ?_, by rw [factor_eq_of_lookup? hm f, hfactor]⟩
      have hlookup : m'.lookup? unrollingNumber = some (g.evalInt f).1 := by
        rw [← hmanager]
        exact lookup?_replace _ _ _
      rw [factor_eq_of_lookup? hlookup, factor_eq_of_lookup? hm,
        evalInt_congr hformula hmin hmax]

end Manager

/-! ## §3. The unrolled form. -/

namespace Unroll

/-- The unrolled form of a loop, given the test of its groups and the
increment that stands behind each copy of its body. -/
def form (d t i : Expr) (body : Stmt) (tags : Tags) (factor : Nat) (test : Expr)
    (increment : Option Expr) : Stmt :=
  .ofBlock ⟨(if d.parts.isEmpty then [] else [.ofExpr d])
    ++ [.loop [if d.parts.isEmpty then d else .nil, test, .nil]
          (.ofBlock ⟨copies factor body increment, {}⟩) none (tags.insert justUnrolled none),
        .loop [.nil, t, i] body none (tags.insert justUnrolled none)], {}⟩

theorem unrolled_eq (d t i : Expr) (body : Stmt) (induction : Option Induction) (tags : Tags)
    (factor : Nat) (text : String) :
    unrolled ⟨[d, t, i], body, induction, tags⟩ factor text
      = match Expr.parse text {} with
        | .error e => .ok (.error e)
        | .ok test => (repeated ⟨[d, t, i], body, induction, tags⟩).map
            (Except.map (form d t i body tags factor test)) := by
  have hhoist : hoist ⟨[d, t, i], body, induction, tags⟩
      = .ok (if d.parts.isEmpty then ([], ⟨[d, t, i], body, induction, tags⟩)
          else ([.ofExpr d], ⟨[.nil, t, i], body, none, tags⟩)) := by
    by_cases hd : d.parts.isEmpty = true
    · rw [if_pos hd]
      exact if_pos hd
    · rw [if_neg hd]
      exact if_neg hd
  unfold unrolled form
  rw [hhoist]
  by_cases hd : d.parts.isEmpty = true
  · simp only [if_pos hd]
    cases Expr.parse text {} with
    | error e => rfl
    | ok test =>
        show (repeated ⟨[d, t, i], body, induction, tags⟩).bind _ = _
        rcases repeated ⟨[d, t, i], body, induction, tags⟩ with f | (e | increment) <;> rfl
  · simp only [if_neg hd]
    cases Expr.parse text {} with
    | error e => rfl
    | ok test =>
        have hrepeated : repeated ⟨[.nil, t, i], body, none, tags⟩
            = repeated ⟨[d, t, i], body, induction, tags⟩ := rfl
        show (repeated ⟨[.nil, t, i], body, none, tags⟩).bind _ = _
        rw [hrepeated]
        rcases repeated ⟨[d, t, i], body, induction, tags⟩ with f | (e | increment) <;> rfl

theorem copies_map (g : Stmt → Stmt) (hg : ∀ es tags, g (.basic es tags) = .basic es tags)
    (factor : Nat) (body : Stmt) (increment : Option Expr) :
    (copies factor body increment).map g = copies factor (g body) increment := by
  have hofExpr : ∀ e : Expr, g (.ofExpr e) = .ofExpr e := by
    intro e
    unfold Stmt.ofExpr
    exact hg _ _
  unfold copies
  rw [List.map_flatten, List.map_replicate]
  cases increment with
  | none => rfl
  | some e =>
      simp only [List.map_cons, Option.map_some, Option.toList_some, List.map_nil, hofExpr]

theorem mem_copies {factor : Nat} {body s : Stmt} {increment : Option Expr}
    (h : s ∈ copies factor body increment) : s = body ∨ ∃ e ∈ increment, s = .ofExpr e := by
  obtain ⟨group, hgroup, hs⟩ := List.mem_flatten.1 h
  obtain rfl := List.eq_of_mem_replicate hgroup
  rcases List.mem_cons.1 hs with rfl | hs
  · exact .inl rfl
  · obtain ⟨e, he, rfl⟩ := Option.map_eq_some_iff.1 (Option.mem_toList.1 hs)
    exact .inr ⟨e, he, rfl⟩

theorem forgotten_form (d t i : Expr) (body : Stmt) (tags : Tags) (factor : Nat) (test : Expr)
    (increment : Option Expr) : (form d t i body tags factor test increment).forgotten
      = form d t i body.forgotten tags factor test increment := by
  have hcopies : Stmt.renoteAll (fun notes => (none, notes.2)) (copies factor body increment)
      = copies factor body.forgotten increment := by
    rw [Stmt.renoteAll_eq_map]
    exact copies_map _ (fun _ _ => rfl) factor body increment
  unfold form
  rw [← hcopies]
  by_cases hd : d.parts.isEmpty = true
  · simp only [if_pos hd]
    rfl
  · simp only [if_neg hd]
    rfl

theorem form_legible {d t i : Expr} {body : Stmt} {test : Expr} {increment : Option Expr}
    (hd : d.Legible) (ht : t.Legible) (hi : i.Legible) (hbody : body.Legible)
    (htest : test.Legible) (hincrement : ∀ e ∈ increment, e.Legible) (tags : Tags) (factor : Nat) :
    (form d t i body tags factor test increment).Legible := by
  have hcopies : ∀ s ∈ copies factor body increment, s.Legible := by
    intro s hs
    rcases mem_copies hs with rfl | ⟨e, he, rfl⟩
    · exact hbody
    · exact .basic (hincrement e he)
  have hdecl : (if d.parts.isEmpty then d else .nil).Legible := by
    split
    · exact hd
    · exact .nil
  have hbefore : ∀ s ∈ (if d.parts.isEmpty then [] else [Stmt.ofExpr d]), s.Legible := by
    split
    · exact fun s hs => absurd hs List.not_mem_nil
    · exact List.forall_mem_singleton.2 (.basic hd)
  refine .block (List.forall_mem_append.2 ⟨hbefore, List.forall_mem_cons.2
    ⟨.loop hdecl htest .nil (.block hcopies),
      List.forall_mem_singleton.2 (.loop .nil ht hi hbody)⟩⟩)

/-- A legible increment can be repeated or there is an error, whatever the
body is. -/
theorem repeated_ok {i : Expr} (hi : i.Legible) (d t : Expr) (tags : Tags) :
    ∃ r, (∀ body induction, repeated ⟨[d, t, i], body, induction, tags⟩ = .ok r)
      ∧ ∀ increment, r = .ok increment → ∀ e ∈ increment, e.Legible := by
  obtain ⟨written, hwritten⟩ := hi.prints
  by_cases hparts : i.parts.isEmpty = true
  · refine ⟨.ok none, fun _ _ => if_pos hparts, fun increment hincrement e he => ?_⟩
    rw [← Except.ok.inj hincrement] at he
    cases he
  · refine ⟨(Expr.parse written {}).map some, fun body induction => ?_, ?_⟩
    · refine (if_neg hparts).trans ?_
      rw [hwritten]
      rfl
    · intro increment hincrement e he
      cases hparse : Expr.parse written {} with
      | error err =>
          rw [hparse] at hincrement
          cases hincrement
      | ok e' =>
          rw [hparse] at hincrement
          rw [← Except.ok.inj hincrement] at he
          obtain rfl := Option.some.inj he
          exact Expr.legible_of_parse hparse

/-- A legible loop has an unrolled form or there is an error, whatever the
loops remember. -/
theorem unrolled_ok {l : Loop} (h : l.Legible) (factor : Nat) (text : String) :
    ∃ r, unrolled l factor text = .ok r
      ∧ unrolled l.forgotten factor text = .ok (r.map Stmt.forgotten)
      ∧ ∀ s, r = .ok s → s.Legible := by
  obtain ⟨clauses, body, induction, tags⟩ := l
  cases h with
  | @loop d t i _ _ _ hd ht hi hbody =>
      have hforgotten : (⟨[d, t, i], body, induction, tags⟩ : Loop).forgotten
          = ⟨[d, t, i], body.forgotten, none, tags⟩ := rfl
      rw [hforgotten, unrolled_eq, unrolled_eq]
      cases htest : Expr.parse text {} with
      | error e => exact ⟨.error e, rfl, rfl, fun s hs => nomatch hs⟩
      | ok test =>
          obtain ⟨r, hr, hlegible⟩ := repeated_ok hi d t tags
          dsimp only
          rw [hr, hr]
          refine ⟨r.map (form d t i body tags factor test), rfl, ?_, ?_⟩
          · cases r with
            | error e => rfl
            | ok increment =>
                show _ = Except.ok (Except.ok
                  (form d t i body tags factor test increment).forgotten)
                rw [forgotten_form]
                rfl
          · intro s hs
            cases r with
            | error e => cases hs
            | ok increment =>
                obtain rfl := Except.ok.inj hs
                exact form_legible hd ht hi hbody (Expr.legible_of_parse htest)
                  (hlegible increment rfl) tags factor

/-! ## §4. One loop. -/

end Unroll

namespace Loop

theorem Query.FindsAt.ask {α : Type} {q : Query α} {l : Loop} {x : Except Error α}
    (h : q.FindsAt l x) :
    ∃ l', (l.ask q).Yields (l', x) ∧ l'.forgotten = l.forgotten ∧ l'.Coherent := by
  obtain ⟨l', hq, hforgotten, hcoherent⟩ := h
  refine ⟨l', fun t => ?_, hforgotten, hcoherent⟩
  obtain ⟨events, hq⟩ := hq t
  unfold Loop.ask
  rw [hq]
  cases x <;> rfl

theorem Query.Finds.quietly {α : Type} {q : Query α} {l : Loop} {x : Except Error α}
    (h : q.Finds l.stripped x) (hnone : l.induction = none) :
    l.quietly q = x.mapError .error := by
  obtain ⟨l', hq, _⟩ := h l rfl (coherent_of_none hnone)
  obtain ⟨events, hq⟩ := hq none
  unfold Loop.quietly
  rw [hq]

end Loop

namespace Unroll

open Loop (Stop)

/-- The pass tells the heuristic what the recursion tells it. -/
theorem told_eq (nesting : Nat) (l : Loop) :
    told nesting l = features nesting l.bodySize (Node.stmt l.toStmt).operators := by
  have hops : (Node.stmt l.toStmt).preorder.countP (·.kind = .expr .op)
      = (Node.stmt l.toStmt).operators := by
    rw [← Node.count_children, Node.operators, Node.count_eq, if_neg nofun, Nat.zero_add]
  -- The features are kept in the order of their names.
  have hsize : "loopBodySize" < "loopNestingLevel" := by decide
  have hfirst : "loopBodyOps" < "loopBodySize" := by decide
  unfold told
  rw [hops]
  simp only [features, Features.ofList, Features.insert, List.foldl, insertByName, hsize, hfirst,
    ↓reduceIte]
  rfl

theorem askFactor_yields (m : Manager) (indent nesting operators : Nat) (l : Loop) :
    ∃ m', (askFactor m indent nesting operators l).Yields
        ⟨l, m', m.factor (features nesting l.bodySize operators)⟩ ∧ m'.factor = m.factor := by
  unfold askFactor
  cases hask : m.ask unrollingNumber (·.evalInt (features nesting l.bodySize operators)) with
  | error e =>
      refine ⟨m, ?_, rfl⟩
      unfold Manager.factor
      simp only [hask]
      exact yields_pure _
  | ok answer =>
      obtain ⟨m', factor⟩ := answer
      obtain ⟨hm', hfactor⟩ := Manager.factor_of_ask hask
      refine ⟨m', ?_, hm'⟩
      rw [hfactor]
      simp only [hask]
      exact (yields_say _ _).bind (yields_pure _)

/-- The questions about a loop settle on the plan of the recursion. -/
theorem plan_yields {l : Loop} (hl : l.Legible) (hnone : l.induction = none) (m : Manager)
    (indent nesting : Nat) :
    ∃ a, (plan m indent nesting (Node.stmt l.toStmt).operators l).Yields a
      ∧ a.loop.forgotten = l.forgotten ∧ a.manager.factor = m.factor
      ∧ a.answer.mapError Stop.error = planned m.factor nesting l := by
  have hp : l.stripped.Legible := hl.renote _
  have hstripped : l.stripped.stripped = l.stripped := l.stripped_renote _
  obtain ⟨x, hx⟩ := Loop.usableLimit_settles hp hstripped
  have hdriver := Loop.drive_finds hp hstripped
  obtain ⟨l₁, hask, hl₁, hc₁⟩ := (hx l rfl (Loop.coherent_of_none hnone)).ask
  unfold planned plan
  rw [hx.quietly hnone, hdriver.quietly hnone, told_eq]
  cases x with
  | error e => exact ⟨⟨l₁, m, .error e⟩, hask.bind (yields_pure _), hl₁, rfl, rfl⟩
  | ok limit =>
      by_cases hempty : limit.isEmpty = true
      · refine ⟨⟨l₁, m, .ok none⟩, hask.bind ?_, hl₁, rfl, ?_⟩
        · simp only [if_pos hempty]
          exact yields_pure _
        · exact (if_pos hempty).symm
      · obtain ⟨m', hfactor, hm'⟩ := askFactor_yields m indent nesting
          (Node.stmt l.toStmt).operators l₁
        have hsize : l₁.bodySize = l.bodySize := Loop.bodySize_of_forgotten hl₁
        rw [hsize] at hfactor
        obtain ⟨l₂, hdrive, hl₂, _⟩ := (hdriver l₁ (Loop.stripped_of_forgotten hl₁) hc₁).ask
        rw [hl₁] at hl₂
        simp only [Except.mapError, bind, Except.bind, if_neg hempty]
        cases hanswer : m.factor
            (features nesting l.bodySize (Node.stmt l.toStmt).operators) with
        | error e =>
            rw [hanswer] at hfactor
            refine ⟨⟨l₁, m', .error e⟩, hask.bind ?_, hl₁, hm', rfl⟩
            simp only [if_neg hempty]
            exact hfactor.bind (yields_pure _)
        | ok factor =>
            rw [hanswer] at hfactor
            by_cases hsmall : factor < 2
            · refine ⟨⟨l₁, m', .ok none⟩, hask.bind ?_, hl₁, hm', ?_⟩
              · simp only [if_neg hempty]
                refine hfactor.bind ?_
                simp only [if_pos hsmall]
                exact yields_pure _
              · simp only [if_pos hsmall]
                rfl
            · refine ⟨⟨l₂, m', l.stripped.driver.map (·.map fun i => ⟨factor, i, limit⟩)⟩,
                hask.bind ?_, hl₂, hm', ?_⟩
              · simp only [if_neg hempty]
                refine hfactor.bind ?_
                simp only [if_neg hsmall]
                exact hdrive.bind (yields_pure _)
              · simp only [if_neg hsmall]
                cases l.stripped.driver <;> rfl

/-- The plan does not depend on the notes of a loop that remembers nothing,
nor on those of the loops inside. -/
theorem planned_congr {l l' : Loop} (hl : l.Legible) (hnone : l.induction = none)
    (hnone' : l'.induction = none) (h : l'.stripped = l.stripped)
    (ask : Features → Except Error Int) (nesting : Nat) :
    planned ask nesting l' = planned ask nesting l := by
  have hp : l.stripped.Legible := hl.renote _
  have hstripped : l.stripped.stripped = l.stripped := l.stripped_renote _
  obtain ⟨x, hx⟩ := Loop.usableLimit_settles hp hstripped
  have hdriver := Loop.drive_finds hp hstripped
  have hx' := hx
  have hdriver' := hdriver
  rw [← h] at hx' hdriver'
  unfold planned
  rw [hx.quietly hnone, hx'.quietly hnone', hdriver.quietly hnone, hdriver'.quietly hnone', h,
    told_eq, told_eq, ← l.bodySize_renote fun _ => (none, {}),
    ← l'.bodySize_renote fun _ => (none, {}), ← l.operators_renote fun _ => (none, {}),
    ← l'.operators_renote fun _ => (none, {})]
  change l'.renote _ = l.renote _ at h
  rw [h]

/-- A step of the walk leaves what the recursion says: the same tree up to
what loops remember, the stack as it was, a manager with the same answers,
and the loops counted.  Where the recursion stops, the walk fails. -/
def Matches {α β : Type} (same : α → β → Prop) (s : State) (r : Step State α) :
    Except Stop (β × Nat) → Prop
  | .ok (y, n) => r.failure = none ∧ same r.value y ∧ r.state.stack = s.stack
      ∧ r.state.manager.factor = s.manager.factor ∧ r.state.unrolled = s.unrolled + n
  | .error _ => r.failure ≠ none

/-- What is left in a slot is the statement, up to what loops remember. -/
def Fills (slot : Option Stmt) (y : Stmt) : Prop := slot.map Stmt.forgotten = some y

/-- The treatment of a loop without the tag. -/
theorem treatLoop_yields {l : Loop} (hl : l.Legible) (hnone : l.induction = none) (s : State) :
    ∃ r, (treatLoop s l).Yields r ∧ (∀ y ∈ r.value, y.Legible)
      ∧ Matches (fun slot y => Fills slot (y.getD l.forgotten.toStmt)) s r
          ((treated s.manager.factor s.nesting l.forgotten).map
            fun y => (y, y.elim 0 fun _ => 1)) := by
  have hp : l.forgotten.Legible := hl.renote _
  obtain ⟨⟨l', m', answer⟩, hplan, hl', hm', hanswer⟩ :=
    plan_yields hl hnone s.manager s.stack.length s.nesting
  dsimp only at hl' hm' hanswer
  have hplanned : planned s.manager.factor s.nesting l.forgotten
      = planned s.manager.factor s.nesting l :=
    planned_congr hl hnone rfl (l.stripped_renote _) _ _
  have hlegible : l'.toStmt.Legible := by
    refine .of_renote (fun notes => (none, notes.2)) ?_
    show l'.forgotten.toStmt.Legible
    rw [hl']
    exact hp
  have hkept : Fills (some l'.toStmt) l.forgotten.toStmt := by
    rw [← hl']
    rfl
  unfold treatLoop treated
  rw [hplanned, ← hanswer]
  cases answer with
  | error e =>
      refine ⟨⟨{ s with manager := m' }, some l'.toStmt, some e⟩,
        hplan.bind (yields_pure _), ?_, ?_⟩
      · exact fun y hy => Option.some.inj hy ▸ hlegible
      · exact Option.some_ne_none e
  | ok answer =>
      cases answer with
      | none =>
          refine ⟨⟨{ s with manager := m' }, some l'.toStmt, none⟩,
            hplan.bind (yields_pure _), ?_, ?_⟩
          · exact fun y hy => Option.some.inj hy ▸ hlegible
          · exact ⟨rfl, hkept, rfl, hm', rfl⟩
      | some plan =>
          obtain ⟨r, hr, hforgotten, hstmt⟩ := unrolled_ok hlegible plan.factor.toNat
            (testText plan.factor plan.induction plan.limit)
          rw [hl'] at hforgotten
          simp only [Except.mapError, bind, Except.bind, hforgotten]
          cases r with
          | error e =>
              refine ⟨⟨{ s with manager := m' }, none, some e⟩, hplan.bind ((yields_say _ _).bind
                ((yields_ofExcept hr).bind (yields_pure _))), ?_, ?_⟩
              · exact fun y hy => absurd hy (Option.not_mem_none y)
              · exact Option.some_ne_none e
          | ok stmt =>
              refine ⟨⟨{ s with manager := m', unrolled := s.unrolled + 1 }, some stmt, none⟩,
                hplan.bind ((yields_say _ _).bind ((yields_ofExcept hr).bind (yields_pure _))),
                ?_, ?_⟩
              · exact fun y hy => Option.some.inj hy ▸ hstmt stmt rfl
              · exact ⟨rfl, rfl, rfl, hm', rfl⟩

/-- The treatment of a loop is that of the recursion. -/
theorem treat_loop_yields {l : Loop} (hl : l.Legible) (hnone : l.induction = none) (s : State) :
    ∃ r, (treat s (some l.toStmt)).Yields r ∧ (∀ y ∈ r.value, y.Legible)
      ∧ Matches Fills s r (rewriteLoop s.manager.factor s.nesting l.forgotten) := by
  unfold rewriteLoop
  by_cases htag : l.tags.has justUnrolled = true
  · have hlegible : ({ l with tags := l.tags.erase justUnrolled } : Loop).toStmt.Legible := by
      obtain ⟨clauses, body, induction, tags⟩ := l
      cases hl with
      | loop hd ht hi hbody => exact .loop hd ht hi hbody
    refine ⟨⟨s, some { l with tags := l.tags.erase justUnrolled }.toStmt, none⟩, ?_, ?_, ?_⟩
    · show Yields (if l.tags.has justUnrolled = true then _ else _) _
      rw [if_pos htag]
      -- The tag is there, so it can be removed.
      have hremove : l.tags.remove justUnrolled = .ok (l.tags.erase justUnrolled) := if_pos htag
      exact (yields_say _ _).bind ((yields_ofExcept hremove).bind (yields_pure _))
    · exact fun y hy => Option.some.inj hy ▸ hlegible
    · rw [if_pos (show l.forgotten.tags.has justUnrolled = true from htag)]
      exact ⟨rfl, rfl, rfl, rfl, rfl⟩
  · obtain ⟨r, hr, hlegible, hmatches⟩ := treatLoop_yields hl hnone s
    refine ⟨r, ?_, hlegible, ?_⟩
    · show Yields (if l.tags.has justUnrolled = true then _ else _) _
      rw [if_neg htag]
      exact hr
    · rw [if_neg (show ¬ l.forgotten.tags.has justUnrolled = true from htag)]
      cases htreated : treated s.manager.factor s.nesting l.forgotten with
      | error stop =>
          rw [htreated] at hmatches
          exact hmatches
      | ok y =>
          rw [htreated] at hmatches
          cases y with
          | none => exact hmatches
          | some y => exact hmatches

/-! ## §5. The walk. -/

/-- The pass as a tour. -/
def tour : Tour State where
  openStmt s x := { s with stack := some x.kind :: s.stack }
  closeStmt s x :=
    match (treat s (some x) none).2 with
    | .ok r => ⟨{ r.state with stack := r.state.stack.tail }, r.value, r.failure⟩
    | .error _ => ⟨s, some x, none⟩

theorem closeStmt_eq {s : State} {x : Stmt} {r : Step State (Option Stmt)}
    (h : (treat s (some x)).Yields r) :
    tour.closeStmt s x = ⟨{ r.state with stack := r.state.stack.tail }, r.value, r.failure⟩ := by
  show (match (treat s (some x) none).2 with
    | .ok r => (⟨{ r.state with stack := r.state.stack.tail }, r.value, r.failure⟩ :
        Step State (Option Stmt))
    | .error _ => ⟨s, some x, none⟩) = _
  rw [h none]

theorem treat_yields_of_loop?_eq_none {x : Stmt} (h : x.loop? = none) (s : State) :
    (treat s (some x)).Yields ⟨s, some x, none⟩ := by
  unfold treat
  rw [show (some x).bind Stmt.loop? = none from h]
  exact yields_pure _

/-- Every legible statement without a memory is treated to its end, and what
is left is legible. -/
theorem treat_settles {x : Stmt} (hx : x.Legible) (huncached : x.Uncached) (s : State) :
    ∃ r, (treat s (some x)).Yields r ∧ ∀ y ∈ r.value, y.Legible := by
  cases hloop : x.loop? with
  | none =>
      refine ⟨_, treat_yields_of_loop?_eq_none hloop s, ?_⟩
      exact fun y hy => Option.some.inj hy ▸ hx
  | some l =>
      obtain rfl := Loop.loop?_eq_some_iff.1 hloop
      obtain ⟨r, hr, hlegible, _⟩ := treat_loop_yields hx (huncached _ _ _ _ rfl) s
      exact ⟨r, hr, hlegible⟩

theorem visitor_follows : Follows visitor tour where
  openExpr _ _ _ _ := yields_pure _
  closeExpr _ _ _ _ := yields_pure _
  openStmt _ _ _ _ := yields_pure _
  closeStmt s x q hx huncached := by
    obtain ⟨r, hr, _⟩ := treat_settles hx huncached s
    rw [closeStmt_eq hr]
    exact hr.bind (yields_pure _)
  legible s x hx huncached := by
    obtain ⟨r, hr, hlegible⟩ := treat_settles hx huncached s
    rw [closeStmt_eq hr]
    exact hlegible

section

variable {α β α' β' : Type} {same : α → β → Prop} {same' : α' → β' → Prop} {s : State}
  {r : Step State α} {x : Except Stop (β × Nat)}

/-- What is rebuilt around matching parts matches. -/
theorem Matches.map (h : Matches same s r x) {f : α → α'} {g : β → β'}
    (hfg : ∀ v y, same v y → same' (f v) (g y)) :
    Matches same' s (r.map f) (x >>= fun y => pure (g y.1, y.2)) := by
  cases x with
  | error stop => exact h
  | ok y =>
      obtain ⟨hfailure, hvalue, hstate⟩ := h
      exact ⟨hfailure, hfg _ _ hvalue, hstate⟩

end

/-- The statement is the other one, up to what loops remember. -/
def SameStmt (x y : Stmt) : Prop := x.forgotten = y

/-- The statements are the other ones, up to what loops remember. -/
def SameStmts (xs ys : List Stmt) : Prop := xs.map Stmt.forgotten = ys

theorem exprs_tour (s : State) (es : List Expr) : tour.exprs s es = s :=
  tour.exprs_idle (fun _ _ => rfl) (fun _ _ => rfl) s es

theorem fill_matches {s : State} {r : Step State (Option Stmt)} {x : Except Stop (Stmt × Nat)}
    (h : Matches Fills s r x) : Matches SameStmt s (Tour.fill r) x := by
  cases x with
  | error stop => exact h
  | ok y =>
      obtain ⟨hfailure, hvalue, hstate⟩ := h
      refine ⟨hfailure, ?_, hstate⟩
      obtain ⟨v, hv, hsame⟩ := Option.map_eq_some_iff.1 hvalue
      show (r.value.getD .empty).forgotten = y.1
      rw [hv]
      exact hsame

/-- One part after the other: the second starts where the first ended, with
the same stack and the same answers. -/
theorem Matches.andThen {α β α' β' α'' β'' : Type} {same : α → β → Prop} {same' : α' → β' → Prop}
    {same'' : α'' → β'' → Prop} {s : State} {r : Step State α} {x : Except Stop (β × Nat)}
    {next : State → Step State α'} {x' : Except Stop (β' × Nat)} (h : Matches same s r x)
    (hnext : ∀ s' : State, s'.stack = s.stack → s'.manager.factor = s.manager.factor →
      Matches same' s' (next s') x')
    (rebuild : α → α'') (f : α → α' → α'') (g : β → β' → β'')
    (hfg : ∀ v y v' y', same v y → same' v' y' → same'' (f v v') (g y y')) :
    Matches same'' s
      (match r.failure with
        | some e => ⟨r.state, rebuild r.value, some e⟩
        | none => (next r.state).map (f r.value))
      (x >>= fun y => x' >>= fun y' => pure (g y.1 y'.1, y.2 + y'.2)) := by
  cases x with
  | error stop =>
      obtain ⟨e, he⟩ := Option.ne_none_iff_exists'.1 h
      rw [he]
      exact Option.some_ne_none e
  | ok y =>
      obtain ⟨hfailure, hvalue, hstack, hfactor, hcount⟩ := h
      have hmatches := hnext r.state hstack hfactor
      rw [hfailure]
      cases x' with
      | error stop => exact hmatches
      | ok y' =>
          obtain ⟨hfailure', hvalue', hstack', hfactor', hcount'⟩ := hmatches
          refine ⟨hfailure', hfg _ _ _ _ hvalue hvalue', hstack'.trans hstack,
            hfactor'.trans hfactor, ?_⟩
          show (next r.state).state.unrolled = s.unrolled + (y.2 + y'.2)
          rw [hcount', hcount, Nat.add_assoc]

/-- A statement that is no loop is left as what its inside has become. -/
theorem visit_matches_of_stmt {s : State} {x : Stmt} {y : Except Stop (Stmt × Nat)}
    (hloop : (tour.stmt (tour.openStmt s x) x).value.loop? = none)
    (h : Matches SameStmt (tour.openStmt s x) (tour.stmt (tour.openStmt s x) x) y) :
    Matches Fills s (tour.visit s x) y := by
  unfold Tour.visit Tour.close
  generalize tour.stmt (tour.openStmt s x) x = r at hloop h
  cases y with
  | error stop =>
      obtain ⟨e, he⟩ := Option.ne_none_iff_exists'.1 h
      rw [he]
      exact Option.some_ne_none e
  | ok y =>
      obtain ⟨hfailure, hvalue, hstack, hfactor, hcount⟩ := h
      rw [hfailure]
      dsimp only
      rw [closeStmt_eq (treat_yields_of_loop?_eq_none hloop r.state)]
      refine ⟨rfl, congrArg some hvalue, ?_, hfactor, hcount⟩
      show r.state.stack.tail = s.stack
      rw [hstack]
      rfl

/-- The nesting inside a statement that is no loop is that outside. -/
theorem nesting_openStmt {s : State} {x : Stmt} (h : x.kind ≠ .loop) :
    (tour.openStmt s x).nesting = s.nesting :=
  List.count_cons_of_ne (by simpa using h)

theorem nesting_of_stack {s s' : State} (h : s'.stack = s.stack) : s'.nesting = s.nesting :=
  congrArg (List.count _) h

theorem nesting_openStmt_loop (s : State) (l : Loop) :
    (tour.openStmt s l.toStmt).nesting = s.nesting + 1 :=
  List.count_cons_self

theorem stmts_matches {xs : List Stmt}
    (h : ∀ x ∈ xs, ∀ s, Matches Fills s (tour.visit s x) (rewrite s.manager.factor s.nesting x))
    (s : State) :
    Matches SameStmts s (tour.stmts s xs) (rewriteAll s.manager.factor s.nesting xs) := by
  induction xs generalizing s with
  | nil => exact ⟨rfl, rfl, rfl, rfl, rfl⟩
  | cons x xs ih =>
      obtain ⟨hx, hxs⟩ := List.forall_mem_cons.1 h
      rw [tour.stmts_eq_visitAll, visitAll]
      have hrest : ∀ s' : State, s'.stack = s.stack → s'.manager.factor = s.manager.factor →
          Matches SameStmts s' (visitAll tour.visit s' xs)
            (rewriteAll s.manager.factor s.nesting xs) := by
        intro s' hstack hfactor
        rw [← tour.stmts_eq_visitAll, ← hfactor, ← nesting_of_stack hstack]
        exact ih hxs s'
      refine (hx s).andThen hrest (fun v => v.toList ++ xs) (fun v vs => v.toList ++ vs)
        (fun y ys => y :: ys) ?_
      intro v y v' y' hsame hsame'
      obtain ⟨x', rfl, rfl⟩ := Option.map_eq_some_iff.1 hsame
      subst hsame'
      rfl

/-- A loop is treated behind its body. -/
theorem loop_matches {d t i : Expr} {body : Stmt} {induction : Option Induction} {tags : Tags}
    (hd : d.Legible) (ht : t.Legible) (hi : i.Legible) (hbody : body.Legible)
    (h : ∀ s, Matches Fills s (tour.visit s body) (rewrite s.manager.factor s.nesting body))
    (s : State) : Matches Fills s (tour.visit s (.loop [d, t, i] body induction tags))
      (rewrite s.manager.factor s.nesting (.loop [d, t, i] body induction tags)) := by
  have hslot :
      (tour.slot (tour.openStmt s (.loop [d, t, i] body induction tags)) body).value.Legible :=
    visitor_follows.slot_legible_of (visitor_follows.stmt_legible hbody) _
  have hinside := fill_matches (h (tour.openStmt s (.loop [d, t, i] body induction tags)))
  rw [show (tour.openStmt s (.loop [d, t, i] body induction tags)).nesting = s.nesting + 1 from
    nesting_openStmt_loop s ⟨[d, t, i], body, induction, tags⟩] at hinside
  have hvisit : tour.visit s (.loop [d, t, i] body induction tags)
      = tour.close ((tour.slot (tour.openStmt s (.loop [d, t, i] body induction tags)) body).map
          (.loop [d, t, i] · none tags)) := by
    unfold Tour.visit
    rw [Tour.stmt, exprs_tour]
    rfl
  have hopened : (tour.openStmt s (.loop [d, t, i] body induction tags)).manager = s.manager := rfl
  rw [hvisit, rewrite]
  change Matches SameStmt _ (tour.slot _ body) _ at hinside
  rw [hopened] at hinside
  generalize hr : tour.slot (tour.openStmt s (.loop [d, t, i] body induction tags)) body = r
    at hslot hinside ⊢
  cases hx : rewrite s.manager.factor (s.nesting + 1) body with
  | error stop =>
      rw [hx] at hinside
      obtain ⟨e, he⟩ := Option.ne_none_iff_exists'.1 hinside
      unfold Tour.close
      rw [show (r.map (Stmt.loop [d, t, i] · none tags)).failure = some e from he]
      exact Option.some_ne_none e
  | ok y =>
      rw [hx] at hinside
      obtain ⟨hfailure, hvalue, hstack, hfactor, hcount⟩ := hinside
      have hlegible : (⟨[d, t, i], r.value, none, tags⟩ : Loop).Legible := .loop hd ht hi hslot
      have hnesting : r.state.nesting = s.nesting + 1 := (nesting_of_stack hstack).trans
        (nesting_openStmt_loop s ⟨[d, t, i], body, induction, tags⟩)
      obtain ⟨q, hq, _, hmatches⟩ := treat_loop_yields hlegible rfl r.state
      rw [hnesting, show r.state.manager.factor = s.manager.factor from hfactor,
        show (⟨[d, t, i], r.value, none, tags⟩ : Loop).forgotten = ⟨[d, t, i], y.1, none, tags⟩ from
          congrArg (fun body => (⟨[d, t, i], body, none, tags⟩ : Loop)) hvalue] at hmatches
      unfold Tour.close
      rw [show (r.map (Stmt.loop [d, t, i] · none tags)).failure = none from hfailure]
      dsimp only [Step.map]
      rw [show tour.closeStmt r.state (.loop [d, t, i] r.value none tags) = _ from closeStmt_eq hq]
      show Matches Fills s _
        (rewriteLoop s.manager.factor (s.nesting + 1) ⟨[d, t, i], y.1, none, tags⟩
          >>= fun z => pure (z.1, y.2 + z.2))
      cases hz : rewriteLoop s.manager.factor (s.nesting + 1) ⟨[d, t, i], y.1, none, tags⟩ with
      | error stop =>
          rw [hz] at hmatches
          exact hmatches
      | ok z =>
          rw [hz] at hmatches
          obtain ⟨hfailure', hvalue', hstack', hfactor', hcount'⟩ := hmatches
          refine ⟨hfailure', hvalue', ?_, hfactor'.trans hfactor, ?_⟩
          · show q.state.stack.tail = s.stack
            rw [hstack', hstack]
            rfl
          · show q.state.unrolled = s.unrolled + (y.2 + z.2)
            rw [hcount', hcount, Nat.add_assoc]
            rfl

/-- **The walk of a legible statement is the recursion.** -/
theorem visit_matches {x : Stmt} (hx : x.Legible) (s : State) :
    Matches Fills s (tour.visit s x) (rewrite s.manager.factor s.nesting x) := by
  induction hx generalizing s with
  | empty | basic | raw =>
      refine visit_matches_of_stmt rfl ?_
      rw [Tour.stmt, exprs_tour]
      exact ⟨rfl, rfl, rfl, rfl, rfl⟩
  | @block ss b tags hss ih =>
      refine visit_matches_of_stmt rfl ?_
      rw [Tour.stmt, exprs_tour]
      have hinside := stmts_matches ih (tour.openStmt s (.block [] ss b tags))
      rw [nesting_openStmt (by simp [Stmt.kind])] at hinside
      refine hinside.map (g := fun ys => Stmt.block [] ys b tags) ?_
      rintro v _ rfl
      show Stmt.block [] (Stmt.renoteAll _ v) b tags = _
      rw [Stmt.renoteAll_eq_map]
      rfl
  | loop hd ht hi hbody ih => exact loop_matches hd ht hi hbody ih s
  | @switch c body tags hc hbody ih =>
      refine visit_matches_of_stmt rfl ?_
      rw [Tour.stmt, exprs_tour]
      have hinside := ih (tour.openStmt s (.switch [c] body tags))
      rw [nesting_openStmt (by simp [Stmt.kind])] at hinside
      refine (fill_matches hinside).map (g := fun y => Stmt.switch [c] y tags) ?_
      rintro v _ rfl
      rfl
  | @cond c yes no tags hc hyes hno ihyes ihno =>
      have hinside := ihyes (tour.openStmt s (.cond [c] yes no tags))
      rw [nesting_openStmt (by simp [Stmt.kind])] at hinside
      cases no with
      | none =>
          refine visit_matches_of_stmt rfl ?_
          rw [Tour.stmt, exprs_tour]
          refine (fill_matches hinside).map (g := fun y => Stmt.cond [c] y none tags) ?_
          rintro v _ rfl
          rfl
      | some no =>
          have hrest : ∀ s' : State,
              s'.stack = (tour.openStmt s (.cond [c] yes (some no) tags)).stack →
              s'.manager.factor = s.manager.factor →
              Matches SameStmt s' (tour.slot s' no) (rewrite s.manager.factor s.nesting no) := by
            intro s' hstack hfactor
            have hnesting : s'.nesting = s.nesting :=
              (nesting_of_stack hstack).trans (nesting_openStmt (by simp [Stmt.kind]))
            rw [← hfactor, ← hnesting]
            exact fill_matches (ihno no rfl s')
          refine visit_matches_of_stmt ?_ ?_
          · rw [Tour.stmt]
            split <;> rfl
          · rw [Tour.stmt, exprs_tour]
            refine (fill_matches hinside).andThen hrest (fun v => Stmt.cond [c] v (some no) tags)
              (fun v v' => Stmt.cond [c] v (some v') tags)
              (fun y y' => Stmt.cond [c] y (some y') tags) ?_
            rintro v _ v' _ rfl rfl
            rfl

end Unroll

/-! ## §6. Rule bodies that occur. -/

/-- The outline as a tour. -/
def Outline.tour : Tour Outline.State where
  openExpr s e := ⟨s.indent + 1, s.lines ++ [Text.spaces s.indent ++ (Node.expr e).label]⟩
  closeExpr s _ := { s with indent := s.indent - 1 }
  openStmt s x := ⟨s.indent + 1, s.lines ++ [Text.spaces s.indent ++ (Node.stmt x).label]⟩
  closeStmt s x := ⟨{ s with indent := s.indent - 1 }, some x, none⟩

theorem Outline.visitor_follows : Follows Outline.visitor Outline.tour where
  openExpr _ _ _ _ := (yields_say _ _).bind (yields_pure _)
  closeExpr _ _ _ _ := yields_pure _
  openStmt _ _ _ _ := (yields_say _ _).bind (yields_pure _)
  closeStmt _ _ _ _ _ := yields_pure _
  legible _ _ hx _ _ hy := Option.some.inj hy ▸ hx

/-- The rule bodies that occur: those that were read, and what passes leave
of them, also where a pass fails. -/
inductive Reachable : Block → Prop where
  | parsed {src : String} {origin : Location} {b : Block} : Block.parse src origin = .ok b →
      Reachable b
  | passed {b : Block} {m : Manager} {name : String} {t : Option Level} {out : Outcome} :
      Reachable b → (Pipeline.runPass b m name t).2 = .ok out → Reachable out.block

/-- What the pass that unrolls loops leaves, told by the tour. -/
theorem runUnroll_yields {b : Block} (hb : b.Legible) (m : Manager) :
    (Pass.runUnroll b m).Yields
      ⟨{ b with stmts := (Unroll.tour.stmts { manager := m } b.stmts).value },
        (Unroll.tour.stmts { manager := m } b.stmts).state.manager,
        (Unroll.tour.stmts { manager := m } b.stmts).failure.elim
          (.ok (.ofCount (Unroll.tour.stmts { manager := m } b.stmts).state.unrolled)) .error⟩ := by
  refine (Unroll.visitor_follows.apply hb { manager := m }).1.bind ?_
  generalize Unroll.tour.stmts { manager := m } b.stmts = r
  obtain ⟨state, stmts, failure⟩ := r
  cases failure with
  | some e => exact yields_pure _
  | none => exact (yields_say _ _).bind (yields_pure _)

/-- A pass leaves a legible body legible. -/
theorem runPass_legible {b : Block} (hb : b.Legible) {m : Manager} {name : String}
    {t : Option Level} {out : Outcome} (h : (Pipeline.runPass b m name t).2 = .ok out) :
    out.block.Legible := by
  unfold Pipeline.runPass at h
  match hname : Pass.ofName? name with
  | some .unrollLoops =>
      rw [hname] at h
      dsimp only at h
      rw [runUnroll_yields hb m t] at h
      rw [← Except.ok.inj h]
      exact (Unroll.visitor_follows.apply hb { manager := m }).2
  | some .outline =>
      obtain ⟨hwalk, hlegible⟩ := Outline.visitor_follows.apply hb {}
      have houtline : (Pass.runOutline b m).Yields _ := Yields.bind hwalk (yields_pure _)
      rw [hname] at h
      dsimp only at h
      rw [houtline t] at h
      rw [← Except.ok.inj h]
      exact hlegible
  | none =>
      rw [hname] at h
      rw [← Except.ok.inj h]
      exact hb

theorem Reachable.legible {b : Block} (h : Reachable b) : b.Legible := by
  induction h with
  | parsed hparse =>
      obtain ⟨_, hpristine, _⟩ := Block.parse_spec hparse
      exact fun s hs => (hpristine s hs).legible
  | passed _ hpass ih => exact runPass_legible ih hpass

/-- The walk of a legible rule body is the recursion. -/
theorem stmts_matches_block {b : Block} (hb : b.Legible) (m : Manager) :
    Unroll.Matches Unroll.SameStmts { manager := m } (Unroll.tour.stmts { manager := m } b.stmts)
      (Unroll.rewriteAll m.factor 0 b.stmts) :=
  Unroll.stmts_matches (fun x hx s => Unroll.visit_matches (hb x hx) s) { manager := m }

end RuleBody
