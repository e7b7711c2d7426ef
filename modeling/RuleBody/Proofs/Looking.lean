/-
  RuleBody.Proofs.Looking
  ───────────────────────
  **VISITORS THAT ONLY LOOK.**

  A walk takes every list of the tree apart and puts it together again, and
  it empties every place for one statement and fills it again.  If the hooks
  of the visitor leave slots, queues and blocks alone, nothing of this shows
  afterwards, also where a hook failed on the way: the tree is what it was,
  but for loops that have forgotten their induction
  (`looking_leaves_tree`).

  §1  computations that keep a property;
  §2  trees that forgot;
  §3  lists;
  §4  expressions, statements and blocks;
  §5  the scan of a body and the outline.
-/
import Mathlib.Data.List.Forall2
import RuleBody.Pass.Outline
import RuleBody.Proofs.Analysis

namespace RuleBody

open List (Forall₂)

/-! ## §1. Computations that keep a property. -/

namespace Run

variable {α β : Type} {c : Prop} {P : α → Prop} {Q : β → Prop}

/-- Where the computation ends, its value has the property. -/
def Ensures (x : Run α) (P : α → Prop) : Prop := ∀ t a, (x t).2 = .ok a → P a

/-- The computation does not fault. -/
def Ends (x : Run α) : Prop := ∀ t, ∃ a, (x t).2 = .ok a

/-- Where the computation ends, its value has the property; and it does end
on the condition `c`. -/
structure Leads (c : Prop) (x : Run α) (P : α → Prop) : Prop where
  ensures : x.Ensures P
  ends : c → x.Ends

theorem Yields.ensures {x : Run α} {a : α} (hx : x.Yields a) (h : P a) : x.Ensures P := by
  intro t b hb
  obtain rfl : a = b := Except.ok.inj ((hx t).symm.trans hb)
  exact h

theorem Yields.ends {x : Run α} {a : α} (hx : x.Yields a) : x.Ends := fun t => ⟨a, hx t⟩

theorem Yields.leads {x : Run α} {a : α} (hx : x.Yields a) (h : P a) : Leads c x P :=
  ⟨hx.ensures h, fun _ => hx.ends⟩

theorem ensures_pure {a : α} (h : P a) : (pure a : Run α).Ensures P := (yields_pure a).ensures h

theorem ends_pure (a : α) : (pure a : Run α).Ends := (yields_pure a).ends

theorem leads_pure {a : α} (h : P a) : Leads c (pure a) P := (yields_pure a).leads h

theorem leads_fault (f : Fault) (hc : ¬ c) : Leads c (fault f : Run α) P :=
  ⟨fun _ _ h => (nomatch h), fun h => absurd h hc⟩

/-- Nothing is said of the value, and the computation need not end. -/
theorem leads_any (x : Run α) : Leads False x fun _ => True :=
  ⟨fun _ _ _ => trivial, nofun⟩

theorem Leads.mono {c' : Prop} {P' : α → Prop} {x : Run α} (h : Leads c x P) (hc : c' → c)
    (hP : ∀ a, P a → P' a) : Leads c' x P' :=
  ⟨fun t a ha => hP a (h.ensures t a ha), fun h' => h.ends (hc h')⟩

theorem Leads.bind {x : Run α} {f : α → Run β} (hx : Leads c x P)
    (hf : ∀ a, P a → Leads c (f a) Q) : Leads c (x >>= f) Q := by
  constructor
  · intro t b hb
    rw [bind_apply] at hb
    have hvalue := hx.ensures t
    rcases hxt : x t with ⟨events, fault | a⟩
    · rw [hxt] at hb
      cases hb
    · rw [hxt] at hb hvalue
      exact (hf a (hvalue a rfl)).ensures t b hb
  · intro hc t
    obtain ⟨a, ha⟩ := hx.ends hc t
    obtain ⟨b, hb⟩ := (hf a (hx.ensures t a ha)).ends hc t
    refine ⟨b, ?_⟩
    rw [bind_apply]
    rcases hxt : x t with ⟨events, value⟩
    rw [hxt] at ha
    obtain rfl : value = .ok a := ha
    exact hb

end Run

open Run (Leads leads_pure leads_fault ensures_pure ends_pure)

theorem Step.leads_andThen {σ α β : Type} {c : Prop} {r : Step σ α} {rebuild : α → β}
    {next : σ → α → Run (Step σ β)} {Q : Step σ β → Prop}
    (hrebuild : ∀ e, Q ⟨r.state, rebuild r.value, some e⟩)
    (hnext : Leads c (next r.state r.value) Q) : Leads c (r.andThen rebuild next) Q := by
  unfold Step.andThen
  cases r.failure with
  | some e => exact leads_pure (hrebuild e)
  | none => exact hnext

/-! ## §2. Trees that forgot. -/

/-- The second loop remembers what the first does, or nothing. -/
def Loop.Fades (l l' : Loop) : Prop := l'.induction = none ∨ l'.induction = l.induction

/-- The second statement is the first one, some of whose loops may have
forgotten their induction. -/
structure Stmt.Fades (x y : Stmt) : Prop where
  tree : y.forgotten = x.forgotten
  memory : Forall₂ Loop.Fades x.loops y.loops

/-- The second block is the first one, some of whose loops may have
forgotten their induction. -/
structure Block.Fades (b b' : Block) : Prop where
  tree : b'.forgotten = b.forgotten
  memory : Forall₂ Loop.Fades b.loops b'.loops

/-- The second node is the first one, some of whose loops may have
forgotten their induction. -/
inductive Node.Fades : Node → Node → Prop where
  | expr (e : Expr) : Node.Fades (.expr e) (.expr e)
  | stmt {x y : Stmt} : x.Fades y → Node.Fades (.stmt x) (.stmt y)
  | block {b b' : Block} : b.Fades b' → Node.Fades (.block b) (.block b')

namespace Stmt

theorem Fades.refl (x : Stmt) : x.Fades x :=
  ⟨rfl, List.forall₂_same.2 fun _ _ => .inr rfl⟩

theorem map_forgotten_of_fades {xs ys : List Stmt} (h : Forall₂ Fades xs ys) :
    ys.map forgotten = xs.map forgotten := by
  induction h with
  | nil => rfl
  | cons hxy _ ih => rw [List.map_cons, List.map_cons, hxy.tree, ih]

theorem loopsOf_fades {xs ys : List Stmt} (h : Forall₂ Fades xs ys) :
    Forall₂ Loop.Fades (loopsOf xs) (loopsOf ys) := by
  induction h with
  | nil => exact .nil
  | cons hxy _ ih => exact List.rel_append hxy.memory ih

theorem fades_block {ss ss' : List Stmt} (es : List Expr) (b tags : Tags)
    (h : Forall₂ Fades ss ss') : (Stmt.block es ss b tags).Fades (.block es ss' b tags) where
  tree := by
    show Stmt.block es (renoteAll _ ss') b tags = .block es (renoteAll _ ss) b tags
    rw [renoteAll_eq_map, renoteAll_eq_map]
    exact congrArg (Stmt.block es · b tags) (map_forgotten_of_fades h)
  memory := loopsOf_fades h

theorem Fades.loop {body body' : Stmt} (h : body.Fades body') (es : List Expr)
    (i : Option Induction) (tags : Tags) :
    (Stmt.loop es body i tags).Fades (.loop es body' none tags) where
  tree := congrArg (Stmt.loop es · none tags) h.tree
  memory := .cons (.inl rfl) h.memory

theorem Fades.switch {body body' : Stmt} (h : body.Fades body') (es : List Expr) (tags : Tags) :
    (Stmt.switch es body tags).Fades (.switch es body' tags) where
  tree := congrArg (Stmt.switch es · tags) h.tree
  memory := h.memory

theorem Fades.cond {yes yes' : Stmt} (h : yes.Fades yes') (es : List Expr) (tags : Tags) :
    (Stmt.cond es yes none tags).Fades (.cond es yes' none tags) where
  tree := congrArg (Stmt.cond es · none tags) h.tree
  memory := h.memory

theorem Fades.cond_else {yes yes' no no' : Stmt} (hyes : yes.Fades yes') (hno : no.Fades no')
    (es : List Expr) (tags : Tags) :
    (Stmt.cond es yes (some no) tags).Fades (.cond es yes' (some no') tags) where
  tree := by
    show Stmt.cond es yes'.forgotten (some no'.forgotten) tags
      = .cond es yes.forgotten (some no.forgotten) tags
    rw [hyes.tree, hno.tree]
  memory := List.rel_append hyes.memory hno.memory

end Stmt

theorem Block.fades_of_stmts {b : Block} {ss : List Stmt} (h : Forall₂ Stmt.Fades b.stmts ss) :
    b.Fades { b with stmts := ss } where
  tree := by
    rw [Block.forgotten_eq, Block.forgotten_eq]
    exact congrArg (Block.mk · b.tags) (Stmt.map_forgotten_of_fades h)
  memory := Stmt.loopsOf_fades h

/-! ## §3. Lists. -/

section

variable {σ α : Type}

/-- The hooks leave the slot and the queues alone, whether they fail or
not. -/
structure Hooks.LookOnly (h : Hooks σ α) : Prop where
  before : ∀ s site, (h.before s site).Ensures fun r => r.value = site := by
    exact fun _ _ => ensures_pure rfl
  after : ∀ s site, (h.after s site).Ensures fun r => r.value = site := by
    exact fun _ _ => ensures_pure rfl
  enter : ∀ s q, (h.enter s q).Ensures fun r => r.2 = q := by exact fun _ _ => ensures_pure rfl
  leave : ∀ s q, (h.leave s q).Ensures fun r => r.2 = q := by exact fun _ _ => ensures_pure rfl

/-- The hooks do not fault; they may fail. -/
structure Hooks.NeverFault (h : Hooks σ α) : Prop where
  before : ∀ s site, (h.before s site).Ends := by exact fun _ _ => ends_pure _
  after : ∀ s site, (h.after s site).Ends := by exact fun _ _ => ends_pure _
  enter : ∀ s q, (h.enter s q).Ends := by exact fun _ _ => ends_pure _
  leave : ∀ s q, (h.leave s q).Ends := by exact fun _ _ => ends_pure _

variable {c : Prop} {h : Hooks σ α} {descend : σ → α → Run (Step σ α)} {R : α → α → Prop}

theorem visitSite_leads (hlook : h.LookOnly) (hends : c → h.NeverFault) (hR : ∀ x, R x x) {x : α}
    (hd : ∀ s, Leads c (descend s x) fun r => R x r.value) (s : σ) (q : Splicer α) :
    Leads c (visitSite h descend s ⟨some x, q⟩) fun r => ∃ y, R x y ∧ r.value = ⟨some y, q⟩ := by
  have hbefore : Leads c (h.before s ⟨some x, q⟩) fun r => r.value = ⟨some x, q⟩ :=
    ⟨hlook.before s _, fun hc => (hends hc).before s _⟩
  have hafter : ∀ s y, R x y →
      Leads c (h.after s ⟨some y, q⟩) fun r => ∃ y, R x y ∧ r.value = ⟨some y, q⟩ :=
    fun s y hy => ⟨fun t r hr => ⟨y, hy, hlook.after s _ t r hr⟩, fun hc => (hends hc).after s _⟩
  -- The hook has not emptied the slot, so the node is entered.
  refine hbefore.bind ?_
  rintro ⟨s, _, failure⟩ rfl
  refine Step.leads_andThen (fun e => ⟨x, hR x, rfl⟩) ?_
  refine (hd s).bind fun r hr => ?_
  exact Step.leads_andThen (fun e => ⟨r.value, hr, rfl⟩) (hafter r.state r.value hr)

theorem sweep_leads (hlook : h.LookOnly) (hends : c → h.NeverFault) (hR : ∀ x, R x x)
    {pending : List α} (hd : ∀ x ∈ pending, ∀ s, Leads c (descend s x) fun r => R x r.value)
    {fuel : Nat} (hfuel : c → pending.length < fuel) (s : σ) (done : List α) :
    Leads c (sweep h descend fuel s ⟨done, pending⟩) fun r =>
      ∃ ys, Forall₂ R pending ys ∧ r.value.toList = done ++ ys := by
  induction fuel generalizing pending s done with
  | zero => exact leads_fault _ fun hc => Nat.not_lt_zero _ (hfuel hc)
  | succ fuel ih =>
      cases pending with
      | nil => exact leads_pure ⟨[], .nil, rfl⟩
      | cons x pending =>
          obtain ⟨hx, hpending⟩ := List.forall_mem_cons.1 hd
          refine (visitSite_leads hlook hends hR hx s ⟨done, pending⟩).bind ?_
          rintro ⟨s, _, failure⟩ ⟨y, hy, rfl⟩
          refine Step.leads_andThen (fun e => ?_) ?_
          -- The nodes behind a failure are not visited.
          · exact ⟨y :: pending, .cons hy (List.forall₂_same.2 fun x _ => hR x),
              List.append_assoc done [y] pending⟩
          · refine (ih hpending (fun hc => Nat.lt_of_succ_lt_succ (hfuel hc)) s (done ++ [y])).mono
              id ?_
            rintro r ⟨ys, hys, hvalue⟩
            exact ⟨y :: ys, .cons hy hys, hvalue.trans (List.append_assoc done [y] ys)⟩

/-- A list visited by hooks that only look keeps its nodes, up to what the
walk into each of them does. -/
theorem visitList_leads (hlook : h.LookOnly) (hends : c → h.NeverFault) (hR : ∀ x, R x x)
    {xs : List α} (hd : ∀ x ∈ xs, ∀ s, Leads c (descend s x) fun r => R x r.value) {fuel : Nat}
    (hfuel : c → xs.length < fuel) (s : σ) :
    Leads c (visitList h descend fuel s xs) fun r => Forall₂ R xs r.value := by
  have henter : Leads c (h.enter s (.ofList xs)) fun r => r.2 = .ofList xs :=
    ⟨hlook.enter s _, fun hc => (hends hc).enter s _⟩
  have hleave : ∀ s q, Leads c (h.leave s q) fun r => r.2 = q :=
    fun s q => ⟨hlook.leave s q, fun hc => (hends hc).leave s q⟩
  refine henter.bind ?_
  rintro ⟨s, _⟩ rfl
  refine (sweep_leads hlook hends hR hd hfuel s []).bind ?_
  rintro r ⟨ys, hys, hvalue⟩
  refine (hleave r.state r.value).bind ?_
  rintro ⟨s, _⟩ rfl
  refine leads_pure ?_
  show Forall₂ R xs r.value.toList
  rw [hvalue]
  exact hys

end

/-! ## §4. Expressions, statements and blocks. -/

section

variable {σ : Type}

/-- The visitor leaves slots, queues and blocks alone, whether it fails or
not.  What it keeps for itself and where it descends is up to it. -/
structure Visitor.LooksOnly (v : Visitor σ) : Prop where
  exprs : v.exprs.LookOnly := by exact {}
  stmts : v.stmts.LookOnly := by exact {}
  beforeBlock : ∀ s b, (v.beforeBlock s b).Ensures fun r => r.value = b := by
    exact fun _ _ => ensures_pure rfl
  afterBlock : ∀ s b, (v.afterBlock s b).Ensures fun r => r.value = b := by
    exact fun _ _ => ensures_pure rfl

/-- The hooks of the visitor do not fault; they may fail. -/
structure Visitor.NeverFaults (v : Visitor σ) : Prop where
  exprs : v.exprs.NeverFault
  stmts : v.stmts.NeverFault
  beforeBlock : ∀ s b, (v.beforeBlock s b).Ends := by exact fun _ _ => ends_pure _
  afterBlock : ∀ s b, (v.afterBlock s b).Ends := by exact fun _ _ => ends_pure _
  descends : ∀ s n, (v.descends s n).Ends := by exact fun _ _ => ends_pure _

variable {v : Visitor σ} (hv : v.LooksOnly) {c : Prop} (hc : c → v.NeverFaults)

include hc in
theorem Visitor.descend_leads {α : Type} {asNode : α → Node} {accept : σ → α → Run (Step σ α)}
    {R : α → α → Prop} (hR : ∀ x, R x x) {x : α}
    (haccept : ∀ s, Leads c (accept s x) fun r => R x r.value) (s : σ) :
    Leads c (v.descend asNode accept s x) fun r => R x r.value := by
  have hdescends : Leads c (v.descends s (asNode x)) fun _ => True :=
    ⟨fun _ _ _ => trivial, fun h => (hc h).descends s _⟩
  refine hdescends.bind ?_
  rintro ⟨s, wanted⟩ _
  cases wanted with
  | true => exact haccept s
  | false => exact leads_pure (hR x)

include hv hc

theorem Expr.accept_leads {fuel : Nat} {e : Expr} (hfuel : c → e.size < fuel) (s : σ) :
    Leads c (Expr.accept v fuel s e) fun r => e = r.value := by
  induction fuel generalizing e s c with
  | zero => exact leads_fault _ fun h => Nat.not_lt_zero _ (hfuel h)
  | succ fuel ih =>
      obtain ⟨kind, text, parts, tags⟩ := e
      have hsize : c → Expr.sizeList parts < fuel := by
        intro h
        have := hfuel h
        rw [Expr.size] at this
        omega
      have hlength := Expr.length_le_sizeList parts
      have hparts : Leads c (v.visitExprs fuel s parts) fun r => Forall₂ Eq parts r.value := by
        refine visitList_leads hv.exprs (fun h => (hc h).exprs) (fun _ => rfl) ?_
          (fun h => by have := hsize h; omega) s
        intro p hp
        have := Expr.size_le_sizeList hp
        exact Visitor.descend_leads hc (fun _ => rfl) fun s =>
          ih hc (fun h => by have := hsize h; omega) s
      refine hparts.bind fun r hr => leads_pure ?_
      rw [List.forall₂_eq_eq_eq] at hr
      show Expr.mk kind text parts tags = ⟨kind, text, r.value, tags⟩
      rw [← hr]

theorem Visitor.visitExprs_leads {fuel : Nat} {es : List Expr}
    (hfuel : c → Expr.sizeList es < fuel) (s : σ) :
    Leads c (v.visitExprs fuel s es) fun r => es = r.value := by
  have hlength := Expr.length_le_sizeList es
  have hvisit : Leads c (v.visitExprs fuel s es) fun r => Forall₂ Eq es r.value := by
    refine visitList_leads hv.exprs (fun h => (hc h).exprs) (fun _ => rfl) ?_
      (fun h => by have := hfuel h; omega) s
    intro e he
    have := Expr.size_le_sizeList he
    exact Visitor.descend_leads hc (fun _ => rfl) fun s =>
      Expr.accept_leads hv hc (fun h => by have := hfuel h; omega) s
  rwa [List.forall₂_eq_eq_eq] at hvisit

theorem Visitor.visitBlock_leads {visit : σ → List Stmt → Run (Step σ (List Stmt))} {b : Block}
    (hvisit : ∀ s, Leads c (visit s b.stmts) fun r => Forall₂ Stmt.Fades b.stmts r.value) (s : σ) :
    Leads c (v.visitBlock visit s b) fun r =>
      ∃ ss, Forall₂ Stmt.Fades b.stmts ss ∧ r.value = { b with stmts := ss } := by
  have hsame : Forall₂ Stmt.Fades b.stmts b.stmts :=
    List.forall₂_same.2 fun x _ => Stmt.Fades.refl x
  have hbefore : Leads c (v.beforeBlock s b) fun r => r.value = b :=
    ⟨hv.beforeBlock s b, fun h => (hc h).beforeBlock s b⟩
  have hafter : ∀ s b, Leads c (v.afterBlock s b) fun r => r.value = b :=
    fun s b => ⟨hv.afterBlock s b, fun h => (hc h).afterBlock s b⟩
  have hdescends : ∀ s, Leads c (v.descends s (.block b)) fun _ => True :=
    fun s => ⟨fun _ _ _ => trivial, fun h => (hc h).descends s _⟩
  have hinner : ∀ s, Leads c (v.descend .block (fun s b => do
      let r ← visit s b.stmts
      return r.map fun stmts => ({ b with stmts } : Block)) s b) fun r =>
      ∃ ss, Forall₂ Stmt.Fades b.stmts ss ∧ r.value = { b with stmts := ss } := by
    intro s
    refine (hdescends s).bind ?_
    rintro ⟨s, wanted⟩ _
    cases wanted with
    | true => exact (hvisit s).bind fun r hr => leads_pure ⟨r.value, hr, rfl⟩
    | false => exact leads_pure ⟨b.stmts, hsame, rfl⟩
  refine hbefore.bind ?_
  rintro ⟨s, _, failure⟩ rfl
  refine Step.leads_andThen (fun e => ⟨_, hsame, rfl⟩) ((hinner s).bind ?_)
  rintro ⟨s, _, failure⟩ ⟨ss, hss, rfl⟩
  refine Step.leads_andThen (fun e => ⟨ss, hss, rfl⟩) ((hafter s _).mono id ?_)
  exact fun r hr => ⟨ss, hss, hr⟩

omit hv hc in
theorem visitSlot_leads {visit : σ → List Stmt → Run (Step σ (List Stmt))} {x : Stmt}
    (hvisit : ∀ s, Leads c (visit s [x]) fun r => Forall₂ Stmt.Fades [x] r.value) (s : σ) :
    Leads c (visitSlot visit s x) fun r => x.Fades r.value := by
  refine (hvisit s).bind ?_
  rintro ⟨s, ys, failure⟩ hr
  -- One statement went in, so one comes out, and it takes the place again.
  cases hr with
  | cons hxy hrest =>
      cases hrest with
      | nil => exact leads_pure hxy

/-- **The walk of a statement by a visitor that only looks.** -/
theorem Stmt.accept_leads {fuel : Nat} {x : Stmt} (hfuel : c → x.size < fuel) (s : σ) :
    Leads c (Stmt.accept v fuel s x) fun r => x.Fades r.value := by
  induction fuel generalizing x s c with
  | zero => exact leads_fault _ fun h => Nat.not_lt_zero _ (hfuel h)
  | succ fuel ih =>
      have hsize := x.sizeList_exprs_lt
      have hexprs : Leads c (v.visitExprs fuel s x.exprs) fun r => x.exprs = r.value :=
        Visitor.visitExprs_leads hv hc (fun h => by have := hfuel h; omega) s
      have hvisit : ∀ xs : List Stmt, (c → Stmt.sizeList xs < fuel) → ∀ s,
          Leads c (v.visitStmts fuel s xs) fun r => Forall₂ Stmt.Fades xs r.value := by
        intro xs hxs s
        have hlength := Stmt.length_le_sizeList xs
        refine visitList_leads hv.stmts (fun h => (hc h).stmts) Stmt.Fades.refl ?_
          (fun h => by have := hxs h; omega) s
        intro y hy
        have := Stmt.size_le_sizeList hy
        exact Visitor.descend_leads hc Stmt.Fades.refl fun s =>
          ih hc (fun h => by have := hxs h; omega) s
      have hslot : ∀ y : Stmt, (c → y.size < fuel) → ∀ s,
          Leads c (visitSlot (v.visitStmts fuel) s y) fun r => y.Fades r.value := by
        intro y hy s
        refine visitSlot_leads (fun s => hvisit [y] (fun h => ?_) s) s
        simpa [Stmt.sizeList] using hy h
      cases x with
      | basic es tags | raw es src tags =>
          refine hexprs.bind ?_
          rintro ⟨s, es', failure⟩ rfl
          exact leads_pure (Fades.refl _)
      | block es ss b tags =>
          refine hexprs.bind ?_
          rintro ⟨s, es', failure⟩ rfl
          refine Step.leads_andThen (fun e => Fades.refl _) ?_
          have hss : ∀ s, Leads c (v.visitStmts fuel s (Block.mk ss b).stmts) fun r =>
              Forall₂ Stmt.Fades (Block.mk ss b).stmts r.value :=
            hvisit ss fun h => by have := hfuel h; rw [Stmt.size] at this; omega
          refine (Visitor.visitBlock_leads hv hc hss s).bind ?_
          rintro ⟨s, _, failure⟩ ⟨ss', hss', rfl⟩
          exact leads_pure (fades_block es b tags hss')
      | loop es body i tags =>
          refine hexprs.bind ?_
          rintro ⟨s, es', failure⟩ rfl
          -- The loop forgets also where the walk of its clauses fails.
          refine Step.leads_andThen (fun e => (Fades.refl body).loop es i tags) ?_
          refine (hslot body (fun h => ?_) s).bind fun r hr => leads_pure (hr.loop es i tags)
          have := hfuel h
          rw [Stmt.size] at this
          omega
      | switch es body tags =>
          refine hexprs.bind ?_
          rintro ⟨s, es', failure⟩ rfl
          refine Step.leads_andThen (fun e => Fades.refl _) ?_
          refine (hslot body (fun h => ?_) s).bind fun r hr => leads_pure (hr.switch es tags)
          have := hfuel h
          rw [Stmt.size] at this
          omega
      | cond es yes no tags =>
          cases no with
          | none =>
              refine hexprs.bind ?_
              rintro ⟨s, es', failure⟩ rfl
              refine Step.leads_andThen (fun e => Fades.refl _) ?_
              refine (hslot yes (fun h => ?_) s).bind fun r hr => leads_pure (hr.cond es tags)
              have := hfuel h
              rw [Stmt.size] at this
              omega
          | some no =>
              have hsizes : c → yes.size < fuel ∧ no.size < fuel := by
                intro h
                have := hfuel h
                rw [Stmt.size] at this
                omega
              refine hexprs.bind ?_
              rintro ⟨s, es', failure⟩ rfl
              refine Step.leads_andThen (fun e => Fades.refl _) ?_
              refine (hslot yes (fun h => (hsizes h).1) s).bind fun r hr => ?_
              refine Step.leads_andThen (fun e => hr.cond_else (Fades.refl no) es tags) ?_
              exact (hslot no (fun h => (hsizes h).2) _).bind fun q hq =>
                leads_pure (hr.cond_else hq es tags)

theorem Visitor.visitStmts_leads {fuel : Nat} {xs : List Stmt}
    (hfuel : c → Stmt.sizeList xs < fuel) (s : σ) :
    Leads c (v.visitStmts fuel s xs) fun r => Forall₂ Stmt.Fades xs r.value := by
  have hlength := Stmt.length_le_sizeList xs
  refine visitList_leads hv.stmts (fun h => (hc h).stmts) Stmt.Fades.refl ?_
    (fun h => by have := hfuel h; omega) s
  intro x hx
  have := Stmt.size_le_sizeList hx
  exact Visitor.descend_leads hc Stmt.Fades.refl fun s =>
    Stmt.accept_leads hv hc (fun h => by have := hfuel h; omega) s

/-- The walk of the children of a node by a visitor that only looks. -/
theorem Node.accept_leads {fuel : Nat} {n : Node} (hfuel : c → n.steps ≤ fuel) (s : σ) :
    Leads c (n.accept v fuel s) fun r => n.Fades r.value := by
  cases n with
  | expr e =>
      refine (Expr.accept_leads hv hc (e := e) (fun h => ?_) s).bind fun r hr => leads_pure ?_
      · have := hfuel h
        simp only [Node.steps, Node.size] at this
        omega
      · show Node.Fades (.expr e) (.expr r.value)
        rw [← hr]
        exact .expr e
  | stmt x =>
      refine (Stmt.accept_leads hv hc (x := x) (fun h => ?_) s).bind fun r hr =>
        leads_pure (.stmt hr)
      have := hfuel h
      simp only [Node.steps, Node.size] at this
      omega
  | block b =>
      refine Run.Leads.bind ((Visitor.visitStmts_leads hv hc (fun h => ?_) s).bind fun r hr =>
        leads_pure (Block.fades_of_stmts hr)) fun r hr => leads_pure (.block hr)
      have := hfuel h
      simp only [Node.steps, Node.size] at this
      omega

/-- The walk of a rule body by a visitor that only looks. -/
theorem Visitor.apply_leads {fuel : Nat} {b : Block} (hfuel : c → (Node.block b).steps ≤ fuel)
    (s : σ) : Leads c (v.apply fuel s b) fun r => b.Fades r.value := by
  have hsay : Leads c (Run.say .debug ("Visiting block with " ++ toString b.stmts.length
      ++ " statements")) fun _ => True := (Run.yields_say _ _).leads trivial
  refine hsay.bind fun _ _ => ?_
  refine (Visitor.visitBlock_leads hv hc (fun s =>
    Visitor.visitStmts_leads hv hc (fun h => ?_) s) s).mono id ?_
  · have := hfuel h
    simp only [Node.steps, Node.size] at this
    omega
  · rintro r ⟨ss, hss, hvalue⟩
    rw [hvalue]
    exact Block.fades_of_stmts hss

end

/-! ## §5. The scan of a body and the outline. -/

theorem Loop.scanner_looksOnly : Loop.scanner.LooksOnly where
  exprs :=
    { before := by
        rintro found ⟨slot, q⟩
        cases slot with
        | none => exact ensures_pure rfl
        | some e =>
            refine ((Run.leads_any e.verdict?).bind fun verdict _ => ?_).ensures
            match verdict with
            | none => exact leads_pure rfl
            | some .scales => exact leads_pure rfl
            | some (.drives i) =>
                have hsaid : (Run.say .debug ("Induction candidate " ++ i.display)).Yields () :=
                  Run.yields_say _ _
                exact (hsaid.leads trivial).bind fun _ (_ : True) => leads_pure rfl }

theorem Loop.scanner_fades (fuel : Nat) (found : List Candidate) (body : Stmt) :
    (body.accept scanner fuel found).Ensures fun r => body.Fades r.value :=
  (Stmt.accept_leads (c := False) scanner_looksOnly nofun nofun found).ensures

/-- A scan that does not fault leaves the loop and its body alone. -/
theorem Loop.scan_fades {l : Loop} {t : Option Level}
    (h : ∀ f, (Loop.scan l t).2.2 ≠ .error (.fault f)) :
    ∃ body, l.body.Fades body ∧ (Loop.scan l t).2.1 = l.setBody body := by
  have hwalk := scanner_fades (Node.stmt l.body).steps [] l.body t
  unfold Loop.scan at h ⊢
  rcases haccept : Stmt.accept scanner (Node.stmt l.body).steps [] l.body t with ⟨events, f | r⟩
  · rw [haccept] at h
    exact absurd rfl (h f)
  · rw [haccept] at hwalk
    exact ⟨r.value, hwalk r rfl, rfl⟩

/-- A legible body can be scanned. -/
theorem Loop.scan_not_fault {l : Loop} (hbody : l.body.Legible) (t : Option Level) (f : Fault) :
    (Loop.scan l t).2.2 ≠ .error (.fault f) := by
  obtain ⟨events, hscan⟩ := scan_eq hbody t
  rw [hscan]
  exact nofun

theorem Outline.enter_yields {α : Type} (asNode : α → Node) (s : Outline.State) (site : Site α) :
    ∃ s', (Outline.enter asNode s site).Yields ⟨s', site, none⟩ := by
  obtain ⟨slot, q⟩ := site
  cases slot with
  | none => exact ⟨_, Run.yields_pure _⟩
  | some x => exact ⟨_, (Run.yields_say _ _).bind (Run.yields_pure _)⟩

theorem Outline.visitor_looksOnly : Outline.visitor.LooksOnly where
  exprs :=
    { before := fun s site => by
        obtain ⟨s', h⟩ := enter_yields .expr s site
        exact h.ensures rfl }
  stmts :=
    { before := fun s site => by
        obtain ⟨s', h⟩ := enter_yields .stmt s site
        exact h.ensures rfl }

theorem Outline.visitor_neverFaults : Outline.visitor.NeverFaults where
  exprs :=
    { before := fun s site => by
        obtain ⟨s', h⟩ := enter_yields .expr s site
        exact h.ends }
  stmts :=
    { before := fun s site => by
        obtain ⟨s', h⟩ := enter_yields .stmt s site
        exact h.ends }

/-- The outline leaves every rule body alone. -/
theorem Pass.runOutline_fades (b : Block) (m : Manager) (t : Option Level) :
    ∃ out, (Pass.runOutline b m t).2 = .ok out ∧ b.Fades out.block := by
  have hwalk : Leads True b.outline fun r => b.Fades r.value :=
    Visitor.apply_leads Outline.visitor_looksOnly (fun _ => Outline.visitor_neverFaults)
      (fun _ => Nat.le_refl _) {}
  have hpass : Leads True (Pass.runOutline b m) fun out => b.Fades out.block :=
    hwalk.bind fun r hr => leads_pure hr
  obtain ⟨out, hout⟩ := hpass.ends trivial t
  exact ⟨out, hout, hpass.ensures t out hout⟩

/-- **A visitor that only looks leaves the tree alone.**  Whatever it keeps
for itself, wherever it descends and wherever it fails, the tree behind the
walk is the tree before it, up to inductions that loops have forgotten; and
the walk does end, unless a hook faults.  So it is with the scan of a loop's
body and with the outline. -/
theorem looking_leaves_tree {σ : Type} {v : Visitor σ} (hv : v.LooksOnly) :
    (∀ n fuel s t r, (Node.accept v fuel s n t).2 = .ok r → n.Fades r.value)
      ∧ (∀ b fuel s t r, (v.apply fuel s b t).2 = .ok r → b.Fades r.value)
      ∧ (v.NeverFaults →
          (∀ n fuel s t, n.steps ≤ fuel → ∃ r, (Node.accept v fuel s n t).2 = .ok r)
          ∧ ∀ b fuel s t, (Node.block b).steps ≤ fuel → ∃ r, (v.apply fuel s b t).2 = .ok r)
      ∧ (∀ l t, (∀ f, (Loop.scan l t).2.2 ≠ .error (.fault f)) →
          ∃ body, l.body.Fades body ∧ (Loop.scan l t).2.1 = l.setBody body)
      ∧ (∀ l : Loop, l.body.Legible → ∀ t f, (Loop.scan l t).2.2 ≠ .error (.fault f))
      ∧ ∀ b m t, ∃ out, (Pass.runOutline b m t).2 = .ok out ∧ b.Fades out.block := by
  refine ⟨?_, ?_, ?_, fun l t => Loop.scan_fades, fun l => Loop.scan_not_fault,
    Pass.runOutline_fades⟩
  · intro n fuel s
    exact (Node.accept_leads (c := False) hv nofun nofun s).ensures
  · intro b fuel s
    exact (Visitor.apply_leads (c := False) hv nofun nofun s).ensures
  · intro hends
    constructor
    · intro n fuel s t hfuel
      exact (Node.accept_leads (c := True) hv (fun _ => hends) (fun _ => hfuel) s).ends trivial t
    · intro b fuel s t hfuel
      exact (Visitor.apply_leads (c := True) hv (fun _ => hends) (fun _ => hfuel) s).ends trivial t

/-- The visitor that counts statements and fails at one of them. -/
def Visitor.haltingAt (n : Nat) : Visitor Nat where
  stmts :=
    { before := fun k site =>
        pure ⟨k + 1, site, if k = n then some (.custom "halt") else none⟩ }

theorem Visitor.haltingAt_looksOnly (n : Nat) : (Visitor.haltingAt n).LooksOnly where
  stmts := { before := fun _ _ => ensures_pure rfl }

/-- A walk that halts inside a loop leaves the loop and the statement behind
it; the loop has forgotten. -/
theorem looking_leaves_tree_halted :
    ∃ r, ((Visitor.haltingAt 1).apply 9 0
        ⟨[.loop [] .empty (some ⟨"i", .increasing, "i ++", "1"⟩) {}, .empty], {}⟩ none).2 = .ok r
      ∧ r.failure = some (.custom "halt") ∧ r.value = ⟨[.loop [] .empty none {}, .empty], {}⟩
      ∧ Block.Fades ⟨[.loop [] .empty (some ⟨"i", .increasing, "i ++", "1"⟩) {}, .empty], {}⟩
          r.value :=
  ⟨_, rfl, rfl, rfl, (looking_leaves_tree (Visitor.haltingAt_looksOnly 1)).2.1 _ 9 0 none _ rfl⟩

end RuleBody
