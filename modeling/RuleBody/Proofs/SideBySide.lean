/-
  RuleBody.Proofs.SideBySide
  ──────────────────────────
  **TWO WALKS SIDE BY SIDE.**

  Two visitors walk two trees.  Where their hooks do the same to the same,
  up to a relation between the states, one between the nodes, and nothing
  else, so do the walks: they log the same, they end in the same fault or
  failure or in none, and what they leave is again related
  (`visitList_abreast` for lists, `Stmt.accept_abreast` for statements).

  With the nodes equal and one state a part of the other, this says that
  notes kept on the side change nothing.  With nodes that carry labels, it
  says that labels change nothing.  With trees that are equal up to what
  loops remember, it says that a walk does not see what they remember.

  §1  computations;
  §2  steps, slots and queues;
  §3  visits of lists;
  §4  trees of the same form;
  §5  visitors.
-/
import Mathlib.Data.List.Forall2
import RuleBody.Proofs.Notes
import RuleBody.Visitor

namespace RuleBody

open List (Forall₂)

/-! ## §1. Computations. -/

namespace Run

variable {α β γ δ : Type} {R : α → β → Prop} {Q : γ → δ → Prop}

/-- The same fault, or two values in the relation. -/
inductive SameEnd (R : α → β → Prop) : Except Fault α → Except Fault β → Prop where
  | ok {a : α} {b : β} : R a b → SameEnd R (.ok a) (.ok b)
  | error (f : Fault) : SameEnd R (.error f) (.error f)

/-- Two computations log the same and end in the same way, with values in
the relation. -/
def Abreast (R : α → β → Prop) (x : Run α) (y : Run β) : Prop :=
  ∀ t, (x t).1 = (y t).1 ∧ SameEnd R (x t).2 (y t).2

theorem abreast_pure {a : α} {b : β} (h : R a b) : Abreast R (pure a) (pure b) :=
  fun _ => ⟨rfl, .ok h⟩

theorem abreast_fault (f : Fault) : Abreast R (fault f) (fault f) :=
  fun _ => ⟨rfl, .error f⟩

theorem Abreast.refl {R : α → α → Prop} (h : ∀ a, R a a) (x : Run α) : Abreast R x x := by
  intro t
  refine ⟨rfl, ?_⟩
  cases (x t).2 with
  | ok a => exact .ok (h a)
  | error f => exact .error f

theorem Abreast.bind {x : Run α} {y : Run β} {f : α → Run γ} {g : β → Run δ} (h : Abreast R x y)
    (hfg : ∀ a b, R a b → Abreast Q (f a) (g b)) : Abreast Q (x >>= f) (y >>= g) := by
  intro t
  obtain ⟨hevents, hend⟩ := h t
  rw [bind_apply, bind_apply]
  rcases hx : x t with ⟨events, value⟩
  rcases hy : y t with ⟨events', value'⟩
  rw [hx, hy] at hevents hend
  obtain rfl : events = events' := hevents
  cases hend with
  | error f => exact ⟨rfl, .error f⟩
  | @ok a b hab =>
      obtain ⟨hrest, hend⟩ := hfg a b hab t
      exact ⟨congrArg (events ++ ·) hrest, hend⟩

/-- What is made of the value in the end stands beside the value. -/
theorem abreast_of_map {R : β → α → Prop} {f : α → β} (h : ∀ a, R (f a) a) (x : Run α) :
    Abreast R (x >>= fun a => pure (f a)) x := by
  intro t
  rw [bind_apply]
  rcases x t with ⟨events, fault | a⟩
  · exact ⟨rfl, .error fault⟩
  · exact ⟨List.append_nil events, .ok (h a)⟩

/-- Where the second computation ends, so does the first. -/
theorem Abreast.first_ends {x : Run α} {y : Run β} (h : Abreast R x y) {t : Option Level} {b : β}
    (hy : (y t).2 = .ok b) : ∃ a, (x t).2 = .ok a ∧ R a b := by
  have hend := (h t).2
  rw [hy] at hend
  generalize (x t).2 = value at hend
  cases hend with
  | @ok a _ hab => exact ⟨a, rfl, hab⟩

end Run

/-! ## §2. Steps, slots and queues. -/

section

variable {σ τ α β γ δ : Type}

/-- Two steps leave states and values in the relations, and the same
failure. -/
structure Step.Abreast (S : σ → τ → Prop) (R : α → β → Prop) (r : Step σ α) (q : Step τ β) :
    Prop where
  state : S r.state q.state
  value : R r.value q.value
  failure : r.failure = q.failure

/-- Two pairs of queues with nodes in the relation. -/
structure Splicer.Abreast (R : α → β → Prop) (q : Splicer α) (q' : Splicer β) : Prop where
  done : Forall₂ R q.done q'.done
  pending : Forall₂ R q.pending q'.pending

/-- Two slots and the queues around them, with nodes in the relation. -/
structure Site.Abreast (R : α → β → Prop) (site : Site α) (site' : Site β) : Prop where
  slot : Option.Rel R site.slot site'.slot
  splicer : Splicer.Abreast R site.splicer site'.splicer

variable {S : σ → τ → Prop} {R : α → β → Prop} {Q : γ → δ → Prop}

theorem Step.Abreast.map {r : Step σ α} {q : Step τ β} (h : Step.Abreast S R r q) {f : α → γ}
    {g : β → δ} (hfg : ∀ a b, R a b → Q (f a) (g b)) : Step.Abreast S Q (r.map f) (q.map g) :=
  ⟨h.state, hfg _ _ h.value, h.failure⟩

theorem Step.Abreast.andThen {r : Step σ α} {q : Step τ β} (h : Step.Abreast S R r q)
    {rebuild : α → γ} {rebuild' : β → δ} {next : σ → α → Run (Step σ γ)}
    {next' : τ → β → Run (Step τ δ)} (hrebuild : ∀ a b, R a b → Q (rebuild a) (rebuild' b))
    (hnext : ∀ s s' a b, S s s' → R a b → Run.Abreast (Step.Abreast S Q) (next s a) (next' s' b)) :
    Run.Abreast (Step.Abreast S Q) (r.andThen rebuild next) (q.andThen rebuild' next') := by
  obtain ⟨hstate, hvalue, hfailure⟩ := h
  unfold Step.andThen
  rw [← hfailure]
  cases r.failure with
  | some e => exact Run.abreast_pure ⟨hstate, hrebuild _ _ hvalue, rfl⟩
  | none => exact hnext _ _ _ _ hstate hvalue

theorem Splicer.Abreast.toList {q : Splicer α} {q' : Splicer β} (h : Splicer.Abreast R q q') :
    Forall₂ R q.toList q'.toList :=
  List.rel_append h.done h.pending

theorem Splicer.Abreast.insertBefore {q : Splicer α} {q' : Splicer β}
    (h : Splicer.Abreast R q q') {a : α} {b : β} (hab : R a b) :
    Splicer.Abreast R (q.insertBefore a) (q'.insertBefore b) :=
  ⟨List.rel_append h.done (.cons hab .nil), h.pending⟩

theorem Site.Abreast.settle {site : Site α} {site' : Site β} (h : Site.Abreast R site site') :
    Splicer.Abreast R site.settle site'.settle := by
  obtain ⟨hslot, hsplicer⟩ := h
  unfold Site.settle
  generalize site.slot = slot at hslot
  generalize site'.slot = slot' at hslot
  cases hslot with
  | none => exact hsplicer
  | some hab => exact hsplicer.insertBefore hab

/-- Equal nodes make equal slots and queues. -/
theorem Site.Abreast.eq {site site' : Site α} (h : Site.Abreast Eq site site') :
    site = site' := by
  obtain ⟨slot, done, pending⟩ := site
  obtain ⟨slot', done', pending'⟩ := site'
  obtain ⟨hslot, hdone, hpending⟩ := h
  dsimp only at hslot hdone hpending
  rw [List.forall₂_eq_eq_eq] at hdone hpending
  subst hdone hpending
  cases hslot with
  | none => rfl
  | some hab => rw [hab]

theorem Site.Abreast.refl (site : Site α) : Site.Abreast Eq site site := by
  refine ⟨?_, List.forall₂_refl _, List.forall₂_refl _⟩
  cases site.slot with
  | none => exact .none
  | some a => exact .some rfl

/-- Equal nodes make equal queues. -/
theorem Splicer.Abreast.eq {q q' : Splicer α} (h : Splicer.Abreast Eq q q') : q = q' := by
  obtain ⟨done, pending⟩ := q
  obtain ⟨done', pending'⟩ := q'
  obtain ⟨hdone, hpending⟩ := h
  dsimp only at hdone hpending
  rw [List.forall₂_eq_eq_eq] at hdone hpending
  rw [hdone, hpending]

theorem Splicer.Abreast.refl (q : Splicer α) : Splicer.Abreast Eq q q :=
  ⟨List.forall₂_refl _, List.forall₂_refl _⟩

/-! ## §3. Visits of lists. -/

/-- Two states and two pairs of queues, in the relations. -/
def QueuesAbreast (S : σ → τ → Prop) (R : α → β → Prop) (p : σ × Splicer α) (p' : τ × Splicer β) :
    Prop :=
  S p.1 p'.1 ∧ Splicer.Abreast R p.2 p'.2

/-- Two sets of hooks that do the same, up to the relations. -/
structure Hooks.Abreast (S : σ → τ → Prop) (R : α → β → Prop) (h : Hooks σ α) (k : Hooks τ β) :
    Prop where
  before : ∀ {s s' site site'}, S s s' → Site.Abreast R site site' →
    Run.Abreast (Step.Abreast S (Site.Abreast R)) (h.before s site) (k.before s' site')
  after : ∀ {s s' site site'}, S s s' → Site.Abreast R site site' →
    Run.Abreast (Step.Abreast S (Site.Abreast R)) (h.after s site) (k.after s' site')
  enter : ∀ {s s' q q'}, S s s' → Splicer.Abreast R q q' →
    Run.Abreast (QueuesAbreast S R) (h.enter s q) (k.enter s' q')
  leave : ∀ {s s' q q'}, S s s' → Splicer.Abreast R q q' →
    Run.Abreast (QueuesAbreast S R) (h.leave s q) (k.leave s' q')

variable {h : Hooks σ α} {k : Hooks τ β} {descend : σ → α → Run (Step σ α)}
  {descend' : τ → β → Run (Step τ β)}

theorem visitSite_abreast (hh : Hooks.Abreast S R h k)
    (hd : ∀ s s' a b, S s s' → R a b →
      Run.Abreast (Step.Abreast S R) (descend s a) (descend' s' b))
    {s : σ} {s' : τ} {site : Site α} {site' : Site β} (hs : S s s')
    (hsite : Site.Abreast R site site') :
    Run.Abreast (Step.Abreast S (Site.Abreast R)) (visitSite h descend s site)
      (visitSite k descend' s' site') := by
  refine (hh.before hs hsite).bind fun r q hrq => hrq.andThen (fun _ _ => id) ?_
  rintro s s' ⟨slot, splicer⟩ ⟨slot', splicer'⟩ hs ⟨hslot, hsplicer⟩
  dsimp only at hslot hsplicer
  -- The two slots are empty together, so the two nodes are entered together.
  cases hslot with
  | none => exact hh.after hs ⟨.none, hsplicer⟩
  | @some a b hab =>
      refine (hd s s' a b hs hab).bind fun r q hrq => hrq.andThen ?_ ?_
      · exact fun _ _ hab => ⟨.some hab, hsplicer⟩
      · exact fun _ _ _ _ hs hab => hh.after hs ⟨.some hab, hsplicer⟩

theorem sweep_abreast (hh : Hooks.Abreast S R h k)
    (hd : ∀ s s' a b, S s s' → R a b →
      Run.Abreast (Step.Abreast S R) (descend s a) (descend' s' b))
    (fuel : Nat) {s : σ} {s' : τ} {q : Splicer α} {q' : Splicer β} (hs : S s s')
    (hq : Splicer.Abreast R q q') :
    Run.Abreast (Step.Abreast S (Splicer.Abreast R)) (sweep h descend fuel s q)
      (sweep k descend' fuel s' q') := by
  induction fuel generalizing s s' q q' with
  | zero => exact Run.abreast_fault _
  | succ fuel ih =>
      obtain ⟨done, pending⟩ := q
      obtain ⟨done', pending'⟩ := q'
      obtain ⟨hdone, hpending⟩ := hq
      dsimp only at hdone hpending
      cases hpending with
      | nil => exact Run.abreast_pure ⟨hs, ⟨hdone, .nil⟩, rfl⟩
      | cons hab hpending =>
          refine (visitSite_abreast hh hd hs ⟨.some hab, hdone, hpending⟩).bind fun r q hrq => ?_
          refine (hrq.map fun _ _ hsite => hsite.settle).andThen (fun _ _ => id) ?_
          exact fun _ _ _ _ hs hq => ih hs hq

/-- **Two visits of lists side by side.** -/
theorem visitList_abreast (hh : Hooks.Abreast S R h k)
    (hd : ∀ s s' a b, S s s' → R a b →
      Run.Abreast (Step.Abreast S R) (descend s a) (descend' s' b))
    (fuel : Nat) {s : σ} {s' : τ} {xs : List α} {ys : List β} (hs : S s s')
    (hxs : Forall₂ R xs ys) :
    Run.Abreast (Step.Abreast S (Forall₂ R)) (visitList h descend fuel s xs)
      (visitList k descend' fuel s' ys) := by
  refine (hh.enter hs ⟨.nil, hxs⟩).bind ?_
  rintro ⟨s, q⟩ ⟨s', q'⟩ ⟨hs, hq⟩
  refine (sweep_abreast hh hd fuel hs hq).bind fun r r' hr => ?_
  refine (hh.leave hr.state hr.value).bind ?_
  rintro ⟨s, q⟩ ⟨s', q'⟩ ⟨hs, hq⟩
  exact Run.abreast_pure ⟨hs, hq.toList, hr.failure⟩

end

/-! ## §4. Trees of the same form. -/

/-- Two statements of the same form: the statements inside are in one
relation, what a loop remembers is in another, all else is equal. -/
inductive Stmt.SameForm (M : Option Induction → Option Induction → Prop)
    (R : Stmt → Stmt → Prop) : Stmt → Stmt → Prop where
  | basic (es : List Expr) (tags : Tags) : SameForm M R (.basic es tags) (.basic es tags)
  | raw (es : List Expr) (src : String) (tags : Tags) :
      SameForm M R (.raw es src tags) (.raw es src tags)
  | block {ss ss' : List Stmt} (es : List Expr) (b tags : Tags) : Forall₂ R ss ss' →
      SameForm M R (.block es ss b tags) (.block es ss' b tags)
  | loop {body body' : Stmt} {i i' : Option Induction} (es : List Expr) (tags : Tags) :
      R body body' → M i i' → SameForm M R (.loop es body i tags) (.loop es body' i' tags)
  | cond {yes yes' : Stmt} {no no' : Option Stmt} (es : List Expr) (tags : Tags) : R yes yes' →
      Option.Rel R no no' → SameForm M R (.cond es yes no tags) (.cond es yes' no' tags)
  | switch {body body' : Stmt} (es : List Expr) (tags : Tags) : R body body' →
      SameForm M R (.switch es body tags) (.switch es body' tags)

/-- A relation between statements that goes by their form.  It may overlook
what loops remember. -/
structure Stmt.Formal (R : Stmt → Stmt → Prop) : Prop where
  opened : ∀ {x y}, R x y → SameForm (fun _ _ => True) R x y
  closed : ∀ {x y}, SameForm Eq R x y → R x y

theorem Stmt.formal_eq : Stmt.Formal Eq where
  opened := by
    rintro x _ rfl
    cases x with
    | basic es tags => exact .basic es tags
    | raw es src tags => exact .raw es src tags
    | block es ss b tags => exact .block es b tags (List.forall₂_refl ss)
    | loop es body i tags => exact .loop es tags rfl trivial
    | switch es body tags => exact .switch es tags rfl
    | cond es yes no tags =>
        refine .cond es tags rfl ?_
        cases no with
        | none => exact .none
        | some no => exact .some rfl
  closed := by
    intro x y h
    cases h with
    | basic | raw => rfl
    | block es b tags hss =>
        rw [List.forall₂_eq_eq_eq] at hss
        rw [hss]
    | loop es tags hbody hi => rw [hbody, hi]
    | switch es tags hbody => rw [hbody]
    | cond es tags hyes hno =>
        cases hno with
        | none => rw [hyes]
        | some hno => rw [hyes, hno]

/-- Two blocks with statements in the relation and the same tags. -/
structure Block.Abreast (R : Stmt → Stmt → Prop) (b b' : Block) : Prop where
  stmts : Forall₂ R b.stmts b'.stmts
  tags : b.tags = b'.tags

/-- Two nodes of the same kind, in the relation. -/
inductive Node.Abreast (R : Stmt → Stmt → Prop) : Node → Node → Prop where
  | expr (e : Expr) : Node.Abreast R (.expr e) (.expr e)
  | stmt {x y : Stmt} : R x y → Node.Abreast R (.stmt x) (.stmt y)
  | block {b b' : Block} : Block.Abreast R b b' → Node.Abreast R (.block b) (.block b')

/-! ## §5. Visitors. -/

section

variable {σ τ : Type}

/-- Two visitors that do the same, up to a relation between their states and
one between statements. -/
structure Visitor.Abreast (S : σ → τ → Prop) (R : Stmt → Stmt → Prop) (v : Visitor σ)
    (w : Visitor τ) : Prop where
  exprs : Hooks.Abreast S Eq v.exprs w.exprs
  stmts : Hooks.Abreast S R v.stmts w.stmts
  beforeBlock : ∀ {s s' b b'}, S s s' → Block.Abreast R b b' →
    Run.Abreast (Step.Abreast S (Block.Abreast R)) (v.beforeBlock s b) (w.beforeBlock s' b')
  afterBlock : ∀ {s s' b b'}, S s s' → Block.Abreast R b b' →
    Run.Abreast (Step.Abreast S (Block.Abreast R)) (v.afterBlock s b) (w.afterBlock s' b')
  descends : ∀ {s s' n n'}, S s s' → Node.Abreast R n n' →
    Run.Abreast (fun p p' => S p.1 p'.1 ∧ p.2 = p'.2) (v.descends s n) (w.descends s' n')

variable {S : σ → τ → Prop} {R : Stmt → Stmt → Prop} {v : Visitor σ} {w : Visitor τ}
  (hvw : Visitor.Abreast S R v w)
include hvw

theorem Visitor.Abreast.descend {α : Type} {Q : α → α → Prop} {asNode : α → Node}
    {accept : σ → α → Run (Step σ α)} {accept' : τ → α → Run (Step τ α)} {s : σ} {s' : τ} {x y : α}
    (hs : S s s') (hxy : Q x y) (hnode : Node.Abreast R (asNode x) (asNode y))
    (haccept : ∀ s s', S s s' → Run.Abreast (Step.Abreast S Q) (accept s x) (accept' s' y)) :
    Run.Abreast (Step.Abreast S Q) (v.descend asNode accept s x)
      (w.descend asNode accept' s' y) := by
  refine (hvw.descends hs hnode).bind ?_
  rintro ⟨s, wanted⟩ ⟨s', wanted'⟩ ⟨hs, rfl⟩
  cases wanted with
  | true => exact haccept s s' hs
  | false => exact Run.abreast_pure ⟨hs, hxy, rfl⟩

theorem Expr.accept_abreast (fuel : Nat) {s : σ} {s' : τ} (hs : S s s') (e : Expr) :
    Run.Abreast (Step.Abreast S Eq) (Expr.accept v fuel s e) (Expr.accept w fuel s' e) := by
  induction fuel generalizing s s' e with
  | zero => exact Run.abreast_fault _
  | succ fuel ih =>
      refine (visitList_abreast hvw.exprs ?_ fuel hs (List.forall₂_refl e.parts)).bind ?_
      · rintro s s' e _ hs rfl
        exact hvw.descend hs rfl (.expr e) fun _ _ hs => ih hs e
      · intro r q hrq
        refine Run.abreast_pure (hrq.map fun parts parts' h => ?_)
        rw [List.forall₂_eq_eq_eq] at h
        rw [h]

theorem Visitor.Abreast.visitExprs (fuel : Nat) {s : σ} {s' : τ} (hs : S s s') (es : List Expr) :
    Run.Abreast (Step.Abreast S Eq) (v.visitExprs fuel s es) (w.visitExprs fuel s' es) := by
  have hvisit : Run.Abreast (Step.Abreast S (Forall₂ Eq)) (v.visitExprs fuel s es)
      (w.visitExprs fuel s' es) := by
    refine visitList_abreast hvw.exprs ?_ fuel hs (List.forall₂_refl es)
    rintro s s' e _ hs rfl
    exact hvw.descend hs rfl (.expr e) fun _ _ hs => Expr.accept_abreast hvw fuel hs e
  rwa [List.forall₂_eq_eq_eq] at hvisit

theorem Visitor.Abreast.visitBlock {visit : σ → List Stmt → Run (Step σ (List Stmt))}
    {visit' : τ → List Stmt → Run (Step τ (List Stmt))}
    (hvisit : ∀ s s' xs ys, S s s' → Forall₂ R xs ys →
      Run.Abreast (Step.Abreast S (Forall₂ R)) (visit s xs) (visit' s' ys))
    {s : σ} {s' : τ} {b b' : Block} (hs : S s s') (hb : Block.Abreast R b b') :
    Run.Abreast (Step.Abreast S (Block.Abreast R)) (v.visitBlock visit s b)
      (w.visitBlock visit' s' b') := by
  refine (hvw.beforeBlock hs hb).bind fun r q hrq => hrq.andThen (fun _ _ => id) ?_
  intro s s' b b' hs hb
  refine (hvw.descend hs hb (.block hb) ?_).bind fun r q hrq => hrq.andThen (fun _ _ => id) ?_
  · intro s s' hs
    refine (hvisit s s' _ _ hs hb.stmts).bind fun r q hrq => Run.abreast_pure ?_
    exact hrq.map fun _ _ hstmts => ⟨hstmts, hb.tags⟩
  · exact fun _ _ _ _ hs hb => hvw.afterBlock hs hb

omit hvw in
theorem Stmt.ofVisited_abreast (hR : Stmt.Formal R) {xs ys : List Stmt} (h : Forall₂ R xs ys) :
    R (Stmt.ofVisited xs) (Stmt.ofVisited ys) := by
  cases h with
  | nil => exact hR.closed (.basic [] {})
  | cons hab hrest =>
      cases hrest with
      | nil => exact hab
      | cons hcd hrest => exact hR.closed (.block [] {} {} (.cons hab (.cons hcd hrest)))

omit hvw in
theorem visitSlot_abreast (hR : Stmt.Formal R)
    {visit : σ → List Stmt → Run (Step σ (List Stmt))}
    {visit' : τ → List Stmt → Run (Step τ (List Stmt))}
    (hvisit : ∀ s s' xs ys, S s s' → Forall₂ R xs ys →
      Run.Abreast (Step.Abreast S (Forall₂ R)) (visit s xs) (visit' s' ys))
    {s : σ} {s' : τ} {x y : Stmt} (hs : S s s') (hxy : R x y) :
    Run.Abreast (Step.Abreast S R) (visitSlot visit s x) (visitSlot visit' s' y) := by
  refine (hvisit s s' _ _ hs (.cons hxy .nil)).bind fun r q hrq => Run.abreast_pure ?_
  exact hrq.map fun _ _ h => Stmt.ofVisited_abreast hR h

/-- **Two walks of statements side by side.** -/
theorem Stmt.accept_abreast (hR : Stmt.Formal R) (fuel : Nat) {s : σ} {s' : τ} {x y : Stmt}
    (hs : S s s') (hxy : R x y) :
    Run.Abreast (Step.Abreast S R) (Stmt.accept v fuel s x) (Stmt.accept w fuel s' y) := by
  induction fuel generalizing s s' x y with
  | zero => exact Run.abreast_fault _
  | succ fuel ih =>
      have hvisit : ∀ s s' xs ys, S s s' → Forall₂ R xs ys →
          Run.Abreast (Step.Abreast S (Forall₂ R)) (v.visitStmts fuel s xs)
            (w.visitStmts fuel s' ys) := by
        intro s s' xs ys hs hxs
        refine visitList_abreast hvw.stmts ?_ fuel hs hxs
        exact fun s s' x y hs hxy => hvw.descend hs hxy (.stmt hxy) fun _ _ hs => ih hs hxy
      have hslot : ∀ s s' x y, S s s' → R x y → Run.Abreast (Step.Abreast S R)
          (visitSlot (v.visitStmts fuel) s x) (visitSlot (w.visitStmts fuel) s' y) :=
        fun s s' x y hs hxy => visitSlot_abreast hR hvisit hs hxy
      -- The walk does not look at what a loop remembers, so the form is enough.
      cases hR.opened hxy with
      | basic es tags =>
          refine (hvw.visitExprs fuel hs es).bind fun r q hrq => Run.abreast_pure ?_
          exact hrq.map fun es _ hes => hes ▸ hR.closed (.basic es tags)
      | raw es src tags =>
          refine (hvw.visitExprs fuel hs es).bind fun r q hrq => Run.abreast_pure ?_
          exact hrq.map fun es _ hes => hes ▸ hR.closed (.raw es src tags)
      | @block ss ss' es b tags hss =>
          refine (hvw.visitExprs fuel hs es).bind fun r q hrq => hrq.andThen ?_ ?_
          · exact fun es _ hes => hes ▸ hR.closed (.block es b tags hss)
          · rintro s s' es _ hs rfl
            have hblock : Block.Abreast R ⟨ss, b⟩ ⟨ss', b⟩ := ⟨hss, rfl⟩
            refine (hvw.visitBlock hvisit hs hblock).bind fun r q hrq => ?_
            refine Run.abreast_pure (hrq.map ?_)
            rintro ⟨ss, b⟩ ⟨ss', _⟩ ⟨hss, rfl⟩
            exact hR.closed (.block es b tags hss)
      | loop es tags hbody _ =>
          refine (hvw.visitExprs fuel hs es).bind fun r q hrq => hrq.andThen ?_ ?_
          · exact fun es _ hes => hes ▸ hR.closed (.loop es tags hbody rfl)
          · rintro s s' es _ hs rfl
            refine (hslot s s' _ _ hs hbody).bind fun r q hrq => Run.abreast_pure ?_
            exact hrq.map fun _ _ hbody => hR.closed (.loop es tags hbody rfl)
      | switch es tags hbody =>
          refine (hvw.visitExprs fuel hs es).bind fun r q hrq => hrq.andThen ?_ ?_
          · exact fun es _ hes => hes ▸ hR.closed (.switch es tags hbody)
          · rintro s s' es _ hs rfl
            refine (hslot s s' _ _ hs hbody).bind fun r q hrq => Run.abreast_pure ?_
            exact hrq.map fun _ _ hbody => hR.closed (.switch es tags hbody)
      | cond es tags hyes hno =>
          cases hno with
          | none =>
              refine (hvw.visitExprs fuel hs es).bind fun r q hrq => hrq.andThen ?_ ?_
              · exact fun es _ hes => hes ▸ hR.closed (.cond es tags hyes .none)
              · rintro s s' es _ hs rfl
                refine (hslot s s' _ _ hs hyes).bind fun r q hrq => Run.abreast_pure ?_
                exact hrq.map fun _ _ hyes => hR.closed (.cond es tags hyes .none)
          | some hno =>
              refine (hvw.visitExprs fuel hs es).bind fun r q hrq => hrq.andThen ?_ ?_
              · exact fun es _ hes => hes ▸ hR.closed (.cond es tags hyes (.some hno))
              · rintro s s' es _ hs rfl
                refine (hslot s s' _ _ hs hyes).bind fun r q hrq => hrq.andThen ?_ ?_
                · exact fun _ _ hyes => hR.closed (.cond es tags hyes (.some hno))
                · intro s s' yes yes' hs hyes
                  refine (hslot s s' _ _ hs hno).bind fun r q hrq => Run.abreast_pure ?_
                  exact hrq.map fun _ _ hno => hR.closed (.cond es tags hyes (.some hno))

theorem Visitor.Abreast.visitStmts (hR : Stmt.Formal R) (fuel : Nat) {s : σ} {s' : τ}
    {xs ys : List Stmt} (hs : S s s') (hxs : Forall₂ R xs ys) :
    Run.Abreast (Step.Abreast S (Forall₂ R)) (v.visitStmts fuel s xs)
      (w.visitStmts fuel s' ys) := by
  refine visitList_abreast hvw.stmts ?_ fuel hs hxs
  exact fun s s' x y hs hxy =>
    hvw.descend hs hxy (.stmt hxy) fun _ _ hs => Stmt.accept_abreast hvw hR fuel hs hxy

end

end RuleBody
