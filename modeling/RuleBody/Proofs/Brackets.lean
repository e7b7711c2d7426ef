/-
  RuleBody.Proofs.Brackets
  ────────────────────────
  **VISITS OF LISTS ARE BRACKETED.**

  A visitor is told when the visit of a list begins and when it ends.  Lists
  lie within lists, and a failure ends the visits of all lists around it.
  Still each beginning has its end: the calls form a balanced word
  (`Visitor.visitExprs_balanced`, `Visitor.visitStmts_balanced`).

  To speak of the calls, a visitor takes notes of them in its state.  That
  it does so changes nothing (`Visitor.noted_abreast`).

  §1  balanced words;
  §2  visitors that take notes;
  §3  what the notes of a walk say.
-/
import RuleBody.Proofs.Looking
import RuleBody.Proofs.SideBySide

namespace RuleBody

/-! ## §1. Balanced words. -/

/-- The two types of lists that are visited. -/
inductive Row where
  | exprs
  | stmts
  deriving DecidableEq, Repr

/-- The visit of a list begins or ends. -/
inductive Mark where
  | enter (row : Row)
  | leave (row : Row)
  deriving DecidableEq, Repr

/-- Every beginning has its end, and what lies between is balanced too. -/
inductive Balanced : List Mark → Prop where
  | nil : Balanced []
  | wrap (row : Row) {w w' : List Mark} : Balanced w → Balanced w' →
      Balanced (.enter row :: w ++ .leave row :: w')

theorem Balanced.append {w w' : List Mark} (h : Balanced w) (h' : Balanced w') :
    Balanced (w ++ w') := by
  induction h with
  | nil => exact h'
  | @wrap row u u' hu _ _ ih =>
      have := Balanced.wrap row hu ih
      rwa [List.append_assoc, List.cons_append]

/-- The marks of one visit of a list. -/
def visitMarks (row : Row) (w : List Mark) : List Mark := .enter row :: w ++ [.leave row]

theorem Balanced.visit (row : Row) {w : List Mark} (h : Balanced w) :
    Balanced (visitMarks row w) :=
  .wrap row h .nil

/-! ## §2. Visitors that take notes. -/

/-- The state of a visitor that takes notes. -/
structure Noted (σ : Type) where
  state : σ
  marks : List Mark

section

variable {σ α β : Type}

/-- The step with the notes beside its state. -/
def Step.noted (marks : List Mark) (r : Step σ α) : Step (Noted σ) α :=
  ⟨⟨r.state, marks⟩, r.value, r.failure⟩

/-- A step of a visit that leaves the notes as they are. -/
def noted (f : σ → α → Run (Step σ β)) : Noted σ → α → Run (Step (Noted σ) β) :=
  fun n x => do return (← f n.state x).noted n.marks

/-- The hooks, which also note where the visit of a list begins and ends. -/
def Hooks.noted (row : Row) (h : Hooks σ α) : Hooks (Noted σ) α where
  before := RuleBody.noted h.before
  after := RuleBody.noted h.after
  enter := fun n q => do
    let (s, q) ← h.enter n.state q
    return (⟨s, n.marks ++ [.enter row]⟩, q)
  leave := fun n q => do
    let (s, q) ← h.leave n.state q
    return (⟨s, n.marks ++ [.leave row]⟩, q)

/-- The visitor, which also notes where the visits of lists begin and end. -/
def Visitor.noted (v : Visitor σ) : Visitor (Noted σ) where
  exprs := v.exprs.noted .exprs
  stmts := v.stmts.noted .stmts
  beforeBlock := RuleBody.noted v.beforeBlock
  afterBlock := RuleBody.noted v.afterBlock
  descends := fun n node => do
    let (s, wanted) ← v.descends n.state node
    return (⟨s, n.marks⟩, wanted)

/-- The notes put aside, two visitors are in the same state. -/
abbrev Noted.Beside (n : Noted σ) (s : σ) : Prop := n.state = s

theorem noted_abreast {R : β → β → Prop} (hR : ∀ b, R b b) (f : σ → α → Run (Step σ β))
    (n : Noted σ) (x : α) :
    Run.Abreast (Step.Abreast Noted.Beside R) (noted f n x) (f n.state x) :=
  Run.abreast_of_map (fun r => ⟨rfl, hR r.value, rfl⟩) (f n.state x)

theorem Hooks.noted_abreast (row : Row) (h : Hooks σ α) :
    Hooks.Abreast Noted.Beside Eq (h.noted row) h where
  before := by
    rintro n _ site site' rfl hsite
    rw [← hsite.eq]
    exact RuleBody.noted_abreast Site.Abreast.refl h.before n site
  after := by
    rintro n _ site site' rfl hsite
    rw [← hsite.eq]
    exact RuleBody.noted_abreast Site.Abreast.refl h.after n site
  enter := by
    rintro n _ q q' rfl hq
    rw [← hq.eq]
    exact Run.abreast_of_map (fun p => ⟨rfl, .refl p.2⟩) (h.enter n.state q)
  leave := by
    rintro n _ q q' rfl hq
    rw [← hq.eq]
    exact Run.abreast_of_map (fun p => ⟨rfl, .refl p.2⟩) (h.leave n.state q)

theorem Block.Abreast.eq {b b' : Block} (h : Block.Abreast Eq b b') : b = b' := by
  obtain ⟨stmts, tags⟩ := b
  obtain ⟨stmts', _⟩ := b'
  obtain ⟨hstmts, rfl⟩ := h
  dsimp only at hstmts
  rw [List.forall₂_eq_eq_eq] at hstmts
  rw [hstmts]

theorem Block.Abreast.refl (b : Block) : Block.Abreast Eq b b := ⟨List.forall₂_refl _, rfl⟩

theorem Node.Abreast.eq {n n' : Node} (h : Node.Abreast Eq n n') : n = n' := by
  cases h with
  | expr e => rfl
  | stmt hxy => rw [hxy]
  | block hb => rw [hb.eq]

/-- Taking notes changes nothing. -/
theorem Visitor.noted_abreast (v : Visitor σ) :
    Visitor.Abreast Noted.Beside Eq v.noted v where
  exprs := Hooks.noted_abreast .exprs v.exprs
  stmts := Hooks.noted_abreast .stmts v.stmts
  beforeBlock := by
    rintro n _ b b' rfl hb
    rw [← hb.eq]
    exact RuleBody.noted_abreast Block.Abreast.refl v.beforeBlock n b
  afterBlock := by
    rintro n _ b b' rfl hb
    rw [← hb.eq]
    exact RuleBody.noted_abreast Block.Abreast.refl v.afterBlock n b
  descends := by
    rintro n _ node node' rfl hnode
    rw [← hnode.eq]
    exact Run.abreast_of_map (fun p => ⟨rfl, rfl⟩) (v.descends n.state node)

end

/-! ## §3. What the notes of a walk say. -/

section

open Run (Leads leads_pure leads_fault leads_any)

variable {σ : Type}

/-- From the one state to the other, a balanced word was noted. -/
def Noted.Grows (n n' : Noted σ) : Prop := ∃ w, Balanced w ∧ n'.marks = n.marks ++ w

/-- From the one state to the other, one visit of a list was noted. -/
def Noted.Visits (row : Row) (n n' : Noted σ) : Prop :=
  ∃ w, Balanced w ∧ n'.marks = n.marks ++ visitMarks row w

theorem Noted.Grows.of_eq {n n' : Noted σ} (h : n'.marks = n.marks) : n.Grows n' :=
  ⟨[], .nil, by rw [h, List.append_nil]⟩

theorem Noted.Grows.trans {n n' n'' : Noted σ} (h : n.Grows n') (h' : n'.Grows n'') :
    n.Grows n'' := by
  obtain ⟨w, hw, hn⟩ := h
  obtain ⟨w', hw', hn'⟩ := h'
  exact ⟨w ++ w', hw.append hw', by rw [hn', hn, List.append_assoc]⟩

theorem Noted.Visits.grows {row : Row} {n n' : Noted σ} (h : n.Visits row n') : n.Grows n' := by
  obtain ⟨w, hw, hn⟩ := h
  exact ⟨visitMarks row w, hw.visit row, hn⟩

/-- The computation notes a balanced word. -/
abbrev NotesBalanced {α : Type} (n : Noted σ) (x : Run (Step (Noted σ) α)) : Prop :=
  Leads False x fun r => n.Grows r.state

theorem noted_balanced {α β : Type} (f : σ → α → Run (Step σ β)) (n : Noted σ) (x : α) :
    NotesBalanced n (noted f n x) :=
  (leads_any _).bind fun _ _ => leads_pure (.of_eq rfl)

/-- One step after the other notes one word after the other. -/
theorem NotesBalanced.andThen {α β : Type} {n : Noted σ} {r : Step (Noted σ) α}
    (hr : n.Grows r.state) {rebuild : α → β} {next : Noted σ → α → Run (Step (Noted σ) β)}
    (hnext : ∀ n x, NotesBalanced n (next n x)) : NotesBalanced n (r.andThen rebuild next) :=
  Step.leads_andThen (fun _ => hr) ((hnext r.state r.value).mono id fun _ h => hr.trans h)

section

variable {α : Type} {row : Row} {h : Hooks σ α}
  {descend : Noted σ → α → Run (Step (Noted σ) α)} (hd : ∀ n x, NotesBalanced n (descend n x))
include hd

theorem visitSite_balanced (n : Noted σ) (site : Site α) :
    NotesBalanced n (visitSite (h.noted row) descend n site) := by
  refine (noted_balanced h.before n site).bind fun r hr => ?_
  refine NotesBalanced.andThen hr fun n site => ?_
  obtain ⟨_ | x, splicer⟩ := site
  · exact noted_balanced h.after n ⟨none, splicer⟩
  · refine (hd n x).bind fun r hr => NotesBalanced.andThen hr fun n x => ?_
    exact noted_balanced h.after n ⟨some x, splicer⟩

theorem sweep_balanced (fuel : Nat) (n : Noted σ) (q : Splicer α) :
    NotesBalanced n (sweep (h.noted row) descend fuel n q) := by
  induction fuel generalizing n q with
  | zero => exact leads_fault _ id
  | succ fuel ih =>
      obtain ⟨done, _ | ⟨x, pending⟩⟩ := q
      · exact leads_pure (.of_eq rfl)
      · refine (visitSite_balanced hd n _).bind fun r hr => ?_
        exact NotesBalanced.andThen (r := r.map Site.settle) hr ih

theorem visitList_balanced (fuel : Nat) (n : Noted σ) (xs : List α) :
    Leads False (visitList (h.noted row) descend fuel n xs) fun r => n.Visits row r.state := by
  have henter : Leads False ((h.noted row).enter n (.ofList xs)) fun p =>
      p.1.marks = n.marks ++ [.enter row] := (leads_any _).bind fun _ _ => leads_pure rfl
  have hleave : ∀ n q, Leads False ((h.noted row).leave n q) fun p =>
      p.1.marks = n.marks ++ [.leave row] :=
    fun n q => (leads_any _).bind fun _ _ => leads_pure rfl
  refine henter.bind ?_
  rintro ⟨m, q⟩ hm
  refine (sweep_balanced hd fuel m q).bind fun r hr => ?_
  obtain ⟨w, hw, hstate⟩ := hr
  -- The end is noted whether the sweep failed or not.
  refine (hleave r.state r.value).bind fun p hp => leads_pure ⟨w, hw, ?_⟩
  calc p.1.marks = n.marks ++ [.enter row] ++ w ++ [.leave row] := by rw [hp, hstate, hm]
    _ = n.marks ++ visitMarks row w := by simp [visitMarks]

end

variable (v : Visitor σ)

theorem Visitor.descend_balanced {α : Type} {asNode : α → Node}
    {accept : Noted σ → α → Run (Step (Noted σ) α)} {x : α}
    (haccept : ∀ n, NotesBalanced n (accept n x)) (n : Noted σ) :
    NotesBalanced n (v.noted.descend asNode accept n x) := by
  have hdescends : Leads False (v.noted.descends n (asNode x)) fun p => p.1.marks = n.marks :=
    (leads_any _).bind fun _ _ => leads_pure rfl
  refine hdescends.bind ?_
  rintro ⟨m, wanted⟩ hm
  cases wanted with
  | true => exact (haccept m).mono id fun _ h => Noted.Grows.trans (.of_eq hm) h
  | false => exact leads_pure (.of_eq hm)

theorem Expr.accept_balanced (fuel : Nat) (n : Noted σ) (e : Expr) :
    NotesBalanced n (Expr.accept v.noted fuel n e) := by
  induction fuel generalizing n e with
  | zero => exact leads_fault _ id
  | succ fuel ih =>
      refine (visitList_balanced ?_ fuel n e.parts).bind ?_
      · exact fun n e => v.descend_balanced (fun n => ih n e) n
      · exact fun r hr => leads_pure hr.grows

theorem Visitor.visitExprs_notes (fuel : Nat) (n : Noted σ) (es : List Expr) :
    Leads False (v.noted.visitExprs fuel n es) fun r => n.Visits .exprs r.state :=
  visitList_balanced (fun n e => v.descend_balanced (fun n => Expr.accept_balanced v fuel n e) n)
    fuel n es

section

variable {visit : Noted σ → List Stmt → Run (Step (Noted σ) (List Stmt))}
  (hvisit : ∀ n xs, NotesBalanced n (visit n xs))
include hvisit

theorem Visitor.visitBlock_balanced (n : Noted σ) (b : Block) :
    NotesBalanced n (v.noted.visitBlock visit n b) := by
  refine (noted_balanced v.beforeBlock n b).bind fun r hr => NotesBalanced.andThen hr ?_
  intro n b
  refine (v.descend_balanced ?_ n).bind fun r hr => ?_
  · exact fun n => (hvisit n b.stmts).bind fun r hr => leads_pure hr
  · exact NotesBalanced.andThen hr (noted_balanced v.afterBlock)

omit v in
theorem visitSlot_balanced (n : Noted σ) (x : Stmt) : NotesBalanced n (visitSlot visit n x) :=
  (hvisit n [x]).bind fun _ hr => leads_pure hr

end

theorem Stmt.accept_balanced (fuel : Nat) (n : Noted σ) (x : Stmt) :
    NotesBalanced n (Stmt.accept v.noted fuel n x) := by
  induction fuel generalizing n x with
  | zero => exact leads_fault _ id
  | succ fuel ih =>
      have hexprs : ∀ es, NotesBalanced n (v.noted.visitExprs fuel n es) :=
        fun es => (v.visitExprs_notes fuel n es).mono id fun _ h => h.grows
      have hvisit : ∀ n xs, NotesBalanced n (v.noted.visitStmts fuel n xs) := by
        intro n xs
        refine (visitList_balanced ?_ fuel n xs).mono id ?_
        · exact fun n x => v.descend_balanced (fun n => ih n x) n
        · exact fun _ h => h.grows
      have hslot : ∀ n x, NotesBalanced n (visitSlot (v.noted.visitStmts fuel) n x) :=
        visitSlot_balanced hvisit
      -- Each part of a statement adds a word of its own.
      cases x with
      | basic es tags => exact (hexprs es).bind fun r hr => leads_pure hr
      | raw es src tags => exact (hexprs es).bind fun r hr => leads_pure hr
      | block es ss b tags =>
          refine (hexprs es).bind fun r hr => NotesBalanced.andThen hr fun n es => ?_
          exact (v.visitBlock_balanced hvisit n ⟨ss, b⟩).bind fun r hr => leads_pure hr
      | loop es body i tags =>
          refine (hexprs es).bind fun r hr => NotesBalanced.andThen hr fun n es => ?_
          exact (hslot n body).bind fun r hr => leads_pure hr
      | switch es body tags =>
          refine (hexprs es).bind fun r hr => NotesBalanced.andThen hr fun n es => ?_
          exact (hslot n body).bind fun r hr => leads_pure hr
      | cond es yes no tags =>
          cases no with
          | none =>
              refine (hexprs es).bind fun r hr => NotesBalanced.andThen hr fun n es => ?_
              exact (hslot n yes).bind fun r hr => leads_pure hr
          | some no =>
              refine (hexprs es).bind fun r hr => NotesBalanced.andThen hr fun n es => ?_
              refine (hslot n yes).bind fun r hr => NotesBalanced.andThen hr fun n yes => ?_
              exact (hslot n no).bind fun r hr => leads_pure hr

theorem Visitor.visitStmts_notes (fuel : Nat) (n : Noted σ) (xs : List Stmt) :
    Leads False (v.noted.visitStmts fuel n xs) fun r => n.Visits .stmts r.state :=
  visitList_balanced (fun n x => v.descend_balanced (fun n => Stmt.accept_balanced v fuel n x) n)
    fuel n xs

theorem Step.Abreast.eq_noted {α : Type} {r : Step (Noted σ) α} {q : Step σ α}
    {marks : List Mark} (h : Step.Abreast Noted.Beside Eq r q) (hmarks : r.state.marks = marks) :
    r = q.noted marks := by
  obtain ⟨⟨state, _⟩, value, failure⟩ := r
  obtain ⟨rfl, rfl, rfl⟩ := h
  exact congrArg (Step.noted · _) hmarks

variable {v} {fuel : Nat} {s : σ} {t : Option Level}

/-- The marks of a visit that returns: its own two, and a balanced word
between them. -/
theorem Visitor.visitExprs_balanced {es : List Expr} {r : Step σ (List Expr)}
    (hr : (v.visitExprs fuel s es t).2 = .ok r) :
    ∃ w, Balanced w ∧ (v.noted.visitExprs fuel ⟨s, []⟩ es t).2
      = .ok (r.noted (visitMarks .exprs w)) := by
  have hsame := v.noted_abreast.visitExprs fuel (s := ⟨s, []⟩) rfl es
  obtain ⟨q, hq, hqr⟩ := hsame.first_ends hr
  obtain ⟨w, hw, hmarks⟩ := (v.visitExprs_notes fuel ⟨s, []⟩ es).ensures t q hq
  exact ⟨w, hw, hqr.eq_noted hmarks ▸ hq⟩

theorem Visitor.visitStmts_balanced {xs : List Stmt} {r : Step σ (List Stmt)}
    (hr : (v.visitStmts fuel s xs t).2 = .ok r) :
    ∃ w, Balanced w ∧ (v.noted.visitStmts fuel ⟨s, []⟩ xs t).2
      = .ok (r.noted (visitMarks .stmts w)) := by
  have hsame := v.noted_abreast.visitStmts Stmt.formal_eq fuel (s := ⟨s, []⟩) rfl
    (List.forall₂_refl xs)
  rw [List.forall₂_eq_eq_eq] at hsame
  obtain ⟨q, hq, hqr⟩ := hsame.first_ends hr
  obtain ⟨w, hw, hmarks⟩ := (v.visitStmts_notes fuel ⟨s, []⟩ xs).ensures t q hq
  exact ⟨w, hw, hqr.eq_noted hmarks ▸ hq⟩

end

end RuleBody
