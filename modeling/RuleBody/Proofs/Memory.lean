/-
  RuleBody.Proofs.Memory
  ──────────────────────
  **WHAT A LOOP REMEMBERS.**

  A loop computes its induction once and remembers it, until one of its
  expressions is opened for a change or a visitor walks it.  A change of the
  body does not make it forget.  So what a loop remembers is what an analysis
  would find in the loop as it stands, as long as nobody put another body
  under it in the meantime; and in any case it is what would be found with
  the body of that time (`remembered_is_found_afresh`).

  §1  trees that differ in memory only;
  §2  the analysis does not see what loops remember;
  §3  the handling of a loop;
  §4  one step;
  §5  many steps.
-/
import Mathlib.Logic.Relation
import RuleBody.Parse.Fragment
import RuleBody.Proofs.Looking
import RuleBody.Proofs.SideBySide
import RuleBody.Visitor.Print

namespace RuleBody

open List (Forall₂)
open Relation (ReflTransGen)
open Run (Leads leads_pure)

/-! ## §1. Trees that differ in memory only. -/

namespace Stmt

/-- The statements are equal, up to what their loops remember. -/
def Alike (x y : Stmt) : Prop := x.forgotten = y.forgotten

theorem forall₂_alike_iff {xs ys : List Stmt} :
    Forall₂ Alike xs ys ↔ xs.map forgotten = ys.map forgotten := by
  rw [← List.forall₂_eq_eq_eq, List.forall₂_map_left_iff, List.forall₂_map_right_iff]
  rfl

/-- A tree has the form of the tree that forgot. -/
theorem sameForm_forgotten (x : Stmt) : SameForm (fun _ _ => True) Alike x x.forgotten := by
  have hparts : ∀ y : Stmt, y.Alike y.forgotten := fun y => y.forgotten_forgotten.symm
  cases x with
  | basic es tags => exact .basic es tags
  | raw es src tags => exact .raw es src tags
  | block es ss b tags =>
      show SameForm _ _ _ (.block es (renoteAll _ ss) b tags)
      rw [renoteAll_eq_map]
      refine .block es b tags (List.forall₂_map_right_iff.2 (List.forall₂_same.2 ?_))
      exact fun y _ => hparts y
  | loop es body i tags => exact .loop es tags (hparts body) trivial
  | switch es body tags => exact .switch es tags (hparts body)
  | cond es yes no tags =>
      cases no with
      | none => exact .cond es tags (hparts yes) .none
      | some no => exact .cond es tags (hparts yes) (.some (hparts no))

theorem formal_alike : Stmt.Formal Alike where
  opened := by
    intro x y h
    have hx := sameForm_forgotten x
    have hy := sameForm_forgotten y
    rw [← show x.forgotten = y.forgotten from h] at hy
    generalize x.forgotten = z at hx hy
    cases hx with
    | basic es tags =>
        cases hy
        exact .basic es tags
    | raw es src tags =>
        cases hy
        exact .raw es src tags
    | block es b tags hss =>
        cases hy with
        | block _ _ _ hss' =>
            refine .block es b tags (forall₂_alike_iff.2 ?_)
            exact (forall₂_alike_iff.1 hss).trans (forall₂_alike_iff.1 hss').symm
    | loop es tags hbody _ =>
        cases hy with
        | loop _ _ hbody' _ => exact .loop es tags (hbody.trans hbody'.symm) trivial
    | switch es tags hbody =>
        cases hy with
        | switch _ _ hbody' => exact .switch es tags (hbody.trans hbody'.symm)
    | cond es tags hyes hno =>
        cases hy with
        | cond _ _ hyes' hno' =>
            refine .cond es tags (hyes.trans hyes'.symm) ?_
            cases hno with
            | none =>
                cases hno'
                exact .none
            | some hno =>
                cases hno' with
                | some hno' => exact .some (hno.trans hno'.symm)
  closed := by
    intro x y h
    cases h with
    | basic | raw => rfl
    | @block ss ss' es b tags hss =>
        show Stmt.block es (renoteAll _ ss) b tags = .block es (renoteAll _ ss') b tags
        rw [renoteAll_eq_map, renoteAll_eq_map]
        exact congrArg (Stmt.block es · b tags) (forall₂_alike_iff.1 hss)
    | loop es tags hbody _ => exact congrArg (Stmt.loop es · none tags) hbody
    | switch es tags hbody => exact congrArg (Stmt.switch es · tags) hbody
    | cond es tags hyes hno =>
        cases hno with
        | none => exact congrArg (Stmt.cond es · none tags) hyes
        | some hno => exact congrArg₂ (fun yes no => Stmt.cond es yes (some no) tags) hyes hno

theorem sizeList_map {ss : List Stmt} {g : Stmt → Stmt} (h : ∀ s ∈ ss, (g s).size = s.size) :
    sizeList (ss.map g) = sizeList ss := by
  induction ss with
  | nil => rfl
  | cons s ss ih =>
      obtain ⟨hs, hss⟩ := List.forall_mem_cons.1 h
      rw [List.map_cons, sizeList, sizeList, hs, ih hss]

theorem size_renote (f : Notes → Notes) (s : Stmt) : (s.renote f).size = s.size := by
  induction s using Stmt.inductionOn with
  | basic | raw => rfl
  | block es ss b tags ih => rw [renote, renoteAll_eq_map, size, sizeList_map ih, size]
  | loop es body i tags ih => rw [renote, size, ih, size]
  | cond es yes no tags ihyes ihno =>
      cases no with
      | none => rw [renote, size, ihyes, size]
      | some no => rw [renote, size, ihyes, ihno no rfl, size]
  | switch es body tags ih => rw [renote, size, ih, size]

theorem Alike.size {x y : Stmt} (h : x.Alike y) : x.size = y.size := by
  rw [← size_renote _ x, ← size_renote _ y]
  exact congrArg Stmt.size h

theorem Alike.print {x y : Stmt} (h : x.Alike y) : x.print = y.print := by
  rw [← print_renote _ x, ← print_renote _ y]
  exact congrArg Stmt.print h

end Stmt

namespace Loop

/-- The loops have the same clauses, and the same body up to what the loops
inside remember. -/
structure Alike (l p : Loop) : Prop where
  clauses : l.clauses = p.clauses
  body : l.body.Alike p.body

theorem Alike.refl (l : Loop) : l.Alike l := ⟨rfl, rfl⟩

/-! ## §2. The analysis does not see what loops remember. -/

namespace Query

variable {α β : Type} {A : Loop → Prop} {t : Option Level}

/-- To all loops of a class the question has this answer.  It does not change
what a loop remembers, and with an answer it leaves a loop of the class. -/
def Answers (A : Loop → Prop) (t : Option Level) (q : Query α) (x : Except Stop α) : Prop :=
  ∀ l, A l → (q l t).2.2 = x ∧ (q l t).2.1.induction = l.induction
    ∧ ∀ a, x = .ok a → A (q l t).2.1

/-- To all loops of a class the question has the same answer. -/
def Blind (A : Loop → Prop) (t : Option Level) (q : Query α) : Prop := ∃ x, q.Answers A t x

theorem blind_pure (a : α) : (pure a : Query α).Blind A t :=
  ⟨.ok a, fun _ hl => ⟨rfl, rfl, fun _ _ => hl⟩⟩

theorem blind_fail (e : Error) : (fail e : Query α).Blind A t :=
  ⟨.error (.error e), fun _ hl => ⟨rfl, rfl, fun _ _ => hl⟩⟩

theorem blind_ofExcept (x : Except Error α) : (ofExcept x).Blind A t := by
  cases x with
  | ok a => exact blind_pure a
  | error e => exact blind_fail e

theorem blind_run (x : Run α) : (liftM x : Query α).Blind A t := by
  rcases hx : x t with ⟨events, f | a⟩
  on_goal 1 => refine ⟨.error (.fault f), fun l hl => ?_⟩
  on_goal 2 => refine ⟨.ok a, fun l hl => ?_⟩
  all_goals
    show (ofRun x l t).2.2 = _ ∧ (ofRun x l t).2.1.induction = _ ∧ ∀ a, _ → A (ofRun x l t).2.1
    unfold ofRun
    rw [hx]
    exact ⟨rfl, rfl, fun _ _ => hl⟩

theorem Blind.bind {q : Query α} {f : α → Query β} (hq : q.Blind A t)
    (hf : ∀ a, (f a).Blind A t) : (q >>= f).Blind A t := by
  obtain ⟨x, hx⟩ := hq
  cases x with
  | error stop =>
      refine ⟨.error stop, fun l hl => ?_⟩
      obtain ⟨hanswer, hinduction, _⟩ := hx l hl
      rw [bind_apply]
      rcases hql : q l t with ⟨events, l', answer⟩
      rw [hql] at hanswer hinduction
      obtain rfl : answer = .error stop := hanswer
      exact ⟨rfl, hinduction, fun _ h => nomatch h⟩
  | ok a =>
      obtain ⟨y, hy⟩ := hf a
      refine ⟨y, fun l hl => ?_⟩
      obtain ⟨hanswer, hinduction, hclass⟩ := hx l hl
      rw [bind_apply]
      rcases hql : q l t with ⟨events, l', answer⟩
      rw [hql] at hanswer hinduction hclass
      obtain rfl : answer = .ok a := hanswer
      obtain ⟨hanswer', hinduction', hclass'⟩ := hy l' (hclass a rfl)
      exact ⟨hanswer', hinduction'.trans hinduction, hclass'⟩

/-- A question that goes on alike with all loops of the class. -/
theorem blind_loop {f : Loop → Query β} {p : Loop} (hf : ∀ l, A l → f l = f p)
    (hp : (f p).Blind A t) : (loop >>= f).Blind A t := by
  obtain ⟨y, hy⟩ := hp
  refine ⟨y, fun l hl => ?_⟩
  have hfirst : ((loop >>= f) l t).2 = (f p l t).2 := by
    rw [← hf l hl]
    rfl
  rw [hfirst]
  exact hy l hl

theorem blind_clause {p : Loop} (hA : ∀ l, A l → l.clauses = p.clauses) (c : Clause) :
    (clause c).Blind A t := by
  have hclause : ∀ l, A l → l.clause c = p.clause c := by
    intro l hl
    unfold Loop.clause
    rw [hA l hl]
  exact blind_loop (p := p) (fun l hl => by rw [hclause l hl]) (blind_run _)

end Query

open Query (Blind blind_pure blind_fail blind_run blind_loop blind_clause blind_ofExcept)

/-- The increment clause is judged by the clauses alone. -/
theorem ofIncrement_blind {A : Loop → Prop} {p : Loop} (hA : ∀ l, A l → l.clauses = p.clauses)
    (t : Option Level) : ofIncrement.Blind A t := by
  refine (blind_clause hA .increment).bind fun increment => ?_
  split
  · exact (blind_clause hA .test).bind fun test => (blind_run _).bind fun _ => blind_ofExcept _
  · exact blind_pure none

theorem scanner_abreast : Visitor.Abreast Eq Stmt.Alike scanner scanner where
  exprs :=
    { before := by
        rintro s _ site site' rfl hsite
        rw [hsite.eq]
        exact Run.Abreast.refl (fun r => ⟨rfl, Site.Abreast.refl _, rfl⟩) _
      after := fun hs hsite => Run.abreast_pure ⟨hs, hsite, rfl⟩
      enter := fun hs hq => Run.abreast_pure ⟨hs, hq⟩
      leave := fun hs hq => Run.abreast_pure ⟨hs, hq⟩ }
  stmts :=
    { before := fun hs hsite => Run.abreast_pure ⟨hs, hsite, rfl⟩
      after := fun hs hsite => Run.abreast_pure ⟨hs, hsite, rfl⟩
      enter := fun hs hq => Run.abreast_pure ⟨hs, hq⟩
      leave := fun hs hq => Run.abreast_pure ⟨hs, hq⟩ }
  beforeBlock := fun hs hb => Run.abreast_pure ⟨hs, hb, rfl⟩
  afterBlock := fun hs hb => Run.abreast_pure ⟨hs, hb, rfl⟩
  descends := fun hs _ => Run.abreast_pure ⟨hs, rfl⟩

theorem scan_blind (t : Option Level) (p : Loop) : scan.Blind (·.Alike p) t := by
  refine ⟨(scan p t).2.2, fun l hl => ?_⟩
  have hsteps : (Node.stmt l.body).steps = (Node.stmt p.body).steps :=
    congrArg (· + 2) hl.body.size
  have hwalk := (Stmt.accept_abreast scanner_abreast Stmt.formal_alike
    (Node.stmt p.body).steps (Eq.refl []) hl.body t).2
  have hlook := scanner_fades (Node.stmt p.body).steps [] l.body t
  unfold scan
  rw [hsteps]
  generalize Stmt.accept scanner (Node.stmt p.body).steps [] l.body t = r at hwalk hlook
  generalize Stmt.accept scanner (Node.stmt p.body).steps [] p.body t = r' at hwalk
  obtain ⟨events, value⟩ := r
  obtain ⟨events', value'⟩ := r'
  cases hwalk with
  | error f => exact ⟨rfl, rfl, fun _ h => nomatch h⟩
  | @ok r r' hr =>
      refine ⟨?_, rfl, fun _ _ => ⟨hl.clauses, ?_⟩⟩
      · dsimp only
        rw [hr.failure, hr.state]
      · exact (hlook r rfl).tree.trans hl.body

theorem ofBody_blind (t : Option Level) (p : Loop) : ofBody.Blind (·.Alike p) t := by
  refine (scan_blind t p).bind fun found => ?_
  match single found with
  | [] =>
      refine blind_loop (p := p) (fun l hl => ?_) ((blind_run _).bind fun _ => blind_pure none)
      dsimp only
      rw [hl.body.print]
  | [i] => exact blind_pure (some i)
  | i :: j :: others =>
      refine (blind_clause (fun _ hl => Alike.clauses hl) .test).bind fun test => ?_
      split
      · exact blind_pure _
      · exact blind_fail _

/-- The analysis finds the same in loops that differ in memory only. -/
theorem analyse_blind (t : Option Level) (p : Loop) : analyse.Blind (·.Alike p) t := by
  refine (ofIncrement_blind (fun _ hl => Alike.clauses hl) t).bind ?_
  rintro (_ | i)
  on_goal 1 => refine (ofBody_blind t p).bind ?_
  on_goal 2 => refine (blind_pure (some i)).bind ?_
  -- Both ways end with the report of what was found.
  all_goals
    rintro (_ | i)
    · exact blind_pure _
    · exact (blind_run _).bind fun _ => blind_pure _

/-! ## §3. The handling of a loop. -/

/-- What the analysis finds in a loop, whatever the loop remembers. -/
def afresh (t : Option Level) (l : Loop) : Except Stop (Option Induction) :=
  (analyse l.forget t).2.2

/-- To read a loop: to ask about it, to copy it, or to write it with a
visitor that only looks. -/
inductive Reads (t : Option Level) : Loop → Loop → Prop where
  | drive (l : Loop) : Reads t l (drive l t).2.1
  | limit (l : Loop) : Reads t l (limit l t).2.1
  | copy (l : Loop) : Reads t l l
  | print {σ : Type} {v : Visitor σ} {fuel : Nat} {s : σ} {r : Step σ (Written Stmt)}
      {l l' : Loop} : v.LooksOnly → (l.toStmt.printWith v fuel s t).2 = .ok r →
      r.value.value = l'.toStmt → Reads t l l'

/-- To open a loop for a change: of a clause, of any of its expressions, or
of the whole of it by a visitor, whether the visitor fails or not. -/
inductive Opens (t : Option Level) : Loop → Loop → Prop where
  | editClause (l : Loop) (c : Clause) (f : Expr → Expr) : Opens t l (l.editClause c f).1
  | setClause {l l' : Loop} {c : Clause} {e : Expr} : l.setClause c e = .ok l' → Opens t l l'
  | withExprs {l l' : Loop} {es : List Expr} : l.toStmt.withExprs es = l'.toStmt → Opens t l l'
  | editPart {l l' : Loop} {n : Nat} {f : Expr → Expr} : (l.toStmt.editPart n f).1 = l'.toStmt →
      Opens t l l'
  | addExpr {l l' : Loop} {e : Expr} : l.toStmt.addExpr e = l'.toStmt → Opens t l l'
  | popExpr {l l' : Loop} : l.toStmt.popExpr.1 = l'.toStmt → Opens t l l'
  | accept {σ : Type} {v : Visitor σ} {fuel : Nat} {s : σ} {r : Step σ Stmt} {l l' : Loop} :
      (l.toStmt.accept v fuel s t).2 = .ok r → r.value = l'.toStmt → Opens t l l'

/-- To change the body of a loop behind its back: to put another one there,
or to write the loop with a visitor that leaves the clauses as they are. -/
inductive EditsBody (t : Option Level) : Loop → Loop → Prop where
  | setBody (l : Loop) (body : Stmt) : EditsBody t l (l.setBody body)
  | print {σ : Type} {v : Visitor σ} {fuel : Nat} {s : σ} {r : Step σ (Written Stmt)}
      {l l' : Loop} : (l.toStmt.printWith v fuel s t).2 = .ok r → r.value.value = l'.toStmt →
      l'.clauses = l.clauses → EditsBody t l l'

/-- To read a loop or to open it. -/
def Uses (t : Option Level) (l l' : Loop) : Prop := Reads t l l' ∨ Opens t l l'

/-- To do anything with a loop. -/
def Handles (t : Option Level) (l l' : Loop) : Prop := Uses t l l' ∨ EditsBody t l l'

/-! ## §4. One step. -/

theorem toStmt_injective {l l' : Loop} (h : l.toStmt = l'.toStmt) : l = l' := by
  have hloop := congrArg Stmt.loop? h
  rw [loop?_toStmt, loop?_toStmt] at hloop
  exact Option.some.inj hloop

theorem afresh_of_alike {l p : Loop} (h : l.Alike p) (t : Option Level) :
    l.afresh t = p.afresh t := by
  obtain ⟨x, hx⟩ := analyse_blind t p.forget
  have hl : l.forget.Alike p.forget := ⟨h.clauses, h.body⟩
  exact (hx _ hl).1.trans (hx _ (Alike.refl _)).1.symm

theorem drive_of_remembered {l : Loop} {i : Induction} (h : l.induction = some i)
    (t : Option Level) : (drive l t).2.1 = l := by
  obtain ⟨clauses, body, induction, tags⟩ := l
  obtain rfl : induction = some i := h
  rfl

/-- A loop that remembers nothing remembers what is found. -/
theorem drive_of_forgotten {l : Loop} (h : l.induction = none) {t : Option Level} {i : Induction}
    (hi : (drive l t).2.1.induction = some i) :
    (drive l t).2.1.Alike l ∧ l.afresh t = .ok (some i) := by
  have hdrive : (drive l t).2 = ((do
      let found ← analyse
      Query.modify fun l => { l with induction := found }
      return found : Query (Option Induction)) l t).2 := by
    obtain ⟨clauses, body, induction, tags⟩ := l
    obtain rfl : induction = none := h
    rfl
  rw [hdrive, Query.bind_apply] at hi ⊢
  obtain ⟨x, hx⟩ := analyse_blind t l
  obtain ⟨hanswer, hinduction, halike⟩ := hx l (Alike.refl l)
  have hafresh : l.afresh t = x := (hx l.forget ⟨rfl, rfl⟩).1
  rcases hl : analyse l t with ⟨events, l', answer⟩
  rw [hl] at hi hanswer hinduction halike
  obtain rfl : answer = x := hanswer
  cases answer with
  | error stop =>
      have hnone : l'.induction = none := hinduction.trans h
      exact absurd (hnone.symm.trans hi) nofun
  | ok found =>
      obtain rfl : found = some i := hi
      have hlike : l'.Alike l := halike _ rfl
      exact ⟨⟨hlike.clauses, hlike.body⟩, hafresh⟩

namespace Query

variable {α β : Type}

/-- The question leaves every loop as it is. -/
def Leaves (q : Query α) : Prop := ∀ l t, (q l t).2.1 = l

theorem leaves_pure (a : α) : (pure a : Query α).Leaves := fun _ _ => rfl

theorem leaves_ofExcept (x : Except Error α) : (ofExcept x).Leaves := by
  cases x with
  | ok a => exact leaves_pure a
  | error e => exact fun _ _ => rfl

theorem leaves_run (x : Run α) : (liftM x : Query α).Leaves := by
  intro l t
  show (ofRun x l t).2.1 = l
  unfold ofRun
  rcases x t with ⟨events, f | a⟩ <;> rfl

theorem Leaves.bind {q : Query α} {f : α → Query β} (hq : q.Leaves) (hf : ∀ a, (f a).Leaves) :
    (q >>= f).Leaves := by
  intro l t
  rw [bind_apply]
  have hleft := hq l t
  rcases hql : q l t with ⟨events, l', stop | a⟩
  · rwa [hql] at hleft
  · rw [hql] at hleft
    exact (hf a l' t).trans hleft

theorem leaves_clause (c : Clause) : (clause c).Leaves :=
  Leaves.bind (fun _ _ => rfl) fun _ => leaves_run _

end Query

/-- The question for the bound asks what drives the loop, and changes
nothing else. -/
theorem limit_leaves (l : Loop) (t : Option Level) : (limit l t).2.1 = (drive l t).2.1 := by
  unfold limit
  rw [Query.bind_apply]
  rcases drive l t with ⟨events, l', stop | found⟩
  · rfl
  · cases found with
    | none => rfl
    | some i =>
        refine Query.Leaves.bind (Query.leaves_clause .test) (fun test => ?_) l' t
        split
        · exact Query.leaves_pure ""
        · exact (Query.leaves_run _).bind fun _ => Query.leaves_ofExcept _

section

variable {σ α β : Type} {c : Prop} {R : α → α → Prop}

theorem thenWrite_leads {r : Step σ (Written α)} {rebuild : α → β} {mark : String}
    {next : σ → α → Run (Step σ (Written β))} {Q : β → Prop} (hrebuild : Q (rebuild r.value.value))
    (hnext : Leads c (next r.state r.value.value) fun q => Q q.value.value) :
    Leads c (r.thenWrite rebuild mark next) fun q => Q q.value.value := by
  unfold Step.thenWrite
  cases r.failure with
  | some e => exact leads_pure hrebuild
  | none => exact hnext.bind fun q hq => leads_pure hq

theorem writeList_leads {accept : σ → α → Run (Step σ α)} (hR : ∀ x, R x x)
    (haccept : ∀ s x, Leads c (accept s x) fun r => R x r.value) (separator : String) (s : σ)
    (xs : List α) :
    Leads c (writeList accept separator s xs) fun r => Forall₂ R xs r.value.value := by
  induction xs generalizing s with
  | nil => exact leads_pure .nil
  | cons x xs ih =>
      cases xs with
      | nil => exact (haccept s x).bind fun r hr => leads_pure (.cons hr .nil)
      | cons y ys =>
          refine (haccept s x).bind fun r hr => thenWrite_leads ?_ ?_
          · exact .cons hr (List.forall₂_same.2 fun z _ => hR z)
          · exact (ih r.state).bind fun q hq => leads_pure (.cons hr hq)

end

/-- The statement is the loop with other clauses and another body, each in a
relation to what it was. -/
def Recast (RE : Expr → Expr → Prop) (RB : Stmt → Stmt → Prop) (l : Loop) (x : Stmt) : Prop :=
  ∃ clauses body, Forall₂ RE l.clauses clauses ∧ RB l.body body
    ∧ x = (Loop.mk clauses body l.induction l.tags).toStmt

/-- Writing a loop with a visitor leaves a loop with the same notes.  Its
clauses and its body are what the walks make of them. -/
theorem printWith_leads {σ : Type} {v : Visitor σ} {fuel : Nat} {RE : Expr → Expr → Prop}
    {RB : Stmt → Stmt → Prop} (hRE : ∀ e, RE e e) (hRB : ∀ x, RB x x)
    (hexpr : ∀ s e, Leads False (Expr.accept v fuel s e) fun r => RE e r.value)
    (hstmt : ∀ s x, Leads False (Stmt.accept v fuel s x) fun r => RB x r.value) (s : σ) (l : Loop) :
    Leads False (l.toStmt.printWith v fuel s) fun r => l.Recast RE RB r.value.value := by
  obtain ⟨clauses, body, i, tags⟩ := l
  match clauses with
  | [] | [_] | [_, _] => exact Run.leads_fault _ nofun
  | decl :: test :: increment :: others =>
      have hothers : Forall₂ RE others others := List.forall₂_same.2 fun e _ => hRE e
      refine (writeList_leads hRE hexpr "; " s [decl, test, increment]).bind fun r hr => ?_
      refine Leads.bind (P := fun r : Step σ (Written Stmt) => Recast RE RB
        ⟨decl :: test :: increment :: others, body, i, tags⟩ r.value.value) ?_
        fun q hq => leads_pure hq
      refine thenWrite_leads ⟨_, body, List.rel_append hr hothers, hRB body, rfl⟩ ?_
      refine (hstmt r.state body).bind fun q hq => leads_pure ?_
      exact ⟨_, q.value, List.rel_append hr hothers, hq, rfl⟩

/-- A walk leaves a loop that remembers nothing. -/
theorem accept_leads {σ : Type} (v : Visitor σ) (fuel : Nat) (s : σ) (l : Loop) :
    Leads False (l.toStmt.accept v fuel s) fun r => ∃ clauses body,
      r.value = (Loop.mk clauses body none l.tags).toStmt := by
  cases fuel with
  | zero => exact Run.leads_fault _ nofun
  | succ fuel =>
      refine (Run.leads_any (v.visitExprs fuel s l.clauses)).bind fun r _ => ?_
      refine Step.leads_andThen (fun e => ⟨_, _, rfl⟩) ?_
      exact (Run.leads_any (visitSlot _ r.state l.body)).bind fun q _ => leads_pure ⟨_, _, rfl⟩

theorem editClause_forgets (l : Loop) (c : Clause) (f : Expr → Expr) :
    (l.editClause c f).1.induction = none := by
  unfold editClause
  split <;> rfl

theorem setClause_forgets {l l' : Loop} {c : Clause} {e : Expr} (h : l.setClause c e = .ok l') :
    l'.induction = none := by
  have hedit := l.editClause_forgets c fun _ => e
  unfold setClause at h
  split at h
  · rename_i l'' _ heq
    rw [heq] at hedit
    cases h
    exact hedit
  · cases h

theorem withExprs_forgets {l l' : Loop} {es : List Expr}
    (h : l.toStmt.withExprs es = l'.toStmt) : l'.induction = none := by
  have hloop : (Loop.mk es l.body none l.tags).toStmt = l'.toStmt := h
  exact congrArg Loop.induction (toStmt_injective hloop.symm)

/-- A loop that is opened forgets. -/
theorem Opens.forgets {t : Option Level} {l l' : Loop} (h : Opens t l l') :
    l'.induction = none := by
  cases h with
  | editClause _ c f => exact l.editClause_forgets c f
  | setClause h => exact setClause_forgets h
  | withExprs h => exact withExprs_forgets h
  | addExpr h => exact withExprs_forgets h
  | popExpr h => exact withExprs_forgets h
  | editPart h =>
      unfold Stmt.editPart at h
      split at h
      · exact withExprs_forgets h
      · exact withExprs_forgets h
  | accept haccept h =>
      obtain ⟨clauses, body, hvalue⟩ := (accept_leads _ _ _ l).ensures t _ haccept
      exact congrArg Loop.induction (toStmt_injective (h.symm.trans hvalue))

/-- What a loop that was read remembers is what it remembered before or what
an analysis has just found; clauses and body are as they were. -/
theorem Reads.remembers {t : Option Level} {l l' : Loop} {i : Induction} (h : Reads t l l')
    (hi : l'.induction = some i) :
    l'.Alike l ∧ (l.induction = some i ∨ l.induction = none ∧ l.afresh t = .ok (some i)) := by
  -- The question for the bound leaves the same loop as the question for the variable.
  have hdrive : ∀ {l' : Loop}, (Loop.drive l t).2.1 = l' → l'.induction = some i →
      l'.Alike l ∧ (l.induction = some i ∨ l.induction = none ∧ l.afresh t = .ok (some i)) := by
    rintro _ rfl hi
    cases hl : l.induction with
    | some j =>
        rw [drive_of_remembered hl] at hi ⊢
        exact ⟨Alike.refl l, .inl (hl.symm.trans hi)⟩
    | none =>
        obtain ⟨halike, hafresh⟩ := drive_of_forgotten hl hi
        exact ⟨halike, .inr ⟨rfl, hafresh⟩⟩
  cases h with
  | drive => exact hdrive rfl hi
  | limit => exact hdrive (limit_leaves l t).symm hi
  | copy => exact ⟨Alike.refl l, .inl hi⟩
  | @print σ v fuel s r _ _ hv hprint hvalue =>
      have hexpr : ∀ s e, Leads False (Expr.accept v fuel s e) fun r => e = r.value :=
        fun s _ => Expr.accept_leads hv nofun nofun s
      have hstmt : ∀ s x, Leads False (Stmt.accept v fuel s x) fun r => x.Fades r.value :=
        fun s _ => Stmt.accept_leads hv nofun nofun s
      obtain ⟨clauses, body, hclauses, hbody, hloop⟩ :=
        (printWith_leads (fun _ => rfl) Stmt.Fades.refl hexpr hstmt s l).ensures t r hprint
      obtain rfl := toStmt_injective (hvalue.symm.trans hloop)
      rw [List.forall₂_eq_eq_eq] at hclauses
      exact ⟨⟨hclauses.symm, hbody.tree⟩, .inl hi⟩

/-- A loop whose body is changed keeps its clauses and what it remembers. -/
theorem EditsBody.keeps {t : Option Level} {l l' : Loop} (h : EditsBody t l l') :
    l'.clauses = l.clauses ∧ l'.induction = l.induction := by
  cases h with
  | setBody => exact ⟨rfl, rfl⟩
  | @print σ v fuel s r _ _ hprint hvalue hclauses =>
      have hprinted : Leads False (l.toStmt.printWith v fuel s) fun r =>
          l.Recast (fun _ _ => True) (fun _ _ => True) r.value.value :=
        printWith_leads (fun _ => trivial) (fun _ => trivial) (fun _ _ => Run.leads_any _)
          (fun _ _ => Run.leads_any _) s l
      obtain ⟨clauses, body, _, _, hloop⟩ := hprinted.ensures t r hprint
      refine ⟨hclauses, ?_⟩
      rw [toStmt_injective (hvalue.symm.trans hloop)]

/-! ## §5. Many steps. -/

section

variable {t : Option Level} {l₀ l : Loop} {i : Induction}

/-- Where no body is changed, the loop remembers what would be found. -/
theorem afresh_of_uses (h₀ : l₀.induction = none) (huses : ReflTransGen (Uses t) l₀ l)
    (hi : l.induction = some i) : l.afresh t = .ok (some i) := by
  induction huses with
  | refl => exact absurd (h₀.symm.trans hi) nofun
  | tail _ huse ih =>
      -- Reading keeps what would be found; opening leaves nothing remembered.
      rcases huse with hread | hopen
      · obtain ⟨halike, hbefore⟩ := hread.remembers hi
        rw [afresh_of_alike halike]
        rcases hbefore with hbefore | ⟨_, hfound⟩
        · exact ih hbefore
        · exact hfound
      · exact absurd (hopen.forgets.symm.trans hi) nofun

/-- Whatever is done to a loop, it remembers what would be found with the
body that it had when it last remembered nothing. -/
theorem afresh_with_body (h₀ : l₀.induction = none) (hhandles : ReflTransGen (Handles t) l₀ l)
    (hi : l.induction = some i) :
    ∃ mid, ReflTransGen (Handles t) l₀ mid ∧ mid.induction = none
      ∧ ReflTransGen (fun l l' => Reads t l l' ∨ EditsBody t l l') mid l
      ∧ (l.setBody mid.body).afresh t = .ok (some i) := by
  induction hhandles with
  | refl => exact absurd (h₀.symm.trans hi) nofun
  | @tail l l' hsteps hstep ih =>
      -- The clauses do not change while the loop remembers.
      have hkept : ∀ {mid : Loop}, l'.clauses = l.clauses →
          (l.setBody mid.body).afresh t = .ok (some i) →
          (l'.setBody mid.body).afresh t = .ok (some i) := by
        intro mid hclauses hfound
        have halike : (l'.setBody mid.body).Alike (l.setBody mid.body) := ⟨hclauses, rfl⟩
        rwa [afresh_of_alike halike]
      rcases hstep with (hread | hopen) | hedit
      · obtain ⟨halike, hbefore | ⟨hnone, hfound⟩⟩ := hread.remembers hi
        · obtain ⟨mid, hreach, hmid, hsince, hfound⟩ := ih hbefore
          exact ⟨mid, hreach, hmid, hsince.tail (.inl hread), hkept halike.clauses hfound⟩
        · exact ⟨l, hsteps, hnone, .single (.inl hread), hkept halike.clauses hfound⟩
      · exact absurd (hopen.forgets.symm.trans hi) nofun
      · obtain ⟨hclauses, hinduction⟩ := hedit.keeps
        obtain ⟨mid, hreach, hmid, hsince, hfound⟩ := ih (hinduction.symm.trans hi)
        exact ⟨mid, hreach, hmid, hsince.tail (.inr hedit), hkept hclauses hfound⟩

/-- Where the increment clause has something to say, the analysis says
that. -/
theorem analyse_of_increment {x : Except Stop (Option Induction)} (hx : x ≠ .ok none)
    (h : (ofIncrement l t).2.2 = x) : (analyse l t).2.2 = x := by
  unfold analyse
  rw [Query.bind_apply]
  rcases hl : ofIncrement l t with ⟨events, l', answer⟩
  rw [hl] at h
  obtain rfl : answer = x := h
  match answer with
  | .error stop => rfl
  | .ok none => exact absurd rfl hx
  | .ok (some i) =>
      -- The report of what was found is said under some thresholds only.
      rcases t with _ | _ | _ | _ <;> rfl

/-- Then the body does not matter. -/
theorem afresh_of_increment {body : Stmt} (hclause : (ofIncrement l t).2.2 ≠ .ok none)
    (h : (l.setBody body).afresh t = .ok (some i)) : l.afresh t = .ok (some i) := by
  obtain ⟨x, hx⟩ := ofIncrement_blind (A := fun k => k.clauses = l.clauses) (fun _ hk => hk) t
  have hnone : x ≠ .ok none := fun hnone => hclause ((hx l rfl).1.trans hnone)
  have hedited : (l.setBody body).afresh t = x :=
    analyse_of_increment hnone (hx (l.setBody body).forget rfl).1
  have hnow : l.afresh t = x := analyse_of_increment hnone (hx l.forget rfl).1
  rw [hnow, ← hedited, h]

end

/-- **A loop remembers what would be found.**  Start with a loop that
remembers nothing.  As long as the loop is read and opened, what it remembers
is what the analysis finds in it afresh.  If its body is changed as well,
this holds with the body that the loop had when it last remembered nothing,
after which the loop was only read and its body changed; and where the
increment clause has something to say, with any body. -/
theorem remembered_is_found_afresh (t : Option Level) {l₀ l : Loop} {i : Induction}
    (h₀ : l₀.induction = none) (hi : l.induction = some i) :
    (ReflTransGen (Uses t) l₀ l → l.afresh t = .ok (some i))
      ∧ (ReflTransGen (Handles t) l₀ l →
          (∃ mid, ReflTransGen (Handles t) l₀ mid ∧ mid.induction = none
            ∧ ReflTransGen (fun l l' => Reads t l l' ∨ EditsBody t l l') mid l
            ∧ (l.setBody mid.body).afresh t = .ok (some i))
          ∧ ((ofIncrement l t).2.2 ≠ .ok none → l.afresh t = .ok (some i))) := by
  refine ⟨fun huses => afresh_of_uses h₀ huses hi, fun hhandles => ?_⟩
  obtain ⟨mid, hreach, hmid, hsince, hfound⟩ := afresh_with_body h₀ hhandles hi
  exact ⟨⟨mid, hreach, hmid, hsince, hfound⟩, fun hclause => afresh_of_increment hclause hfound⟩

/-- A loop that was asked, whose test was opened, and that was asked again. -/
theorem remembered_is_found_afresh_reopened :
    let l₀ : Loop := ⟨[.nil, .chain [.ident "i", .op "<", .ident "n"], .nil],
      .ofExpr (.chain [.ident "i", .op "+=", .lit "2"]), none, {}⟩
    let opened := ((Loop.drive l₀ none).2.1.editClause .test fun _ => .ident "n").1
    let l := (Loop.drive opened none).2.1
    let i : Induction := ⟨"i", .increasing, "i += 2", "2"⟩
    l₀.induction = none ∧ (Loop.drive l₀ none).2.1.induction = some i ∧ l.induction = some i
      ∧ ReflTransGen (Uses none) l₀ l ∧ l.afresh none = .ok (some i) := by
  intro l₀ opened l i
  have hi : l.induction = some i := by decide +kernel
  have huses : ReflTransGen (Uses none) l₀ l :=
    ((ReflTransGen.single (.inl (.drive l₀))).tail (.inr (.editClause _ .test _))).tail
      (.inl (.drive opened))
  exact ⟨rfl, by decide +kernel, hi, huses, (remembered_is_found_afresh none rfl hi).1 huses⟩

/-- With another body, a loop goes on to remember the variable of the old
one. -/
theorem remembered_is_stale_after_setBody :
    let moving := fun name => Stmt.ofBlock ⟨[.ofExpr (.chain [.ident name, .op "++"])], {}⟩
    let l₀ : Loop := ⟨[.nil, .chain [.ident "i", .op "<", .ident "n"], .nil], moving "i", none, {}⟩
    let l := (Loop.drive l₀ none).2.1.setBody (moving "j")
    Stmt.parse "for(; i < n; ) \x7b i ++; \x7d" {} = .ok l₀.toStmt
      ∧ l₀.induction = none ∧ ReflTransGen (Handles none) l₀ l
      ∧ l.induction = some ⟨"i", .increasing, "i ++", "1"⟩
      ∧ l.afresh none = .ok (some ⟨"j", .increasing, "j ++", "1"⟩) := by
  intro moving l₀ l
  have hhandles : ReflTransGen (Handles none) l₀ l :=
    (ReflTransGen.single (.inl (.inl (.drive l₀)))).tail (.inr (.setBody _ (moving "j")))
  exact ⟨by decide +kernel, rfl, hhandles, by decide +kernel, by decide +kernel⟩

end Loop

end RuleBody
