/-
  RuleBody.Proofs.Meaning
  ───────────────────────
  **WHAT A STATEMENT DOES.**

  A store maps names to integers of any size.  Arithmetic, comparisons and
  the common assignments mean what they say; what every other expression
  means is left to an interpretation, so that a result for all
  interpretations holds for all calls, subscripts and declarations.

      1 + 2 * (n - i)       — `value?`
      i + 4 < n             — `truth?`
      i++, i += 2, i = 2*n  — `assign?`

  A statement ends in one of four ways.  `Exec` relates the store before it
  with the way it ends and the store behind; a statement that does not end
  is related to nothing.

  §1  expressions;
  §2  statements;
  §3  runs;
  §4  rounds.
-/
import Mathlib.Logic.Function.Iterate
import Mathlib.Tactic.Linarith
import Mathlib.Tactic.Ring
import RuleBody.Induction.Increment
import RuleBody.Number.Read
import RuleBody.Stmt

namespace RuleBody

/-! ## §1. Expressions. -/

/-- The values of names. -/
abbrev Store : Type := String → Int

/-- The store with another value for one name. -/
def Store.set (σ : Store) (name : String) (n : Int) : Store :=
  fun other => if other = name then n else σ other

theorem Store.set_self (σ : Store) (name : String) (n : Int) : σ.set name n name = n := if_pos rfl

theorem Store.set_of_ne (σ : Store) {name other : String} (n : Int) (h : other ≠ name) :
    σ.set name n other = σ other := if_neg h

theorem Store.set_eq_self (σ : Store) (name : String) : σ.set name (σ name) = σ := by
  funext other
  unfold set
  split
  · rename_i h
    rw [h]
  · rfl

/-- The meaning of all that is not arithmetic. -/
structure Interp where
  /-- The value of a literal that is not made of digits only, such as `0x10`
  or `2L`; none if it is not an integer. -/
  literal : String → Option Int
  /-- The value of an expression. -/
  value : Expr → Store → Int
  /-- What the evaluation of an expression does to the store. -/
  effect : Expr → Store → Store
  /-- What a line that is passed through does to the store. -/
  line : String → Store → Store

namespace Interp

variable (I : Interp)

/-- The value of an integer literal; one of digits only is decimal. -/
def number? (text : String) : Option Int :=
  if text.toList ≠ [] ∧ text.toList.all Char.isDigit = true then
    some (Number.ofDigits text.toList)
  else I.literal text

variable (σ : Store)

mutual

/-- The value of an arithmetic expression. -/
def value? : Expr → Option Int
  | ⟨.ident, name, [], _⟩ => some (σ name)
  | ⟨.lit, text, [], _⟩ => I.number? text
  | ⟨.chain, _, parts, _⟩ => sum? parts
  | _ => none

/-- The value of some parts: one parenthesis, or operands and operators in
turn. -/
def sum? : List Expr → Option Int
  | [] => none
  | p :: ps =>
      if p.isLeafText "(" then
        match ps with
        | [inner, close] => if close.isLeafText ")" then value? inner else none
        | _ => none
      else
        match value? p with
        | some n => more? 0 n ps
        | none => none

/-- Go on behind an operand: `done` is the sum of the terms that are
complete, `term` the product so far. -/
def more? : Int → Int → List Expr → Option Int
  | done, term, [] => some (done + term)
  | _, _, [_] => none
  | done, term, op :: p :: ps =>
      match value? p with
      | none => none
      | some n =>
          if op.isLeafText "*" then more? done (term * n) ps
          else if op.isLeafText "+" then more? (done + term) n ps
          else if op.isLeafText "-" then more? (done + term) (-n) ps
          else none

end

/-- Compare two integers. -/
def compare? (op : String) (m n : Int) : Option Bool :=
  match op with
  | "<" => some (decide (m < n))
  | "<=" => some (decide (m ≤ n))
  | ">" => some (decide (m > n))
  | ">=" => some (decide (m ≥ n))
  | "==" => some (decide (m = n))
  | "!=" => some (decide (m ≠ n))
  | _ => none

/-- Whether a part is a comparison operator. -/
def isComparison (p : Expr) : Bool := Expr.comparisons.any p.isLeafText

/-- The truth of a comparison of two arithmetic expressions. -/
def truth? (e : Expr) : Option Bool :=
  match e.parts.dropWhile fun p => !isComparison p with
  | [] => none
  | op :: behind =>
      match I.sum? σ (e.parts.takeWhile fun p => !isComparison p), I.sum? σ behind with
      | some m, some n => compare? op.text m n
      | _, _ => none

/-- The value of an expression; the truth of a comparison is one or zero. -/
def valueOf (e : Expr) : Int :=
  match I.value? σ e, I.truth? σ e with
  | some n, _ => n
  | none, some holds => if holds then 1 else 0
  | none, none => I.value e σ

/-- Whether a test holds; a test that is missing does. -/
def holds (e : Expr) : Bool := e.isNil || I.valueOf σ e != 0

/-- The store behind an assignment. -/
def assign? (e : Expr) : Option Store :=
  match e.parts with
  | [x, y] =>
      if x.kind = .ident && y.isLeafText "++" then some (σ.set x.text (σ x.text + 1))
      else if x.kind = .ident && y.isLeafText "--" then some (σ.set x.text (σ x.text - 1))
      else if x.isLeafText "++" && y.kind = .ident then some (σ.set y.text (σ y.text + 1))
      else if x.isLeafText "--" && y.kind = .ident then some (σ.set y.text (σ y.text - 1))
      else none
  | x :: op :: ps =>
      if x.kind = .ident then
        match I.sum? σ ps with
        | none => none
        | some n =>
            if op.isLeafText "=" then some (σ.set x.text n)
            else if op.isLeafText "+=" then some (σ.set x.text (σ x.text + n))
            else if op.isLeafText "-=" then some (σ.set x.text (σ x.text - n))
            else none
      else none
  | _ => none

/-- Whether an expression is a label. -/
def isLabel (e : Expr) : Bool :=
  match e.parts with
  | p :: _ => p.isLeafText "case" || p.isLeafText "default"
  | [] => false

/-- The store behind an expression without commas. -/
def single (e : Expr) : Store :=
  match I.assign? σ e with
  | some τ => τ
  | none =>
      if (I.value? σ e).isSome || (I.truth? σ e).isSome || e.isNil || isLabel e then σ
      else I.effect e σ

/-- The store behind an expression; what commas separate is evaluated from
left to right. -/
def after (e : Expr) : Store := (Induction.segments e).foldl I.single σ

@[simp] theorem value?_ident (name : String) : I.value? σ (.ident name) = some (σ name) := by
  simp [Expr.ident, Expr.leaf, value?]

@[simp] theorem value?_lit (text : String) : I.value? σ (.lit text) = I.number? text := by
  simp [Expr.lit, Expr.leaf, value?]

@[simp] theorem value?_chain (parts : List Expr) : I.value? σ (.chain parts) = I.sum? σ parts := by
  simp [Expr.chain, Expr.node, value?]

@[simp] theorem sum?_parenthesis (e : Expr) : I.sum? σ [.op "(", e, .op ")"] = I.value? σ e := by
  simp [sum?, Expr.isLeafText, Expr.isLeaf, Expr.op, Expr.leaf]

theorem sum?_cons {p : Expr} (h : p.isLeafText "(" = false) {n : Int} (hn : I.value? σ p = some n)
    (ps : List Expr) : I.sum? σ (p :: ps) = I.more? σ 0 n ps := by
  unfold sum?
  rw [if_neg (by simp [h]), hn]

@[simp] theorem more?_nil (done term : Int) : I.more? σ done term [] = some (done + term) := by
  simp [more?]

theorem more?_op (op : String) {p : Expr} {n : Int} (hn : I.value? σ p = some n) (done term : Int)
    (ps : List Expr) : I.more? σ done term (.op op :: p :: ps)
      = if op == "*" then I.more? σ done (term * n) ps
        else if op == "+" then I.more? σ (done + term) n ps
        else if op == "-" then I.more? σ (done + term) (-n) ps
        else none := by
  simp [more?, hn, Expr.isLeafText, Expr.isLeaf, Expr.op, Expr.leaf]

theorem after_nil : I.after σ .nil = σ := by
  simp [after, Induction.segments, Expr.hasDirect, Expr.nil, Expr.leaf, single, assign?,
    Expr.isNil]

end Interp

/-! ## §2. Statements. -/

/-- The ways in which a statement ends. -/
inductive Ending where
  | normal
  | broke
  | continued
  | returned
  deriving DecidableEq, Repr

/-- The way in which a jump ends. -/
def Expr.jump? (e : Expr) : Option Ending :=
  match e.kind, e.text, e.parts with
  | .keyword, "break", [] => some .broke
  | .keyword, "continue", [] => some .continued
  | .keyword, "return", [] => some .returned
  | .chain, _, ⟨.keyword, "return", [], _⟩ :: _ => some .returned
  | _, _, _ => none

namespace Interp

/-- Whether a statement is the label of a value. -/
def isCase (I : Interp) (σ : Store) (n : Int) : Stmt → Bool
  | .basic [⟨.chain, _, [word, e, _], _⟩] _ => word.isLeafText "case" && I.valueOf σ e == n
  | _ => false

/-- Whether a statement is the label of all other values. -/
def isDefault : Stmt → Bool
  | .basic [⟨.chain, _, [word, _], _⟩] _ => word.isLeafText "default"
  | _ => false

/-- The statements of a switch from the label that a value leads to. -/
def entry (I : Interp) (σ : Store) (n : Int) (ss : List Stmt) : List Stmt :=
  match ss.dropWhile fun s => !I.isCase σ n s with
  | [] => ss.dropWhile fun s => !isDefault s
  | found => found

end Interp

/-- Something that is run: a statement, some statements, or the rounds of a
loop. -/
inductive Code where
  | stmt (s : Stmt)
  | seq (ss : List Stmt)
  | rounds (test increment : Expr) (body : Stmt)

/-- What is run does to the store. -/
inductive Exec (I : Interp) : Code → Store → Ending → Store → Prop where
  | empty {tags : Tags} {σ : Store} : Exec I (.stmt (.basic [] tags)) σ .normal σ
  | basic {e : Expr} {tags : Tags} {o : Ending} {σ τ : Store} : o = e.jump?.getD .normal →
      τ = I.after σ e → Exec I (.stmt (.basic [e] tags)) σ o τ
  | line {es : List Expr} {src : String} {tags : Tags} {σ : Store} :
      Exec I (.stmt (.raw es src tags)) σ .normal (I.line src σ)
  | block {es : List Expr} {ss : List Stmt} {b tags : Tags} {o : Ending} {σ τ : Store} :
      Exec I (.seq ss) σ o τ → Exec I (.stmt (.block es ss b tags)) σ o τ
  | loop {d t i : Expr} {body : Stmt} {induction : Option Induction} {tags : Tags} {o : Ending}
      {σ τ : Store} : d.jump? = none → Exec I (.rounds t i body) (I.after σ d) o τ →
      Exec I (.stmt (.loop [d, t, i] body induction tags)) σ o τ
  | jump {d t i : Expr} {body : Stmt} {induction : Option Induction} {tags : Tags} {o : Ending}
      {σ τ : Store} : d.jump? = some o → τ = I.after σ d →
      Exec I (.stmt (.loop [d, t, i] body induction tags)) σ o τ
  | yes {c : Expr} {yes : Stmt} {no : Option Stmt} {tags : Tags} {o : Ending} {σ τ : Store} :
      I.holds σ c = true → Exec I (.stmt yes) (I.after σ c) o τ →
      Exec I (.stmt (.cond [c] yes no tags)) σ o τ
  | no {c : Expr} {yes no : Stmt} {tags : Tags} {o : Ending} {σ τ : Store} :
      I.holds σ c = false → Exec I (.stmt no) (I.after σ c) o τ →
      Exec I (.stmt (.cond [c] yes (some no) tags)) σ o τ
  | skip {c : Expr} {yes : Stmt} {tags : Tags} {σ : Store} : I.holds σ c = false →
      Exec I (.stmt (.cond [c] yes none tags)) σ .normal (I.after σ c)
  | choose {c : Expr} {body : Stmt} {tags : Tags} {o : Ending} {σ τ : Store} :
      Exec I (.seq (I.entry σ (I.valueOf σ c) body.toBlock.stmts)) (I.after σ c) o τ → o ≠ .broke →
      Exec I (.stmt (.switch [c] body tags)) σ o τ
  | chosen {c : Expr} {body : Stmt} {tags : Tags} {σ τ : Store} :
      Exec I (.seq (I.entry σ (I.valueOf σ c) body.toBlock.stmts)) (I.after σ c) .broke τ →
      Exec I (.stmt (.switch [c] body tags)) σ .normal τ
  | done {σ : Store} : Exec I (.seq []) σ .normal σ
  | next {s : Stmt} {ss : List Stmt} {o : Ending} {σ ρ τ : Store} :
      Exec I (.stmt s) σ .normal ρ → Exec I (.seq ss) ρ o τ → Exec I (.seq (s :: ss)) σ o τ
  | stop {s : Stmt} {ss : List Stmt} {o : Ending} {σ τ : Store} :
      Exec I (.stmt s) σ o τ → o ≠ .normal → Exec I (.seq (s :: ss)) σ o τ
  | exit {t i : Expr} {body : Stmt} {σ : Store} : I.holds σ t = false →
      Exec I (.rounds t i body) σ .normal (I.after σ t)
  | round {t i : Expr} {body : Stmt} {o o' : Ending} {σ ρ τ : Store} : I.holds σ t = true →
      Exec I (.stmt body) (I.after σ t) o ρ → o = .normal ∨ o = .continued →
      Exec I (.rounds t i body) (I.after ρ i) o' τ → Exec I (.rounds t i body) σ o' τ
  | leave {t i : Expr} {body : Stmt} {σ τ : Store} : I.holds σ t = true →
      Exec I (.stmt body) (I.after σ t) .broke τ → Exec I (.rounds t i body) σ .normal τ
  | back {t i : Expr} {body : Stmt} {σ τ : Store} : I.holds σ t = true →
      Exec I (.stmt body) (I.after σ t) .returned τ → Exec I (.rounds t i body) σ .returned τ

/-! ## §3. Runs. -/

/-- **What is run ends in one way and in one store.** -/
theorem Exec.unique {I : Interp} {c : Code} {σ τ τ' : Store} {o o' : Ending} (h : Exec I c σ o τ)
    (h' : Exec I c σ o' τ') : o' = o ∧ τ' = τ := by
  induction h generalizing o' τ' with
  | empty =>
      cases h'
      exact ⟨rfl, rfl⟩
  | basic ho hτ =>
      cases h' with
      | basic ho' hτ' => exact ⟨ho'.trans ho.symm, hτ'.trans hτ.symm⟩
  | line =>
      cases h'
      exact ⟨rfl, rfl⟩
  | block _ ih =>
      cases h' with
      | block h' => exact ih h'
  | loop hd _ ih =>
      cases h' with
      | loop _ h' => exact ih h'
      | jump hd' => simp [hd] at hd'
  | jump hd hτ =>
      cases h' with
      | loop hd' => simp [hd] at hd'
      | jump hd' hτ' => exact ⟨Option.some.inj (hd'.symm.trans hd), hτ'.trans hτ.symm⟩
  | yes hc _ ih =>
      cases h' with
      | yes _ h' => exact ih h'
      | no hc' | skip hc' => simp [hc] at hc'
  | no hc _ ih =>
      cases h' with
      | yes hc' => simp [hc] at hc'
      | no _ h' => exact ih h'
  | skip hc =>
      cases h' with
      | yes hc' => simp [hc] at hc'
      | skip => exact ⟨rfl, rfl⟩
  | choose _ hne ih =>
      cases h' with
      | choose h' => exact ih h'
      | chosen h' => exact absurd (ih h').1.symm hne
  | chosen _ ih =>
      cases h' with
      | choose h' hne => exact absurd (ih h').1 hne
      | chosen h' => exact ⟨rfl, (ih h').2⟩
  | done =>
      cases h'
      exact ⟨rfl, rfl⟩
  | next _ _ ihs ihss =>
      cases h' with
      | next hs hss =>
          obtain ⟨_, rfl⟩ := ihs hs
          exact ihss hss
      | stop hs hne => exact absurd (ihs hs).1 hne
  | stop _ hne ihs =>
      cases h' with
      | next hs => exact absurd (ihs hs).1.symm hne
      | stop hs => exact ihs hs
  | exit ht =>
      cases h' with
      | exit => exact ⟨rfl, rfl⟩
      | round ht' | leave ht' | back ht' => simp [ht] at ht'
  | round ht _ ho _ ihbody ihrest =>
      cases h' with
      | exit ht' => simp [ht] at ht'
      | round _ hbody _ hrest =>
          obtain ⟨_, rfl⟩ := ihbody hbody
          exact ihrest hrest
      | leave _ hbody | back _ hbody =>
          obtain ⟨rfl, _⟩ := ihbody hbody
          simp at ho
  | leave ht _ ihbody =>
      cases h' with
      | exit ht' => simp [ht] at ht'
      | round _ hbody ho =>
          obtain ⟨rfl, _⟩ := ihbody hbody
          simp at ho
      | leave _ hbody => exact ⟨rfl, (ihbody hbody).2⟩
      | back _ hbody => cases (ihbody hbody).1
  | back ht _ ihbody =>
      cases h' with
      | exit ht' => simp [ht] at ht'
      | round _ hbody ho =>
          obtain ⟨rfl, _⟩ := ihbody hbody
          simp at ho
      | leave _ hbody => cases (ihbody hbody).1
      | back _ hbody => exact ⟨rfl, (ihbody hbody).2⟩

/-! ## §4. Rounds. -/

/-- Rounds of `g` while `T` holds lead from one store to another. -/
inductive Settled (T : Store → Prop) (g : Store → Store) : Store → Store → Prop where
  | stop {σ : Store} : ¬ T σ → Settled T g σ σ
  | go {σ τ : Store} : T σ → Settled T g (g σ) τ → Settled T g σ τ

namespace Settled

variable {T T' P : Store → Prop} {g : Store → Store}

/-- Rounds come to an end where a measure goes down. -/
theorem exists_of_measure (hP : ∀ σ, P σ → P (g σ)) (measure : Store → Nat)
    (hmeasure : ∀ σ, P σ → T σ → measure (g σ) < measure σ) {σ : Store} (hσ : P σ) :
    ∃ τ, Settled T g σ τ ∧ P τ := by
  induction hn : measure σ using Nat.strongRecOn generalizing σ with
  | _ n ih =>
      by_cases hT : T σ
      · have hless : measure (g σ) < n := hn ▸ hmeasure σ hσ hT
        obtain ⟨τ, hτ, hPτ⟩ := ih _ hless (hP σ hσ) rfl
        exact ⟨τ, .go hT hτ, hPτ⟩
      · exact ⟨σ, .stop hT, hσ⟩

/-- Some rounds in which the test holds may be put in front. -/
theorem of_iterate {n : Nat} {σ τ : Store} (hT : ∀ j < n, T (g^[j] σ))
    (h : Settled T g (g^[n] σ) τ) : Settled T g σ τ := by
  induction n generalizing σ with
  | zero => exact h
  | succ n ih =>
      exact .go (hT 0 (Nat.succ_pos n)) (ih (fun j hj => hT (j + 1) (Nat.succ_lt_succ hj)) h)

/-- **Groups of rounds, then single rounds, are single rounds**, where the
test of a group says that the test holds before every round of it. -/
theorem groups {n : Nat} {σ ρ τ : Store} (hP : ∀ σ, P σ → P (g^[n] σ))
    (hT : ∀ σ, P σ → T' σ → ∀ j < n, T (g^[j] σ)) (hσ : P σ) (hρ : Settled T' g^[n] σ ρ)
    (hτ : Settled T g ρ τ) : Settled T g σ τ := by
  induction hρ with
  | stop _ => exact hτ
  | @go σ _ hT' _ ih => exact of_iterate (hT σ hσ hT') (ih (hP σ hσ) hτ)

/-- Rounds that make a distance smaller by a fixed step come to an end, by
groups and then one by one as well as one by one from the start, where the
test holds as long as there is a distance and the test of a group says that
the distance is that of the whole group. -/
theorem of_distance (distance : Store → Int) {n : Nat} (hn : 0 < n) {k : Int} (hk : 0 < k)
    (hg : ∀ σ, P σ → P (g σ) ∧ distance (g σ) = distance σ - k)
    (hT : ∀ σ, P σ → (0 < distance σ → T σ) ∧ (T σ → 0 ≤ distance σ))
    (hT' : ∀ σ, P σ → T' σ → n * k ≤ distance σ) {σ : Store} (hσ : P σ) :
    ∃ ρ τ, Settled T' g^[n] σ ρ ∧ Settled T g ρ τ ∧ Settled T g σ τ := by
  have hiterate : ∀ j σ, P σ → P (g^[j] σ) ∧ distance (g^[j] σ) = distance σ - j * k := by
    intro j
    induction j with
    | zero => exact fun σ hσ => ⟨hσ, by simp⟩
    | succ j ih =>
        intro σ hσ
        obtain ⟨hgσ, hdistance⟩ := hg σ hσ
        obtain ⟨hP, hrest⟩ := ih (g σ) hgσ
        refine ⟨hP, ?_⟩
        rw [Function.iterate_succ_apply, hrest, hdistance]
        push_cast
        ring
  have hnk : k ≤ n * k := by
    have := Int.mul_le_mul_of_nonneg_right (Int.ofNat_le.2 hn) hk.le
    simpa using this
  obtain ⟨ρ, hρ, hPρ⟩ := exists_of_measure (T := T') (g := g^[n]) (fun σ hσ => (hiterate n σ hσ).1)
    (fun σ => (distance σ + 1).toNat) (fun σ hσ hT'σ => by
      have hgroup := hT' σ hσ hT'σ
      have hafter := (hiterate n σ hσ).2
      omega) hσ
  obtain ⟨τ, hτ, _⟩ := exists_of_measure (T := T) (fun σ hσ => (hg σ hσ).1)
    (fun σ => (distance σ + 1).toNat) (fun σ hσ hTσ => by
      have hround := (hT σ hσ).2 hTσ
      have hafter := (hg σ hσ).2
      omega) hPρ
  refine ⟨ρ, τ, hρ, hτ, groups (fun σ hσ => (hiterate n σ hσ).1) ?_ hσ hρ hτ⟩
  intro σ hσ hT'σ j hj
  obtain ⟨hPj, hdistance⟩ := hiterate j σ hσ
  refine (hT _ hPj).1 ?_
  have hgroup := hT' σ hσ hT'σ
  have hjk : (j + 1 : Int) * k ≤ n * k :=
    Int.mul_le_mul_of_nonneg_right (by omega) hk.le
  rw [hdistance]
  linarith

end Settled

/-- The rounds of a loop whose test changes nothing and whose body ends
normally. -/
theorem Exec.of_settled {I : Interp} {t i : Expr} {body : Stmt} {β : Store → Store}
    (htest : ∀ σ, I.after σ t = σ) (hbody : ∀ σ, Exec I (.stmt body) σ .normal (β σ))
    {σ τ : Store} (h : Settled (fun σ => I.holds σ t = true) (fun σ => I.after (β σ) i) σ τ) :
    Exec I (.rounds t i body) σ .normal τ := by
  induction h with
  | @stop σ hfalse =>
      have hexit : Exec I (.rounds t i body) σ .normal (I.after σ t) :=
        .exit (Bool.eq_false_iff.2 hfalse)
      rwa [htest] at hexit
  | @go σ τ htrue _ ih =>
      refine .round htrue ?_ (.inl rfl) ih
      rw [htest]
      exact hbody σ

end RuleBody
