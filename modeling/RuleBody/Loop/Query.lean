/-
  RuleBody.Loop.Query
  ───────────────────
  **QUESTIONS ABOUT A LOOP.**

  A question may change the loop it is about: the loop remembers what was
  found, and the scan of its body walks the body.  What was changed before
  the question stops stays changed, whether it stops with an error or with
  a fault.

      ask      — a question of a run: a fault ends the run
      consult  — a question by itself: a fault is one of its answers
-/
import RuleBody.Error
import RuleBody.Loop
import RuleBody.Run

namespace RuleBody.Loop

/-! ## §1. The monad. -/

/-- Why a question has no answer. -/
inductive Stop where
  | error (e : Error)
  | fault (f : Fault)
  deriving DecidableEq, Repr

/-- A question about a loop: the events it logs under a threshold, the loop
it leaves, and the answer. -/
def Query (α : Type) : Type :=
  Loop → Option Level → List Event × Loop × Except Stop α

namespace Query

/-- Go on with an answer and the loop that was left. -/
def andThen {α β : Type} (q : Query α) (f : α → Query β) : Query β := fun l threshold =>
  match q l threshold with
  | (events, l, .ok a) =>
      let r := f a l threshold
      (events ++ r.1, r.2)
  | (events, l, .error stop) => (events, l, .error stop)

instance : Monad Query where
  pure a := fun l _ => ([], l, .ok a)
  bind := andThen

/-- The loop as it stands. -/
def loop : Query Loop := fun l _ => ([], l, .ok l)

/-- Change the loop. -/
def modify (f : Loop → Loop) : Query Unit := fun l _ => ([], f l, .ok ())

/-- Stop with an error. -/
def fail {α : Type} (e : Error) : Query α := fun l _ => ([], l, .error (.error e))

/-- The answer of something that may err. -/
def ofExcept {α : Type} : Except Error α → Query α
  | .ok a => pure a
  | .error e => fail e

/-- The answer of a computation that leaves the loop alone. -/
def ofRun {α : Type} (x : Run α) : Query α := fun l threshold =>
  match x threshold with
  | (events, .ok a) => (events, l, .ok a)
  | (events, .error f) => (events, l, .error (.fault f))

instance : MonadLift Run Query where
  monadLift := ofRun

/-- A clause of the loop. -/
def clause (c : Clause) : Query Expr := do
  (← loop).clause c

end Query

/-! ## §2. Putting a question. -/

/-- Put a question about a loop.  A fault ends the run. -/
def ask {α : Type} (l : Loop) (q : Query α) : Run (Loop × Except Error α) := fun threshold =>
  match q l threshold with
  | (events, l, .ok a) => (events, .ok (l, .ok a))
  | (events, l, .error (.error e)) => (events, .ok (l, .error e))
  | (events, _, .error (.fault f)) => (events, .error f)

/-- Put a question about a loop and take a fault for an answer. -/
def consult {α : Type} (l : Loop) (q : Query α) : Run (Loop × Except Stop α) := fun threshold =>
  ((q l threshold).1, .ok (q l threshold).2)

/-! ## §3. The laws. -/

namespace Query

theorem pure_apply {α : Type} (a : α) (l : Loop) (t : Option Level) :
    (pure a : Query α) l t = ([], l, .ok a) := rfl

theorem bind_apply {α β : Type} (q : Query α) (f : α → Query β) (l : Loop) (t : Option Level) :
    (q >>= f) l t =
      match q l t with
      | (events, l, .ok a) => (events ++ (f a l t).1, (f a l t).2)
      | (events, l, .error stop) => (events, l, .error stop) := rfl

theorem id_map_apply {α : Type} (q : Query α) (l : Loop) (t : Option Level) :
    (id <$> q : Query α) l t = q l t := by
  show andThen q (fun a => pure a) l t = q l t
  unfold andThen
  rcases q l t with ⟨events, l', stop | a⟩
  · rfl
  · simp [pure_apply]

theorem bind_assoc_apply {α β γ : Type} (q : Query α) (f : α → Query β) (g : β → Query γ)
    (l : Loop) (t : Option Level) : (q >>= f >>= g) l t = (q >>= fun a => f a >>= g) l t := by
  simp only [bind_apply]
  rcases q l t with ⟨events, l', stop | a⟩
  · rfl
  · simp only
    rcases f a l' t with ⟨events', l'', stop | b⟩
    · rfl
    · simp [List.append_assoc]

instance : LawfulMonad Query :=
  LawfulMonad.mk' Query (fun q => funext fun l => funext (id_map_apply q l)) (fun _ _ => rfl)
    (fun q f g => funext fun l => funext (bind_assoc_apply q f g l))

end Query
end RuleBody.Loop
