/-
  RuleBody.Run
  ────────────
  **LOGGED COMPUTATIONS.**

  A computation runs under a threshold and yields the events it logged and
  its value, or the fault that stopped it.  An event below the threshold is
  dropped without its message being made, so a message that cannot be
  written stops the run only where it would be shown.
-/
import RuleBody.Fault

namespace RuleBody

/-! ## §1. Events. -/

/-- How severe an event is. -/
inductive Level where
  | warn
  | info
  | debug
  deriving DecidableEq, Repr

/-- The name of a level in a log. -/
def Level.name : Level → String
  | .warn => "WARN"
  | .info => "INFO"
  | .debug => "DEBUG"

/-- Warnings weigh least, so that they pass every threshold. -/
def Level.weight : Level → Nat
  | .warn => 0
  | .info => 1
  | .debug => 2

/-- Whether an event of this level is logged under the threshold; without a
threshold nothing is. -/
def Level.passes (level : Level) : Option Level → Bool
  | none => false
  | some threshold => decide (level.weight ≤ threshold.weight)

/-- A logged event. -/
structure Event where
  level : Level
  message : String
  deriving DecidableEq, Repr

/-- An event as one entry of a log. -/
def Event.display (e : Event) : String :=
  e.level.name ++ " " ++ e.message

/-! ## §2. The monad. -/

/-- A computation that logs events under a threshold and may fault. -/
def Run (α : Type) : Type :=
  Option Level → List Event × Except Fault α

namespace Run

/-- Go on with the value of a computation, its events first. -/
def andThen {α β : Type} (x : Run α) (f : α → Run β) : Run β := fun threshold =>
  match x threshold with
  | (events, .ok a) =>
      let r := f a threshold
      (events ++ r.1, r.2)
  | (events, .error fault) => (events, .error fault)

instance : Monad Run where
  pure a := fun _ => ([], .ok a)
  bind := andThen

/-- Stop with a fault. -/
def fault {α : Type} (f : Fault) : Run α := fun _ => ([], .error f)

/-- A computation that logs nothing. -/
def ofExcept {α : Type} (x : Except Fault α) : Run α := fun _ => ([], x)

instance : MonadLift (Except Fault) Run where
  monadLift := ofExcept

/-- Log an event; the message is only made when it is logged. -/
def log (level : Level) (message : Unit → Except Fault String) : Run Unit := fun threshold =>
  if level.passes threshold then
    match message () with
    | .ok text => ([⟨level, text⟩], .ok ())
    | .error f => ([], .error f)
  else ([], .ok ())

/-- Log an event whose message is at hand. -/
def say (level : Level) (message : String) : Run Unit :=
  log level fun _ => .ok message

/-- Go on with the fault of a computation as a value. -/
def attempt {α : Type} (x : Run α) : Run (Except Fault α) := fun threshold =>
  ((x threshold).1, .ok (x threshold).2)

/-! ## §3. The laws. -/

theorem pure_apply {α : Type} (a : α) (t : Option Level) :
    (pure a : Run α) t = ([], .ok a) := rfl

theorem bind_apply {α β : Type} (x : Run α) (f : α → Run β) (t : Option Level) :
    (x >>= f) t =
      match x t with
      | (events, .ok a) => (events ++ (f a t).1, (f a t).2)
      | (events, .error fault) => (events, .error fault) := rfl

theorem id_map_apply {α : Type} (x : Run α) (t : Option Level) :
    (id <$> x : Run α) t = x t := by
  show andThen x (fun a => pure a) t = x t
  unfold andThen
  rcases x t with ⟨events, fault | a⟩
  · rfl
  · simp [pure_apply]

theorem bind_assoc_apply {α β γ : Type} (x : Run α) (f : α → Run β) (g : β → Run γ)
    (t : Option Level) : (x >>= f >>= g) t = (x >>= fun a => f a >>= g) t := by
  simp only [bind_apply]
  rcases x t with ⟨events, fault | a⟩
  · rfl
  · simp only
    rcases f a t with ⟨events', fault | b⟩
    · rfl
    · simp [List.append_assoc]

instance : LawfulMonad Run :=
  LawfulMonad.mk' Run (fun x => funext (id_map_apply x)) (fun _ _ => rfl)
    (fun x f g => funext (bind_assoc_apply x f g))

end Run

/-! ## §4. Computations that succeed. -/

theorem bind_eq_ok {ε α β : Type} {x : Except ε α} {f : α → Except ε β} {b : β} :
    x >>= f = .ok b ↔ ∃ a, x = .ok a ∧ f a = .ok b := by
  constructor
  · intro h
    cases x with
    | error e => cases h
    | ok a => exact ⟨a, rfl, h⟩
  · rintro ⟨a, rfl, hf⟩
    exact hf

end RuleBody
