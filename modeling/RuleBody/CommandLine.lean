/-
  RuleBody.CommandLine
  ────────────────────
  **READING THE ARGUMENTS.**

  The arguments are read from left to right.  An option that takes its value
  from the next argument stays pending until the argument after that, or the
  end, shows that it is complete; only then is its value looked at.  An
  argument that nothing is known about is refused at once, whatever is
  pending.  Behind `--` every argument is an input.
-/
import RuleBody.Heuristic.Manager
import RuleBody.Number.Read
import RuleBody.Pipeline
import RuleBody.Text.Blank

namespace RuleBody.CommandLine

/-! ## §1. What can be asked for. -/

/-- The options without a value. -/
inductive Flag where
  | pass (p : Pass)
  | printBefore
  | debug
  deriving DecidableEq, Repr

/-- The options with a value. -/
inductive Setting where
  /-- The factor by which every loop is unrolled. -/
  | unrollFactor
  /-- A heuristic that is replaced by a constant. -/
  | heuristic
  deriving DecidableEq, Repr

/-- What an argument with two dashes names. -/
inductive Long where
  | flag (f : Flag)
  | setting (s : Setting)
  | help
  | version
  deriving DecidableEq, Repr

/-- The option of a name. -/
def Long.ofName? (name : String) : Option Long :=
  match Pass.ofName? name with
  | some p => some (.flag (.pass p))
  | none =>
      match name with
      | "print-ir-before-all" => some (.flag .printBefore)
      | "debug" => some (.flag .debug)
      | "unroll-factor" => some (.setting .unrollFactor)
      | "heuristic" => some (.setting .heuristic)
      | "help" => some .help
      | "version" => some .version
      | _ => none

/-- Why the arguments are not accepted. -/
inductive Refusal where
  /-- An argument that is not known, or a second input. -/
  | unknown
  /-- An option without its value. -/
  | noValue
  /-- A value that the option does not take. -/
  | badValue
  /-- An option that is given twice. -/
  | repeated
  /-- A value for an option that takes none. -/
  | needlessValue
  /-- The help is asked for. -/
  | help
  /-- The version is asked for. -/
  | version
  deriving DecidableEq, Repr

/-- The options that were read. -/
structure Options where
  flags : List Flag := []
  unrollFactor : Option Nat := none
  /-- The overrides of heuristics, in order. -/
  overrides : List String := []
  input : Option String := none
  deriving DecidableEq, Repr

namespace Options

/-- Where the text comes from; `-` is the standard input. -/
def source (o : Options) : String := o.input.getD "-"

/-- Whether a flag is given. -/
def has (o : Options) (f : Flag) : Bool := o.flags.contains f

/-- Give a flag, which may be given only once. -/
def setFlag (o : Options) (f : Flag) : Except Refusal Options :=
  if o.has f then .error .repeated else .ok { o with flags := o.flags ++ [f] }

/-- The greatest factor that can be given. -/
def maxFactor : Int := UInt32.size - 1

/-- A factor: an integer without a minus before its value. -/
def readFactor? (value : String) : Option Nat :=
  match Number.readInt64? value with
  | some n => if 0 ≤ n ∧ n ≤ maxFactor then some n.toNat else none
  | none => none

/-- Give a setting its value.  The factor may be given only once, overrides
as often as wanted. -/
def set (o : Options) : Setting → String → Except Refusal Options
  | .unrollFactor, value =>
      if o.unrollFactor.isSome then .error .repeated
      else
        match readFactor? value with
        | some n => .ok { o with unrollFactor := some n }
        | none => .error .badValue
  | .heuristic, value => .ok { o with overrides := o.overrides ++ [value] }

end Options

/-! ## §2. Reading the arguments. -/

/-- Cut a text at its first equals sign; without one there is no second
side. -/
def cutAtEquals (cs : List Char) : List Char × Option (List Char) :=
  (cs.takeWhile (· != '='), (cs.dropWhile (· != '=')).tail?)

/-- What is known in the middle of the arguments. -/
structure State where
  options : Options := {}
  /-- A setting whose value was not looked at yet, and the value if it was
  already seen. -/
  pending : Option (Setting × Option String) := none
  /-- Whether `--` was seen. -/
  onlyInputs : Bool := false
  deriving DecidableEq, Repr

namespace State

/-- Look at the value of the pending setting. -/
def resolve (s : State) : Except Refusal State :=
  match s.pending with
  | none => .ok s
  | some (_, none) => .error .noValue
  | some (setting, some value) => do
      return { s with options := ← s.options.set setting value, pending := none }

/-- Read an argument that names no option. -/
def takeInput (s : State) (text : String) : Except Refusal State :=
  match s.options.input with
  | some _ => .error .unknown
  | none => do
      let s ← s.resolve
      return { s with options := { s.options with input := some text } }

/-- Read an argument with two dashes, cut at its first equals sign. -/
def takeLong (s : State) (name : String) (value : Option String) : Except Refusal State :=
  match Long.ofName? name, value with
  | none, _ => .error .unknown
  | some (.setting setting), none => do
      return { ← s.resolve with pending := some (setting, none) }
  | some (.setting setting), some value => do
      let s ← s.resolve
      return { s with options := ← s.options.set setting value }
  | some _, some _ => .error .needlessValue
  | some (.flag f), none => do
      let s ← s.resolve
      return { s with options := ← s.options.setFlag f }
  | some .help, none => do
      let _ ← s.resolve
      .error .help
  | some .version, none => do
      let _ ← s.resolve
      .error .version

/-- Read the letters behind a single dash, of which the first decides. -/
def takeShort (s : State) : Char → Except Refusal State
  | 'h' => s.takeLong "help" none
  | 'V' => s.takeLong "version" none
  | _ => .error .unknown

/-- Read a value or an input. -/
def takeText (s : State) (text : String) : Except Refusal State :=
  match s.pending with
  | some (setting, none) => .ok { s with pending := some (setting, some text) }
  | _ => s.takeInput text

/-- Read one argument. -/
def step (s : State) (argument : String) : Except Refusal State :=
  if s.onlyInputs then s.takeInput argument
  else
    match argument.toList with
    | ['-', '-'] => .ok { s with onlyInputs := true }
    | '-' :: '-' :: cs =>
        let (name, value) := cutAtEquals cs
        s.takeLong (String.ofList name) (value.map String.ofList)
    | '-' :: c :: _ => s.takeShort c
    | _ => s.takeText argument

end State

/-- Read the arguments.  The first is the name of the program and says
nothing. -/
def parse (arguments : List String) : Except Refusal Options := do
  let s ← (arguments.drop 1).foldlM State.step {}
  return (← s.resolve).options

/-! ## §3. Overrides. -/

/-- Read an override such as `name=2.5`.  Blanks around the two sides do not
count, but there has to be something before the equals sign. -/
def parseOverride (text : String) : Except Error (String × Float) :=
  match cutAtEquals text.toList with
  | (c :: cs, some value) =>
      let name := String.ofList (c :: cs)
      let value := String.ofList value
      match Number.read? (Text.trim value) with
      | some x => .ok (Text.trim name, x)
      | none => .error (.overrideValue name value)
  | _ => .error (.overrideForm text)

/-- Replace heuristics by constants, one after the other. -/
def override (m : Manager) : List String → Run (Except Error Manager)
  | [] => return .ok m
  | text :: others => do
      match parseOverride text with
      | .error e => return .error e
      | .ok (name, x) => override (← m.setOverride name (.const x)) others

/-- The heuristics that the options ask for: the factor first, then the
overrides. -/
def Options.manager (o : Options) : Run (Except Error Manager) := do
  let m := Manager.withDefaults
  match o.unrollFactor with
  | none => override m o.overrides
  | some n => override (← m.setOverride unrollingNumber (.const n.toFloat)) o.overrides

/-! ## §4. The whole program. -/

/-- Read a text, run the passes that the arguments name, in the order of
the arguments, and write the result. -/
def run (arguments : List String) (o : Options) (text : String) : Run (Except Error String) := do
  match ← o.manager with
  | .error e => return .error e
  | .ok m =>
      match Block.parse text {} with
      | .error e => return .error e
      | .ok b =>
          let r ← (Pipeline.ofArguments arguments).run (o.has .printBefore) b m
          match r.effect with
          | .error e => return .error e
          | .ok _ => return .ok (← (r.block.print : Run _))

end RuleBody.CommandLine
