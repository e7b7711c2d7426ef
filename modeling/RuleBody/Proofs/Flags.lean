/-
  RuleBody.Proofs.Flags
  ─────────────────────
  **WHICH PASSES RUN.**

  The arguments are read twice.  One reader accepts or refuses them and tells
  which flags are set and what the input is; the list of the passes is taken
  from the bare arguments by another one, which knows nothing of `--`, of
  values and of inputs.  About the first reader only its laws are assumed
  (`Reader.Reads`):

      ends       — `--` ends the options
      once       — a repeated flag is refused
      undashed   — no value, and no input before `--`, starts with a dash
      valueless  — the flag of a pass takes no value

  On what such a reader accepts the two agree, but for two texts that are no
  options:

      --unroll-loops -            — the name of the program
      rulebody -- --unroll-loops  — the input

  So the passes that run are those of the name, then those of the flags in
  their order, then that of the input (`parsed_passes`).  `CommandLine.parse`
  is such a reader (`reader_documented`).

  §1  flags that name a pass;
  §2  readers of arguments;
  §3  one argument;
  §4  all arguments;
  §5  the passes that run.
-/
import Mathlib.Data.List.Nodup
import Mathlib.Data.List.TakeWhile
import RuleBody.CommandLine

namespace RuleBody

/-! ## §1. Flags that name a pass. -/

namespace Pass

/-- The pass that a text asks for as a flag. -/
def ofFlag? (text : String) : Option Pass := (Pipeline.flag? text).bind ofName?

/-- The passes that some texts ask for as flags. -/
def asked (texts : List String) : List Pass := texts.filterMap ofFlag?

/-- The flag of a pass. -/
def flag (p : Pass) : String := "--" ++ p.name

theorem asked_append (texts texts' : List String) :
    asked (texts ++ texts') = asked texts ++ asked texts' := List.filterMap_append

theorem asked_cons (text : String) (texts : List String) :
    asked (text :: texts) = (ofFlag? text).toList ++ asked texts := by
  unfold asked
  cases h : ofFlag? text <;> simp [h]

theorem ofName?_eq_some {name : String} {p : Pass} : ofName? name = some p ↔ name = p.name := by
  constructor
  · intro h
    have hname := List.find?_some h
    exact (beq_iff_eq.1 hname).symm
  · rintro rfl
    cases p <;> decide

theorem name_injective : Function.Injective name := by
  intro p q h
  have hp : ofName? q.name = some p := ofName?_eq_some.2 h.symm
  have hq : ofName? q.name = some q := ofName?_eq_some.2 rfl
  exact Option.some.inj (hp.symm.trans hq)

end Pass

namespace Pipeline

theorem flag?_eq_some {text name : String} : flag? text = some name ↔ text = "--" ++ name := by
  unfold flag?
  constructor
  · intro h
    split at h
    · rename_i chars hchars
      obtain rfl := Option.some.inj h
      refine String.toList_injective ?_
      rw [hchars]
      simp
    · cases h
  · rintro rfl
    rw [String.toList_append]
    show some (String.ofList name.toList) = some name
    rw [String.ofList_toList]

/-- The passes that run are those that the arguments ask for as flags. -/
theorem names_ofArguments (arguments : List String) :
    (ofArguments arguments).names = (Pass.asked arguments).map Pass.name := by
  show (arguments.filterMap flag?).filter (fun name => (Pass.ofName? name).isSome) = _
  induction arguments with
  | nil => rfl
  | cons argument arguments ih =>
      unfold Pass.asked Pass.ofFlag? at ih ⊢
      rw [List.filterMap_cons, List.filterMap_cons]
      cases flag? argument with
      | none => exact ih
      | some name =>
          dsimp only [Option.bind_some]
          cases hname : Pass.ofName? name with
          | none => rw [List.filter_cons_of_neg (by simp [hname]), ih]
          | some p =>
              obtain rfl := Pass.ofName?_eq_some.1 hname
              rw [List.filter_cons_of_pos (by simp [hname]), ih]
              rfl

end Pipeline

theorem Pass.ofFlag?_eq_some {text : String} {p : Pass} :
    ofFlag? text = some p ↔ text = p.flag := by
  unfold ofFlag?
  rw [Option.bind_eq_some_iff]
  constructor
  · rintro ⟨name, hname, hp⟩
    rw [Pipeline.flag?_eq_some.1 hname, ofName?_eq_some.1 hp]
    rfl
  · rintro rfl
    exact ⟨p.name, Pipeline.flag?_eq_some.2 rfl, ofName?_eq_some.2 rfl⟩

/-- The flags of the passes stand among the texts, in their order. -/
theorem Pass.flags_sublist (texts : List String) : ((asked texts).map flag).Sublist texts := by
  induction texts with
  | nil => exact .slnil
  | cons text texts ih =>
      rw [asked_cons]
      cases hflag : ofFlag? text with
      | none => exact ih.cons text
      | some p =>
          rw [ofFlag?_eq_some.1 hflag]
          exact ih.cons_cons p.flag

theorem Pass.ofFlag?_dashes (name : String) : ofFlag? ("--" ++ name) = ofName? name := by
  unfold ofFlag?
  rw [Pipeline.flag?_eq_some.2 rfl]
  rfl

/-- A name of a pass holds no equals sign. -/
theorem Pass.equals_not_mem_name (p : Pass) : '=' ∉ p.name.toList := by
  cases p <;> decide

/-- What starts with no dash, but for a single one, is no flag. -/
theorem Pass.ofFlag?_of_undashed {text : String}
    (h : text.toList.head? = some '-' → text = "-") : ofFlag? text = none := by
  refine Option.eq_none_iff_forall_ne_some.2 fun p hp => ?_
  have htext : text = p.flag := ofFlag?_eq_some.1 hp
  have hdash : text = "-" := h (by rw [htext]; cases p <;> rfl)
  rw [hdash] at htext
  cases p <;> revert htext <;> decide

namespace CommandLine

/-! ## §2. Readers of arguments. -/

/-- What can stand before `--`. -/
inductive Item where
  /-- An option without a value, `--name`. -/
  | flag (name : String)
  /-- An option with its value in the same argument, `--name=value`. -/
  | joined (name value : String)
  /-- An option with its value in the next argument, `--name value`. -/
  | separate (name value : String)
  | input (text : String)
  deriving DecidableEq, Repr

namespace Item

/-- The arguments of an item. -/
def words : Item → List String
  | .flag name => ["--" ++ name]
  | .joined name value => ["--" ++ name ++ "=" ++ value]
  | .separate name value => ["--" ++ name, value]
  | .input text => [text]

/-- The flag that is given. -/
def flag? : Item → Option String
  | .flag name => some name
  | .joined _ _ | .separate _ _ | .input _ => none

/-- The option that is given a value. -/
def valued? : Item → Option String
  | .joined name _ | .separate name _ => some name
  | .flag _ | .input _ => none

/-- The argument that names no option: a value or an input. -/
def bare? : Item → Option String
  | .separate _ value => some value
  | .input text => some text
  | .flag _ | .joined _ _ => none

def input? : Item → Option String
  | .input text => some text
  | .flag _ | .joined _ _ | .separate _ _ => none

end Item

/-- A reader of arguments: what it makes of the arguments that it accepts,
which flags are set in it, and the input if one is given. -/
structure Reader where
  Matches : Type
  read : List String → Option Matches
  isSet : Matches → String → Bool
  input : Matches → Option String

/-- **The laws of a reader.**  Behind the name of the program stand items and
perhaps `--` with what is behind it. -/
structure Reader.Reads (r : Reader) (arguments : List String) (m : r.Matches) (items : List Item)
    (behind : Option (List String)) : Prop where
  words : arguments.drop 1 = items.flatMap Item.words ++ (behind.map ("--" :: ·)).getD []
  /-- `--` ends the options. -/
  ends : "--" ∉ items.flatMap Item.words
  /-- Whatever stands behind `--` is an input, and there is at most one. -/
  inputs : items.filterMap Item.input? ++ behind.getD [] = (r.input m).toList
  /-- A repeated flag is refused. -/
  once : (items.filterMap Item.flag?).Nodup
  /-- A value, or an input before `--`, does not start with a dash; a single
  dash is an input. -/
  undashed : ∀ item ∈ items, ∀ text ∈ item.bare?, text.toList.head? = some '-' → text = "-"
  /-- The flag of a pass takes no value. -/
  valueless : ∀ item ∈ items, ∀ name ∈ item.valued?, Pass.ofName? name = none
  /-- A flag is set if it is given. -/
  set : ∀ name, r.isSet m name = true ↔ .flag name ∈ items

/-- A reader keeps the laws on all that it accepts. -/
def Reader.Documented (r : Reader) : Prop :=
  ∀ arguments m, r.read arguments = some m → ∃ items behind, r.Reads arguments m items behind

end CommandLine

/-- The passes whose flags stand before `--`, in their order. -/
def Pass.given (arguments : List String) : List Pass :=
  asked ((arguments.drop 1).takeWhile (· != "--"))

namespace CommandLine

/-- An item asks for a pass only as its flag. -/
theorem Item.asked_words {item : Item}
    (hbare : ∀ text ∈ item.bare?, text.toList.head? = some '-' → text = "-")
    (hvalued : ∀ name ∈ item.valued?, Pass.ofName? name = none) :
    Pass.asked item.words = (item.flag?.bind Pass.ofName?).toList := by
  cases item with
  | flag name =>
      rw [words, Pass.asked_cons, Pass.ofFlag?_dashes]
      exact List.append_nil _
  | joined name value =>
      have hnone : Pass.ofName? (name ++ "=" ++ value) = none := by
        refine Option.eq_none_iff_forall_ne_some.2 fun p hp => p.equals_not_mem_name ?_
        rw [← Pass.ofName?_eq_some.1 hp]
        simp
      have hword : "--" ++ name ++ "=" ++ value = "--" ++ (name ++ "=" ++ value) := by
        simp only [String.append_assoc]
      rw [words, hword, Pass.asked_cons, Pass.ofFlag?_dashes, hnone]
      rfl
  | separate name value =>
      rw [words, Pass.asked_cons, Pass.asked_cons, Pass.ofFlag?_dashes, hvalued name rfl,
        Pass.ofFlag?_of_undashed (hbare value rfl)]
      rfl
  | input text =>
      rw [words, Pass.asked_cons, Pass.ofFlag?_of_undashed (hbare text rfl)]
      rfl

theorem Item.mem_flags {items : List Item} {name : String} :
    name ∈ items.filterMap Item.flag? ↔ .flag name ∈ items := by
  rw [List.mem_filterMap]
  constructor
  · rintro ⟨item, hitem, hflag⟩
    cases item <;> cases hflag
    exact hitem
  · exact fun hitem => ⟨_, hitem, rfl⟩

section

variable {r : Reader} {arguments : List String} {m : r.Matches} {items : List Item}
  {behind : Option (List String)}

theorem asked_items (hbare : ∀ item ∈ items, ∀ text ∈ item.bare?,
      text.toList.head? = some '-' → text = "-")
    (hvalued : ∀ item ∈ items, ∀ name ∈ item.valued?, Pass.ofName? name = none) :
    Pass.asked (items.flatMap Item.words)
      = (items.filterMap Item.flag?).filterMap Pass.ofName? := by
  induction items with
  | nil => rfl
  | cons item items ih =>
      rw [List.forall_mem_cons] at hbare hvalued
      rw [List.flatMap_cons, Pass.asked_append, item.asked_words hbare.1 hvalued.1,
        ih hbare.2 hvalued.2]
      cases hflag : item.flag? with
      | none => rw [List.filterMap_cons_none hflag]; rfl
      | some name =>
          rw [List.filterMap_cons_some hflag, List.filterMap_cons]
          cases hname : Pass.ofName? name <;> simp [hname]

namespace Reader.Reads

variable (h : r.Reads arguments m items behind)

include h

/-- Before `--` stand the items. -/
theorem takeWhile_eq : (arguments.drop 1).takeWhile (· != "--") = items.flatMap Item.words := by
  have hall : ∀ text ∈ items.flatMap Item.words, (text != "--") = true := by
    intro text htext
    have hne : text ≠ "--" := ne_of_mem_of_not_mem htext h.ends
    simpa using hne
  rw [h.words, List.takeWhile_append_of_pos hall]
  cases behind <;> simp

/-- Where nothing stands before `--`, there is no item. -/
theorem items_eq_nil (hnone : (arguments.drop 1).takeWhile (· != "--") = []) : items = [] := by
  rw [h.takeWhile_eq, List.flatMap_eq_nil_iff] at hnone
  refine List.eq_nil_iff_forall_not_mem.2 fun item hitem => ?_
  have hempty := hnone item hitem
  cases item <;> cases hempty

/-- The passes that are given are those of the flags. -/
theorem given_eq : Pass.given arguments = (items.filterMap Item.flag?).filterMap Pass.ofName? := by
  unfold Pass.given
  rw [h.takeWhile_eq, asked_items h.undashed h.valueless]

/-- Only behind `--` can an input look like a flag. -/
theorem asked_input : Pass.asked (r.input m).toList = Pass.asked (behind.getD []) := by
  have hearly : Pass.asked (items.filterMap Item.input?) = [] := by
    refine List.filterMap_eq_nil_iff.2 fun text htext => ?_
    obtain ⟨item, hitem, hinput⟩ := List.mem_filterMap.1 htext
    refine Pass.ofFlag?_of_undashed (h.undashed item hitem text ?_)
    cases item <;> cases hinput
    rfl
  rw [← h.inputs, Pass.asked_append, hearly, List.nil_append]

theorem asked_drop :
    Pass.asked (arguments.drop 1) = Pass.given arguments ++ Pass.asked (r.input m).toList := by
  have hbehind : Pass.asked ((behind.map ("--" :: ·)).getD []) = Pass.asked (behind.getD []) := by
    cases behind with
    | none => rfl
    | some inputs =>
        have hnone : Pass.ofFlag? "--" = none := by decide
        show Pass.asked ("--" :: inputs) = _
        rw [Pass.asked_cons, hnone]
        rfl
  rw [h.words, Pass.asked_append, hbehind, ← h.asked_input, asked_items h.undashed h.valueless,
    ← h.given_eq]

/-- A flag that is set asks for its pass once. -/
theorem count_given (p : Pass) :
    (Pass.given arguments).count p = if r.isSet m p.name then 1 else 0 := by
  have hmem : p.name ∈ items.filterMap Item.flag? ↔ r.isSet m p.name = true := by
    rw [h.set, Item.mem_flags]
  have hcount : (Pass.given arguments).count p = (items.filterMap Item.flag?).count p.name := by
    rw [h.given_eq, List.count_filterMap, List.count]
    congr 1
    funext name
    rw [Bool.eq_iff_iff, beq_iff_eq, beq_iff_eq, Pass.ofName?_eq_some]
  rw [hcount, h.once.count]
  exact if_congr hmem rfl rfl

end Reader.Reads

end

/-! ## §3. One argument. -/

/-- The name of a flag. -/
def Flag.name : Flag → String
  | .pass p => p.name
  | .printBefore => "print-ir-before-all"
  | .debug => "debug"

/-- The name of a setting. -/
def Setting.name : Setting → String
  | .unrollFactor => "unroll-factor"
  | .heuristic => "heuristic"

theorem Long.ofName?_eq_flag {name : String} {f : Flag} :
    ofName? name = some (.flag f) ↔ name = f.name := by
  constructor
  · intro h
    unfold ofName? at h
    split at h
    · rename_i p hp
      cases h
      exact Pass.ofName?_eq_some.1 hp
    · split at h <;> cases h <;> rfl
  · rintro rfl
    rcases f with (_ | _) | _ | _ <;> decide

theorem Long.ofName?_eq_setting {name : String} {setting : Setting}
    (h : ofName? name = some (.setting setting)) :
    name = setting.name ∧ Pass.ofName? name = none := by
  unfold ofName? at h
  split at h
  · cases h
  · rename_i hnone
    refine ⟨?_, hnone⟩
    split at h <;> cases h <;> rfl

theorem Flag.name_injective : Function.Injective Flag.name := by
  intro f g h
  have hf : Long.ofName? g.name = some (.flag f) := Long.ofName?_eq_flag.2 h.symm
  have hg : Long.ofName? g.name = some (.flag g) := Long.ofName?_eq_flag.2 rfl
  cases hf.symm.trans hg
  rfl

/-- What is cut at an equals sign can be put together again. -/
theorem cutAtEquals_some {cs name value : List Char} (h : cutAtEquals cs = (name, some value)) :
    cs = name ++ '=' :: value := by
  obtain ⟨rfl, hvalue⟩ := Prod.mk.inj h
  have hsplit : cs.takeWhile (· != '=') ++ cs.dropWhile (· != '=') = cs :=
    List.takeWhile_append_dropWhile
  cases hrest : cs.dropWhile (· != '=') with
  | nil =>
      rw [hrest] at hvalue
      cases hvalue
  | cons c rest =>
      have hc : c = '=' := by
        have hhead := List.head?_dropWhile_not (· != '=') cs
        rw [hrest] at hhead
        simpa using hhead
      rw [hrest] at hvalue hsplit
      cases hvalue
      rw [hc] at hsplit
      exact hsplit.symm

theorem cutAtEquals_none {cs name : List Char} (h : cutAtEquals cs = (name, none)) : cs = name := by
  obtain ⟨rfl, hvalue⟩ := Prod.mk.inj h
  have hsplit : cs.takeWhile (· != '=') ++ cs.dropWhile (· != '=') = cs :=
    List.takeWhile_append_dropWhile
  cases hrest : cs.dropWhile (· != '=') with
  | nil =>
      rw [hrest, List.append_nil] at hsplit
      exact hsplit.symm
  | cons c rest =>
      rw [hrest] at hvalue
      cases hvalue

theorem Options.set_keeps {o o' : Options} {setting : Setting} {value : String}
    (h : o.set setting value = .ok o') : o'.flags = o.flags ∧ o'.input = o.input := by
  unfold set at h
  split at h
  · split at h
    · cases h
    · split at h
      · obtain rfl := Except.ok.inj h
        exact ⟨rfl, rfl⟩
      · cases h
  · obtain rfl := Except.ok.inj h
    exact ⟨rfl, rfl⟩

theorem Options.setFlag_eq_ok {o o' : Options} {f : Flag} (h : o.setFlag f = .ok o') :
    f ∉ o.flags ∧ o'.flags = o.flags ++ [f] ∧ o'.input = o.input := by
  unfold setFlag at h
  split at h
  · cases h
  · rename_i hnew
    obtain rfl := Except.ok.inj h
    exact ⟨fun hmem => hnew (List.contains_iff_mem.2 hmem), rfl, rfl⟩

/-- The laws about a single item. -/
structure Item.Fits (item : Item) : Prop where
  ends : "--" ∉ item.words
  undashed : ∀ text ∈ item.bare?, text.toList.head? = some '-' → text = "-"
  valueless : ∀ name ∈ item.valued?, Pass.ofName? name = none

namespace State

/-- The option whose value has to follow. -/
def waiting (s : State) : List String :=
  match s.pending with
  | some (setting, none) => ["--" ++ setting.name]
  | _ => []

/-- What an argument does. -/
inductive Takes (s : State) (argument : String) (s' : State) : Prop where
  /-- Behind `--` it is the input. -/
  | input : s.onlyInputs = true → s'.onlyInputs = true → s.waiting = [] → s'.waiting = [] →
      s.options.input = none → s'.options.flags = s.options.flags →
      s'.options.input = some argument → Takes s argument s'
  | ends : s.onlyInputs = false → argument = "--" → s' = { s with onlyInputs := true } →
      Takes s argument s'
  /-- It is an option whose value has to follow. -/
  | waits : s.onlyInputs = false → s'.onlyInputs = false → s.waiting = [] →
      s'.waiting = [argument] → s'.options.flags = s.options.flags →
      s'.options.input = s.options.input → Takes s argument s'
  /-- It completes an item. -/
  | item (item : Item) : s.onlyInputs = false → s'.onlyInputs = false →
      s.waiting ++ [argument] = item.words → s'.waiting = [] → item.Fits →
      s'.options.flags.map Flag.name = s.options.flags.map Flag.name ++ item.flag?.toList →
      (s.options.flags.Nodup → s'.options.flags.Nodup) →
      s'.options.input.toList = s.options.input.toList ++ item.input?.toList →
      Takes s argument s'

variable {s s' : State}

theorem resolve_keeps (h : s.resolve = .ok s') : s'.options.flags = s.options.flags
    ∧ s'.options.input = s.options.input ∧ s'.onlyInputs = s.onlyInputs
    ∧ s.waiting = [] ∧ s'.waiting = [] := by
  unfold resolve at h
  split at h
  · rename_i hnone
    obtain rfl := Except.ok.inj h
    have hwaiting : s.waiting = [] := by rw [waiting, hnone]
    exact ⟨rfl, rfl, rfl, hwaiting, hwaiting⟩
  · cases h
  · rename_i hsome
    obtain ⟨o, hset, h⟩ := bind_eq_ok.1 h
    obtain ⟨hflags, hinput⟩ := Options.set_keeps hset
    obtain rfl := Except.ok.inj h
    exact ⟨hflags, hinput, rfl, by rw [waiting, hsome], rfl⟩

theorem takeInput_eq_ok {text : String} (h : s.takeInput text = .ok s') :
    s.options.input = none ∧ s'.options.flags = s.options.flags
      ∧ s'.options.input = some text ∧ s'.onlyInputs = s.onlyInputs
      ∧ s.waiting = [] ∧ s'.waiting = [] := by
  unfold takeInput at h
  split at h
  · cases h
  · rename_i hnone
    obtain ⟨r, hr, h⟩ := bind_eq_ok.1 h
    obtain ⟨hflags, _, honly, hwaiting, hwaiting'⟩ := resolve_keeps hr
    obtain rfl := Except.ok.inj h
    exact ⟨hnone, hflags, rfl, honly, hwaiting, hwaiting'⟩

/-- What an option does. -/
theorem takeLong_eq_ok {name : String} {value : Option String}
    (h : s.takeLong name value = .ok s') :
    s'.onlyInputs = s.onlyInputs ∧ s'.options.input = s.options.input ∧ s.waiting = []
      ∧ ((∃ f, Long.ofName? name = some (.flag f) ∧ value = none ∧ f ∉ s.options.flags
          ∧ s'.options.flags = s.options.flags ++ [f] ∧ s'.waiting = [])
        ∨ ∃ setting, Long.ofName? name = some (.setting setting)
          ∧ s'.options.flags = s.options.flags
          ∧ s'.waiting = if value = none then ["--" ++ setting.name] else []) := by
  unfold takeLong at h
  split at h
  · cases h
  · -- A setting whose value follows.
    rename_i setting hname
    obtain ⟨r, hr, h⟩ := bind_eq_ok.1 h
    obtain ⟨hflags, hinput, honly, hwaiting, _⟩ := resolve_keeps hr
    obtain rfl := Except.ok.inj h
    exact ⟨honly, hinput, hwaiting, .inr ⟨setting, hname, hflags, rfl⟩⟩
  · -- A setting with its value.
    rename_i setting value hname
    obtain ⟨r, hr, h⟩ := bind_eq_ok.1 h
    obtain ⟨hflags, hinput, honly, hwaiting, hwaiting'⟩ := resolve_keeps hr
    obtain ⟨o, ho, h⟩ := bind_eq_ok.1 h
    obtain ⟨hflags', hinput'⟩ := Options.set_keeps ho
    obtain rfl := Except.ok.inj h
    exact ⟨honly, hinput'.trans hinput, hwaiting,
      .inr ⟨setting, hname, hflags'.trans hflags, hwaiting'⟩⟩
  · cases h
  · rename_i f hname
    obtain ⟨r, hr, h⟩ := bind_eq_ok.1 h
    obtain ⟨hflags, hinput, honly, hwaiting, hwaiting'⟩ := resolve_keeps hr
    obtain ⟨o, ho, h⟩ := bind_eq_ok.1 h
    obtain ⟨hnew, hflags', hinput'⟩ := Options.setFlag_eq_ok ho
    obtain rfl := Except.ok.inj h
    rw [hflags] at hnew hflags'
    exact ⟨honly, hinput'.trans hinput, hwaiting, .inl ⟨f, hname, rfl, hnew, hflags', hwaiting'⟩⟩
  · obtain ⟨_, _, h⟩ := bind_eq_ok.1 h
    cases h
  · obtain ⟨_, _, h⟩ := bind_eq_ok.1 h
    cases h

/-- A single dash asks for the help or the version, or is refused. -/
theorem takeShort_ne_ok (s : State) (c : Char) : s.takeShort c ≠ .ok s' := by
  intro h
  have hends : ∀ name, name = "help" ∨ name = "version" → s.takeLong name none ≠ .ok s' := by
    rintro name (rfl | rfl) h <;>
    · obtain ⟨_, _, h⟩ := bind_eq_ok.1 (show s.resolve >>= _ = .ok s' from h)
      cases h
  unfold takeShort at h
  split at h
  · exact hends _ (.inl rfl) h
  · exact hends _ (.inr rfl) h
  · cases h

/-- An argument with two dashes. -/
theorem takes_of_takeLong {cs : List Char} (honly : s.onlyInputs = false)
    (h : s.takeLong (String.ofList (cutAtEquals cs).1) ((cutAtEquals cs).2.map String.ofList)
      = .ok s') : s.Takes ("--" ++ String.ofList cs) s' := by
  obtain ⟨honly', hinput, hwaiting, hcases⟩ := takeLong_eq_ok h
  rw [honly] at honly'
  cases hcut : cutAtEquals cs with
  | mk name value =>
      rw [hcut] at hcases
      cases value with
      | none =>
          obtain rfl := cutAtEquals_none hcut
          rcases hcases with
            ⟨f, hname, _, hnew, hflags, hwaiting'⟩ | ⟨setting, hname, hflags, hwaits⟩
          · obtain hname : String.ofList cs = f.name := Long.ofName?_eq_flag.1 hname
            rw [hname]
            refine .item (.flag f.name) honly honly' (by rw [hwaiting]; rfl) hwaiting'
              ⟨?_, nofun, nofun⟩ (by rw [hflags, List.map_append]; rfl) ?_
              (by rw [hinput]; exact (List.append_nil _).symm)
            · rcases f with (_ | _) | _ | _ <;> decide
            · intro hnodup
              rw [hflags]
              refine List.nodup_append.2 ⟨hnodup, by simp, ?_⟩
              rintro g hg g' hg' rfl
              exact hnew (List.mem_singleton.1 hg' ▸ hg)
          · obtain ⟨hname, _⟩ := Long.ofName?_eq_setting hname
            rw [hname]
            exact .waits honly honly' hwaiting hwaits hflags hinput
      | some value =>
          rcases hcases with ⟨f, _, hvalue, _⟩ | ⟨setting, hname, hflags, hwaits⟩
          · cases hvalue
          · obtain ⟨hname, hpass⟩ := Long.ofName?_eq_setting hname
            have hword : "--" ++ String.ofList cs
                = "--" ++ String.ofList name ++ "=" ++ String.ofList value := by
              rw [cutAtEquals_some hcut]
              refine String.toList_injective ?_
              simp
            rw [hword]
            refine .item (.joined (String.ofList name) (String.ofList value)) honly honly'
              (by rw [hwaiting]; rfl) hwaits ⟨?_, nofun, ?_⟩ (by rw [hflags]; simp [Item.flag?])
              (by rw [hflags]; exact id) (by rw [hinput]; simp [Item.input?])
            · intro hmem
              have hlength := congrArg String.length (List.mem_singleton.1 hmem)
              rw [String.length_append, String.length_append, String.length_append] at hlength
              have hequals : "=".length = 1 := rfl
              omega
            · rintro _ ⟨rfl⟩
              exact hpass

/-- An argument that names no option. -/
theorem takes_of_takeText {argument : String} (honly : s.onlyInputs = false)
    (hne : argument ≠ "--") (hdash : argument.toList.head? = some '-' → argument = "-")
    (h : s.takeText argument = .ok s') : s.Takes argument s' := by
  unfold takeText at h
  split at h
  · rename_i setting hpending
    obtain rfl := Except.ok.inj h
    refine .item (.separate setting.name argument) honly honly (by rw [waiting, hpending]; rfl) rfl
      ⟨?_, ?_, ?_⟩ (List.append_nil _).symm id (List.append_nil _).symm
    · have hname : "--" ≠ "--" ++ setting.name := by cases setting <;> decide
      simpa [Item.words] using ⟨hname, hne.symm⟩
    · rintro _ ⟨rfl⟩
      exact hdash
    · rintro _ ⟨rfl⟩
      cases setting <;> decide
  · obtain ⟨hnone, hflags, hinput, honly', hwaiting, hwaiting'⟩ := takeInput_eq_ok h
    refine .item (.input argument) honly (honly'.trans honly) (by rw [hwaiting]; rfl) hwaiting'
      ⟨?_, ?_, nofun⟩ (by rw [hflags]; simp [Item.flag?]) (by rw [hflags]; exact id)
      (by rw [hnone, hinput]; rfl)
    · exact fun hmem => hne (List.mem_singleton.1 hmem).symm
    · rintro _ ⟨rfl⟩
      exact hdash

/-- **What one argument does.** -/
theorem step_takes {argument : String} (h : s.step argument = .ok s') : s.Takes argument s' := by
  unfold step at h
  -- Behind `--` nothing is looked at any more.
  by_cases honly : s.onlyInputs = true
  · rw [if_pos honly] at h
    obtain ⟨hnone, hflags, hinput, honly', hwaiting, hwaiting'⟩ := takeInput_eq_ok h
    exact .input honly (honly'.trans honly) hwaiting hwaiting' hnone hflags hinput
  rw [if_neg honly] at h
  rw [Bool.not_eq_true] at honly
  split at h
  · rename_i hchars
    obtain rfl := Except.ok.inj h
    exact .ends honly (String.toList_injective hchars) rfl
  · rename_i cs _ hchars
    have hargument : argument = "--" ++ String.ofList cs := by
      refine String.toList_injective ?_
      rw [hchars]
      simp
    rw [hargument]
    exact takes_of_takeLong honly h
  · exact absurd h (takeShort_ne_ok s _)
  · -- A text without dashes is a value that is waited for, or the input.
    rename_i hend hlong hshort
    refine takes_of_takeText honly ?_ ?_ h
    · rintro rfl
      exact hend rfl
    · intro hhead
      refine String.toList_injective ?_
      cases hchars : argument.toList with
      | nil =>
          rw [hchars] at hhead
          cases hhead
      | cons c cs =>
          rw [hchars] at hhead
          cases hhead
          cases cs with
          | nil => rfl
          | cons d cs => exact absurd hchars (hshort d cs)

/-! ## §4. All arguments. -/

/-- How the arguments that were read are understood. -/
structure Tells (s : State) (seen : List String) (items : List Item)
    (behind : Option (List String)) : Prop where
  words : seen = items.flatMap Item.words ++ s.waiting ++ (behind.map ("--" :: ·)).getD []
  only : s.onlyInputs = behind.isSome
  fits : ∀ item ∈ items, item.Fits
  inputs : items.filterMap Item.input? ++ behind.getD [] = s.options.input.toList
  flags : items.filterMap Item.flag? = s.options.flags.map Flag.name
  once : s.options.flags.Nodup

/-- **One more argument is told.** -/
theorem Takes.tells {seen : List String} {argument : String} {items : List Item}
    {behind : Option (List String)} (h : s.Takes argument s') (hs : s.Tells seen items behind) :
    ∃ items' behind', s'.Tells (seen ++ [argument]) items' behind' := by
  have hbefore : s.onlyInputs = false → behind = none := fun honly =>
    Option.isNone_iff_eq_none.1 (by rw [← Option.not_isSome, ← hs.only, honly]; rfl)
  cases h with
  | input honly honly' hwaiting hwaiting' hnone hflags hinput =>
      obtain ⟨inputs, rfl⟩ := Option.isSome_iff_exists.1 (hs.only ▸ honly)
      have hempty : items.filterMap Item.input? ++ inputs = [] := by
        have hinputs : items.filterMap Item.input? ++ inputs = s.options.input.toList := hs.inputs
        rw [hinputs, hnone]
        rfl
      obtain ⟨hitems, rfl⟩ := List.append_eq_nil_iff.1 hempty
      refine ⟨items, some [argument], ?_, honly', hs.fits, ?_, ?_, hflags ▸ hs.once⟩
      · rw [hs.words, hwaiting, hwaiting']
        simp
      · rw [hitems, hinput]
        rfl
      · rw [hs.flags, hflags]
  | ends honly hargument hs' =>
      obtain rfl := hbefore honly
      subst hargument hs'
      refine ⟨items, some [], ?_, rfl, hs.fits, hs.inputs, hs.flags, hs.once⟩
      rw [hs.words]
      simp [waiting]
  | waits honly honly' hwaiting hwaiting' hflags hinput =>
      obtain rfl := hbefore honly
      refine ⟨items, none, ?_, honly', hs.fits, ?_, ?_, hflags ▸ hs.once⟩
      · rw [hs.words, hwaiting, hwaiting']
        simp
      · rw [hs.inputs, hinput]
      · rw [hs.flags, hflags]
  | item item honly honly' hwords hwaiting' hfits hflags honce hinput =>
      obtain rfl := hbefore honly
      refine ⟨items ++ [item], none, ?_, honly', ?_, ?_, ?_, honce hs.once⟩
      · rw [hs.words, hwaiting', List.flatMap_append, List.flatMap_singleton, ← hwords]
        simp
      · intro item' hitem'
        rcases List.mem_append.1 hitem' with hitem' | hitem'
        · exact hs.fits item' hitem'
        · obtain rfl := List.mem_singleton.1 hitem'
          exact hfits
      · have hinputs : items.filterMap Item.input? ++ [] = s.options.input.toList := hs.inputs
        rw [List.append_nil] at hinputs
        rw [List.filterMap_append, hinput, hinputs]
        cases hitem : item.input? <;> simp [hitem]
      · rw [List.filterMap_append, hflags, hs.flags]
        cases hitem : item.flag? <;> simp [hitem]

/-- The arguments, one after the other. -/
theorem foldlM_tells {arguments : List String} (h : arguments.foldlM step s = .ok s')
    {seen : List String} {items : List Item} {behind : Option (List String)}
    (hs : s.Tells seen items behind) :
    ∃ items' behind', s'.Tells (seen ++ arguments) items' behind' := by
  induction arguments generalizing s seen items behind with
  | nil =>
      obtain rfl := Except.ok.inj h
      exact ⟨items, behind, by rwa [List.append_nil]⟩
  | cons argument arguments ih =>
      rw [List.foldlM_cons] at h
      obtain ⟨middle, hstep, h⟩ := bind_eq_ok.1 h
      obtain ⟨items', behind', hmiddle⟩ := (step_takes hstep).tells hs
      have hrest := ih h hmiddle
      rwa [List.append_assoc] at hrest

end State

/-- The arguments of the program are read by `parse`. -/
def reader : Reader where
  Matches := Options
  read arguments := (parse arguments).toOption
  isSet o name :=
    match Long.ofName? name with
    | some (.flag f) => o.has f
    | _ => false
  input := Options.input

theorem read_eq_some {arguments : List String} {o : Options} :
    reader.read arguments = some o ↔ parse arguments = .ok o := by
  show (parse arguments).toOption = some o ↔ _
  cases parse arguments with
  | error refusal => exact ⟨nofun, nofun⟩
  | ok o' => exact ⟨fun h => congrArg _ (Option.some.inj h), fun h => congrArg _ (Except.ok.inj h)⟩

theorem isSet_iff {o : Options} {name : String} :
    reader.isSet o name = true ↔ name ∈ o.flags.map Flag.name := by
  unfold reader
  dsimp only
  rw [List.mem_map]
  constructor
  · intro h
    split at h
    · rename_i f hname
      exact ⟨f, List.contains_iff_mem.1 h, (Long.ofName?_eq_flag.1 hname).symm⟩
    · cases h
  · rintro ⟨f, hf, rfl⟩
    rw [Long.ofName?_eq_flag.2 rfl]
    exact List.contains_iff_mem.2 hf

/-- **The reader of the program keeps the laws.** -/
theorem reader_documented : reader.Documented := by
  intro arguments o hread
  obtain ⟨s, hfold, h⟩ := bind_eq_ok.1 (read_eq_some.1 hread)
  obtain ⟨s', hresolve, h⟩ := bind_eq_ok.1 h
  obtain rfl := Except.ok.inj h
  have hstart : State.Tells {} [] [] none := ⟨rfl, rfl, nofun, rfl, rfl, .nil⟩
  obtain ⟨items, behind, htells⟩ := State.foldlM_tells hfold hstart
  obtain ⟨hflags, hinput, _, hwaiting, _⟩ := State.resolve_keeps hresolve
  have hnames : items.filterMap Item.flag? = s'.options.flags.map Flag.name := by
    rw [htells.flags, hflags]
  refine ⟨items, behind, ?_, ?_, ?_, ?_, ?_, ?_, ?_⟩
  · rw [← List.nil_append (arguments.drop 1), htells.words, hwaiting, List.append_nil]
  · intro hmem
    obtain ⟨item, hitem, hword⟩ := List.mem_flatMap.1 hmem
    exact (htells.fits item hitem).ends hword
  · rw [htells.inputs, ← hinput]
    rfl
  · rw [hnames, hflags]
    exact List.Nodup.map Flag.name_injective htells.once
  · exact fun item hitem => (htells.fits item hitem).undashed
  · exact fun item hitem => (htells.fits item hitem).valueless
  · intro name
    rw [isSet_iff, ← hnames, Item.mem_flags]

/-! ## §5. The passes that run. -/

/-- **The passes that run** are those that the name of the program asks for,
those of the flags, and that of the input.  The flags ask for every pass at
most once, in their order before `--`, so the right passes run exactly if
neither the name of the program nor the input looks like the flag of a pass. -/
theorem parsed_passes {r : Reader} (hr : r.Documented) {arguments : List String} {m : r.Matches}
    (hread : r.read arguments = some m) :
    (Pipeline.ofArguments arguments).names
        = (Pass.asked (arguments.take 1) ++ Pass.given arguments
          ++ Pass.asked (r.input m).toList).map Pass.name
      ∧ (∀ p, (Pass.given arguments).count p = if r.isSet m p.name then 1 else 0)
      ∧ ((Pass.given arguments).map Pass.flag).Sublist
          ((arguments.drop 1).takeWhile (· != "--"))
      ∧ ((Pipeline.ofArguments arguments).names = (Pass.given arguments).map Pass.name
          ↔ ∀ text, text ∈ arguments.take 1 ∨ text ∈ r.input m → Pass.ofFlag? text = none) := by
  obtain ⟨items, behind, h⟩ := hr arguments m hread
  have hnames : (Pipeline.ofArguments arguments).names
      = (Pass.asked (arguments.take 1) ++ Pass.given arguments
        ++ Pass.asked (r.input m).toList).map Pass.name := by
    rw [Pipeline.names_ofArguments, List.append_assoc, ← h.asked_drop, ← Pass.asked_append,
      List.take_append_drop]
  refine ⟨hnames, h.count_given, Pass.flags_sublist _, ?_⟩
  rw [hnames, List.map_inj_right fun _ _ h => Pass.name_injective h]
  have hnone : ∀ texts : List String,
      Pass.asked texts = [] ↔ ∀ text ∈ texts, Pass.ofFlag? text = none := fun _ =>
    List.filterMap_eq_nil_iff
  constructor
  · intro heq
    -- What stands around the passes of the flags has no length.
    have hlength := congrArg List.length heq
    rw [List.length_append, List.length_append] at hlength
    rintro text (htext | htext)
    · exact (hnone _).1 (List.length_eq_zero_iff.1 (by omega)) text htext
    · refine (hnone (r.input m).toList).1 (List.length_eq_zero_iff.1 (by omega)) text ?_
      exact Option.mem_toList.2 htext
  · intro hplain
    rw [(hnone _).2 fun text htext => hplain text (.inl htext),
      (hnone _).2 fun text htext => hplain text (.inr (Option.mem_toList.1 htext)),
      List.nil_append, List.append_nil]

/-- Settings, a value and the input between the flags of the passes. -/
theorem parsed_passes_mixed :
    let arguments := ["rulebody", "--debug-print", "--heuristic", "x=2", "--unroll-factor=4", "-",
      "--unroll-loops", "--"]
    reader.Documented ∧ ∃ o : Options, reader.read arguments = some o ∧ o.input = some "-"
      ∧ (Pass.given arguments = [.outline, .unrollLoops])
      ∧ (∀ p : Pass, reader.isSet o p.name = true)
      ∧ (Pipeline.ofArguments arguments).names = ["debug-print", "unroll-loops"] := by
  intro arguments
  have hparse : parse arguments = .ok ⟨[.pass .outline, .pass .unrollLoops], some 4, ["x=2"],
      some "-"⟩ := by decide +kernel
  have hread : reader.read arguments = some _ := read_eq_some.2 hparse
  obtain ⟨hnames, _⟩ := parsed_passes reader_documented hread
  refine ⟨reader_documented, _, hread, rfl, by decide +kernel, ?_, hnames.trans (by decide +kernel)⟩
  rintro (_ | _) <;> decide +kernel

/-- An input that looks like a flag: it runs as a pass, although no flag was
given, whatever reader accepts it. -/
theorem input_runs_as_pass :
    (∃ o, parse ["rulebody", "--", "--unroll-loops"] = .ok o
      ∧ o.has (.pass .unrollLoops) = false ∧ o.input = some "--unroll-loops")
    ∧ (Pipeline.ofArguments ["rulebody", "--", "--unroll-loops"]).names = ["unroll-loops"]
    ∧ ∀ r : Reader, r.Documented → ∀ m, r.read ["rulebody", "--", "--unroll-loops"] = some m →
        r.isSet m "unroll-loops" = false ∧ r.input m = some "--unroll-loops" := by
  refine ⟨⟨⟨[], none, [], some "--unroll-loops"⟩, by decide +kernel, rfl, rfl⟩, by decide +kernel,
    fun r hr m hread => ?_⟩
  obtain ⟨items, behind, h⟩ := hr _ m hread
  have hitems : items = [] := h.items_eq_nil rfl
  subst hitems
  constructor
  · rw [← Bool.not_eq_true, h.set]
    exact List.not_mem_nil
  · have hwords : ["--", "--unroll-loops"] = (behind.map ("--" :: ·)).getD [] := h.words
    have hinputs : behind.getD [] = (r.input m).toList := h.inputs
    cases behind with
    | none => cases hwords
    | some inputs =>
        obtain ⟨_, rfl⟩ := List.cons.inj hwords
        cases hinput : r.input m with
        | none =>
            rw [hinput] at hinputs
            cases hinputs
        | some text =>
            rw [hinput] at hinputs
            exact congrArg some (List.cons.inj hinputs).1.symm

end CommandLine

end RuleBody
