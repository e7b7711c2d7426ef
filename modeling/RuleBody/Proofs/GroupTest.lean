/-
  RuleBody.Proofs.GroupTest
  ─────────────────────────
  **THE TEST OF A GROUP OF ROUNDS.**

  The test of the groups is put together as text and read again, so what is
  said about it goes through the reader: `i+4<n` and `i-4*(k)>=n` are read
  as the tests they look like (`parse_testText`, `group_meaning`).  Where such
  a test holds, the variable is a whole group of rounds away from its bound
  (`le_gap_of_group`).  The tests and increments of counted loops mean what
  they look like, too (`Bounded.meaning`, `Strides.meaning`).

  §1  numbers and first characters;
  §2  how far a group moves the variable;
  §3  tests and increments;
  §4  the test of a group.
-/
import RuleBody.Proofs.Counted
import RuleBody.Proofs.Meaning

namespace RuleBody

open Parse (enclosed)
open Token (Lexeme Reads IsLexeme kindOf)

/-! ## §1. Numbers and first characters. -/

/-- An amount with the sign of a direction. -/
def Direction.signed : Direction → Int → Int
  | .increasing, n => n
  | .decreasing, n => -n

namespace Token

/-- A name starts with the start of a name. -/
theorem Lexeme.startsName_of_identifier {chars : List Char} (h : Lexeme .identifier chars) :
    ∃ c cs, chars = c :: cs ∧ Text.startsName c = true := by
  generalize hkind : Kind.identifier = kind at h
  cases h with
  | @punctuation c _ hc =>
      subst hkind
      unfold punctuation? at hc
      split at hc <;> cases hc
  | name hc _ => exact ⟨_, _, rfl, hc⟩
  | _ => cases hkind

end Token

/-- A number without sign is made of digits. -/
theorem Number.readInt64?_unsigned {s : String} {n : Int}
    (hs : ∀ c ∈ s.toList.head?, c ≠ '-' ∧ c ≠ '+') (h : readInt64? s = some n) :
    s.toList ≠ [] ∧ s.toList.all Char.isDigit = true ∧ n = ofDigits s.toList := by
  have hsign : takeSign s.toList = (false, s.toList) := by
    cases hchars : s.toList with
    | nil => rfl
    | cons c cs =>
        obtain ⟨hminus, hplus⟩ := hs c (by rw [hchars]; rfl)
        unfold takeSign
        split
        · rename_i heq
          exact absurd (List.cons.inj heq).1 hminus
        · rename_i heq
          exact absurd (List.cons.inj heq).1 hplus
        · rfl
  unfold readInt64? at h
  simp only [hsign, Bool.false_eq_true, ↓reduceIte] at h
  split at h
  · cases h
  · rename_i hdigits
    simp only [Bool.or_eq_true, List.isEmpty_iff, Bool.not_eq_true', not_or,
      Bool.not_eq_false] at hdigits
    split at h
    · exact ⟨hdigits.1, hdigits.2, (Option.some.inj h).symm⟩
    · cases h

namespace Interp

variable (I : Interp)

theorem number?_of_digits {text : String} (hne : text.toList ≠ [])
    (hdigits : text.toList.all Char.isDigit = true) :
    I.number? text = some (Number.ofDigits text.toList : Int) := if_pos ⟨hne, hdigits⟩

theorem number?_toString (n : Nat) : I.number? (toString n) = some (n : Int) := by
  have hchars : (toString n).toList = Nat.toDigits 10 n := by
    rw [Nat.toString_eq_repr, Nat.toList_repr]
  have hvalue : Number.ofDigits (Nat.toDigits 10 n) = n :=
    Nat.ofDigitChars_toDigits (by decide) (by decide)
  have hdigits : (Nat.toDigits 10 n).all Char.isDigit = true :=
    List.all_eq_true.2 fun c hc => Nat.isDigit_of_mem_toDigits (by decide) (by decide) hc
  rw [I.number?_of_digits (by rw [hchars]; exact Nat.toDigits_ne_nil) (by rwa [hchars]), hchars,
    hvalue]

end Interp

/-! ## §2. How far a group moves the variable. -/

/-- A name or a literal is no operator. -/
theorem Expr.IsOperand.kindOf_ne {kind : Expr.Kind} {text : String} (h : IsOperand kind text) :
    kindOf text ≠ .operator := by
  intro hoperator
  have hread := h.readFrom
  rw [hoperator] at hread
  cases hread
  rcases h.name_or_literal with hkind | hkind <;> cases hkind

/-- A name or a literal does not start with an operator. -/
theorem Expr.IsOperand.head_not_operator {kind : Expr.Kind} {text : String}
    (h : IsOperand kind text) : ∀ c ∈ text.toList.head?, c ∉ Token.shortOperators :=
  Lexeme.head_not_operator h.lexeme h.kindOf_ne

/-- An operator ends where a name or a literal starts. -/
theorem Expr.IsOperand.operator_stops {kind : Expr.Kind} {text : String} (h : IsOperand kind text)
    (rest : List Char) : Token.Kind.operator.stops (text.toList ++ rest) = true :=
  Lexeme.operator_stops h.lexeme h.kindOf_ne rest

theorem Expr.IsOperand.words {kind : Expr.Kind} {text : String} (h : IsOperand kind text) :
    (leaf kind text).words = [text] := words_leaf h.admitted h.lexeme.ne_empty

/-- A part that is no comparison and no comma. -/
def Expr.IsPlain (p : Expr) : Prop := ∀ mark ∈ "," :: comparisons, p.isLeafText mark = false

theorem Expr.IsOperand.plain {kind : Expr.Kind} {text : String} (h : IsOperand kind text) :
    (leaf kind text).IsPlain := by
  have hmarks : ∀ mark ∈ "," :: comparisons, Kind.op.admits (kindOf mark) = true := by decide
  intro mark hmark
  exact beq_eq_false_iff_ne.2 (h.ne_of_op (hmarks mark hmark))

theorem Expr.plain_op {text : String} (h : text ∉ "," :: comparisons) : (op text).IsPlain := by
  intro mark hmark
  refine beq_eq_false_iff_ne.2 ?_
  rintro rfl
  exact h hmark

theorem Expr.plain_enclosed (opening closing : String) (inner : List Expr) :
    (chain (enclosed opening inner closing)).IsPlain := fun _ _ => rfl

/-- The amount of a step: a name, a literal or a parenthesis. -/
inductive Expr.IsAmount : Expr → Prop where
  | operand {kind : Expr.Kind} {text : String} : IsOperand kind text → IsAmount (.leaf kind text)
  | parenthesis {ps : List Expr} : Readable ps → ps ≠ [] → IsAmount (.chain (enclosed "(" ps ")"))

theorem Expr.IsAmount.readable {a : Expr} (h : a.IsAmount) {xs : List Expr} (hxs : Readable xs)
    (hlast : ∀ x ∈ xs.getLast?, x.kind ≠ .ident) : Readable (xs ++ [a]) := by
  cases h with
  | operand h => exact .leaf hxs h.lexeme h.readFrom
  | parenthesis hps hne => exact .paren hxs hlast hps hne

theorem Expr.IsAmount.legible {a : Expr} (h : a.IsAmount) : a.Legible :=
  (h.readable .nil (by simp)).legible a (by simp)

/-- The text of a parenthesis starts with its mark. -/
theorem Expr.print_parenthesis {ps : List Expr} {text : String}
    (h : (Expr.chain (enclosed "(" ps ")")).print = .ok text) : text.toList.head? = some '(' := by
  obtain ⟨q, qs, hparts⟩ : ∃ q qs, enclosed "(" ps ")" = .op "(" :: q :: qs := by
    unfold enclosed
    cases ps <;> exact ⟨_, _, rfl⟩
  rw [hparts] at h
  have hprint : (chain (.op "(" :: q :: qs)).print
      = (printJoined " " (q :: qs)).map fun others => "" ++ ("(" ++ "" ++ " " ++ others) := by
    show ((printJoined " " (q :: qs)).bind fun others => .ok ("(" ++ "" ++ " " ++ others)).bind
      (fun joined => .ok ("" ++ joined)) = _
    cases printJoined " " (q :: qs) <;> rfl
  rw [hprint] at h
  cases hothers : printJoined " " (q :: qs) with
  | error f =>
      rw [hothers] at h
      cases h
  | ok others =>
      rw [hothers] at h
      rw [← Except.ok.inj h]
      simp

/-- An amount whose text is a number is that number. -/
theorem Interp.value?_of_readInt64? (I : Interp) {a : Expr} (ha : a.IsAmount) {step : String}
    (hstep : a.print = .ok step) {n : Int} (hn : Number.readInt64? step = some n) :
    0 ≤ n ∧ ∀ σ, I.value? σ a = some n := by
  cases ha with
  | @operand kind text h =>
      obtain rfl : text = step := by
        rw [Expr.print_leaf h.admitted] at hstep
        exact Except.ok.inj hstep
      have hsigns : ∀ c ∈ text.toList.head?, c ≠ '-' ∧ c ≠ '+' := by
        intro c hc
        have hoperator := h.head_not_operator c hc
        constructor <;> rintro rfl <;> exact hoperator (by decide)
      obtain ⟨hne, hdigits, rfl⟩ := Number.readInt64?_unsigned hsigns hn
      refine ⟨Int.natCast_nonneg _, fun σ => ?_⟩
      rcases h.name_or_literal with rfl | rfl
      · -- A name does not start with a digit.
        have hlexeme : Lexeme (kindOf text) text.toList := h.lexeme
        have hkind : kindOf text = .identifier := by simpa [Expr.Kind.admits] using h.admitted
        rw [hkind] at hlexeme
        obtain ⟨c, cs, hchars, hc⟩ := hlexeme.startsName_of_identifier
        rw [hchars, List.all_cons, Token.isDigit_eq_false_of_startsName hc] at hdigits
        cases hdigits
      · exact (I.value?_lit σ text).trans (I.number?_of_digits hne hdigits)
  | @parenthesis ps hps hne =>
      have hhead := Expr.print_parenthesis hstep
      have hsigns : ∀ c ∈ step.toList.head?, c ≠ '-' ∧ c ≠ '+' := by
        intro c hc
        obtain rfl : '(' = c := Option.some.inj (hhead.symm.trans hc)
        decide
      obtain ⟨_, hdigits, _⟩ := Number.readInt64?_unsigned hsigns hn
      cases hchars : step.toList with
      | nil =>
          rw [hchars] at hhead
          cases hhead
      | cons c cs =>
          rw [hchars] at hhead hdigits
          obtain rfl : c = '(' := Option.some.inj hhead
          cases hdigits

namespace Unroll

theorem offset_cases (factor : Int) (step : String) :
    (∃ n, Number.readInt64? step = some n ∧ offset factor step = toString (n * factor))
      ∨ offset factor step = toString factor ++ "*(" ++ step ++ ")" := by
  unfold offset
  split
  · rename_i n hn
    split
    · exact .inl ⟨n, hn, rfl⟩
    · exact .inr rfl
  · exact .inr rfl

/-- Some parts say how far a group moves the variable: the text is read as
the parts, and behind an operand they are added to it. -/
structure IsOffset (I : Interp) (factor : Int) (a : Expr) (text : String) (parts : List Expr) :
    Prop where
  readable : ∀ {xs : List Expr}, Readable xs → Readable (xs ++ parts)
  starts : ∀ rest, Token.Kind.operator.stops (text.toList ++ rest) = true
  reads : ∀ {rest : List Char} {more : List String}, Token.Kind.integer.stops rest = true →
    Reads rest more → Reads (text.toList ++ rest) (Expr.wordsOf parts ++ more)
  plain : ∀ p ∈ parts, p.IsPlain
  value : ∀ {σ : Store} {k : Int}, I.value? σ a = some k → ∀ (direction : Direction)
    (done term : Int) (ps : List Expr), I.more? σ done term (.op direction.sign :: (parts ++ ps))
      = I.more? σ (done + term) (direction.signed (factor * k)) ps

theorem isOffset_number (I : Interp) {factor : Int} {a : Expr} {m : Nat}
    (hm : ∀ σ k, I.value? σ a = some k → factor * k = m) :
    IsOffset I factor a (toString m) [.lit (toString m)] := by
  have hoperand := Expr.isOperand_toString m
  refine ⟨fun hxs => .leaf hxs hoperand.lexeme hoperand.readFrom, hoperand.operator_stops, ?_,
    List.forall_mem_singleton.2 hoperand.plain, ?_⟩
  · intro rest more hstop hrest
    rw [Expr.wordsOf_cons, Expr.lit, hoperand.words]
    exact .lexeme (Token.toString_lexeme m) hstop hrest
  · intro σ k hk direction done term ps
    have hvalue : I.value? σ (.lit (toString m)) = some (factor * k) := by
      rw [I.value?_lit, I.number?_toString, hm σ k hk]
    rw [List.singleton_append, I.more?_op σ _ hvalue]
    cases direction <;> rfl

theorem isOffset_product (I : Interp) {factor : Nat} {a : Expr} {step : String} (ha : a.IsAmount)
    (hstep : a.print = .ok step) :
    IsOffset I factor a (toString factor ++ "*(" ++ step ++ ")")
      [.lit (toString factor), .op "*", .chain (enclosed "(" [a] ")")] := by
  have hoperand := Expr.isOperand_toString factor
  have htimes : Lexeme .operator "*".toList := .shortOperator (by decide)
  refine ⟨fun {xs} hxs => ?_, fun rest => ?_, ?_, ?_, ?_⟩
  · have hleft : Readable (xs ++ [.lit (toString factor)] ++ [.op "*"]) :=
      .leaf (.leaf hxs hoperand.lexeme hoperand.readFrom) htimes.isLexeme .operator
    have hparts := Readable.paren hleft (by simp [Expr.op, Expr.leaf])
      (ha.readable .nil (by simp)) (List.cons_ne_nil a [])
    simpa using hparts
  · rw [String.toList_append, String.toList_append, String.toList_append, List.append_assoc,
      List.append_assoc, List.append_assoc]
    exact hoperand.operator_stops _
  · intro rest more _ hrest
    obtain ⟨_, hprint, hreads⟩ := ha.legible.written
    obtain rfl := Except.ok.inj (hstep.symm.trans hprint)
    have hclose : Reads (')' :: rest) (")" :: more) := .mark (by rfl) hrest
    have hinner := hreads _ _ (Token.endsWord_cons rest (by decide) (by decide)) hclose
    have hopen : Reads ('(' :: (step.toList ++ ')' :: rest)) ("(" :: (a.words ++ ")" :: more)) :=
      .mark (by rfl) hinner
    have hall := Reads.lexeme (Token.toString_lexeme factor) (by rfl)
      (Reads.lexeme htimes (by rfl) hopen)
    rw [Expr.wordsOf_cons, Expr.lit, hoperand.words]
    simpa [Parse.enclosed_words] using hall
  · simp only [List.forall_mem_cons, List.not_mem_nil, false_imp_iff, implies_true, and_true]
    exact ⟨hoperand.plain, Expr.plain_op (by decide), Expr.plain_enclosed _ _ _⟩
  · intro σ k hk direction done term ps
    have hfactor : I.value? σ (.lit (toString factor)) = some (factor : Int) := by
      rw [I.value?_lit, I.number?_toString]
    have hproduct : I.value? σ (.chain (enclosed "(" [a] ")")) = some k := by
      rw [I.value?_chain]
      exact (I.sum?_parenthesis σ a).trans hk
    rw [List.cons_append, I.more?_op σ _ hfactor]
    cases direction with
    | increasing => exact I.more?_op σ "*" hproduct _ _ ps
    | decreasing =>
        refine (I.more?_op σ "*" hproduct _ _ ps).trans ?_
        rw [if_pos (by decide), Int.neg_mul]
        rfl

/-- **The distance of a group is read as a number or as a product.** -/
theorem exists_offset (I : Interp) {factor : Int} (hfactor : 0 ≤ factor) {a : Expr} {step : String}
    (ha : a.IsAmount) (hstep : a.print = .ok step) :
    ∃ parts, IsOffset I factor a (offset factor step) parts := by
  rcases offset_cases factor step with ⟨n, hn, htext⟩ | htext
  · obtain ⟨hnonneg, hvalue⟩ := I.value?_of_readInt64? ha hstep hn
    obtain ⟨m, hm⟩ := Int.eq_ofNat_of_zero_le (Int.mul_nonneg hnonneg hfactor)
    refine ⟨[.lit (toString m)], ?_⟩
    rw [htext, hm]
    refine isOffset_number I fun σ k hk => ?_
    obtain rfl : n = k := Option.some.inj ((hvalue σ).symm.trans hk)
    rw [Int.mul_comm, hm]
  · obtain ⟨m, rfl⟩ := Int.eq_ofNat_of_zero_le hfactor
    rw [htext]
    exact ⟨_, isOffset_product I ha hstep⟩

end Unroll

/-! ## §3. Tests and increments. -/

/-- How far a variable still is from its bound. -/
def Direction.gap : Direction → Int → Int → Int
  | .increasing, x, b => b - x
  | .decreasing, x, b => x - b

theorem Direction.gap_signed (direction : Direction) (x b n : Int) :
    direction.gap (x + direction.signed n) b = direction.gap x b - n := by
  cases direction <;> simp only [gap, signed] <;> omega

namespace Interp

variable {I : Interp} {σ : Store}

theorem compare?_tests {direction : Direction} {op : String} (hop : op ∈ direction.tests)
    (x b : Int) :
    (0 < direction.gap x b → compare? op x b = some true)
      ∧ (compare? op x b = some true → 0 ≤ direction.gap x b) := by
  cases direction with
  | increasing | decreasing =>
      simp only [Direction.tests, List.mem_cons, List.not_mem_nil, or_false] at hop
      rcases hop with rfl | rfl <;> simp [compare?, Direction.gap] <;> omega

theorem compare?_mirrored {direction : Direction} {op : String} (hop : op ∈ direction.mirrored)
    (x b : Int) :
    (0 < direction.gap x b → compare? op b x = some true)
      ∧ (compare? op b x = some true → 0 ≤ direction.gap x b) := by
  cases direction with
  | increasing | decreasing =>
      simp only [Direction.mirrored, List.mem_cons, List.not_mem_nil, or_false] at hop
      rcases hop with rfl | rfl <;> simp [compare?, Direction.gap] <;> omega

theorem le_gap_of_compare? {direction : Direction} {x b n : Int}
    (h : compare? direction.comparison (x + direction.signed n) b = some true) :
    n ≤ direction.gap x b := by
  cases direction with
  | increasing =>
      have hless : x + n < b := of_decide_eq_true (Option.some.inj h)
      show n ≤ b - x
      omega
  | decreasing =>
      have hmore : x + -n ≥ b := of_decide_eq_true (Option.some.inj h)
      show n ≤ x - b
      omega

theorem exists_compare? {op : String} (hop : op ∈ Expr.comparisons) (m n : Int) :
    ∃ holds, compare? op m n = some holds := by
  simp only [Expr.comparisons, List.mem_cons, List.not_mem_nil, or_false] at hop
  rcases hop with rfl | rfl | rfl | rfl | rfl | rfl <;> exact ⟨_, rfl⟩

theorem sum?_operand {kind : Expr.Kind} {text : String} (h : Expr.IsOperand kind text) {n : Int}
    (hn : I.value? σ (.leaf kind text) = some n) (ps : List Expr) :
    I.sum? σ (.leaf kind text :: ps) = I.more? σ 0 n ps :=
  I.sum?_cons σ (beq_eq_false_iff_ne.2 (h.ne_of_op (by decide))) hn ps

theorem sum?_singleton {kind : Expr.Kind} {text : String} (h : Expr.IsOperand kind text) {n : Int}
    (hn : I.value? σ (.leaf kind text) = some n) : I.sum? σ [.leaf kind text] = some n := by
  rw [sum?_operand h hn, I.more?_nil, Int.zero_add]

/-- A comparison is not part of a sum: where the parts before it are one, all
parts together are none. -/
theorem more?_comparison {op : String} (hop : op ∈ Expr.comparisons) (ys : List Expr) {m : Int} :
    ∀ (ps : List Expr) (done term : Int), I.more? σ done term ps = some m →
      I.more? σ done term (ps ++ .op op :: ys) = none
  | [], done, term, _ => by
      have hother : ∀ op ∈ Expr.comparisons, (op == "*") = false ∧ (op == "+") = false
          ∧ (op == "-") = false := by decide
      obtain ⟨htimes, hplus, hminus⟩ := hother op hop
      cases ys with
      | nil => rw [List.nil_append, more?]
      | cons y ys =>
          cases hy : I.value? σ y with
          | none => simp [more?, hy]
          | some n =>
              rw [List.nil_append, I.more?_op σ op hy, htimes, hplus, hminus]
              rfl
  | [p], done, term, h => by
      rw [more?] at h
      cases h
  | o :: p :: ps, done, term, h => by
      have ih : ∀ done term, I.more? σ done term ps = some m → _ := more?_comparison hop ys ps
      rw [more?] at h
      rw [List.cons_append, List.cons_append, more?]
      cases hp : I.value? σ p with
      | none => rfl
      | some n =>
          rw [hp] at h
          dsimp only at h ⊢
          split at h
          · rename_i htimes
            rw [if_pos htimes]
            exact ih _ _ h
          · rename_i htimes
            rw [if_neg htimes]
            split at h
            · rename_i hplus
              rw [if_pos hplus]
              exact ih _ _ h
            · rename_i hplus
              rw [if_neg hplus]
              split at h
              · rename_i hminus
                rw [if_pos hminus]
                exact ih _ _ h
              · cases h

theorem sum?_comparison {op : String} (hop : op ∈ Expr.comparisons) {front : List Expr} {m : Int}
    (h : I.sum? σ front = some m) (behind : List Expr) :
    I.sum? σ (front ++ .op op :: behind) = none := by
  unfold sum? at h
  cases front with
  | nil => cases h
  | cons p ps =>
      rw [List.cons_append]
      unfold sum?
      by_cases hparen : p.isLeafText "(" = true
      · -- A parenthesis has three parts, so four are none.
        rw [if_pos hparen]
        dsimp only at h
        rw [if_pos hparen] at h
        split at h
        · cases behind <;> rfl
        · cases h
      · rw [if_neg hparen]
        dsimp only at h
        rw [if_neg hparen] at h
        cases hn : I.value? σ p with
        | none => rfl
        | some n =>
            rw [hn] at h
            exact more?_comparison hop behind ps 0 n h

theorem assign?_eq_none (x : Expr) {op : String} (hop : op ∉ ["=", "+=", "-="]) {ps : List Expr}
    (hps : ps ≠ []) : I.assign? σ (.chain (x :: .op op :: ps)) = none := by
  simp only [List.mem_cons, List.not_mem_nil, or_false, not_or] at hop
  obtain ⟨hset, hadd, hsub⟩ := hop
  obtain ⟨p, ps, rfl⟩ := List.exists_cons_of_ne_nil hps
  simp only [assign?, Expr.parts_chain]
  split
  · split
    · rfl
    · simp [hset, hadd, hsub]
  · rfl

/-- **What a comparison says, and that it changes nothing.** -/
theorem comparison {front behind : List Expr} {op : String} {m n : Int}
    (hfront : ∀ p ∈ front, p.IsPlain) (hop : op ∈ Expr.comparisons)
    (hbehind : ∀ p ∈ behind, p.IsPlain) (hm : I.sum? σ front = some m)
    (hn : I.sum? σ behind = some n)
    (hassign : I.assign? σ (.chain (front ++ .op op :: behind)) = none) :
    compare? op m n = some (I.holds σ (.chain (front ++ .op op :: behind)))
      ∧ I.after σ (.chain (front ++ .op op :: behind)) = σ := by
  have hvalue : I.value? σ (.chain (front ++ .op op :: behind)) = none := by
    rw [I.value?_chain, sum?_comparison hop hm]
  generalize ht : Expr.chain (front ++ .op op :: behind) = t at hassign hvalue ⊢
  have hparts : t.parts = front ++ .op op :: behind := by
    rw [← ht]
    rfl
  have hplain : ∀ p ∈ front, (!isComparison p) = true := by
    intro p hp
    simpa [isComparison] using fun mark hmark => hfront p hp mark (List.mem_cons_of_mem _ hmark)
  have hmark : ∀ op ∈ Expr.comparisons, (!isComparison (.op op)) = false := by decide
  have hstop : ∀ p ∈ (Expr.op op :: behind).head?, (!isComparison p) = false := by
    intro p hp
    obtain rfl := Option.some.inj hp
    exact hmark op hop
  have htruth : I.truth? σ t = compare? op m n := by
    unfold truth?
    rw [hparts, Token.takeWhile_append_stop hplain hstop, Token.dropWhile_append_stop hplain hstop]
    simp only [hm, hn]
    rfl
  obtain ⟨holds, hcompare⟩ := exists_compare? hop m n
  rw [hcompare] at htruth
  constructor
  · have hholds : I.holds σ t = (I.valueOf σ t != 0) := by
      rw [← ht]
      rfl
    rw [hholds, valueOf, hvalue, htruth, hcompare]
    cases holds <;> simp
  · have hnoComma : ∀ op ∈ Expr.comparisons, (Expr.op op).isLeafText "," = false := by decide
    have hcomma : t.hasDirect "," = false := by
      unfold Expr.hasDirect
      rw [hparts, List.any_eq_false]
      intro p hp
      rw [Bool.not_eq_true]
      rcases List.mem_append.1 hp with hp | hp
      · exact hfront p hp "," List.mem_cons_self
      · rcases List.mem_cons.1 hp with rfl | hp
        · exact hnoComma op hop
        · exact hbehind p hp "," List.mem_cons_self
    have hsegments : Induction.segments t = [t] := if_neg (by simp [hcomma])
    unfold after
    rw [hsegments, List.foldl_cons, List.foldl_nil, single, hassign, htruth]
    simp

end Interp

/-- **The test of a counted loop holds as long as there is a gap, and where
it holds the variable has not passed the bound.** -/
theorem Bounded.meaning {I : Interp} {v : String} {direction : Direction} {kind : Expr.Kind}
    {w : String} {t : Expr} (h : Bounded v (.leaf kind w) direction t)
    (hv : Expr.IsOperand .ident v) (hw : Expr.IsOperand kind w) {σ : Store} {b : Int}
    (hb : I.value? σ (.leaf kind w) = some b) :
    (0 < direction.gap (σ v) b → I.holds σ t = true)
      ∧ (I.holds σ t = true → 0 ≤ direction.gap (σ v) b) ∧ I.after σ t = σ := by
  have hcomparisons : ∀ op ∈ Direction.comparisons, op ∈ Expr.comparisons
      ∧ op ∉ ["=", "+=", "-="] := by decide
  have hvalue : I.value? σ (.leaf .ident v) = some (σ v) := I.value?_ident σ v
  have hside : ∀ {k k' : Expr.Kind} {x y op : String} {m n : Int}, Expr.IsOperand k x →
      Expr.IsOperand k' y → op ∈ Direction.comparisons → I.value? σ (.leaf k x) = some m →
      I.value? σ (.leaf k' y) = some n →
      Interp.compare? op m n = some (I.holds σ (.chain [.leaf k x, .op op, .leaf k' y]))
        ∧ I.after σ (.chain [.leaf k x, .op op, .leaf k' y]) = σ := by
    intro k k' x y op m n hx hy hop hm hn
    obtain ⟨hop, hassignment⟩ := hcomparisons op hop
    exact Interp.comparison (List.forall_mem_singleton.2 hx.plain) hop
      (List.forall_mem_singleton.2 hy.plain) (Interp.sum?_singleton hx hm)
      (Interp.sum?_singleton hy hn)
      (Interp.assign?_eq_none _ hassignment (List.cons_ne_nil _ _))
  cases h with
  | @front op hop =>
      obtain ⟨hholds, hafter⟩ := hside hv hw
        (direction.mem_comparisons op (List.mem_append_left _ hop)) hvalue hb
      have hcompare := Interp.compare?_tests hop (σ v) b
      rw [hholds, Option.some.injEq] at hcompare
      exact ⟨hcompare.1, hcompare.2, hafter⟩
  | @back op hop =>
      obtain ⟨hholds, hafter⟩ := hside hw hv
        (direction.mem_comparisons op (List.mem_append_right _ hop)) hb hvalue
      have hcompare := Interp.compare?_mirrored hop (σ v) b
      rw [hholds, Option.some.injEq] at hcompare
      exact ⟨hcompare.1, hcompare.2, hafter⟩

/-- **The increment of a counted loop moves the variable by the step.** -/
theorem Strides.meaning {I : Interp} {v c : String} {direction : Direction} {inc : Expr}
    (h : Strides v direction c inc) (hlegible : inc.Legible) {k : Int} (hk : I.number? c = some k)
    (σ : Store) : I.after σ inc = σ.set v (σ v + direction.signed k) := by
  obtain ⟨hv, hc⟩ := h.operands hlegible
  suffices hassign : I.assign? σ inc = some (σ.set v (σ v + direction.signed k)) by
    unfold Interp.after
    rw [h.segments hlegible, List.foldl_cons, List.foldl_nil, Interp.single, hassign]
  have hvalue : I.value? σ (.lit c) = some k := by
    rw [I.value?_lit, hk]
  cases h with
  | behind =>
      obtain rfl : 1 = k := Option.some.inj ((I.number?_toString 1).symm.trans hk)
      cases direction <;> simp [Interp.assign?, Direction.mark, Direction.signed,
        Int.sub_eq_add_neg]
  | inFront =>
      obtain rfl : 1 = k := Option.some.inj ((I.number?_toString 1).symm.trans hk)
      cases direction <;> simp [Interp.assign?, Direction.mark, Direction.signed,
        Int.sub_eq_add_neg]
  | assigns =>
      have hsum : I.sum? σ [.lit c] = some k := Interp.sum?_singleton hc hvalue
      cases direction <;> simp [Interp.assign?, hsum, Direction.assignment, Direction.signed,
        Int.sub_eq_add_neg]
  | variableFirst =>
      have hsum : I.sum? σ [.ident v, .op direction.sign, .lit c]
          = some (σ v + direction.signed k) := by
        rw [Expr.ident, Interp.sum?_operand hv (I.value?_ident σ v), I.more?_op σ _ hvalue]
        cases direction <;> simp [Direction.sign, Direction.signed]
      simp [Interp.assign?, hsum]
  | variableLast =>
      have hsum : I.sum? σ [.lit c, .op "+", .ident v] = some (σ v + k) := by
        rw [Expr.lit, Interp.sum?_operand hc hvalue, I.more?_op σ _ (I.value?_ident σ v)]
        simp [Int.add_comm]
      simp [Interp.assign?, hsum, Direction.signed]

/-! ## §4. The test of a group. -/

namespace Direction

theorem sign_lexeme (direction : Direction) : Lexeme .operator direction.sign.toList := by
  cases direction <;> exact .shortOperator (by decide)

theorem comparison_lexeme (direction : Direction) :
    Lexeme .operator direction.comparison.toList := by
  cases direction with
  | increasing => exact .shortOperator (by decide)
  | decreasing => exact .longOperator (by decide)

theorem comparison_mem (direction : Direction) : direction.comparison ∈ Expr.comparisons := by
  cases direction <;> decide

end Direction

namespace Unroll

/-- Some parts are a bound: behind an operator, the text is read as the
parts. -/
structure IsLimit (text : String) (bound : List Expr) : Prop where
  readable : ∀ {xs : List Expr}, Readable xs → (∀ x ∈ xs.getLast?, x.kind ≠ .ident) →
    Readable (xs ++ bound)
  starts : ∀ rest, Token.Kind.operator.stops (text.toList ++ rest) = true
  reads : ∀ {rest : List Char} {more : List String}, Token.EndsWord rest → Reads rest more →
    Reads (text.toList ++ rest) (Expr.wordsOf bound ++ more)
  plain : ∀ p ∈ bound, p.IsPlain
  nonempty : bound ≠ []

theorem isLimit_operand {kind : Expr.Kind} {w : String} (hw : Expr.IsOperand kind w) :
    IsLimit w [.leaf kind w] where
  readable hxs _ := .leaf hxs hw.lexeme hw.readFrom
  starts := hw.operator_stops
  reads hends hmore := by
    rw [Expr.wordsOf_cons, hw.words]
    exact .lexeme hw.lexeme (hends.stops (Expr.Kind.admits_ne_directive hw.admitted)) hmore
  plain := List.forall_mem_singleton.2 hw.plain
  nonempty := List.cons_ne_nil _ _

/-- The test of a group, given how far a group moves the variable. -/
def groupTest (i : Induction) (parts bound : List Expr) : Expr :=
  .chain (.ident i.name :: .op i.direction.sign :: parts ++ .op i.direction.comparison :: bound)

section

variable {I : Interp} {factor : Int} {a : Expr} {i : Induction} {limit : String}
  {parts bound : List Expr} (hoffset : IsOffset I factor a (offset factor i.step) parts)
  (hv : Expr.IsOperand .ident i.name) (hlimit : IsLimit limit bound)
include hoffset hv hlimit

/-- The text of the test is read as the test. -/
theorem parse_testText :
    Expr.parse (testText factor i limit) {} = .ok (groupTest i parts bound) := by
  have hsign := i.direction.sign_lexeme
  have hcomparison := i.direction.comparison_lexeme
  have hreadable : Readable (.ident i.name :: .op i.direction.sign :: parts
      ++ .op i.direction.comparison :: bound) := by
    have hfront : Readable ([] ++ [.ident i.name, .op i.direction.sign]) :=
      .append_leaves .nil (by simp [Expr.ident, hv.isRead, Expr.isRead_op hsign])
    have hmiddle := Readable.append_leaves (hoffset.readable hfront)
      (List.forall_mem_singleton.2 (Expr.isRead_op hcomparison))
    have hall := hlimit.readable hmiddle (by
      rw [List.getLast?_append]
      simp)
    simpa using hall
  refine hreadable.parse (by simp) ?_ {}
  -- The words from the last to the first.
  have hend : Reads [';'] [";"] := .mark (by rfl) .done
  have hbound := hlimit.reads (Token.endsWord_cons [] (by decide) (by decide)) hend
  have hoperator := Reads.lexeme hcomparison (hlimit.starts _) hbound
  have hdistance := hoffset.reads (by cases i.direction <;> rfl) hoperator
  have hmoved := Reads.lexeme hsign (hoffset.starts _) hdistance
  have hkind : kindOf i.name = .identifier := by simpa [Expr.Kind.admits] using hv.admitted
  have hall := Reads.lexeme hv.lexeme (by rw [hkind]; cases i.direction <;> rfl) hmoved
  have hwords : Expr.wordsOf (.ident i.name :: .op i.direction.sign :: parts
      ++ .op i.direction.comparison :: bound) = i.name :: i.direction.sign
        :: (Expr.wordsOf parts ++ i.direction.comparison :: Expr.wordsOf bound) := by
    simp [Expr.ident, hv.words, hsign.isLexeme.ne_empty, hcomparison.isLexeme.ne_empty]
  rw [hwords]
  simpa [testText, String.toList_append, List.append_assoc] using hall

/-- **The test of a group compares the moved variable with the bound.** -/
theorem group_meaning {σ : Store} {k b : Int} (hk : I.value? σ a = some k)
    (hb : I.sum? σ bound = some b) :
    Interp.compare? i.direction.comparison (σ i.name + i.direction.signed (factor * k)) b
        = some (I.holds σ (groupTest i parts bound))
      ∧ I.after σ (groupTest i parts bound) = σ := by
  have hplain : ∀ p ∈ .ident i.name :: .op i.direction.sign :: parts, p.IsPlain := by
    refine List.forall_mem_cons.2 ⟨hv.plain, List.forall_mem_cons.2 ⟨?_, hoffset.plain⟩⟩
    exact Expr.plain_op (by cases i.direction <;> decide)
  have hfront : I.sum? σ (.ident i.name :: .op i.direction.sign :: parts)
      = some (σ i.name + i.direction.signed (factor * k)) := by
    have hvalue := hoffset.value hk i.direction 0 (σ i.name) []
    rw [Expr.ident, Interp.sum?_operand hv (I.value?_ident σ i.name)]
    rwa [List.append_nil, I.more?_nil, Int.zero_add] at hvalue
  exact Interp.comparison hplain i.direction.comparison_mem hlimit.plain hfront hb
    (Interp.assign?_eq_none _ (by cases i.direction <;> decide) (by simp))

/-- Where the test of a group holds, there is a gap for the whole group. -/
theorem le_gap_of_group {σ : Store} {k b : Int} (hk : I.value? σ a = some k)
    (hb : I.sum? σ bound = some b) (h : I.holds σ (groupTest i parts bound) = true) :
    factor * k ≤ i.direction.gap (σ i.name) b := by
  have hcompare := (group_meaning hoffset hv hlimit hk hb).1
  rw [h] at hcompare
  exact Interp.le_gap_of_compare? hcompare

end

end Unroll

end RuleBody
