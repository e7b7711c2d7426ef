/-
  RuleBody.Proofs.Rounds
  ──────────────────────
  **ROUNDS THAT END EARLY.**

  A `break` or a `continue` ends a round of a loop.  In the unrolled form
  the increment stands behind each copy of the body, and a second loop stands
  behind the groups, so both lead elsewhere:

      break      — leaves the groups, and the second loop runs the round again
      continue   — skips the increment, and the next group runs it again

  In the second loop they do what they did in the loop.  What a body does is
  a function here, from a store to an ending and a store, and what the rounds
  and the groups of a loop do is derived from it: up to the first round that
  ends early they go together (`Ascends.groups`, `Ascends.rounds`), and
  behind it each goes its own way (`Ascends.of_broke`,
  `Ascends.of_continued`).

  §1  rounds;
  §2  copies;
  §3  groups;
  §4  groups, then rounds.
-/
import RuleBody.Proofs.UnrollMeaning

namespace RuleBody

/-! ## §1. Rounds. -/

namespace Exec

section

variable {I : Interp} {t inc : Expr} {body : Stmt} {β : Store → Ending × Store}
  (htest : ∀ σ, I.after σ t = σ) (hbody : ∀ σ, Exec I (.stmt body) σ (β σ).1 (β σ).2)
  {σ τ : Store} {o : Ending}

include htest in
theorem rounds_of_false (ht : I.holds σ t = false) :
    Exec I (.rounds t inc body) σ o τ ↔ o = .normal ∧ τ = σ := by
  constructor
  · intro h
    cases h with
    | exit => exact ⟨rfl, htest σ⟩
    | round ht' | leave ht' | back ht' => simp [ht] at ht'
  · rintro ⟨rfl, rfl⟩
    have hexit : Exec I (.rounds t inc body) τ .normal (I.after τ t) := .exit ht
    rwa [htest] at hexit

include htest hbody

/-- A round that goes on leads to the next one. -/
theorem rounds_of_going (ht : I.holds σ t = true)
    (hgoing : (β σ).1 = .normal ∨ (β σ).1 = .continued) :
    Exec I (.rounds t inc body) σ o τ
      ↔ Exec I (.rounds t inc body) (I.after (β σ).2 inc) o τ := by
  have hround := hbody σ
  rw [← htest σ] at hround
  constructor
  · intro h
    cases h with
    | exit ht' => simp [ht] at ht'
    | round _ hbody' _ hrest =>
        obtain ⟨_, rfl⟩ := hround.unique hbody'
        rwa [htest] at hrest
    | leave _ hbody' | back _ hbody' =>
        have hending := (hround.unique hbody').1
        rw [htest] at hending
        simp [← hending] at hgoing
  · intro h
    have hgoing' := hgoing
    rw [← htest σ] at hgoing'
    refine .round ht hround hgoing' ?_
    rwa [htest]

/-- A `break` ends the rounds. -/
theorem rounds_of_broke (ht : I.holds σ t = true) (hbroke : (β σ).1 = .broke) :
    Exec I (.rounds t inc body) σ o τ ↔ o = .normal ∧ τ = (β σ).2 := by
  have hround := hbody σ
  rw [hbroke] at hround
  have hleave : Exec I (.rounds t inc body) σ .normal (β σ).2 := by
    refine .leave ht ?_
    rwa [htest]
  constructor
  · intro h
    exact hleave.unique h
  · rintro ⟨rfl, rfl⟩
    exact hleave

omit htest in
/-- Rounds without `return` end normally. -/
theorem normal_of_rounds (hstays : ∀ σ, (β σ).1 ≠ .returned)
    (h : Exec I (.rounds t inc body) σ o τ) : o = .normal := by
  generalize hc : Code.rounds t inc body = c at h
  induction h with
  | exit | leave => rfl
  | round _ _ _ _ _ ih => exact ih hc
  | @back _ _ _ σ _ _ hback _ =>
      obtain ⟨rfl, rfl, rfl⟩ := Code.rounds.inj hc
      exact absurd ((hback.unique (hbody _)).1) (hstays _)
  | _ => cases hc

/-- A round that leads to itself never ends. -/
theorem not_rounds_of_fixed (ht : I.holds σ t = true) (hcontinued : (β σ).1 = .continued)
    (hfixed : I.after (β σ).2 inc = σ) : ¬ Exec I (.rounds t inc body) σ o τ := by
  intro h
  -- By induction on the run: its first round leads to a shorter run from the same store.
  generalize hc : Code.rounds t inc body = c at h
  induction h with
  | exit ht' =>
      obtain ⟨rfl, rfl, rfl⟩ := Code.rounds.inj hc
      simp [ht] at ht'
  | round _ hbody' _ _ _ ih =>
      obtain ⟨rfl, rfl, rfl⟩ := Code.rounds.inj hc
      rw [htest] at hbody'
      obtain ⟨_, hstore⟩ := hbody'.unique (hbody _)
      rw [← hstore, hfixed] at ih
      exact ih ht hcontinued hfixed rfl
  | leave _ hbody' _ | back _ hbody' _ =>
      obtain ⟨rfl, rfl, rfl⟩ := Code.rounds.inj hc
      rw [htest] at hbody'
      have hending := (hbody'.unique (hbody _)).1
      simp [hcontinued] at hending
  | _ => cases hc

end

variable {I : Interp} {σ τ ρ : Store} {o : Ending}

theorem seq_of_normal {s : Stmt} (hs : Exec I (.stmt s) σ .normal ρ) {ss : List Stmt} :
    Exec I (.seq (s :: ss)) σ o τ ↔ Exec I (.seq ss) ρ o τ := by
  constructor
  · intro h
    cases h with
    | next hs' hrest =>
        obtain ⟨_, rfl⟩ := hs.unique hs'
        exact hrest
    | stop hs' hne => exact absurd (hs.unique hs').1 hne
  · exact .next hs

theorem seq_singleton {s : Stmt} : Exec I (.seq [s]) σ o τ ↔ Exec I (.stmt s) σ o τ := by
  constructor
  · intro h
    cases h with
    | next hs hrest =>
        cases hrest
        exact hs
    | stop hs _ => exact hs
  · intro h
    by_cases hnormal : o = .normal
    · subst hnormal
      exact .next h .done
    · exact .stop h hnormal

theorem loop_iff {d t i : Expr} (hd : d.jump? = none) {body : Stmt} {induction : Option Induction}
    {tags : Tags} : Exec I (.stmt (.loop [d, t, i] body induction tags)) σ o τ
      ↔ Exec I (.rounds t i body) (I.after σ d) o τ := by
  constructor
  · intro h
    cases h with
    | loop _ hrounds => exact hrounds
    | jump hd' => simp [hd] at hd'
  · exact .loop hd

theorem loop_nil_iff {t i : Expr} {body : Stmt} {induction : Option Induction} {tags : Tags} :
    Exec I (.stmt (.loop [.nil, t, i] body induction tags)) σ o τ
      ↔ Exec I (.rounds t i body) σ o τ := by
  rw [loop_iff rfl, I.after_nil]

end Exec

/-- Two statements run alike, each from its store. -/
def RunsAs (I : Interp) (s : Stmt) (σ : Store) (s' : Stmt) (σ' : Store) : Prop :=
  ∀ o τ, Exec I (.stmt s) σ o τ ↔ Exec I (.stmt s') σ' o τ

theorem RunsAs.of_exec {I : Interp} {s s' : Stmt} {σ σ' τ : Store} {o : Ending}
    (h : Exec I (.stmt s) σ o τ) (h' : Exec I (.stmt s') σ' o τ) : RunsAs I s σ s' σ' := by
  intro o' τ'
  constructor
  · intro hexec
    obtain ⟨rfl, rfl⟩ := h.unique hexec
    exact h'
  · intro hexec
    obtain ⟨rfl, rfl⟩ := h'.unique hexec
    exact h

/-! ## §2. Copies. -/

namespace Unroll

/-- What copies of a body do, each with the increment behind it: the first
that ends early is the last. -/
def copied (β : Store → Ending × Store) (next : Store → Store) : Nat → Store → Ending × Store
  | 0, σ => (.normal, σ)
  | n + 1, σ => if (β σ).1 = .normal then copied β next n (next σ) else β σ

theorem copied_add {β : Store → Ending × Store} {next : Store → Store} {m : Nat} {σ : Store}
    (h : ∀ j < m, (β (next^[j] σ)).1 = .normal) (n : Nat) :
    copied β next (m + n) σ = copied β next n (next^[m] σ) := by
  induction m generalizing σ with
  | zero => rw [Nat.zero_add, Function.iterate_zero_apply]
  | succ m ih =>
      have hfirst : (β σ).1 = .normal := h 0 (Nat.succ_pos m)
      rw [Nat.add_right_comm, copied, if_pos hfirst,
        ih fun j hj => h (j + 1) (Nat.succ_lt_succ hj), Function.iterate_succ_apply]

theorem copied_of_normal {β : Store → Ending × Store} {next : Store → Store} {n : Nat} {σ : Store}
    (h : ∀ j < n, (β (next^[j] σ)).1 = .normal) : copied β next n σ = (.normal, next^[n] σ) :=
  copied_add h 0

theorem copied_of_early {β : Store → Ending × Store} {next : Store → Store} {j n : Nat} {σ : Store}
    (h : ∀ i < j, (β (next^[i] σ)).1 = .normal) (hj : j < n)
    (hearly : (β (next^[j] σ)).1 ≠ .normal) : copied β next n σ = β (next^[j] σ) := by
  obtain ⟨m, rfl⟩ := Nat.exists_eq_add_of_lt hj
  rw [Nat.add_assoc, copied_add h, copied, if_neg hearly]

theorem copied_ne_returned {β : Store → Ending × Store} (hstays : ∀ σ, (β σ).1 ≠ .returned)
    (next : Store → Store) (n : Nat) (σ : Store) : (copied β next n σ).1 ≠ .returned := by
  induction n generalizing σ with
  | zero => exact nofun
  | succ n ih =>
      rw [copied]
      split
      · exact ih _
      · exact hstays σ

theorem copies_exec {I : Interp} {inc : Expr} {body : Stmt} {β : Store → Ending × Store}
    (hbody : ∀ σ, Exec I (.stmt body) σ (β σ).1 (β σ).2) (hjump : inc.jump? = none)
    {next : Store → Store} (hnext : ∀ σ, next σ = I.after (β σ).2 inc) (n : Nat) (σ : Store) :
    Exec I (.seq (copies n body (some inc))) σ (copied β next n σ).1 (copied β next n σ).2 := by
  induction n generalizing σ with
  | zero => exact .done
  | succ n ih =>
      have hround := hbody σ
      rw [copied]
      split
      · rename_i hnormal
        rw [hnormal] at hround
        refine .next hround (.next (.basic ?_ (hnext σ)) (ih _))
        rw [hjump]
        rfl
      · rename_i hearly
        exact .stop hround hearly

/-! ## §3. Groups. -/

/-- Whether a round stands in a group: the group that it would be in runs. -/
def InGroup (f : Nat) (x b : Int) (r : Nat) : Prop := x + (r / f * f + f : Nat) < b

theorem InGroup.lt {f : Nat} (hf : 0 < f) {x b : Int} {r : Nat} (h : InGroup f x b r) :
    x + r < b := by
  have hless := Nat.lt_div_mul_add hf (a := r)
  unfold InGroup at h
  omega

theorem InGroup.of_le {f : Nat} {x b : Int} {r j : Nat} (h : InGroup f x b r) (hj : j ≤ r) :
    InGroup f x b j := by
  have hle : j / f * f ≤ r / f * f := Nat.mul_le_mul_right f (Nat.div_le_div_right hj)
  unfold InGroup at h ⊢
  omega

/-- The store before the next round: the body has run, and the variable has
moved. -/
def advance (β : Store → Ending × Store) (v : String) (σ : Store) : Store :=
  (β σ).2.set v (σ v + 1)

/-- The rounds of the loop that runs the groups. -/
abbrev groupRounds (g inc : Expr) (body : Stmt) (f : Nat) : Code :=
  .rounds g .nil (.ofBlock ⟨copies f body (some inc), {}⟩)

/-- Rounds that move a variable by one towards a bound.  The test of the loop
says that it has not reached the bound, and the test of the groups that it
will not have done so a group later. -/
structure Ascends (I : Interp) (t g inc : Expr) (body : Stmt) (β : Store → Ending × Store)
    (v : String) (bound : Store → Int) (f : Nat) : Prop where
  body : ∀ σ, Exec I (.stmt body) σ (β σ).1 (β σ).2
  stays : ∀ σ, (β σ).1 ≠ .returned
  variable_kept : ∀ σ, (β σ).2 v = σ v
  bound_kept : ∀ σ n, bound ((β σ).2.set v n) = bound σ
  test : ∀ σ, I.holds σ t = decide (σ v < bound σ)
  test_after : ∀ σ, I.after σ t = σ
  group : ∀ σ, I.holds σ g = decide (σ v + f < bound σ)
  group_after : ∀ σ, I.after σ g = σ
  increment : ∀ σ, I.after σ inc = σ.set v (σ v + 1)
  jump : inc.jump? = none
  positive : 0 < f

namespace Ascends

variable {I : Interp} {t g inc : Expr} {body : Stmt} {β : Store → Ending × Store} {v : String}
  {bound : Store → Int} {f : Nat} (h : Ascends I t g inc body β v bound f) {σ τ : Store}
  {o : Ending}
include h

theorem holds_iff : I.holds σ t = true ↔ σ v < bound σ := by
  rw [h.test, decide_eq_true_iff]

theorem group_holds_iff : I.holds σ g = true ↔ σ v + f < bound σ := by
  rw [h.group, decide_eq_true_iff]

theorem after_body (σ : Store) : I.after (β σ).2 inc = advance β v σ := by
  rw [h.increment, h.variable_kept]
  rfl

theorem iterate (r : Nat) (σ : Store) :
    (advance β v)^[r] σ v = σ v + r ∧ bound ((advance β v)^[r] σ) = bound σ := by
  induction r generalizing σ with
  | zero => exact ⟨(Int.add_zero _).symm, rfl⟩
  | succ r ih =>
      obtain ⟨hvariable, hbound⟩ := ih (advance β v σ)
      have hmoved : advance β v σ v = σ v + 1 := Store.set_self _ _ _
      rw [Function.iterate_succ_apply, hvariable, hbound, hmoved]
      refine ⟨?_, h.bound_kept σ _⟩
      push_cast
      omega

/-- A round of the loop. -/
theorem round (ht : σ v < bound σ) (hgoing : (β σ).1 = .normal ∨ (β σ).1 = .continued) :
    Exec I (.rounds t inc body) σ o τ ↔ Exec I (.rounds t inc body) (advance β v σ) o τ := by
  rw [Exec.rounds_of_going h.test_after h.body (h.holds_iff.2 ht) hgoing, h.after_body]

/-- Some rounds that end normally. -/
theorem rounds {r : Nat} (hr : ∀ j < r, σ v + j < bound σ)
    (hnormal : ∀ j < r, (β ((advance β v)^[j] σ)).1 = .normal) :
    Exec I (.rounds t inc body) σ o τ
      ↔ Exec I (.rounds t inc body) ((advance β v)^[r] σ) o τ := by
  induction r with
  | zero => rfl
  | succ r ih =>
      have hlast := h.iterate r σ
      have hless := hr r (Nat.lt_succ_self r)
      rw [ih (fun j hj => hr j (Nat.lt_succ_of_lt hj))
          (fun j hj => hnormal j (Nat.lt_succ_of_lt hj)),
        h.round (by omega) (.inl (hnormal r (Nat.lt_succ_self r))), Function.iterate_succ_apply']

/-- The rounds of the loop come to an end, and the variable does not go
back. -/
theorem rounds_end (σ : Store) :
    ∃ τ, Exec I (.rounds t inc body) σ .normal τ ∧ σ v ≤ τ v := by
  -- By induction on how far the variable is from its bound; the body keeps both.
  induction hn : (bound σ - σ v).toNat using Nat.strongRecOn generalizing σ with
  | _ n ih =>
      by_cases ht : σ v < bound σ
      · have hgoes : ∀ hgoing : (β σ).1 = .normal ∨ (β σ).1 = .continued,
            ∃ τ, Exec I (.rounds t inc body) σ .normal τ ∧ σ v ≤ τ v := by
          intro hgoing
          obtain ⟨hvariable, hbound⟩ := h.iterate 1 σ
          rw [Function.iterate_one] at hvariable hbound
          obtain ⟨τ, hτ, hle⟩ := ih _ (by omega) (advance β v σ) rfl
          exact ⟨τ, (h.round ht hgoing).2 hτ, by omega⟩
        cases hending : (β σ).1 with
        | normal => exact hgoes (.inl hending)
        | continued => exact hgoes (.inr hending)
        | broke =>
            have hleaves : Exec I (.rounds t inc body) σ .normal (β σ).2 :=
              (Exec.rounds_of_broke h.test_after h.body (h.holds_iff.2 ht) hending).2 ⟨rfl, rfl⟩
            exact ⟨(β σ).2, hleaves, (h.variable_kept σ).ge⟩
        | returned => exact absurd hending (h.stays σ)
      · have hfails : I.holds σ t = false := Bool.eq_false_iff.2 (mt h.holds_iff.1 ht)
        exact ⟨σ, (Exec.rounds_of_false h.test_after hfails).2 ⟨rfl, rfl⟩, le_refl _⟩

/-- The body of a group. -/
theorem group_exec (σ : Store) :
    Exec I (.stmt (.ofBlock ⟨copies f body (some inc), {}⟩)) σ
      (copied β (advance β v) f σ).1 (copied β (advance β v) f σ).2 :=
  .block (copies_exec h.body h.jump (fun σ => (h.after_body σ).symm) f σ)

/-- Before a group that runs, its test holds. -/
theorem group_holds {q : Nat} (hq : InGroup f (σ v) (bound σ) (q * f)) :
    I.holds ((advance β v)^[q * f] σ) g = true := by
  obtain ⟨hvariable, hbound⟩ := h.iterate (q * f) σ
  unfold InGroup at hq
  rw [Nat.mul_div_cancel q h.positive] at hq
  rw [h.group_holds_iff, hvariable, hbound]
  push_cast at hq ⊢
  omega

/-- Some groups whose rounds end normally. -/
theorem groups {q : Nat} (hq : ∀ j < q * f, InGroup f (σ v) (bound σ) j)
    (hnormal : ∀ j < q * f, (β ((advance β v)^[j] σ)).1 = .normal) :
    Exec I (groupRounds g inc body f) σ o τ
      ↔ Exec I (groupRounds g inc body f) ((advance β v)^[q * f] σ) o τ := by
  induction q with
  | zero => rw [Nat.zero_mul, Function.iterate_zero_apply]
  | succ q ih =>
      have hmore : (q + 1) * f = f + q * f := by ring
      have hfewer : q * f < (q + 1) * f := by
        have := h.positive
        omega
      have hholds := h.group_holds (hq (q * f) hfewer)
      -- The last group is the copies from where the groups before it lead.
      have hbody := copied_of_normal (n := f) (σ := (advance β v)^[q * f] σ) fun j hj => by
        rw [← Function.iterate_add_apply]
        exact hnormal (j + q * f) (by omega)
      rw [ih (fun j hj => hq j (by omega)) (fun j hj => hnormal j (by omega)),
        Exec.rounds_of_going h.group_after h.group_exec hholds (.inl (by rw [hbody])), hbody,
        I.after_nil, ← Function.iterate_add_apply, hmore]

/-- The rounds of a group up to one that ends early. -/
theorem group_early {r : Nat} (hr : InGroup f (σ v) (bound σ) r)
    (hnormal : ∀ j < r, (β ((advance β v)^[j] σ)).1 = .normal)
    (hearly : (β ((advance β v)^[r] σ)).1 ≠ .normal) :
    ∃ ρ, I.holds ρ g = true ∧ copied β (advance β v) f ρ = β ((advance β v)^[r] σ)
      ∧ ∀ o τ, Exec I (groupRounds g inc body f) σ o τ
        ↔ Exec I (groupRounds g inc body f) ρ o τ := by
  -- The round stands in the group `r / f`, behind `r % f` others.
  have hsplit : r % f + r / f * f = r := Nat.mod_add_div' r f
  have hholds := h.group_holds (hr.of_le (Nat.div_mul_le_self r f))
  refine ⟨(advance β v)^[r / f * f] σ, hholds, ?_, fun o τ => h.groups (fun j hj => hr.of_le ?_)
    fun j hj => hnormal j ?_⟩
  · have hround : (advance β v)^[r % f] ((advance β v)^[r / f * f] σ) = (advance β v)^[r] σ := by
      rw [← Function.iterate_add_apply, hsplit]
    rw [← hround] at hearly ⊢
    refine copied_of_early (fun j hj => ?_) (Nat.mod_lt r h.positive) hearly
    rw [← Function.iterate_add_apply]
    exact hnormal _ (by omega)
  · omega
  · omega

section

variable {r : Nat} (hr : InGroup f (σ v) (bound σ) r)
  (hnormal : ∀ j < r, (β ((advance β v)^[j] σ)).1 = .normal) {ρ : Store}
include hr

/-- The test of the loop holds before a round of a group, and still does so
behind its body. -/
theorem holds_around {o : Ending} (hround : β ((advance β v)^[r] σ) = (o, ρ)) :
    I.holds ((advance β v)^[r] σ) t = true ∧ I.holds ρ t = true
      ∧ ρ v = σ v + r ∧ bound ρ = bound σ := by
  have hless := hr.lt h.positive
  obtain ⟨hvariable, hbound⟩ := h.iterate r σ
  obtain rfl : (β ((advance β v)^[r] σ)).2 = ρ := congrArg Prod.snd hround
  have hkept := h.variable_kept ((advance β v)^[r] σ)
  have hbound' := h.bound_kept ((advance β v)^[r] σ) ((β ((advance β v)^[r] σ)).2 v)
  rw [Store.set_eq_self] at hbound'
  rw [h.holds_iff, h.holds_iff]
  refine ⟨?_, ?_, ?_, ?_⟩ <;> omega

include hnormal

/-- **A `break` in a group** ends the loop, but only the groups of the
form. -/
theorem of_broke (hbroke : β ((advance β v)^[r] σ) = (.broke, ρ)) :
    (∀ o τ, Exec I (.rounds t inc body) σ o τ ↔ o = .normal ∧ τ = ρ)
      ∧ Exec I (groupRounds g inc body f) σ .normal ρ := by
  have hending : (β ((advance β v)^[r] σ)).1 = .broke := congrArg Prod.fst hbroke
  have hholds := (h.holds_around hr hbroke).1
  obtain ⟨first, hfirst, hcopied, hgroups⟩ := h.group_early hr hnormal (by rw [hending]; decide)
  rw [hbroke] at hcopied
  constructor
  · intro o τ
    rw [h.rounds (fun j hj => (hr.of_le hj.le).lt h.positive) hnormal,
      Exec.rounds_of_broke h.test_after h.body hholds hending, hbroke]
  · rw [hgroups, Exec.rounds_of_broke h.group_after h.group_exec hfirst (by rw [hcopied]), hcopied]
    exact ⟨rfl, rfl⟩

/-- **A `continue` in a group** moves the variable of the loop, but not that
of the form. -/
theorem of_continued (hcontinued : β ((advance β v)^[r] σ) = (.continued, ρ)) :
    (∀ o τ, Exec I (.rounds t inc body) σ o τ
        ↔ Exec I (.rounds t inc body) (ρ.set v (ρ v + 1)) o τ)
      ∧ ∀ o τ, Exec I (groupRounds g inc body f) σ o τ
        ↔ Exec I (groupRounds g inc body f) ρ o τ := by
  have hending : (β ((advance β v)^[r] σ)).1 = .continued := congrArg Prod.fst hcontinued
  have hholds := (h.holds_around hr hcontinued).1
  obtain ⟨first, hfirst, hcopied, hgroups⟩ := h.group_early hr hnormal (by rw [hending]; decide)
  rw [hcontinued] at hcopied
  constructor
  · intro o τ
    rw [h.rounds (fun j hj => (hr.of_le hj.le).lt h.positive) hnormal,
      Exec.rounds_of_going h.test_after h.body hholds (.inr hending), hcontinued, h.increment]
  · intro o τ
    rw [hgroups, Exec.rounds_of_going h.group_after h.group_exec hfirst
      (.inr (by rw [hcopied])), hcopied, I.after_nil]

end

/-- A round that breaks again and changes nothing is one that the rounds end
with. -/
theorem rounds_to_itself (ht : I.holds σ t = true) :
    Exec I (.rounds t inc body) σ .normal σ ↔ β σ = (.broke, σ) := by
  -- A round that goes on moves the variable, and it does not come back.
  have hmoves : ∀ hgoing : (β σ).1 = .normal ∨ (β σ).1 = .continued,
      ¬ Exec I (.rounds t inc body) σ .normal σ := by
    intro hgoing hexec
    obtain ⟨τ, hτ, hle⟩ := h.rounds_end (advance β v σ)
    obtain ⟨_, rfl⟩ := hexec.unique ((h.round (h.holds_iff.1 ht) hgoing).2 hτ)
    have hmoved : advance β v τ v = τ v + 1 := Store.set_self _ _ _
    omega
  cases hending : (β σ).1 with
  | normal =>
      refine iff_of_false (hmoves (.inl hending)) fun hbroke => ?_
      simp [hbroke] at hending
  | continued =>
      refine iff_of_false (hmoves (.inr hending)) fun hbroke => ?_
      simp [hbroke] at hending
  | broke =>
      rw [Exec.rounds_of_broke h.test_after h.body ht hending]
      constructor
      · rintro ⟨_, hstore⟩
        exact Prod.ext hending hstore.symm
      · intro hbroke
        exact ⟨rfl, (congrArg Prod.snd hbroke).symm⟩
  | returned => exact absurd hending (h.stays σ)

/-- Groups without early ends lead to a later round of the loop. -/
theorem groups_end (hnormal : ∀ r, InGroup f (σ v) (bound σ) r →
    (β ((advance β v)^[r] σ)).1 = .normal) :
    ∃ ρ, Exec I (groupRounds g inc body f) σ .normal ρ
      ∧ ∀ o τ, Exec I (.rounds t inc body) σ o τ ↔ Exec I (.rounds t inc body) ρ o τ := by
  have hend : ∃ q : Nat, bound σ ≤ σ v + (q * f + f : Nat) := by
    refine ⟨(bound σ - σ v).toNat, ?_⟩
    have hle : (bound σ - σ v).toNat ≤ (bound σ - σ v).toNat * f :=
      Nat.le_mul_of_pos_right _ h.positive
    omega
  -- All groups before the first that does not run.
  let q := Nat.find hend
  have hgroup : ∀ j < q * f, InGroup f (σ v) (bound σ) j := by
    intro j hj
    have hbefore := Nat.find_min hend (Nat.div_lt_of_lt_mul (Nat.mul_comm q f ▸ hj))
    exact not_le.1 hbefore
  have hall : ∀ j < q * f, (β ((advance β v)^[j] σ)).1 = .normal :=
    fun j hj => hnormal j (hgroup j hj)
  refine ⟨(advance β v)^[q * f] σ, (h.groups hgroup hall).2 ?_,
    fun o τ => h.rounds (fun j hj => (hgroup j hj).lt h.positive) hall⟩
  refine (Exec.rounds_of_false h.group_after ?_).2 ⟨rfl, rfl⟩
  obtain ⟨hvariable, hbound⟩ := h.iterate (q * f) σ
  have hfound : bound σ ≤ σ v + (q * f + f : Nat) := Nat.find_spec hend
  rw [Bool.eq_false_iff, ne_eq, h.group_holds_iff, hvariable, hbound]
  push_cast at hfound ⊢
  omega

/-! ## §4. Groups, then rounds. -/

/-- The unrolled form: the groups, and then the rounds that are left. -/
theorem form_iff {d : Expr} (hd : d.jump? = none) {tags : Tags} :
    Exec I (.stmt (form d t inc body tags f g (some inc))) σ o τ
      ↔ ∃ ρ, Exec I (groupRounds g inc body f) (I.after σ d) .normal ρ
        ∧ Exec I (.rounds t inc body) ρ o τ := by
  -- The two loops, behind a declaration that is still in the first or has moved in front.
  have hloops : ∀ {d : Expr} {σ : Store}, d.jump? = none →
      (Exec I (.seq [.loop [d, g, .nil] (.ofBlock ⟨copies f body (some inc), {}⟩) none
          (tags.insert justUnrolled none),
        .loop [.nil, t, inc] body none (tags.insert justUnrolled none)]) σ o τ
      ↔ ∃ ρ, Exec I (groupRounds g inc body f) (I.after σ d) .normal ρ
        ∧ Exec I (.rounds t inc body) ρ o τ) := by
    intro d σ hd
    constructor
    · intro hexec
      cases hexec with
      | next hgroups hleft =>
          exact ⟨_, (Exec.loop_iff hd).1 hgroups,
            Exec.loop_nil_iff.1 (Exec.seq_singleton.1 hleft)⟩
      | stop hgroups hne =>
          -- No group returns, so the second loop is always reached.
          refine absurd ?_ hne
          exact Exec.normal_of_rounds h.group_exec (copied_ne_returned h.stays _ f)
            ((Exec.loop_iff hd).1 hgroups)
    · rintro ⟨ρ, hgroups, hleft⟩
      exact .next (.loop hd hgroups) (Exec.seq_singleton.2 (Exec.loop_nil_iff.2 hleft))
  have hblock : ∀ {ss : List Stmt},
      Exec I (.stmt (.ofBlock ⟨ss, {}⟩)) σ o τ ↔ Exec I (.seq ss) σ o τ := by
    intro ss
    constructor
    · intro hexec
      cases hexec with
      | block hexec => exact hexec
    · exact .block
  unfold form
  rw [hblock]
  split
  · exact hloops hd
  · have hdecl : Exec I (.stmt (.ofExpr d)) σ .normal (I.after σ d) :=
      .basic (by rw [hd]; rfl) rfl
    rw [List.singleton_append, Exec.seq_of_normal hdecl, hloops rfl, I.after_nil]

section

variable {d : Expr} {tags : Tags}

theorem loop_ends (σ : Store) :
    ∃ τ, Exec I (.stmt (.loop [d, t, inc] body none tags)) σ (d.jump?.getD .normal) τ := by
  cases hd : d.jump? with
  | none =>
      obtain ⟨τ, hτ, _⟩ := h.rounds_end (I.after σ d)
      exact ⟨τ, .loop hd hτ⟩
  | some o => exact ⟨I.after σ d, .jump hd rfl⟩

/-- **Groups without early ends run as the loop**, whatever the rounds that
are left do. -/
theorem form_of_normal (hnormal : d.jump? = none → ∀ r,
    InGroup f (I.after σ d v) (bound (I.after σ d)) r →
      (β ((advance β v)^[r] (I.after σ d))).1 = .normal) :
    RunsAs I (form d t inc body tags f g (some inc)) σ (.loop [d, t, inc] body none tags) σ := by
  cases hd : d.jump? with
  | none =>
      obtain ⟨ρ, hgroups, hrounds⟩ := h.groups_end (hnormal hd)
      obtain ⟨τ, hτ, _⟩ := h.rounds_end ρ
      exact .of_exec ((h.form_iff hd).2 ⟨ρ, hgroups, hτ⟩) (.loop hd ((hrounds _ _).2 hτ))
  | some o => exact .of_exec (form_jumps hd σ) (.jump hd rfl)

variable (hd : d.jump? = none) {r : Nat}
  (hr : InGroup f (I.after σ d v) (bound (I.after σ d)) r)
  (hnormal : ∀ j < r, (β ((advance β v)^[j] (I.after σ d))).1 = .normal) {ρ : Store}
include hd hr hnormal

/-- **Behind a `break` in a group**, the form runs the loop from the store
where the loop has ended.  This is no difference exactly if the round that is
run again breaks and changes nothing. -/
theorem form_of_broke (hbroke : β ((advance β v)^[r] (I.after σ d)) = (.broke, ρ)) :
    Exec I (.stmt (.loop [d, t, inc] body none tags)) σ .normal ρ
      ∧ RunsAs I (form d t inc body tags f g (some inc)) σ
        (.loop [.nil, t, inc] body none tags) ρ
      ∧ (RunsAs I (form d t inc body tags f g (some inc)) σ (.loop [d, t, inc] body none tags) σ
        ↔ β ρ = (.broke, ρ)) := by
  obtain ⟨hrounds, hgroups⟩ := h.of_broke hr hnormal hbroke
  have hloop : Exec I (.stmt (.loop [d, t, inc] body none tags)) σ .normal ρ :=
    .loop hd ((hrounds _ _).2 ⟨rfl, rfl⟩)
  obtain ⟨τ, hτ, _⟩ := h.rounds_end ρ
  have hform : Exec I (.stmt (form d t inc body tags f g (some inc))) σ .normal τ :=
    (h.form_iff hd).2 ⟨ρ, hgroups, hτ⟩
  refine ⟨hloop, .of_exec hform (Exec.loop_nil_iff.2 hτ), ?_⟩
  rw [← h.rounds_to_itself (h.holds_around hr hbroke).2.1]
  constructor
  · intro halike
    obtain ⟨_, rfl⟩ := hform.unique ((halike _ _).2 hloop)
    exact hτ
  · intro hagain
    obtain ⟨_, rfl⟩ := hτ.unique hagain
    exact .of_exec hform hloop

/-- **Behind a `continue` in a group**, the form starts again from the store
in which the loop has moved its variable.  If the round that is run again
continues and changes nothing, and there is a group left, it never ends. -/
theorem form_of_continued (hcontinued : β ((advance β v)^[r] (I.after σ d)) = (.continued, ρ)) :
    RunsAs I (.loop [d, t, inc] body none tags) σ
        (.loop [.nil, t, inc] body none tags) (ρ.set v (ρ v + 1))
      ∧ RunsAs I (form d t inc body tags f g (some inc)) σ
        (form .nil t inc body tags f g (some inc)) ρ
      ∧ (β ρ = (.continued, ρ) → I.after σ d v + r + f < bound (I.after σ d) →
        ∀ o τ, ¬ Exec I (.stmt (form d t inc body tags f g (some inc))) σ o τ) := by
  obtain ⟨hrounds, hgroups⟩ := h.of_continued hr hnormal hcontinued
  obtain ⟨_, _, hvariable, hbound⟩ := h.holds_around hr hcontinued
  refine ⟨fun o τ => ?_, fun o τ => ?_, fun hagain hleft o τ hexec => ?_⟩
  · rw [Exec.loop_iff hd, Exec.loop_nil_iff, hrounds]
  · rw [h.form_iff hd, h.form_iff rfl, I.after_nil]
    simp only [hgroups]
  · obtain ⟨ρ', hgroups', _⟩ := (h.form_iff hd).1 hexec
    have hholds : I.holds ρ g = true := by
      rw [h.group_holds_iff, hvariable, hbound]
      exact hleft
    have hcopied : copied β (advance β v) f ρ = (.continued, ρ) := by
      rw [copied_of_early (j := 0) (fun i hi => absurd hi (Nat.not_lt_zero i)) h.positive
        (by simp [hagain]), Function.iterate_zero_apply, hagain]
    refine Exec.not_rounds_of_fixed h.group_after h.group_exec hholds (by rw [hcopied]) ?_
      ((hgroups _ _).1 hgroups')
    rw [hcopied, I.after_nil]

end

end Ascends

end Unroll

end RuleBody
