/-
  RuleBody.Proofs.Splicing
  ────────────────────────
  **SPLICING LOSES NOTHING.**

  While a list is visited, its hooks may delete or replace the current node,
  insert nodes before and behind it, and take the next node out.  A law says
  where every node is in the end, whatever the hooks did and whether or not
  one of them failed (`splicing_loses_nothing`).

  Equal nodes can stand in a list twice, so the law speaks of nodes with
  labels: the nodes of the list are numbered, and each node that a hook
  brings along gets a number of its own.  The visit that hands on the labels
  and keeps a diary is the visit of the same list by the same program; with
  labels and diary put aside, nothing else has changed
  (`Plan.recorded_abreast`).

  The invariant has three parts.  `Tracked` says which labels the list has,
  `Precedes` in which order the pending ones come up, and `Placed` at which
  places the others were left.

  §1  deeds and plans;
  §2  labels and diaries;
  §3  the visit with a diary is the visit;
  §4  the labels of the list;
  §5  the order of visits;
  §6  what a deed keeps;
  §7  stays and places;
  §8  what a visit keeps;
  §9  the law.
-/
import Mathlib.Data.List.Nodup
import RuleBody.Proofs.Brackets

namespace RuleBody

section

variable {α β : Type}

/-- The queues of other nodes, made of these. -/
def Splicer.map (f : α → β) (q : Splicer α) : Splicer β := ⟨q.done.map f, q.pending.map f⟩

/-- The slot and queues of other nodes, made of these. -/
def Site.map (f : α → β) (site : Site α) : Site β := ⟨site.slot.map f, site.splicer.map f⟩

end

namespace Splicing

/-! ## §1. Deeds and plans. -/

/-- What a hook does to the current node and the list around it. -/
inductive Deed (α : Type) where
  | delete
  | replace (x : α)
  /-- Change the node in its place. -/
  | edit (f : α → α)
  | insertBefore (x : α)
  | insertAfter (x : α)
  | removeNext

/-- The slot and the queues after a deed. -/
def Deed.perform {α : Type} (site : Site α) : Deed α → Site α
  | .delete => { site with slot := none }
  | .replace x => { site with slot := some x }
  | .edit f => { site with slot := site.slot.map f }
  | .insertBefore x => { site with splicer := site.splicer.insertBefore x }
  | .insertAfter x => { site with splicer := site.splicer.insertAfter x }
  | .removeNext => { site with splicer := site.splicer.removeNext.1 }

/-- What a hook decides on: its next state, the deeds in their order, and
whether it fails then.  A hook sees the whole list when it is called, so what
a deed shows it is known before. -/
structure Decision (σ α : Type) where
  state : σ
  deeds : List (Deed α)
  failure : Option Error := none

/-- The hooks of a visitor that acts by deeds.  Where a list begins and
ends, it only looks. -/
structure Plan (σ α : Type) where
  before : σ → Site α → Run (Decision σ α) := fun s _ => pure ⟨s, [], none⟩
  after : σ → Site α → Run (Decision σ α) := fun s _ => pure ⟨s, [], none⟩
  enter : σ → Splicer α → Run σ := fun s _ => pure s
  leave : σ → Splicer α → Run σ := fun s _ => pure s

section

variable {σ α : Type}

/-- Decide, then act. -/
def act (decision : σ → Site α → Run (Decision σ α)) : Hook σ α := fun s site => do
  let c ← decision s site
  return ⟨c.state, c.deeds.foldl Deed.perform site, c.failure⟩

/-- The hooks of a plan. -/
def Plan.hooks (p : Plan σ α) : Hooks σ α where
  before := act p.before
  after := act p.after
  enter := fun s q => do return (← p.enter s q, q)
  leave := fun s q => do return (← p.leave s q, q)

end

/-! ## §2. Labels and diaries. -/

/-- Where a node comes from: it stood in the list at some index, or some
deed brought it along. -/
inductive Origin where
  | listed (index : Nat)
  | made (deed : Nat)
  deriving DecidableEq, Repr

/-- The index of a node that stood in the list. -/
def Origin.listed? : Origin → Option Nat
  | .listed i => some i
  | .made _ => none

/-- A node with its label. -/
structure Labelled (α : Type) where
  origin : Origin
  node : α
  deriving DecidableEq, Repr

section

variable {σ α : Type}

/-- The labels of some nodes. -/
def origins (xs : List (Labelled α)) : List Origin := xs.map (·.origin)

/-- The nodes of a list, labelled with their indices. -/
def numbered (xs : List α) : List (Labelled α) := xs.zipIdx.map fun p => ⟨.listed p.2, p.1⟩

/-- The label in the slot. -/
def label (site : Site (Labelled α)) : Option Origin := site.slot.map (·.origin)

/-- The labels of the list as it stands, the slot included. -/
def labels (site : Site (Labelled α)) : List Origin :=
  origins site.splicer.done ++ ((label site).toList ++ origins site.splicer.pending)

/-- The deed on labelled nodes.  The node that it brings along, if any, is
labelled with the number of the deed. -/
def Deed.label (k : Nat) : Deed α → Deed (Labelled α)
  | .delete => .delete
  | .replace x => .replace ⟨.made k, x⟩
  | .edit f => .edit fun x => { x with node := f x.node }
  | .insertBefore x => .insertBefore ⟨.made k, x⟩
  | .insertAfter x => .insertAfter ⟨.made k, x⟩
  | .removeNext => .removeNext

/-- An entry of a diary. -/
inductive Entry (α : Type) where
  /-- A hook was called with this slot. -/
  | call (slot : Option (Labelled α))
  /-- A hook did this, at a time when the list stood so. -/
  | deed (deed : Deed (Labelled α)) (site : Site (Labelled α))

namespace Entry

/-- The node that was passed to a hook. -/
def passed? : Entry α → Option Origin
  | .call slot => slot.map (·.origin)
  | .deed _ _ => none

/-- The node that was deleted or replaced. -/
def dropped? : Entry α → Option Origin
  | .deed .delete site => Splicing.label site
  | .deed (.replace _) site => Splicing.label site
  | _ => none

/-- The node that was taken out before its visit. -/
def removed? : Entry α → Option Origin
  | .deed .removeNext site => (origins site.splicer.pending).head?
  | _ => none

/-- The node that was inserted before the current one. -/
def insertedBefore? : Entry α → Option (Labelled α)
  | .deed (.insertBefore x) _ => some x
  | _ => none

/-- The node that was inserted behind the current one. -/
def insertedAfter? : Entry α → Option (Labelled α)
  | .deed (.insertAfter x) _ => some x
  | _ => none

/-- The label in the slot after what the entry says. -/
def leaves (slot : Option Origin) : Entry α → Option Origin
  | .deed .delete _ => none
  | .deed (.replace x) _ => some x.origin
  | _ => slot

end Entry

/-- The nodes that were passed to a hook. -/
def passedIn (entries : List (Entry α)) : List Origin := entries.filterMap Entry.passed?

/-- The nodes that were inserted before a current one. -/
def insertedIn (entries : List (Entry α)) : List (Labelled α) :=
  entries.filterMap Entry.insertedBefore?

/-- The nodes that were inserted behind a current one. -/
def appendedIn (entries : List (Entry α)) : List (Labelled α) :=
  entries.filterMap Entry.insertedAfter?

/-- The nodes that were taken out before their visit. -/
def removedIn (entries : List (Entry α)) : List Origin := entries.filterMap Entry.removed?

/-- The node was deleted, replaced or taken out. -/
def LostIn (entries : List (Entry α)) (o : Origin) : Prop :=
  o ∈ entries.filterMap Entry.dropped? ∨ o ∈ removedIn entries

/-- What happened while a node was the current one. -/
structure Stay (α : Type) where
  /-- The node whose visit it is, as it was taken from the pending ones. -/
  node : Labelled α
  /-- In the order of time. -/
  entries : List (Entry α) := []

/-- A further entry. -/
def Stay.add (st : Stay α) (e : Entry α) : Stay α := { st with entries := st.entries ++ [e] }

/-- The nodes inserted before the current one, in the order of the calls. -/
def Stay.inserted (st : Stay α) : List (Labelled α) := insertedIn st.entries

/-- What is left in the slot: the node, another in its place, or none. -/
def Stay.left (st : Stay α) : Option Origin :=
  st.entries.foldl Entry.leaves (some st.node.origin)

/-- What a stay adds to the new list: the nodes inserted before the current
one, then what is left of that one. -/
def Stay.leaves (st : Stay α) : List Origin := origins st.inserted ++ st.left.toList

/-- All entries of some stays. -/
def entriesOf (stays : List (Stay α)) : List (Entry α) := stays.flatMap (·.entries)

/-- The nodes that were visited, in their order. -/
def visitedIn (stays : List (Stay α)) : List Origin := stays.map (·.node.origin)

/-- A visitor's state with the diary of the visit of one list. -/
structure Diary (σ α : Type) where
  state : σ
  /-- How many deeds there were. -/
  count : Nat := 0
  /-- The stays before the current one. -/
  past : List (Stay α) := []
  current : Option (Stay α) := none

/-- The stays so far, in the order of time. -/
def Diary.stays (d : Diary σ α) : List (Stay α) := d.past ++ d.current.toList

/-- Begin the stay of a node. -/
def Diary.turnTo (d : Diary σ α) : Option (Labelled α) → Diary σ α
  | some x => { d with past := d.stays, current := some ⟨x, []⟩ }
  | none => d

/-- Write down an entry for the current stay. -/
def Diary.note (d : Diary σ α) (e : Entry α) : Diary σ α :=
  { d with current := d.current.map (·.add e) }

/-- Do a deed and write it down. -/
def Diary.perform (p : Diary σ α × Site (Labelled α)) (deed : Deed α) :
    Diary σ α × Site (Labelled α) :=
  ({ p.1.note (.deed (deed.label p.1.count) p.2) with count := p.1.count + 1 },
    (deed.label p.1.count).perform p.2)

/-- Decide on the nodes without their labels, then act with a diary. -/
def actRecorded (decision : σ → Site α → Run (Decision σ α)) :
    Hook (Diary σ α) (Labelled α) := fun d site => do
  let c ← decision d.state (site.map (·.node))
  let p := c.deeds.foldl Diary.perform ({ d with state := c.state }.note (.call site.slot), site)
  return ⟨p.1, p.2, c.failure⟩

/-- The hooks of a plan, which also keep a diary. -/
def Plan.recorded (p : Plan σ α) : Hooks (Diary σ α) (Labelled α) where
  before := fun d site => actRecorded p.before (d.turnTo site.slot) site
  after := actRecorded p.after
  enter := fun d q => do
    let s ← p.enter d.state (q.map (·.node))
    return ({ d with state := s }, q)
  leave := fun d q => do
    let s ← p.leave d.state (q.map (·.node))
    return ({ d with state := s }, q)

/-- The walk into a node, which keeps its label. -/
def walkRecorded (descend : σ → α → Run (Step σ α)) (d : Diary σ α) (x : Labelled α) :
    Run (Step (Diary σ α) (Labelled α)) := do
  let r ← descend d.state x.node
  return ⟨{ d with state := r.state }, { x with node := r.value }, r.failure⟩

/-- The visit of a list with labels and a diary. -/
def Plan.visitRecorded (p : Plan σ α) (descend : σ → α → Run (Step σ α)) (fuel : Nat) (s : σ)
    (xs : List α) : Run (Step (Diary σ α) (List (Labelled α))) :=
  visitList p.recorded (walkRecorded descend) fuel { state := s } (numbered xs)

/-! ## §3. The visit with a diary is the visit. -/

/-- The diary put aside, two visitors are in the same state. -/
abbrev Diary.Beside (d : Diary σ α) (s : σ) : Prop := d.state = s

/-- The label put aside, two nodes are the same. -/
abbrev Labelled.Beside (x : Labelled α) (y : α) : Prop := x.node = y

theorem forall₂_beside {xs : List (Labelled α)} {ys : List α} :
    List.Forall₂ Labelled.Beside xs ys ↔ xs.map (·.node) = ys := by
  refine (List.forall₂_map_left_iff (R := Eq)).symm.trans ?_
  rw [List.forall₂_eq_eq_eq]

theorem splicer_beside {q : Splicer (Labelled α)} {q' : Splicer α}
    (h : Splicer.Abreast Labelled.Beside q q') : q.map (·.node) = q' := by
  obtain ⟨hdone, hpending⟩ := h
  rw [forall₂_beside] at hdone hpending
  rw [Splicer.map, hdone, hpending]

theorem site_beside {site : Site (Labelled α)} {site' : Site α}
    (h : Site.Abreast Labelled.Beside site site') : site.map (·.node) = site' := by
  obtain ⟨slot, q⟩ := site
  obtain ⟨slot', q'⟩ := site'
  obtain ⟨hslot, hq⟩ := h
  rw [Site.map, splicer_beside hq]
  cases hslot with
  | none => rfl
  | some hxy => exact congrArg (Site.mk · q') (congrArg some hxy)

theorem perform_abreast {site : Site (Labelled α)} {site' : Site α}
    (h : Site.Abreast Labelled.Beside site site') (k : Nat) (deed : Deed α) :
    Site.Abreast Labelled.Beside ((deed.label k).perform site) (deed.perform site') := by
  obtain ⟨slot, done, pending⟩ := site
  obtain ⟨slot', done', pending'⟩ := site'
  obtain ⟨hslot, hdone, hpending⟩ := h
  cases deed with
  | delete => exact ⟨.none, hdone, hpending⟩
  | replace x => exact ⟨.some rfl, hdone, hpending⟩
  | insertBefore x => exact ⟨hslot, List.rel_append hdone (.cons rfl .nil), hpending⟩
  | insertAfter x => exact ⟨hslot, hdone, .cons rfl hpending⟩
  | edit f =>
      refine ⟨?_, hdone, hpending⟩
      cases hslot with
      | none => exact .none
      | some hxy => exact .some (congrArg f hxy)
  | removeNext =>
      refine ⟨hslot, hdone, ?_⟩
      cases hpending with
      | nil => exact .nil
      | cons _ hpending => exact hpending

theorem performAll_abreast {d : Diary σ α} {site : Site (Labelled α)} {site' : Site α}
    (h : Site.Abreast Labelled.Beside site site') (deeds : List (Deed α)) :
    (deeds.foldl Diary.perform (d, site)).1.state = d.state
      ∧ Site.Abreast Labelled.Beside (deeds.foldl Diary.perform (d, site)).2
        (deeds.foldl Deed.perform site') := by
  induction deeds generalizing d site site' with
  | nil => exact ⟨rfl, h⟩
  | cons deed deeds ih =>
      obtain ⟨hstate, hsite⟩ := ih (d := (Diary.perform (d, site) deed).1)
        (perform_abreast h d.count deed)
      exact ⟨hstate, hsite⟩

theorem actRecorded_abreast (decision : σ → Site α → Run (Decision σ α)) (d : Diary σ α)
    {site : Site (Labelled α)} {site' : Site α} (h : Site.Abreast Labelled.Beside site site') :
    Run.Abreast (Step.Abreast Diary.Beside (Site.Abreast Labelled.Beside))
      (actRecorded decision d site) (act decision d.state site') := by
  unfold actRecorded act
  rw [site_beside h]
  refine (Run.Abreast.refl (fun _ => rfl) (decision d.state site')).bind ?_
  rintro c _ rfl
  obtain ⟨hstate, hsite⟩ := performAll_abreast
    (d := { d with state := c.state }.note (.call site.slot)) h c.deeds
  exact Run.abreast_pure ⟨hstate, hsite, rfl⟩

/-- Keeping a diary changes nothing else. -/
theorem Plan.recorded_abreast (p : Plan σ α) :
    Hooks.Abreast Diary.Beside Labelled.Beside p.recorded p.hooks where
  before := by
    rintro d _ ⟨slot, q⟩ site' rfl hsite
    have hturn : (d.turnTo slot).state = d.state := by cases slot <;> rfl
    have := actRecorded_abreast p.before (d.turnTo slot) hsite
    rwa [hturn] at this
  after := by
    rintro d _ site site' rfl hsite
    exact actRecorded_abreast p.after d hsite
  enter := by
    rintro d _ q q' rfl hq
    refine Run.Abreast.bind ?_ fun s s' hs => Run.abreast_pure ⟨hs, hq⟩
    rw [splicer_beside hq]
    exact Run.Abreast.refl (fun _ => rfl) (p.enter d.state q')
  leave := by
    rintro d _ q q' rfl hq
    refine Run.Abreast.bind ?_ fun s s' hs => Run.abreast_pure ⟨hs, hq⟩
    rw [splicer_beside hq]
    exact Run.Abreast.refl (fun _ => rfl) (p.leave d.state q')

theorem walkRecorded_abreast (descend : σ → α → Run (Step σ α)) (d : Diary σ α)
    (x : Labelled α) : Run.Abreast (Step.Abreast Diary.Beside Labelled.Beside)
      (walkRecorded descend d x) (descend d.state x.node) :=
  Run.abreast_of_map (fun _ => ⟨rfl, rfl, rfl⟩) (descend d.state x.node)

theorem map_node_numbered (xs : List α) : (numbered xs).map (·.node) = xs := by
  rw [numbered, List.map_map]
  exact List.zipIdx_map_fst 0 xs

/-- Every visit is a visit with a diary whose labels are put aside. -/
theorem Plan.visitRecorded_of_visitList {p : Plan σ α} {descend : σ → α → Run (Step σ α)}
    {fuel : Nat} {s : σ} {xs : List α} {t : Option Level} {r : Step σ (List α)}
    (h : (visitList p.hooks descend fuel s xs t).2 = .ok r) :
    ∃ d result, (p.visitRecorded descend fuel s xs t).2 = .ok ⟨d, result, r.failure⟩
      ∧ d.state = r.state ∧ result.map (·.node) = r.value := by
  have hvisit : Run.Abreast (Step.Abreast Diary.Beside (List.Forall₂ Labelled.Beside))
      (p.visitRecorded descend fuel s xs) (visitList p.hooks descend fuel s xs) := by
    refine visitList_abreast p.recorded_abreast ?_ fuel rfl
      (forall₂_beside.2 (map_node_numbered xs))
    rintro d _ x _ rfl rfl
    exact walkRecorded_abreast descend d x
  obtain ⟨⟨d, result, failure⟩, hend, hstate, hvalue, rfl⟩ := hvisit.first_ends h
  exact ⟨d, result, hend, hstate, forall₂_beside.1 hvalue⟩

/-! ## §4. The labels of the list. -/

/-- The labels of a list: each occurs once, those of the old list in their
order, and of these just the ones that were not lost. -/
structure Tracked (n count : Nat) (lost : Origin → Prop) (line : List Origin) : Prop where
  once : line.Nodup
  inOrder : (line.filterMap Origin.listed?).Pairwise (· < ·)
  kept : ∀ i, .listed i ∈ line ↔ i < n ∧ ¬ lost (.listed i)
  known : ∀ k, .made k ∈ line → k < count

namespace Tracked

variable {n count : Nat} {lost lost' : Origin → Prop} {a b : List Origin}

/-- A label is lost. -/
theorem drop {o : Option Origin} (h : Tracked n count lost (a ++ (o.toList ++ b)))
    (hlost : ∀ x, lost' x ↔ lost x ∨ x ∈ o) : Tracked n count lost' (a ++ b) := by
  have hsub : (a ++ b).Sublist (a ++ (o.toList ++ b)) :=
    (List.sublist_append_right o.toList b).append_left a
  refine ⟨h.once.sublist hsub, h.inOrder.sublist (hsub.filterMap _), fun i => ?_,
    fun k hk => h.known k (hsub.subset hk)⟩
  have hmem : .listed i ∈ a ++ b ↔ .listed i ∈ a ++ (o.toList ++ b) ∧ .listed i ∉ o := by
    cases o with
    | none => simp
    | some o =>
        -- Other places do not have the label, so it is gone.
        have hgone : o ∉ a ++ b := (List.nodup_cons.1 (List.nodup_middle.1 h.once)).1
        grind
  rw [hmem, h.kept, hlost]
  tauto

/-- A node is brought along. -/
theorem add (h : Tracked n count lost (a ++ b)) :
    Tracked n (count + 1) lost (a ++ .made count :: b) := by
  have hfresh : .made count ∉ a ++ b := fun hmem => Nat.lt_irrefl _ (h.known count hmem)
  refine ⟨List.nodup_middle.2 (List.nodup_cons.2 ⟨hfresh, h.once⟩), ?_, fun i => ?_, fun k hk => ?_⟩
  -- The new label is none of the old list.
  · have := h.inOrder
    rwa [List.filterMap_append] at this ⊢
  · rw [← h.kept i]
    simp
  · rcases List.mem_cons.1 (List.perm_middle.subset hk) with hk | hk
    · rw [Origin.made.inj hk]
      exact Nat.lt_succ_self count
    · exact Nat.lt_succ_of_lt (h.known k hk)

/-- A deed brought nothing along. -/
theorem later {line : List Origin} (h : Tracked n count lost line) :
    Tracked n (count + 1) lost line :=
  { h with known := fun k hk => Nat.lt_succ_of_lt (h.known k hk) }

end Tracked

/-! ## §5. The order of visits. -/

/-- Unless it is taken out, the node comes up in the order of visits, and it
does so before each of the others that is not taken out. -/
def Precedes (removed order : List Origin) (x : Origin) (others : List Origin) : Prop :=
  x ∉ removed → x ∈ order ∧ ∀ y ∈ others, y ∉ removed → [x, y].Sublist order

/-- The order of visits may grow, and lose what is taken out. -/
theorem Precedes.mono {removed removed' order order' others : List Origin} {x : Origin}
    (h : Precedes removed order x others) (hremoved : removed ⊆ removed')
    (horder : (order.filter (· ∉ removed')).Sublist order') :
    Precedes removed' order' x others := by
  intro hx
  obtain ⟨hmem, hothers⟩ := h fun hmem => hx (hremoved hmem)
  refine ⟨horder.subset (List.mem_filter.2 ⟨hmem, decide_eq_true hx⟩), fun y hy hyr => ?_⟩
  have hpair := (hothers y hy fun hmem => hyr (hremoved hmem)).filter (· ∉ removed')
  rw [List.filter_eq_self.2] at hpair
  · exact hpair.trans horder
  · intro z hz
    rcases List.mem_pair.1 hz with rfl | rfl
    · exact decide_eq_true hx
    · exact decide_eq_true hyr

/-! ## §6. What a deed keeps. -/

theorem filterMap_snoc {β γ : Type} (f : β → Option γ) (l : List β) (a : β) :
    (l ++ [a]).filterMap f = l.filterMap f ++ (f a).toList := by
  rw [List.filterMap_append]
  cases h : f a <;> simp [h]

theorem removedIn_snoc (entries : List (Entry α)) (e : Entry α) :
    removedIn (entries ++ [e]) = removedIn entries ++ e.removed?.toList :=
  filterMap_snoc _ entries e

theorem passedIn_snoc (entries : List (Entry α)) (e : Entry α) :
    passedIn (entries ++ [e]) = passedIn entries ++ e.passed?.toList :=
  filterMap_snoc _ entries e

theorem insertedIn_snoc (entries : List (Entry α)) (e : Entry α) :
    insertedIn (entries ++ [e]) = insertedIn entries ++ e.insertedBefore?.toList :=
  filterMap_snoc _ entries e

theorem appendedIn_snoc (entries : List (Entry α)) (e : Entry α) :
    appendedIn (entries ++ [e]) = appendedIn entries ++ e.insertedAfter?.toList :=
  filterMap_snoc _ entries e

theorem lostIn_snoc (entries : List (Entry α)) (e : Entry α) (o : Origin) :
    LostIn (entries ++ [e]) o ↔ LostIn entries o ∨ o ∈ e.dropped? ∨ o ∈ e.removed? := by
  simp only [LostIn, removedIn_snoc, filterMap_snoc, List.mem_append, Option.mem_toList]
  exact or_or_or_comm

theorem labels_assoc (site : Site (Labelled α)) : labels site
    = (origins site.splicer.done ++ (label site).toList) ++ origins site.splicer.pending :=
  (List.append_assoc ..).symm

theorem labels_edit (k : Nat) (f : α → α) (site : Site (Labelled α)) :
    labels ((Deed.label k (.edit f)).perform site) = labels site := by
  obtain ⟨_ | x, q⟩ := site <;> rfl

theorem labels_insertBefore (k : Nat) (x : α) (site : Site (Labelled α)) :
    labels ((Deed.label k (.insertBefore x)).perform site) = origins site.splicer.done
      ++ .made k :: ((label site).toList ++ origins site.splicer.pending) := by
  simp [labels, origins, Deed.label, Deed.perform, Splicer.insertBefore, label]

theorem labels_insertAfter (k : Nat) (x : α) (site : Site (Labelled α)) :
    labels ((Deed.label k (.insertAfter x)).perform site)
      = (origins site.splicer.done ++ (label site).toList)
        ++ .made k :: origins site.splicer.pending :=
  labels_assoc _

theorem labels_removeNext (k : Nat) (site : Site (Labelled α)) :
    labels ((Deed.label k .removeNext).perform site)
      = (origins site.splicer.done ++ (label site).toList)
        ++ origins site.splicer.pending.tail :=
  labels_assoc _

/-- What holds of a list under a visit, at any time, by what the diary
says. -/
structure Sound (xs : List α) (count : Nat) (entries : List (Entry α)) (visited : List Origin)
    (site : Site (Labelled α)) : Prop where
  line : Tracked xs.length count (LostIn entries) (labels site)
  once : (visited ++ origins site.splicer.pending).Nodup
  known : ∀ k, .made k ∈ visited ++ passedIn entries → k < count
  inserted : ∀ x ∈ insertedIn entries,
    x ∈ site.splicer.done ∧ x.origin ∉ passedIn entries
  behind : ∀ x around, .deed (.insertAfter x) around ∈ entries →
    Precedes (removedIn entries) (visited ++ origins site.splicer.pending) x.origin
      (origins around.splicer.pending)
  untouched : ∀ x ∈ site.splicer.pending,
    x ∈ numbered xs ∨ x ∈ appendedIn entries

namespace Sound

variable {xs : List α} {count : Nat} {entries : List (Entry α)} {visited : List Origin}
  {site : Site (Labelled α)} (h : Sound xs count entries visited site)
include h

/-- An entry by which nothing is lost. -/
theorem line_of_kept {e : Entry α} (hdropped : e.dropped? = none) (hremoved : e.removed? = none) :
    Tracked xs.length count (LostIn (entries ++ [e])) (labels site) := by
  refine { h.line with kept := fun i => ?_ }
  rw [h.line.kept, lostIn_snoc, hdropped, hremoved]
  simp

/-- An entry by which the node in the slot is lost. -/
theorem line_of_dropped {e : Entry α} (hdropped : e.dropped? = label site)
    (hremoved : e.removed? = none) : Tracked xs.length count (LostIn (entries ++ [e]))
      (origins site.splicer.done ++ origins site.splicer.pending) := by
  refine h.line.drop fun o => ?_
  rw [lostIn_snoc, hdropped, hremoved]
  exact or_congr_right (or_iff_left (Option.not_mem_none o))

theorem line_perform (deed : Deed α) :
    Tracked xs.length (count + 1) (LostIn (entries ++ [.deed (deed.label count) site]))
      (labels ((deed.label count).perform site)) := by
  cases deed with
  | delete => exact (h.line_of_dropped rfl rfl).later
  | replace x => exact (h.line_of_dropped rfl rfl).add
  | edit f =>
      rw [labels_edit]
      exact (h.line_of_kept rfl rfl).later
  | insertBefore x =>
      rw [labels_insertBefore]
      exact (h.line_of_kept rfl rfl).add
  | insertAfter x =>
      rw [labels_insertAfter]
      exact (labels_assoc site ▸ h.line_of_kept rfl rfl).add
  | removeNext =>
      -- Where nothing is pending, nothing is taken out.
      obtain ⟨slot, done, _ | ⟨y, pending⟩⟩ := site
      · exact (h.line_of_kept rfl rfl).later
      · rw [labels_removeNext]
        refine ((labels_assoc _ ▸ h.line).drop (o := some y.origin) fun o => ?_).later
        rw [lostIn_snoc]
        exact or_congr_right (or_iff_right (Option.not_mem_none o))

/-- The label of the next deed is new. -/
theorem made_fresh : .made count ∉ visited ++ origins site.splicer.pending := by
  intro hmem
  rcases List.mem_append.1 hmem with hmem | hmem
  · exact Nat.lt_irrefl _ (h.known count (List.mem_append_left _ hmem))
  · exact Nat.lt_irrefl _ (h.line.known count
      (List.mem_append_right _ (List.mem_append_right _ hmem)))

theorem once_perform (deed : Deed α) :
    (visited ++ origins ((deed.label count).perform site).splicer.pending).Nodup := by
  cases deed with
  | delete | replace x | edit f | insertBefore x => exact h.once
  | insertAfter x =>
      exact List.nodup_middle.2 (List.nodup_cons.2 ⟨h.made_fresh, h.once⟩)
  | removeNext =>
      exact h.once.sublist (((List.tail_sublist _).map _).append_left visited)

omit h in
/-- A deed takes nothing from the order of visits but what it takes out. -/
theorem order_perform (k : Nat) (deed : Deed α) :
    ((visited ++ origins site.splicer.pending).filter
      (· ∉ removedIn (entries ++ [.deed (deed.label k) site]))).Sublist
      (visited ++ origins ((deed.label k).perform site).splicer.pending) := by
  cases deed with
  | delete | replace x | edit f | insertBefore x => exact List.filter_sublist
  | insertAfter x =>
      exact List.filter_sublist.trans ((List.sublist_cons_self _ _).append_left visited)
  | removeNext =>
      obtain ⟨slot, done, _ | ⟨y, pending⟩⟩ := site
      · exact List.filter_sublist
      · rw [List.filter_append, removedIn_snoc]
        refine List.filter_sublist.append ?_
        show (List.filter _ (y.origin :: origins pending)).Sublist (origins pending)
        rw [List.filter_cons_of_neg]
        · exact List.filter_sublist
        · rw [decide_eq_true_iff, not_not]
          exact List.mem_append_right _ (List.mem_singleton_self _)

theorem behind_perform (deed : Deed α) {x : Labelled α} {around : Site (Labelled α)}
    (hx : .deed (.insertAfter x) around ∈ entries ++ [.deed (deed.label count) site]) :
    Precedes (removedIn (entries ++ [.deed (deed.label count) site]))
      (visited ++ origins ((deed.label count).perform site).splicer.pending) x.origin
      (origins around.splicer.pending) := by
  rcases List.mem_append.1 hx with hold | hnew
  · refine (h.behind x around hold).mono ?_ (order_perform count deed)
    rw [removedIn_snoc]
    exact List.subset_append_left _ _
  -- If the entry is that of the deed, the pending nodes are those behind the new one.
  · cases deed with
    | delete | replace _ | edit _ | insertBefore _ | removeNext => simp [Deed.label] at hnew
    | insertAfter y =>
        obtain ⟨rfl, rfl⟩ : x = ⟨.made count, y⟩ ∧ around = site := by
          simpa [Deed.label] using hnew
        intro _
        refine ⟨List.mem_append_right _ List.mem_cons_self, fun o ho _ => ?_⟩
        exact ((List.singleton_sublist.2 ho).cons_cons (.made count)).trans
          (List.sublist_append_right visited _)

theorem inserted_perform (deed : Deed α) {x : Labelled α}
    (hx : x ∈ insertedIn (entries ++ [.deed (deed.label count) site])) :
    x ∈ ((deed.label count).perform site).splicer.done ∧ x.origin ∉ passedIn entries := by
  rw [insertedIn_snoc] at hx
  rcases List.mem_append.1 hx with hold | hnew
  · obtain ⟨hdone, hpassed⟩ := h.inserted x hold
    refine ⟨?_, hpassed⟩
    cases deed with
    | delete | replace _ | edit _ | insertAfter _ | removeNext => exact hdone
    | insertBefore y => exact List.mem_append_left _ hdone
  · cases deed with
    | delete | replace _ | edit _ | insertAfter _ | removeNext => cases hnew
    | insertBefore y =>
        obtain rfl : x = ⟨.made count, y⟩ := List.mem_singleton.1 hnew
        refine ⟨List.mem_append_right _ (List.mem_singleton_self _), fun hmem => ?_⟩
        exact Nat.lt_irrefl _ (h.known count (List.mem_append_right _ hmem))

theorem untouched_perform (deed : Deed α) {x : Labelled α}
    (hx : x ∈ ((deed.label count).perform site).splicer.pending) : x ∈ numbered xs
      ∨ x ∈ appendedIn (entries ++ [.deed (deed.label count) site]) := by
  have hold : x ∈ site.splicer.pending → x ∈ numbered xs
      ∨ x ∈ appendedIn (entries ++ [.deed (deed.label count) site]) := by
    intro hx
    rw [appendedIn_snoc]
    exact (h.untouched x hx).imp_right (List.mem_append_left _)
  cases deed with
  | delete | replace _ | edit _ | insertBefore _ => exact hold hx
  | removeNext => exact hold (List.mem_of_mem_tail hx)
  | insertAfter y =>
      rcases List.mem_cons.1 hx with rfl | hx
      · rw [appendedIn_snoc]
        exact .inr (List.mem_append_right _ (List.mem_singleton_self _))
      · exact hold hx

/-- **A deed keeps the invariant.** -/
theorem perform (deed : Deed α) :
    Sound xs (count + 1) (entries ++ [.deed (deed.label count) site]) visited
      ((deed.label count).perform site) := by
  have hpassed : passedIn (entries ++ [.deed (deed.label count) site]) = passedIn entries :=
    (passedIn_snoc entries _).trans (List.append_nil _)
  refine ⟨h.line_perform deed, h.once_perform deed, fun k hk => ?_, fun x hx => ?_,
    fun _ _ hx => h.behind_perform deed hx, fun _ hx => h.untouched_perform deed hx⟩
  · rw [hpassed] at hk
    exact Nat.lt_succ_of_lt (h.known k hk)
  · rw [hpassed]
    exact h.inserted_perform deed hx

/-- A call keeps the invariant: the node in the slot is none of those that
were inserted. -/
theorem call : Sound xs count (entries ++ [.call site.slot]) visited site := by
  have hpassed : passedIn (entries ++ [.call site.slot])
      = passedIn entries ++ (label site).toList := passedIn_snoc entries _
  have hremoved : removedIn (entries ++ [.call site.slot]) = removedIn entries := by
    rw [removedIn_snoc]
    exact List.append_nil _
  refine ⟨h.line_of_kept rfl rfl, h.once, fun k hk => ?_, fun x hx => ?_, fun x around hx => ?_,
    fun x hx => ?_⟩
  · rw [hpassed, ← List.append_assoc] at hk
    rcases List.mem_append.1 hk with hk | hk
    · exact h.known k hk
    · exact h.line.known k (List.mem_append_right _ (List.mem_append_left _ hk))
  · rw [insertedIn_snoc] at hx
    obtain ⟨hdone, hnot⟩ := h.inserted x ((List.mem_append.1 hx).resolve_right List.not_mem_nil)
    refine ⟨hdone, fun hmem => ?_⟩
    rw [hpassed] at hmem
    rcases List.mem_append.1 hmem with hmem | hmem
    · exact hnot hmem
    -- The slot comes behind the done nodes, and no label stands twice.
    · exact (List.disjoint_of_nodup_append h.line.once) (List.mem_map_of_mem hdone)
        (List.mem_append_left _ hmem)
  · rw [hremoved]
    exact h.behind x around ((List.mem_append.1 hx).resolve_right (by simp))
  · rw [appendedIn_snoc]
    exact (h.untouched x hx).imp_right (List.mem_append_left _)

end Sound

/-! ## §7. Stays and places. -/

/-- What lies behind the stay is in its place: what the stays before it
left, then the nodes inserted in this one.  The slot holds what is left of
the node. -/
structure Placed (past : List (Stay α)) (st : Stay α) (site : Site (Labelled α)) : Prop where
  done : origins site.splicer.done = past.flatMap Stay.leaves ++ origins st.inserted
  slot : label site = st.left

theorem Stay.inserted_add (st : Stay α) (e : Entry α) :
    (st.add e).inserted = st.inserted ++ e.insertedBefore?.toList :=
  insertedIn_snoc st.entries e

theorem Stay.left_add (st : Stay α) (e : Entry α) : (st.add e).left = e.leaves st.left :=
  List.foldl_append

theorem Placed.call {past : List (Stay α)} {st : Stay α} {site : Site (Labelled α)}
    (h : Placed past st site) : Placed past (st.add (.call site.slot)) site where
  done := by
    rw [h.done, Stay.inserted_add]
    exact congrArg (_ ++ origins ·) (List.append_nil st.inserted).symm
  slot := by
    rw [h.slot, Stay.left_add]
    rfl

theorem Placed.perform {past : List (Stay α)} {st : Stay α} {site : Site (Labelled α)}
    (h : Placed past st site) (k : Nat) (deed : Deed α) :
    Placed past (st.add (.deed (deed.label k) site)) ((deed.label k).perform site) where
  done := by
    rw [Stay.inserted_add]
    cases deed with
    | delete | replace x | edit f | insertAfter x | removeNext =>
        exact h.done.trans (congrArg (_ ++ origins ·) (List.append_nil st.inserted).symm)
    | insertBefore x =>
        show origins (site.splicer.done ++ [⟨.made k, x⟩]) = _
        rw [origins, List.map_append, ← origins, h.done, List.append_assoc]
        exact congrArg (_ ++ ·) (List.map_append ..).symm
  slot := by
    rw [Stay.left_add, ← h.slot]
    cases deed with
    | delete | replace x | insertBefore x | insertAfter x | removeNext => rfl
    | edit f => obtain ⟨_ | x, q⟩ := site <;> rfl

/-- The list during the stay of a node. -/
structure InStay (xs : List α) (d : Diary σ α) (site : Site (Labelled α)) : Prop where
  sound : Sound xs d.count (entriesOf d.stays) (visitedIn d.stays) site
  placed : ∃ st, d.current = some st ∧ Placed d.past st site

/-- The list between two stays. -/
structure AtRest (xs : List α) (d : Diary σ α) (q : Splicer (Labelled α)) : Prop where
  sound : Sound xs d.count (entriesOf d.stays) (visitedIn d.stays) ⟨none, q⟩
  placed : origins q.done = d.stays.flatMap Stay.leaves

section

variable {xs : List α} {d : Diary σ α} {site : Site (Labelled α)}

theorem Diary.entriesOf_note {st : Stay α} (hst : d.current = some st) (e : Entry α) :
    entriesOf (d.note e).stays = entriesOf d.stays ++ [e] := by
  simp [entriesOf, stays, note, hst, Stay.add]

theorem Diary.visitedIn_note (e : Entry α) : visitedIn (d.note e).stays = visitedIn d.stays := by
  cases h : d.current <;> simp [visitedIn, stays, note, h, Stay.add]

theorem InStay.call (h : InStay xs d site) : InStay xs (d.note (.call site.slot)) site := by
  obtain ⟨hsound, st, hst, hplaced⟩ := h
  refine ⟨?_, st.add (.call site.slot), congrArg (Option.map _) hst, hplaced.call⟩
  rw [Diary.entriesOf_note hst, Diary.visitedIn_note]
  exact hsound.call

theorem InStay.perform (h : InStay xs d site) (deed : Deed α) :
    InStay xs (Diary.perform (d, site) deed).1 (Diary.perform (d, site) deed).2 := by
  obtain ⟨hsound, st, hst, hplaced⟩ := h
  refine ⟨?_, st.add (.deed (deed.label d.count) site), congrArg (Option.map _) hst,
    hplaced.perform d.count deed⟩
  show Sound xs (d.count + 1) (entriesOf (d.note _).stays) (visitedIn (d.note _).stays) _
  rw [Diary.entriesOf_note hst, Diary.visitedIn_note]
  exact hsound.perform deed

theorem InStay.performAll (h : InStay xs d site) (deeds : List (Deed α)) :
    InStay xs (deeds.foldl Diary.perform (d, site)).1
      (deeds.foldl Diary.perform (d, site)).2 := by
  induction deeds generalizing d site with
  | nil => exact h
  | cons deed deeds ih => exact ih (h.perform deed)

/-- A walk into the node in the slot keeps its label. -/
theorem InStay.walk {x : Labelled α} {q : Splicer (Labelled α)} (h : InStay xs d ⟨some x, q⟩)
    (s : σ) (y : α) : InStay xs { d with state := s } ⟨some { x with node := y }, q⟩ := by
  obtain ⟨hsound, st, hst, hplaced⟩ := h
  exact ⟨{ hsound with }, st, hst, { hplaced with }⟩

/-- The next node is taken from the pending ones. -/
theorem AtRest.turnTo {x : Labelled α} {done pending : List (Labelled α)}
    (h : AtRest xs d ⟨done, x :: pending⟩) :
    InStay xs (d.turnTo (some x)) ⟨some x, ⟨done, pending⟩⟩ := by
  have hentries : entriesOf (d.turnTo (some x)).stays = entriesOf d.stays := by
    simp [entriesOf, Diary.stays, Diary.turnTo]
  have hvisited : visitedIn (d.turnTo (some x)).stays = visitedIn d.stays ++ [x.origin] := by
    simp [visitedIn, Diary.stays, Diary.turnTo]
  -- What was first among the pending ones is now last among the visited ones.
  have horder : visitedIn (d.turnTo (some x)).stays ++ origins pending
      = visitedIn d.stays ++ origins (x :: pending) := by
    rw [hvisited, List.append_assoc]
    rfl
  obtain ⟨hsound, hplaced⟩ := h
  refine ⟨⟨?_, ?_, fun k hk => ?_, ?_, ?_, fun y hy => ?_⟩, ⟨x, []⟩, rfl, ?_, rfl⟩
  · rw [hentries]
    exact hsound.line
  · rw [horder]
    exact hsound.once
  · rw [hentries, hvisited, List.append_assoc] at hk
    have hx : k < d.count ∨ .made k ∈ visitedIn d.stays ++ passedIn (entriesOf d.stays) := by
      rcases List.mem_append.1 hk with hk | hk
      · exact .inr (List.mem_append_left _ hk)
      · rcases List.mem_cons.1 hk with hk | hk
        · exact .inl (hsound.line.known k (List.mem_append_right _ (hk ▸ List.mem_cons_self)))
        · exact .inr (List.mem_append_right _ hk)
    exact hx.elim id (hsound.known k)
  · rw [hentries]
    exact hsound.inserted
  · rw [hentries, horder]
    exact hsound.behind
  · rw [hentries]
    exact hsound.untouched y (List.mem_cons_of_mem x hy)
  · exact hplaced.trans (List.append_nil _).symm

/-- The stay is over. -/
theorem InStay.settle (h : InStay xs d site) : AtRest xs d site.settle := by
  obtain ⟨hsound, st, hst, hplaced⟩ := h
  have hlabels : labels ⟨none, site.settle⟩ = labels site := by
    obtain ⟨_ | x, done, pending⟩ := site
    · rfl
    · simp [labels, label, Site.settle, Splicer.insertBefore, origins]
  have hpending : site.settle.pending = site.splicer.pending := by
    obtain ⟨_ | x, q⟩ := site <;> rfl
  have hdone : origins site.settle.done = origins site.splicer.done ++ (label site).toList := by
    obtain ⟨_ | x, done, pending⟩ := site
    · exact (List.append_nil _).symm
    · exact List.map_append ..
  -- No label moves: that of the slot is now the last of the done ones.
  refine ⟨⟨?_, ?_, hsound.known, fun x hx => ?_, ?_, ?_⟩, ?_⟩
  · rw [hlabels]
    exact hsound.line
  · rw [hpending]
    exact hsound.once
  · obtain ⟨hmem, hpassed⟩ := hsound.inserted x hx
    refine ⟨?_, hpassed⟩
    obtain ⟨_ | y, done, pending⟩ := site
    · exact hmem
    · exact List.mem_append_left _ hmem
  · rw [hpending]
    exact hsound.behind
  · rw [hpending]
    exact hsound.untouched
  · rw [hdone, hplaced.done, hplaced.slot, Diary.stays, hst, List.flatMap_append]
    simp [Stay.leaves]

/-! ## §8. What a visit keeps. -/

open Run (Leads leads_pure leads_fault leads_any)

variable {p : Plan σ α} {descend : σ → α → Run (Step σ α)}

theorem actRecorded_inStay (decision : σ → Site α → Run (Decision σ α)) (h : InStay xs d site) :
    Leads False (actRecorded decision d site) fun r => InStay xs r.state r.value := by
  refine (leads_any _).bind fun c _ => leads_pure ?_
  have hstate : InStay xs { d with state := c.state } site := ⟨h.sound, h.placed⟩
  exact hstate.call.performAll c.deeds

theorem visitSite_inStay {x : Labelled α} {done pending : List (Labelled α)}
    (h : AtRest xs d ⟨done, x :: pending⟩) :
    Leads False (visitSite p.recorded (walkRecorded descend) d ⟨some x, ⟨done, pending⟩⟩) fun r =>
      InStay xs r.state r.value := by
  refine (actRecorded_inStay p.before h.turnTo).bind fun r hr => ?_
  refine Step.leads_andThen (fun _ => hr) ?_
  obtain ⟨d, ⟨_ | x, q⟩, failure⟩ := r
  · exact actRecorded_inStay p.after hr
  · have hwalk : Leads False (walkRecorded descend d x) fun r =>
        InStay xs r.state ⟨some r.value, q⟩ :=
      (leads_any _).bind fun r _ => leads_pure (hr.walk r.state r.value)
    refine hwalk.bind fun r hr => ?_
    exact Step.leads_andThen (fun _ => hr) (actRecorded_inStay p.after hr)

/-- **A visit keeps the invariant,** and a visit without failure leaves
nothing pending. -/
theorem sweep_atRest (fuel : Nat) {q : Splicer (Labelled α)} (h : AtRest xs d q) :
    Leads False (sweep p.recorded (walkRecorded descend) fuel d q) fun r =>
      AtRest xs r.state r.value ∧ (r.failure = none → r.value.pending = []) := by
  induction fuel generalizing d q with
  | zero => exact leads_fault _ id
  | succ fuel ih =>
      obtain ⟨done, _ | ⟨x, pending⟩⟩ := q
      · exact leads_pure ⟨h, fun _ => rfl⟩
      · refine (visitSite_inStay h).bind fun r hr => ?_
        refine Step.leads_andThen (fun _ => ⟨hr.settle, nofun⟩) ?_
        exact ih hr.settle

theorem origins_numbered (xs : List α) :
    origins (numbered xs) = (List.range xs.length).map .listed := by
  rw [origins, numbered, List.map_map, List.range_eq_range', ← List.zipIdx_map_snd 0 xs,
    List.map_map]
  rfl

theorem atRest_start (s : σ) (xs : List α) :
    AtRest xs ({ state := s } : Diary σ α) (.ofList (numbered xs)) := by
  have hlabels : labels ⟨none, .ofList (numbered xs)⟩ = (List.range xs.length).map .listed :=
    origins_numbered xs
  have hlisted : ((List.range xs.length).map Origin.listed).filterMap Origin.listed?
      = List.range xs.length := by
    rw [List.filterMap_map]
    exact List.filterMap_some
  have honce : ((List.range xs.length).map Origin.listed).Nodup :=
    List.nodup_range.map fun _ _ => Origin.listed.inj
  refine ⟨⟨⟨?_, ?_, fun i => ?_, fun k hk => ?_⟩, ?_, nofun, nofun, nofun, fun _ => .inl⟩, rfl⟩
  · rw [hlabels]
    exact honce
  · rw [hlabels, hlisted]
    exact List.pairwise_lt_range
  · rw [hlabels]
    simp [LostIn, removedIn, entriesOf, Diary.stays]
  · rw [hlabels] at hk
    simp at hk
  · show (origins (numbered xs)).Nodup
    rw [origins_numbered]
    exact honce

theorem visitRecorded_atRest (fuel : Nat) (s : σ) (xs : List α) :
    Leads False (p.visitRecorded descend fuel s xs) fun r => ∃ q, AtRest xs r.state q
      ∧ r.value = q.toList ∧ (r.failure = none → q.pending = []) := by
  have henter : Leads False (p.recorded.enter { state := s } (.ofList (numbered xs))) fun e =>
      AtRest xs e.1 e.2 :=
    (leads_any _).bind fun s _ => leads_pure (atRest_start s xs)
  have hleave : ∀ d q, AtRest xs d q → Leads False (p.recorded.leave d q) fun e =>
      AtRest xs e.1 e.2 ∧ e.2 = q :=
    fun d q h => (leads_any _).bind fun s _ => leads_pure ⟨⟨h.sound, h.placed⟩, rfl⟩
  refine henter.bind ?_
  rintro ⟨d, q⟩ h
  refine (sweep_atRest fuel h).bind fun r hr => ?_
  refine (hleave r.state r.value hr.1).bind ?_
  rintro ⟨d, q⟩ ⟨h, rfl⟩
  exact leads_pure ⟨r.value, h, rfl, hr.2⟩

end

/-! ## §9. The law. -/

/-- Where the nodes of a list are after its visit, by what the diary says
of it.  The nodes that were not visited are the `rest`. -/
structure Spliced (xs : List α) (stays : List (Stay α)) (rest result : List (Labelled α)) :
    Prop where
  /-- No node stands in the new list twice. -/
  once : (origins result).Nodup
  /-- Of the old list, all nodes are there but those deleted, replaced or
  taken out. -/
  kept : ∀ i, .listed i ∈ origins result ↔ i < xs.length ∧ ¬ LostIn (entriesOf stays) (.listed i)
  /-- They stand in their old order. -/
  inOrder : ((origins result).filterMap Origin.listed?).Pairwise (· < ·)
  /-- Each stay left the nodes inserted before the current one, in the order
  of the calls, and then what was left of that one.  The rest follows. -/
  placed : origins result = stays.flatMap Stay.leaves ++ origins rest
  /-- A node inserted before a current one is in the new list as it was
  given, and no hook was called with it. -/
  inserted : ∀ x ∈ insertedIn (entriesOf stays),
    x ∈ result ∧ x.origin ∉ passedIn (entriesOf stays)
  /-- No node is visited twice, and none of the rest at all. -/
  visits : (visitedIn stays ++ origins rest).Nodup
  /-- A node inserted behind a current one is visited before all that were
  pending then, or stands before them in the rest. -/
  behind : ∀ x around, .deed (.insertAfter x) around ∈ entriesOf stays →
    Precedes (removedIn (entriesOf stays)) (visitedIn stays ++ origins rest) x.origin
      (origins around.splicer.pending)
  /-- The rest is as it was listed or given. -/
  untouched : ∀ x ∈ rest, x ∈ numbered xs ∨ x ∈ appendedIn (entriesOf stays)

theorem AtRest.spliced {xs : List α} {d : Diary σ α} {q : Splicer (Labelled α)}
    (h : AtRest xs d q) : Spliced xs d.stays q.pending q.toList := by
  have hlabels : labels ⟨none, q⟩ = origins q.toList := (List.map_append ..).symm
  obtain ⟨⟨hline, honce, _, hinserted, hbehind, huntouched⟩, hplaced⟩ := h
  rw [hlabels] at hline
  refine ⟨hline.once, hline.kept, hline.inOrder, ?_, fun x hx => ?_, honce, hbehind, huntouched⟩
  · rw [← hlabels, ← hplaced]
    rfl
  · obtain ⟨hdone, hpassed⟩ := hinserted x hx
    exact ⟨List.mem_append_left _ hdone, hpassed⟩

/-- The outcome of a visit is explained by the same visit with labels and a
diary: it ends in the same way, without labels its list is the same, and
the law holds of it.  Without a failure all nodes were visited. -/
def Plan.Explains (p : Plan σ α) (descend : σ → α → Run (Step σ α)) (fuel : Nat) (s : σ)
    (xs : List α) (t : Option Level) (r : Step σ (List α)) : Prop :=
  ∃ d rest result, (p.visitRecorded descend fuel s xs t).2 = .ok ⟨d, result, r.failure⟩
    ∧ d.state = r.state ∧ result.map (·.node) = r.value ∧ Spliced xs d.stays rest result
    ∧ (r.failure = none → rest = [])

theorem Plan.explains_visitList {p : Plan σ α} {descend : σ → α → Run (Step σ α)} {fuel : Nat}
    {s : σ} {xs : List α} {t : Option Level} {r : Step σ (List α)}
    (h : (visitList p.hooks descend fuel s xs t).2 = .ok r) :
    p.Explains descend fuel s xs t r := by
  obtain ⟨d, result, hend, hstate, hnodes⟩ := visitRecorded_of_visitList h
  obtain ⟨q, hq, rfl, hpending⟩ := (visitRecorded_atRest fuel s xs).ensures t _ hend
  exact ⟨d, q.pending, q.toList, hend, hstate, hnodes, hq.spliced, hpending⟩

end

end Splicing

open Splicing (Plan)

/-- **Splicing loses, duplicates and reorders nothing.**  For hooks that act
by deeds, the law explains every visit of a list that returns, with or
without a failure.  The hooks are told of the ends of all lists whose
beginnings they were told of. -/
theorem splicing_loses_nothing {σ : Type} (v : Visitor σ) (fuel : Nat) (s : σ)
    (t : Option Level) :
    (∀ p : Plan σ Expr, v.exprs = p.hooks → ∀ es r, (v.visitExprs fuel s es t).2 = .ok r →
      p.Explains (v.descend .expr (Expr.accept v fuel)) fuel s es t r)
    ∧ (∀ p : Plan σ Stmt, v.stmts = p.hooks → ∀ ss r, (v.visitStmts fuel s ss t).2 = .ok r →
      p.Explains (v.descend .stmt (Stmt.accept v fuel)) fuel s ss t r)
    ∧ (∀ es r, (v.visitExprs fuel s es t).2 = .ok r → ∃ w, Balanced w
      ∧ (v.noted.visitExprs fuel ⟨s, []⟩ es t).2 = .ok (r.noted (visitMarks .exprs w)))
    ∧ ∀ ss r, (v.visitStmts fuel s ss t).2 = .ok r → ∃ w, Balanced w
      ∧ (v.noted.visitStmts fuel ⟨s, []⟩ ss t).2 = .ok (r.noted (visitMarks .stmts w)) := by
  refine ⟨fun p hp es r hr => ?_, fun p hp ss r hr => ?_, fun es r => Visitor.visitExprs_balanced,
    fun ss r => Visitor.visitStmts_balanced⟩
  · rw [Visitor.visitExprs, hp] at hr
    exact Plan.explains_visitList hr
  · rw [Visitor.visitStmts, hp] at hr
    exact Plan.explains_visitList hr

/-- A plan that does a bit of everything, and fails at last. -/
def Splicing.Plan.busy : Plan Unit Expr where
  before := fun _ site => pure <|
    match site.slot.map (·.text) with
    | some "a" => ⟨(), [.insertBefore (.ident "p"), .insertAfter (.ident "q")], none⟩
    | some "q" => ⟨(), [.replace (.ident "r")], none⟩
    | some "b" => ⟨(), [.removeNext, .delete], none⟩
    | some "d" => ⟨(), [.insertAfter (.ident "w")], some (.custom "enough")⟩
    | _ => ⟨(), [], none⟩

theorem splicing_loses_nothing_busy :
    ∃ r, (Visitor.visitExprs { exprs := Plan.busy.hooks } 9 ()
        (["a", "b", "c", "d", "e"].map .ident) none).2 = .ok r
      ∧ r.failure = some (.custom "enough")
      ∧ r.value = ["p", "a", "r", "d", "w", "e"].map .ident
      ∧ Plan.busy.Explains (Visitor.descend { exprs := Plan.busy.hooks } .expr
          (Expr.accept { exprs := Plan.busy.hooks } 9)) 9 ()
          (["a", "b", "c", "d", "e"].map .ident) none r :=
  ⟨_, rfl, rfl, rfl, (splicing_loses_nothing _ 9 () none).1 Plan.busy rfl _ _ rfl⟩

end RuleBody
