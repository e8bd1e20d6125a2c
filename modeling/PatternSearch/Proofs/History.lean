import Mathlib.Data.List.DropRight
import PatternSearch.Proofs.Capturing

/-!
# The history of captures

Entering and leaving groups changes captures call by call, and each call that changes anything hands
out the slot that it has replaced. A history keeps the calls with what they have handed out. To put
these slots back from the last call to the first takes the captures back through all that they have
been, although calls that changed nothing have left nothing to put back, and the calls may be about
the groups in any order. The history also tells the captures that it leads to: a group has the span
from where it was first entered after it had been left before, to where it was last left
(`Captures.undo_history`). And it tells which calls change anything next: a group can be entered if it
has not been entered since it was last left, and left if it has.

What a call does to one group depends on the slot of that group only, so a history is gone through
with one group in view (`Slot.Matches`); calls about other groups neither change its slot nor say
anything about it.
-/

namespace PatternSearch

namespace Captures

/-- A group is entered or left at an offset. -/
inductive Call where
  | enter (group offset : Nat)
  | leave (group offset : Nat)
deriving DecidableEq, Repr

namespace Call

/-- The group that a call is about. -/
def group : Call → Nat
  | enter group _ | leave group _ => group

/-- Makes a call. -/
def make (captures : Captures) : Call → Option (Slot × Captures)
  | enter group offset => captures.enter group offset
  | leave group offset => captures.leave group offset

/-- What a call does to the slot of its group. -/
def change : Call → Slot → Option Slot
  | enter _ offset, slot => slot.enter offset
  | leave _ offset, slot => slot.leave offset

theorem make_eq (captures : Captures) (call : Call) :
    call.make captures = captures.update call.group call.change := by
  cases call <;> rfl

/-- The offset at which a call enters `group`, whether that changes anything or not. -/
def entersAt? (group : Nat) : Call → Option Nat
  | enter g offset => if g = group then some offset else none
  | leave _ _ => none

end Call

/-- A call that has been made, with the slot that it has replaced, if it has changed anything. -/
structure Entry where
  call : Call
  replaced? : Option Slot
deriving DecidableEq, Repr

/-- The captures after a call. -/
def after (captures : Captures) (call : Call) : Captures :=
  ((call.make captures).map Prod.snd).getD captures

/-- A call as it is noted in a history. -/
def entry (captures : Captures) (call : Call) : Entry :=
  ⟨call, (call.make captures).map Prod.fst⟩

/-- The captures after some calls. -/
def afterAll (captures : Captures) (calls : List Call) : Captures :=
  calls.foldl after captures

/-- The history of some calls, the first one first. -/
def history (captures : Captures) : List Call → List Entry
  | [] => []
  | call :: rest => captures.entry call :: (captures.after call).history rest

/-- Puts the slot back that a call has replaced, if it has replaced one. -/
def undo (e : Entry) (captures : Captures) : Captures :=
  match e.replaced? with
  | none => captures
  | some slot => captures.restore e.call.group slot

/-! ## Undoing calls -/

section Undo

variable (captures : Captures)

/-- **Undoing a call gives back the captures before it.** -/
theorem undo_entry (call : Call) : undo (captures.entry call) (captures.after call) = captures := by
  unfold undo entry after
  cases hmake : call.make captures with
  | none => rfl
  | some made =>
    rw [Call.make_eq] at hmake
    exact restore_of_update hmake

/-- **Undoing calls from the last one back leads through all captures on the way.** -/
theorem foldr_undo_drop (calls : List Call) (k : Nat) :
    ((captures.history calls).drop k).foldr undo (captures.afterAll calls) =
      captures.afterAll (calls.take k) := by
  induction calls generalizing captures k with
  | nil => simp [history]
  | cons call rest ih =>
    cases k with
    | zero =>
      have hrest := ih (captures.after call) 0
      calc undo (captures.entry call)
            (((captures.after call).history rest).foldr undo ((captures.after call).afterAll rest))
          = undo (captures.entry call) (captures.after call) := congrArg _ hrest
        _ = captures := captures.undo_entry call
    | succ k => exact ih (captures.after call) k

end Undo

/-! ## The slot of one group -/

section Slots

variable {captures : Captures} {call : Call} {group : Nat}

theorem slots_after (captures : Captures) (call : Call) (group : Nat) :
    (captures.after call).slots[group]? = captures.slots[group]?.map fun slot =>
      if group = call.group then (call.change slot).getD slot else slot := by
  unfold after
  rw [Call.make_eq]
  exact captures.slots_update call.group call.change group

/-- A call leaves the slots of all other groups as they are. -/
theorem slots_after_of_ne (h : group ≠ call.group) :
    (captures.after call).slots[group]? = captures.slots[group]? := by
  simp only [slots_after, if_neg h, Option.map_id']

/-- So does putting back a slot. -/
theorem slots_restore_of_ne {other : Nat} (slot : Slot) (h : other ≠ group) :
    (captures.restore group slot).slots[other]? = captures.slots[other]? :=
  Array.getElem?_setIfInBounds_ne (Ne.symm h)

/-- What is noted of a call about a group with this slot. -/
theorem entry_eq {slot : Slot} (hslot : captures.slots[call.group]? = some slot) :
    captures.entry call = ⟨call, (call.change slot).map fun _ => slot⟩ := by
  simp only [entry, Call.make_eq, update, hslot, Option.bind_some, Option.map_map]
  rfl

end Slots

/-! ## What a history says of a group -/

/-- A call has left `group`, and not just been made. -/
def Entry.leaves (group : Nat) (e : Entry) : Bool :=
  match e with
  | ⟨.leave g _, some _⟩ => g = group
  | _ => false

/-- What has been called since `group` was last left. -/
def sinceLeft (group : Nat) (entries : List Entry) : List Entry :=
  entries.rtakeWhile (!·.leaves group)

/-- The first offset at which `group` has been entered. -/
def firstEntered? (group : Nat) (entries : List Entry) : Option Nat :=
  entries.findSome? (·.call.entersAt? group)

/-- In a history, `group` was last left at the end of `span`, and the first time it was entered after
it had been left before is the start of `span`. -/
def SpannedBy (group : Nat) (span : Span) (entries : List Entry) : Prop :=
  ∃ earlier slot later, entries = earlier ++ ⟨.leave group span.stop, some slot⟩ :: later ∧
    (∀ e ∈ later, e.leaves group = false) ∧
    firstEntered? group (sinceLeft group earlier) = some span.start

/-- After a history, a call enters a group that has not been entered since it was last left, or leaves
a group that has. -/
def Call.TakesEffect (entries : List Entry) : Call → Prop
  | enter group _ => firstEntered? group (sinceLeft group entries) = none
  | leave group _ => (firstEntered? group (sinceLeft group entries)).isSome

end Captures

open Captures

/-- A slot is what a history makes of the slot of `group`. -/
structure Slot.Matches (slot : Slot) (group : Nat) (entries : List Entry) : Prop where
  entered : slot.entered = firstEntered? group (sinceLeft group entries)
  span : (slot.span = none ∧ ∀ e ∈ entries, e.leaves group = false) ∨
    ∃ span, slot.span = some span ∧ SpannedBy group span entries

section Matches

variable {slot : Slot} {group : Nat} {entries : List Entry} {e : Entry}

theorem sinceLeft_concat (h : e.leaves group = false) :
    sinceLeft group (entries ++ [e]) = sinceLeft group entries ++ [e] :=
  List.rtakeWhile_concat_pos _ _ _ (by simp [h])

theorem sinceLeft_concat_of_leaves (h : e.leaves group = true) :
    sinceLeft group (entries ++ [e]) = [] :=
  List.rtakeWhile_concat_neg _ _ _ (by simp [h])

theorem firstEntered?_concat (group : Nat) (entries : List Entry) (e : Entry) :
    firstEntered? group (entries ++ [e]) =
      (firstEntered? group entries).or (e.call.entersAt? group) := by
  rw [firstEntered?, List.findSome?_append, List.findSome?_singleton]
  rfl

theorem Slot.matches_nil (group : Nat) : ({} : Slot).Matches group [] :=
  ⟨rfl, .inl ⟨rfl, List.forall_mem_nil _⟩⟩

/-- As long as a group is not left, its slot keeps its span. -/
theorem Slot.Matches.span_concat (h : slot.Matches group entries) (he : e.leaves group = false) :
    (slot.span = none ∧ ∀ e' ∈ entries ++ [e], e'.leaves group = false) ∨
      ∃ span, slot.span = some span ∧ SpannedBy group span (entries ++ [e]) := by
  rcases h.span with ⟨hnone, hentries⟩ | ⟨span, hspan, earlier, slot', later, rfl, hlater, hfirst⟩
  · exact .inl ⟨hnone, List.forall_mem_append.2 ⟨hentries, List.forall_mem_singleton.2 he⟩⟩
  · refine .inr ⟨span, hspan, earlier, slot', later ++ [e], by simp, ?_, hfirst⟩
    exact List.forall_mem_append.2 ⟨hlater, List.forall_mem_singleton.2 he⟩

/-- A call that neither enters nor leaves the group. -/
theorem Slot.Matches.idle (h : slot.Matches group entries) (he : e.leaves group = false)
    (hcall : e.call.entersAt? group = none) : slot.Matches group (entries ++ [e]) := by
  refine ⟨?_, h.span_concat he⟩
  rw [sinceLeft_concat he, firstEntered?_concat, hcall, Option.or_none]
  exact h.entered

theorem Slot.Matches.enter (h : slot.Matches group entries) (offset : Nat)
    (replaced? : Option Slot) : ((slot.enter offset).getD slot).Matches group
      (entries ++ [⟨.enter group offset, replaced?⟩]) := by
  have he : Entry.leaves group ⟨.enter group offset, replaced?⟩ = false := rfl
  have hspan : ((slot.enter offset).getD slot).span = slot.span := by
    unfold Slot.enter
    split <;> rfl
  have hentered : ((slot.enter offset).getD slot).entered = slot.entered.or (some offset) := by
    unfold Slot.enter
    split <;> simp_all
  refine ⟨?_, hspan ▸ h.span_concat he⟩
  rw [hentered, h.entered, sinceLeft_concat he, firstEntered?_concat, Call.entersAt?, if_pos rfl]

theorem Slot.Matches.leave (h : slot.Matches group entries) (offset : Nat) :
    ((slot.leave offset).getD slot).Matches group
      (entries ++ [⟨.leave group offset, (slot.leave offset).map fun _ => slot⟩]) := by
  cases hentered : slot.entered with
  | none =>
    have hleave : slot.leave offset = none := by rw [Slot.leave, hentered, Option.map_none]
    rw [hleave]
    exact h.idle rfl rfl
  | some start =>
    have hleave : slot.leave offset = some ⟨none, some ⟨start, offset⟩⟩ := by
      rw [Slot.leave, hentered, Option.map_some]
    have he : Entry.leaves group ⟨.leave group offset, some slot⟩ = true := decide_eq_true rfl
    rw [hleave]
    refine ⟨?_, .inr ⟨_, rfl, entries, slot, [], rfl, List.forall_mem_nil _, ?_⟩⟩
    · rw [Option.map_some, sinceLeft_concat_of_leaves he]
      rfl
    · exact h.entered.symm.trans hentered

/-- A call about another group. -/
theorem Slot.Matches.skip (h : slot.Matches group entries) (hgroup : group ≠ e.call.group) :
    slot.Matches group (entries ++ [e]) := by
  obtain ⟨call, replaced?⟩ := e
  cases call with
  | enter g offset => exact h.idle rfl (if_neg (Ne.symm hgroup))
  | leave g offset =>
    refine h.idle ?_ rfl
    cases replaced? with
    | none => rfl
    | some replaced => exact decide_eq_false (Ne.symm hgroup)

/-- **A slot keeps matching its history**, call by call, whatever groups the calls are about. -/
theorem Slot.Matches.after {captures : Captures} (h : slot.Matches group entries)
    (hslot : captures.slots[group]? = some slot) (call : Call) :
    ∃ slot', (captures.after call).slots[group]? = some slot' ∧
      slot'.Matches group (entries ++ [captures.entry call]) := by
  rw [slots_after, hslot, Option.map_some]
  refine ⟨_, rfl, ?_⟩
  by_cases hgroup : group = call.group
  · subst hgroup
    rw [if_pos rfl, entry_eq hslot]
    cases call with
    | enter g offset => exact h.enter offset _
    | leave g offset => exact h.leave offset
  · rw [if_neg hgroup]
    exact h.skip hgroup

/-- Whether a call changes the slot is what its history says. -/
theorem Slot.Matches.isSome_change {call : Call} (h : slot.Matches call.group entries) :
    (call.change slot).isSome ↔ call.TakesEffect entries := by
  have hentered := h.entered
  cases call with
  | enter g offset =>
    rw [Call.group] at hentered
    rw [Call.TakesEffect, ← hentered, Call.change, Slot.enter]
    cases slot.entered <;> simp
  | leave g offset =>
    rw [Call.group] at hentered
    rw [Call.TakesEffect, ← hentered, Call.change, Slot.leave, Option.isSome_map]

/-- **A slot matches the history of any calls.** -/
theorem Slot.Matches.afterAll (calls : List Call) {captures : Captures} {slot : Slot}
    {entries : List Entry} (h : slot.Matches group entries)
    (hslot : captures.slots[group]? = some slot) :
    ∃ slot', (captures.afterAll calls).slots[group]? = some slot' ∧
      slot'.Matches group (entries ++ captures.history calls) := by
  induction calls generalizing captures slot entries with
  | nil => exact ⟨slot, hslot, by rwa [history, List.append_nil]⟩
  | cons call rest ih =>
    obtain ⟨next, hnext, hmatches⟩ := h.after hslot call
    obtain ⟨last, hlast, hall⟩ := ih hmatches hnext
    rw [List.append_assoc] at hall
    exact ⟨last, hlast, hall⟩

end Matches

/-! ## Captures and their histories -/

namespace Captures

theorem slots_fresh {groups group : Nat} (h : group < groups) :
    (fresh groups).slots[group]? = some {} := by
  simp only [fresh, Array.getElem?_replicate, if_pos h]

/-- From fresh captures, the slot of each group matches the history. -/
theorem exists_matches (calls : List Call) {groups group : Nat} (h : group < groups) :
    ∃ slot, ((fresh groups).afterAll calls).slots[group]? = some slot ∧
      slot.Matches group ((fresh groups).history calls) :=
  (Slot.matches_nil group).afterAll calls (slots_fresh h)

/-- **Calls can be undone, and their history tells what they have led to.** Undoing calls from the
last one back gives back the captures after each of them, and in the end those before all of them.
Neither a call nor putting back a slot changes the slots of other groups. And from fresh captures,
the next call changes something just if it takes effect after the history; a group that has never
been left has no span, and any other has the span that the history says. -/
theorem undo_history :
    (∀ (captures : Captures) (calls : List Call) (k : Nat),
      ((captures.history calls).drop k).foldr undo (captures.afterAll calls) =
        captures.afterAll (calls.take k)) ∧
    (∀ (captures : Captures) (call : Call) (other : Nat), other ≠ call.group →
      (captures.after call).slots[other]? = captures.slots[other]?) ∧
    (∀ (captures : Captures) (group : Nat) (slot : Slot) (other : Nat), other ≠ group →
      (captures.restore group slot).slots[other]? = captures.slots[other]?) ∧
    (∀ (groups : Nat) (calls : List Call) (call : Call), call.group < groups →
      ((call.make ((fresh groups).afterAll calls)).isSome ↔
        call.TakesEffect ((fresh groups).history calls))) ∧
    ∀ (groups : Nat) (calls : List Call) (group : Nat), group < groups →
      (((fresh groups).afterAll calls).span? group = none ∧
        ∀ e ∈ (fresh groups).history calls, e.leaves group = false) ∨
      ∃ span, ((fresh groups).afterAll calls).span? group = some span ∧
        SpannedBy group span ((fresh groups).history calls) := by
  refine ⟨foldr_undo_drop, fun _ _ _ h => slots_after_of_ne h, fun _ _ slot _ h =>
    slots_restore_of_ne slot h, fun groups calls call hlt => ?_, fun groups calls group hlt => ?_⟩
  · obtain ⟨slot, hafter, hmatches⟩ := exists_matches calls hlt
    rw [Call.make_eq, update, hafter, Option.bind_some, Option.isSome_map]
    exact hmatches.isSome_change
  · obtain ⟨slot, hafter, hmatches⟩ := exists_matches calls hlt
    have hspan : ((fresh groups).afterAll calls).span? group = slot.span := by
      rw [span?, hafter, Option.bind_some]
    rw [hspan]
    exact hmatches.span

/-- Two groups that overlap, the first of them twice: it is entered while it is entered already, and
left when it has been left already. -/
theorem undo_history_overlapping :
    ∃ calls : List Call, 0 < 2 ∧ calls.length = 8 ∧
      ((fresh 2).afterAll calls).span? 0 = some ⟨3, 5⟩ ∧
      SpannedBy 0 ⟨3, 5⟩ ((fresh 2).history calls) ∧
      (Call.leave 1 6).TakesEffect ((fresh 2).history (calls.take 6)) ∧
      (((fresh 2).history calls).drop 4).foldr undo ((fresh 2).afterAll calls) =
        ⟨#[⟨none, some ⟨0, 2⟩⟩, ⟨some 1, none⟩]⟩ := by
  let calls : List Call := [.enter 0 0, .enter 1 1, .enter 0 1, .leave 0 2, .leave 0 3, .enter 0 3,
    .leave 1 4, .leave 0 5]
  have hspan : ((fresh 2).afterAll calls).span? 0 = some ⟨3, 5⟩ := by decide
  have hback := undo_history.1 (fresh 2) calls 4
  have heffect := (undo_history.2.2.2.1 2 (calls.take 6) (.leave 1 6) (by decide)).1 (by decide)
  rcases undo_history.2.2.2.2 2 calls 0 Nat.two_pos with ⟨hnone, -⟩ | ⟨span, hspan', hspanned⟩
  · rw [hspan] at hnone
    cases hnone
  · rw [hspan] at hspan'
    cases hspan'
    exact ⟨calls, Nat.two_pos, rfl, hspan, hspanned, heffect, hback⟩

end Captures

end PatternSearch
