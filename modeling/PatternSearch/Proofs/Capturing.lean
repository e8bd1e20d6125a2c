import Mathlib.Logic.Function.Basic
import PatternSearch.Proofs.Exploration

/-!
# What markers do to captures

Captures are two functions of the number of a group: where it was entered while it has not been
left (`Captures.entered?`), and the span it had when it was last left (`Captures.span?`). The
markers of a group change the two at that group only, and from its start to its end, if nothing in
between touches the group, they set its span and leave all else as it was.
-/

namespace PatternSearch

namespace Captures

/-- Where `group` was entered, while it has not been left. -/
def entered? (captures : Captures) (group : Nat) : Option Nat :=
  captures.slots[group]?.bind Slot.entered

def size (captures : Captures) : Nat :=
  captures.slots.size

@[simp] theorem size_fresh (groups : Nat) : (fresh groups).size = groups := by
  simp [size, fresh]

@[simp] theorem entered?_fresh (groups group : Nat) : (fresh groups).entered? group = none := by
  simp only [entered?, fresh, Array.getElem?_replicate]
  split <;> rfl

@[simp] theorem span?_fresh (groups group : Nat) : (fresh groups).span? group = none := by
  simp only [span?, fresh, Array.getElem?_replicate]
  split <;> rfl

@[simp] theorem size_restore (captures : Captures) (group : Nat) (slot : Slot) :
    (captures.restore group slot).size = captures.size := by
  simp [size, restore]

section Restore

variable {captures : Captures} {group : Nat} {slot : Slot}

theorem slots_restore (h : group < captures.size) (g : Nat) :
    (captures.restore group slot).slots[g]? =
      if g = group then some slot else captures.slots[g]? := by
  by_cases hg : g = group
  · subst hg
    rw [if_pos rfl]
    exact Array.getElem?_setIfInBounds_self_of_lt h
  · rw [if_neg hg]
    exact Array.getElem?_setIfInBounds_ne (Ne.symm hg)

theorem entered?_restore (h : group < captures.size) :
    (captures.restore group slot).entered? =
      Function.update captures.entered? group slot.entered := by
  funext g
  rw [Function.update_apply, entered?, slots_restore h]
  split <;> rfl

theorem span?_restore (h : group < captures.size) :
    (captures.restore group slot).span? = Function.update captures.span? group slot.span := by
  funext g
  rw [Function.update_apply, span?, slots_restore h]
  split <;> rfl

end Restore

/-- What comes of a change to the slot of a group that is there. -/
theorem update_eq {captures : Captures} {group : Nat} (h : group < captures.size)
    (change : Slot → Option Slot) :
    captures.update group change = (change captures.slots[group]).map fun changed =>
      (captures.slots[group], captures.restore group changed) := by
  unfold update
  rw [Array.getElem?_eq_getElem h, Option.bind_some]

theorem entered?_eq {captures : Captures} {group : Nat} (h : group < captures.size) :
    captures.entered? group = captures.slots[group].entered := by
  unfold entered?
  rw [Array.getElem?_eq_getElem h, Option.bind_some]

theorem span?_eq {captures : Captures} {group : Nat} (h : group < captures.size) :
    captures.span? group = captures.slots[group].span := by
  unfold span?
  rw [Array.getElem?_eq_getElem h, Option.bind_some]

end Captures

namespace Marker

variable {captures : Captures} {group start : Nat}

/-- Reaching the start of a group that is not entered enters it. -/
theorem enact_groupStart (offset : Nat) (h : group < captures.size)
    (hout : captures.entered? group = none) :
    ((groupStart group).enact captures offset).size = captures.size ∧
      ((groupStart group).enact captures offset).entered? =
        Function.update captures.entered? group (some offset) ∧
      ((groupStart group).enact captures offset).span? = captures.span? := by
  have henact : (groupStart group).enact captures offset = captures.restore group
      { captures.slots[group] with entered := some offset } := by
    rw [Captures.entered?_eq h] at hout
    simp [enact, Captures.enter, Captures.update_eq h, Slot.enter, hout]
  rw [henact, Captures.entered?_restore h, Captures.span?_restore h]
  refine ⟨Captures.size_restore _ _ _, rfl, ?_⟩
  rw [← Captures.span?_eq h, Function.update_eq_self]

/-- Reaching the end of a group that was entered at `start` leaves it with the span from there. -/
theorem enact_groupEnd (offset : Nat) (hin : captures.entered? group = some start) :
    ((groupEnd group).enact captures offset).size = captures.size ∧
      ((groupEnd group).enact captures offset).entered? =
        Function.update captures.entered? group none ∧
      ((groupEnd group).enact captures offset).span? =
        Function.update captures.span? group (some ⟨start, offset⟩) := by
  have h : group < captures.size := by
    by_contra hge
    simp [Captures.entered?, Array.getElem?_eq_none (Nat.le_of_not_lt hge)] at hin
  have henact : (groupEnd group).enact captures offset = captures.restore group
      { entered := none, span := some ⟨start, offset⟩ } := by
    rw [Captures.entered?_eq h] at hin
    simp [enact, Captures.leave, Captures.update_eq h, Slot.leave, hin]
  rw [henact, Captures.entered?_restore h, Captures.span?_restore h]
  exact ⟨Captures.size_restore _ _ _, rfl, rfl⟩

end Marker

/-! ## Captures around a stretch of a route -/

/-- The same groups are there, and the same ones are entered and not left. -/
structure Captures.SameOpen (captures captures' : Captures) : Prop where
  size : captures'.size = captures.size
  entered : captures'.entered? = captures.entered?

/-- There is a slot for each of some groups, and none of them is entered. -/
def Captures.Awaits (captures : Captures) (groups : List Nat) : Prop :=
  ∀ g ∈ groups, g < captures.size ∧ captures.entered? g = none

namespace Captures

variable {a b c : Captures} {groups : List Nat}

theorem SameOpen.refl (a : Captures) : a.SameOpen a :=
  ⟨rfl, rfl⟩

theorem SameOpen.trans (hab : a.SameOpen b) (hbc : b.SameOpen c) : a.SameOpen c :=
  ⟨hbc.size.trans hab.size, hbc.entered.trans hab.entered⟩

theorem Awaits.of_sameOpen (h : a.Awaits groups) (hab : a.SameOpen b) : b.Awaits groups := by
  intro g hg
  rw [hab.size, hab.entered]
  exact h g hg

theorem Awaits.mono {groups' : List Nat} (h : a.Awaits groups) (hsub : groups' ⊆ groups) :
    a.Awaits groups' :=
  fun g hg => h g (hsub hg)

theorem Awaits.left {groups' : List Nat} (h : a.Awaits (groups ++ groups')) : a.Awaits groups :=
  h.mono (List.subset_append_left _ _)

theorem Awaits.right {groups' : List Nat} (h : a.Awaits (groups ++ groups')) : a.Awaits groups' :=
  h.mono (List.subset_append_right _ _)

theorem Awaits.span?_enter {g offset : Nat} (h : a.Awaits (g :: groups)) :
    ((Marker.groupStart g).enact a offset).span? = a.span? := by
  obtain ⟨hlt, hout⟩ := h g List.mem_cons_self
  exact (Marker.enact_groupStart offset hlt hout).2.2

theorem Awaits.enter {g offset : Nat} (h : a.Awaits (g :: groups)) (hg : g ∉ groups) :
    ((Marker.groupStart g).enact a offset).Awaits groups := by
  obtain ⟨hlt, hout⟩ := h g List.mem_cons_self
  obtain ⟨hsize, hentered, -⟩ := Marker.enact_groupStart offset hlt hout
  intro g' hg'
  have hne : g' ≠ g := fun heq => hg (heq ▸ hg')
  rw [hsize, hentered, Function.update_of_ne hne]
  exact h g' (List.mem_cons_of_mem g hg')

/-- From the start of a group to its end, the span of the group is set, and nothing else changes
but what changes in between. -/
theorem SameOpen.group {g start : Nat} (h : a.Awaits (g :: groups))
    (hab : ((Marker.groupStart g).enact a start).SameOpen b) (stop : Nat) :
    a.SameOpen ((Marker.groupEnd g).enact b stop) ∧
      ((Marker.groupEnd g).enact b stop).span? =
        Function.update b.span? g (some ⟨start, stop⟩) := by
  obtain ⟨hlt, hout⟩ := h g List.mem_cons_self
  obtain ⟨hsize, hentered, -⟩ := Marker.enact_groupStart start hlt hout
  have hin : b.entered? g = some start := by
    rw [hab.entered, hentered, Function.update_self]
  obtain ⟨hsize', hentered', hspan⟩ := Marker.enact_groupEnd stop hin
  refine ⟨⟨by rw [hsize', hab.size, hsize], ?_⟩, hspan⟩
  rw [hentered', hab.entered, hentered, Function.update_idem, ← hout, Function.update_eq_self]

theorem awaits_fresh {count : Nat} (h : ∀ g ∈ groups, g < count) : (fresh count).Awaits groups := by
  intro g hg
  rw [size_fresh]
  exact ⟨h g hg, entered?_fresh count g⟩

end Captures

/-! ## Captures of some groups -/

/-- A state with this marker is the start or the end of `group`. -/
def Marker.IsOf (marker : Marker) (group : Nat) : Prop :=
  marker = .groupStart group ∨ marker = .groupEnd group

/-- The slots of some groups are the same. -/
def Captures.Agree (groups : Nat → Prop) (captures captures' : Captures) : Prop :=
  ∀ group, groups group → captures.slots[group]? = captures'.slots[group]?

/-- A change to the slot of one group. -/
theorem Captures.slots_update (captures : Captures) (group : Nat) (change : Slot → Option Slot)
    (g : Nat) :
    (((captures.update group change).map Prod.snd).getD captures).slots[g]? =
      captures.slots[g]?.map fun slot => if g = group then (change slot).getD slot else slot := by
  rcases Nat.lt_or_ge group captures.size with hlt | hge
  · have hslot : captures.slots[group]? = some captures.slots[group] :=
      Array.getElem?_eq_getElem hlt
    rw [update_eq hlt]
    cases hchange : change captures.slots[group] with
    | none =>
      by_cases hg : g = group
      · subst hg
        simp [hslot, hchange]
      · simp [hg]
    | some changed =>
      simp only [Option.map_some, Option.getD_some, slots_restore hlt]
      by_cases hg : g = group
      · subst hg
        simp [hslot, hchange]
      · simp [hg]
  · have hnone : captures.slots[group]? = none := Array.getElem?_eq_none hge
    by_cases hg : g = group
    · subst hg
      simp [update, hnone]
    · simp [update, hnone, hg]

/-- A marker changes each slot by itself, and only that of its group. -/
theorem Marker.slots_enact (marker : Marker) (offset group : Nat) :
    ∃ change : Slot → Slot, (¬ marker.IsOf group → change = id) ∧
      ∀ captures : Captures,
        (marker.enact captures offset).slots[group]? = captures.slots[group]?.map change := by
  cases marker with
  | plain => exact ⟨id, fun _ => rfl, fun captures => Option.map_id_fun.symm ▸ rfl⟩
  | final => exact ⟨id, fun _ => rfl, fun captures => Option.map_id_fun.symm ▸ rfl⟩
  | groupStart g =>
    refine ⟨_, fun hnot => ?_, fun captures => captures.slots_update g (·.enter offset) group⟩
    have hne : group ≠ g := fun heq => hnot (.inl (heq ▸ rfl))
    simp only [if_neg hne]
    rfl
  | groupEnd g =>
    refine ⟨_, fun hnot => ?_, fun captures => captures.slots_update g (·.leave offset) group⟩
    have hne : group ≠ g := fun heq => hnot (.inr (heq ▸ rfl))
    simp only [if_neg hne]
    rfl

namespace Captures.Agree

variable {groups : Nat → Prop} {a b c : Captures}

theorem refl (groups : Nat → Prop) (a : Captures) : a.Agree groups a :=
  fun _ _ => rfl

theorem symm (hab : a.Agree groups b) : b.Agree groups a :=
  fun g hg => (hab g hg).symm

theorem trans (hab : a.Agree groups b) (hbc : b.Agree groups c) : a.Agree groups c :=
  fun g hg => (hab g hg).trans (hbc g hg)

/-- The same marker keeps captures alike. -/
theorem enact (h : a.Agree groups b) (marker : Marker) (offset : Nat) :
    (marker.enact a offset).Agree groups (marker.enact b offset) := by
  intro g hg
  obtain ⟨change, -, hchange⟩ := marker.slots_enact offset g
  rw [hchange, hchange, h g hg]

/-- A marker of another group leaves the slots as they are. -/
theorem of_enact {marker : Marker} (h : ∀ g, groups g → ¬ marker.IsOf g) (a : Captures)
    (offset : Nat) : a.Agree groups (marker.enact a offset) := by
  intro g hg
  obtain ⟨change, hid, hchange⟩ := marker.slots_enact offset g
  rw [hchange, hid (h g hg), Option.map_id]
  rfl

theorem span? (h : a.Agree groups b) {g : Nat} (hg : groups g) : a.span? g = b.span? g := by
  rw [Captures.span?, Captures.span?, h g hg]

end Captures.Agree

end PatternSearch
