import PatternSearch.Span

/-!
# Captures

Each group of a pattern has a slot. Entering the group notes an offset in it, leaving the group
turns that offset into a span. Both hand out the slot as it was, so that a search that gives up a
branch can put the slots back one by one (`Captures.restore`); both do nothing where they do not
apply, and then there is nothing to put back.
-/

namespace PatternSearch

/-- What is known of one group on the way to some point of a search: where it was entered, while it
has not been left, and the span it had when it was last left. -/
structure Slot where
  entered : Option Nat := none
  span : Option Span := none
deriving DecidableEq, Repr

namespace Slot

/-- Enters the group at `offset`; a group that is entered already stays as it is. -/
def enter (slot : Slot) (offset : Nat) : Option Slot :=
  match slot.entered with
  | none => some { slot with entered := some offset }
  | some _ => none

/-- Leaves the group at `offset`; a group that is not entered stays as it is. -/
def leave (slot : Slot) (offset : Nat) : Option Slot :=
  slot.entered.map fun start => { entered := none, span := some ⟨start, offset⟩ }

end Slot

/-- The slots of all groups, in the order of their numbers. -/
structure Captures where
  slots : Array Slot
deriving DecidableEq, Repr

namespace Captures

/-- No group has been entered. -/
def fresh (groups : Nat) : Captures :=
  ⟨Array.replicate groups {}⟩

/-- The span that `group` had when it was last left. -/
def span? (captures : Captures) (group : Nat) : Option Span :=
  captures.slots[group]?.bind Slot.span

/-- Puts a slot in place of that of `group`. -/
def restore (captures : Captures) (group : Nat) (slot : Slot) : Captures :=
  ⟨captures.slots.setIfInBounds group slot⟩

/-- Changes the slot of `group`, if there is one and `change` has something to change in it. Along
with the result comes the slot that was replaced. -/
def update (captures : Captures) (group : Nat) (change : Slot → Option Slot) :
    Option (Slot × Captures) :=
  captures.slots[group]?.bind fun slot =>
    (change slot).map fun changed => (slot, captures.restore group changed)

/-- Enters `group` at `offset`. -/
def enter (captures : Captures) (group offset : Nat) : Option (Slot × Captures) :=
  captures.update group (·.enter offset)

/-- Leaves `group` at `offset`. -/
def leave (captures : Captures) (group offset : Nat) : Option (Slot × Captures) :=
  captures.update group (·.leave offset)

/-- The captured characters of each group, where it has been left. -/
def texts (captures : Captures) (text : Array Char) : List (Option String) :=
  captures.slots.toList.map fun slot =>
    slot.span.map fun span => String.ofList (span.slice text).toList

end Captures

end PatternSearch
