import PatternSearch.Automaton.Basic

/-!
# The backtracking machine

A search for one start offset is a machine that works off a stack of frames. Exploring a state puts
its edges on the stack, the preferred one on top, and beneath them the frames that undo what the
exploration has changed, so that by the time the next alternative is explored, captures and visits
are what they were when it was put on the stack.

For each state the machine remembers the offset at which it was last visited on the current path.
Coming back to a state at that offset means going round a loop that takes nothing, and is a dead
end. `Machine.step` makes one turn.
-/

namespace PatternSearch

/-- What a machine works on: the automaton and the text, whether a match has to stop at the end of
the text, and how many explorations are allowed, if there is a limit. -/
structure Setting where
  automaton : Automaton
  text : Array Char
  toEnd : Bool
  limit : Option Nat
deriving Repr

/-- Something that is still to be done. `leave` notes the offset of the visit it ends, and what was
remembered of the state before that visit. -/
inductive Frame where
  | explore (state offset : Nat)
  | restoreSlot (group : Nat) (slot : Slot)
  | leave (state offset : Nat) (previous : Option Nat)
deriving DecidableEq, Repr

/-- The state of a search: the captures and the last visits on the current path, what is still to be
done, and the number of explorations so far. -/
structure Machine where
  captures : Captures
  visits : Array (Option Nat)
  stack : List Frame
  steps : Nat
deriving DecidableEq, Repr

/-- How a search for one start offset ends: with a match that stops at some offset, without a match,
or over the limit. -/
inductive Verdict where
  | accepted (stop : Nat)
  | rejected
  | aborted
deriving DecidableEq, Repr

/-- The outcome of one turn of a machine. -/
inductive Turn where
  | halt (verdict : Verdict) (m : Machine)
  | next (m : Machine)
deriving DecidableEq, Repr

/-- What a marker does to the captures at `offset`, and the frame that undoes it, if it does
anything. -/
def Marker.apply (marker : Marker) (captures : Captures) (offset : Nat) :
    Captures × Option Frame :=
  match marker with
  | .groupStart group =>
    match captures.enter group offset with
    | some (slot, entered) => (entered, some (.restoreSlot group slot))
    | none => (captures, none)
  | .groupEnd group =>
    match captures.leave group offset with
    | some (slot, left) => (left, some (.restoreSlot group slot))
    | none => (captures, none)
  | .plain | .final => (captures, none)

namespace Setting

/-- Whether `steps` explorations are more than allowed. -/
def isOver (σ : Setting) (steps : Nat) : Bool :=
  match σ.limit with
  | none => false
  | some limit => limit < steps

/-- What an edge leads to from `offset`. -/
def follow? (σ : Setting) (captures : Captures) (offset : Nat) (e : Edge) : Option Frame :=
  match e.matcher? with
  | none => some (.explore e.target offset)
  | some m => (m.consume σ.text offset captures).map fun n => .explore e.target (offset + n)

/-- What the edges of a state lead to, in their order. -/
def follow (σ : Setting) (captures : Captures) (offset : Nat) (edges : List Edge) : List Frame :=
  edges.filterMap (σ.follow? captures offset)

end Setting

namespace Machine

/-- A machine that is about to explore `state` at `offset`, with `steps` explorations behind it. -/
def initial (σ : Setting) (groups state offset steps : Nat) : Machine where
  captures := .fresh groups
  visits := Array.replicate σ.automaton.size none
  stack := [.explore state offset]
  steps

/-- Makes the visit of a state at `offset`, whose last visit was `previous`. -/
def visit (σ : Setting) (m : Machine) (number offset : Nat) (state : State)
    (previous : Option Nat) : Turn :=
  let visits := m.visits.setIfInBounds number (some offset)
  let stack := .leave number offset previous :: m.stack
  if state.marker = .final then
    if !σ.toEnd || offset == σ.text.size then
      .halt (.accepted offset) { m with visits, stack }
    else .next { m with visits, stack }
  else
    let (captures, undo) := state.marker.apply m.captures offset
    let stack := σ.follow captures offset state.edges ++ (undo.toList ++ stack)
    .next { m with captures, visits, stack }

/-- Explores the state with the given number at `offset`. -/
def explore (σ : Setting) (m : Machine) (number offset : Nat) : Turn :=
  let m := { m with steps := m.steps + 1 }
  if σ.isOver m.steps then .halt .aborted m
  else
    match σ.automaton.states[number]?, m.visits[number]? with
    | some state, some previous =>
      if previous = some offset then .next m else m.visit σ number offset state previous
    | _, _ => .next m

/-- Does what is on top of the stack. -/
def step (σ : Setting) (m : Machine) : Turn :=
  match m.stack with
  | [] => .halt .rejected m
  | .explore number offset :: stack => { m with stack }.explore σ number offset
  | .restoreSlot group slot :: stack =>
    .next { m with captures := m.captures.restore group slot, stack }
  | .leave number _ previous :: stack =>
    .next { m with visits := m.visits.setIfInBounds number previous, stack }

end Machine

end PatternSearch
