import PatternSearch.Matcher

/-!
# Automata

States are numbered from 0 in the order in which they are added. The edges of a state are ordered
too: the order is that in which a search tries them. An edge may be added before the state that it
leads to, so an automaton is well formed (`Automaton.WellFormed`) only once all of it is there.
-/

namespace PatternSearch

/-- What reaching a state means: nothing, the end of the search, or one of the two ends of a group.
-/
inductive Marker where
  | plain
  | final
  | groupStart (group : Nat)
  | groupEnd (group : Nat)
deriving DecidableEq, Repr

/-- An edge to the state `target`. It takes what `matcher?` takes, or nothing if there is no
matcher. -/
structure Edge where
  matcher? : Option Matcher
  target : Nat
deriving DecidableEq, Repr

/-- A state with its outgoing edges, the preferred ones first. -/
structure State where
  marker : Marker
  edges : List Edge := []
deriving DecidableEq, Repr

/-- Whether a state can stand in an automaton of `size` states: its edges lead to states that are
there, and there are some unless the state is final. -/
def State.Sound (s : State) (size : Nat) : Prop :=
  (s.marker = .final ∨ s.edges ≠ []) ∧ ∀ e ∈ s.edges, e.target < size

instance (s : State) (size : Nat) : Decidable (s.Sound size) :=
  inferInstanceAs (Decidable (_ ∧ _))

/-- States that refer to each other by their places in a row. -/
structure Automaton where
  states : Array State := #[]
deriving DecidableEq, Repr

namespace Automaton

/-- The number of states, which is also the number of the next one to be added. -/
def size (a : Automaton) : Nat :=
  a.states.size

def isEmpty (a : Automaton) : Bool :=
  a.states.isEmpty

/-- Adds a state without edges. Its number is the size of the automaton before. -/
def addState (a : Automaton) (marker : Marker) : Automaton :=
  ⟨a.states.push { marker }⟩

/-- Adds an edge after those that `source` has; nothing happens if there is no such state. -/
def addEdge (a : Automaton) (source : Nat) (edge : Edge) : Automaton :=
  ⟨a.states.modify source fun s => { s with edges := s.edges ++ [edge] }⟩

/-- Adds an edge that takes no characters. -/
def addFree (a : Automaton) (source target : Nat) : Automaton :=
  a.addEdge source ⟨none, target⟩

/-- Adds an edge that takes what `m` takes. -/
def addConsuming (a : Automaton) (source : Nat) (m : Matcher) (target : Nat) : Automaton :=
  a.addEdge source ⟨some m, target⟩

/-- The edges of a state, none if there is no such state. -/
def edges (a : Automaton) (state : Nat) : List Edge :=
  (a.states[state]?.map State.edges).getD []

/-- There is exactly one final state, every other state has an edge, and no edge leads nowhere. -/
def WellFormed (a : Automaton) : Prop :=
  a.states.countP (·.marker = .final) = 1 ∧ ∀ s ∈ a.states.toList, s.Sound a.size

instance (a : Automaton) : Decidable a.WellFormed :=
  inferInstanceAs (Decidable (_ ∧ _))

@[simp] theorem size_addState (a : Automaton) (marker : Marker) :
    (a.addState marker).size = a.size + 1 := by
  simp [size, addState]

@[simp] theorem size_addEdge (a : Automaton) (source : Nat) (edge : Edge) :
    (a.addEdge source edge).size = a.size := by
  simp [size, addEdge]

end Automaton

end PatternSearch
