import PatternSearch.Automaton.Basic

/-!
# Listings

An automaton as text: a line for each state, each followed by an indented line for each of its
edges. Groups count from 1 there.
-/

namespace PatternSearch

/-- The name of a state in a listing. -/
def stateName (state : Nat) : String :=
  "s" ++ state.repr

/-- What follows the name of a state with this marker. -/
def Marker.display : Marker → String
  | plain => ":"
  | final => ": final"
  | groupStart group => ": open " ++ (group + 1).repr
  | groupEnd group => ": close " ++ (group + 1).repr

/-- The line of an edge. -/
def Edge.line (e : Edge) : String :=
  match e.matcher? with
  | none => "    -> " ++ stateName e.target
  | some m => "    " ++ m.display ++ " -> " ++ stateName e.target

/-- The lines of the state with number `number`. -/
def State.lines (s : State) (number : Nat) : List String :=
  (stateName number ++ s.marker.display) :: s.edges.map Edge.line

namespace Automaton

/-- The lines of states that are numbered from `number` on. -/
def linesFrom (number : Nat) : List State → List String
  | [] => []
  | s :: rest => s.lines number ++ linesFrom (number + 1) rest

/-- The lines of all states. -/
def lines (a : Automaton) : List String :=
  linesFrom 0 a.states.toList

/-- All lines as one text, with the end of each marked. -/
def listing (a : Automaton) : String :=
  String.join (a.lines.map (· ++ "\n"))

end Automaton

end PatternSearch
