import PatternSearch.Automaton.Basic
import PatternSearch.Pattern.Basic

/-!
# The automaton of a pattern

Each term becomes a block of new states with a way in and a way out (`Fragment`). A branch joins its
blocks by edges that take nothing, from the way out of each to the way in of the next; a choice has
an edge to each of its branches, in their order. The order of edges is what a search prefers: a
quantified term is entered before it is passed by, and repeated before it is left.

State 0 is where a search begins, and state 1 is final.
-/

namespace PatternSearch

/-- The way in and the way out of a block of states. -/
structure Fragment where
  entry : Nat
  exit : Nat
deriving DecidableEq, Repr

namespace Automaton

/-- Adds a block that takes what `m` takes. -/
def addAtom (a : Automaton) (m : Matcher) : Fragment × Automaton :=
  let f : Fragment := ⟨a.size, a.size + 1⟩
  (f, ((a.addState .plain).addState .plain).addConsuming f.entry m f.exit)

/-- Adds two states around a block, so that it can be passed by. -/
def addBypass (a : Automaton) (inner : Fragment) : Fragment × Automaton :=
  let f : Fragment := ⟨a.size, a.size + 1⟩
  let a := (a.addState .plain).addState .plain
  (f, ((a.addFree f.entry inner.entry).addFree f.entry f.exit).addFree inner.exit f.exit)

/-- Lets a block be repeated. -/
def addReturn (a : Automaton) (inner : Fragment) : Automaton :=
  a.addFree inner.exit inner.entry

/-- Applies a quantifier to a block. -/
def addQuantifier (a : Automaton) (q : Quantifier) (inner : Fragment) : Fragment × Automaton :=
  match q with
  | .optional => a.addBypass inner
  | .plus => (inner, a.addReturn inner)
  | .star => (a.addReturn inner).addBypass inner

mutual

/-- Adds the block of a term. -/
def addTerm (a : Automaton) : Term → Fragment × Automaton
  | .atom m => a.addAtom m
  | .group index body =>
    let f : Fragment := ⟨a.size, a.size + 1⟩
    let a := (a.addState (.groupStart index)).addState (.groupEnd index)
    (f, a.addChoice f.entry body f.exit)
  | .quantified q t =>
    let (inner, a) := a.addTerm t
    a.addQuantifier q inner
termination_by structural t => t

/-- Adds the blocks of a branch, the last of them joined to `tail`, and gives the way in. The way
into an empty branch is `tail` itself. -/
def addBranch (a : Automaton) (tail : Nat) : Branch → Nat × Automaton
  | .nil => (tail, a)
  | .cons t rest =>
    let (f, a) := a.addTerm t
    let (next, a) := a.addBranch tail rest
    (f.entry, a.addFree f.exit next)
termination_by structural b => b

/-- Adds the branches of a choice between the states `source` and `tail`. -/
def addChoice (a : Automaton) (source : Nat) (choice : Choice) (tail : Nat) : Automaton :=
  match choice with
  | .only b =>
    let (entry, a) := a.addBranch tail b
    a.addFree source entry
  | .or b rest =>
    let (entry, a) := a.addBranch tail b
    (a.addFree source entry).addChoice source rest tail
termination_by structural choice

end

/-- The state where the search for a pattern begins. -/
def start : Nat := 0

/-- The automaton of a pattern that stands for `body`. -/
def ofChoice (body : Choice) : Automaton :=
  let empty : Automaton := {}
  let ends := (empty.addState .plain).addState .final
  ends.addChoice start body (start + 1)

end Automaton

end PatternSearch
