import PatternSearch.Machine.Run
import PatternSearch.Pattern.Anchor

/-!
# Searches

A search tries the offsets of a text from the left and stops at the first where the machine accepts,
so that it finds the leftmost match. Explorations are counted over the whole search, and so is the
limit on them.
-/

namespace PatternSearch

/-- What is searched for and where: an automaton with as many groups, from the state `start`, in a
text. -/
structure Query where
  automaton : Automaton
  groups : Nat
  start : Nat
  anchor : Anchor
  text : Array Char
  limit : Option Nat
deriving Repr

/-- How a search ends. -/
inductive Outcome where
  | matched (span : Span)
  | unmatched
  | aborted
deriving DecidableEq, Repr

/-- The outcome of a search, with the captures after its last attempt, the number of explorations,
and the offsets that were tried. -/
structure Report where
  outcome : Outcome
  captures : Captures
  steps : Nat
  attempts : List Nat
deriving DecidableEq, Repr

namespace Query

def setting (q : Query) : Setting where
  automaton := q.automaton
  text := q.text
  toEnd := q.anchor.atEnd
  limit := q.limit

/-- Searches for a match that starts at `offset`, with `steps` explorations behind. -/
def attempt (q : Query) (offset steps : Nat) : Verdict × Machine :=
  (Machine.initial q.setting q.groups q.start offset steps).run q.setting

/-- The offsets at which a match may start. -/
def offsets (q : Query) : List Nat :=
  if q.anchor.atStart then [0] else List.range (q.text.size + 1)

/-- Goes on with a search at the given offsets, after an attempt at each offset in `tried`, which
are listed backwards. -/
def searchFrom (q : Query) (captures : Captures) (steps : Nat) (tried : List Nat) :
    List Nat → Report
  | [] => ⟨.unmatched, captures, steps, tried.reverse⟩
  | offset :: rest =>
    let tried := offset :: tried
    match q.attempt offset steps with
    | (.accepted stop, m) => ⟨.matched ⟨offset, stop⟩, m.captures, m.steps, tried.reverse⟩
    | (.aborted, m) => ⟨.aborted, m.captures, m.steps, tried.reverse⟩
    | (.rejected, m) => q.searchFrom m.captures m.steps tried rest

/-- The leftmost match. -/
def search (q : Query) : Report :=
  q.searchFrom (.fresh q.groups) 0 [] q.offsets

end Query

end PatternSearch
