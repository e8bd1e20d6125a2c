import PatternSearch.Automaton.Build
import PatternSearch.Pattern.Reading
import PatternSearch.Search

/-!
# Compiled patterns

A `Regex` is a pattern made ready for searching. Whatever can be wrong with the pattern is found
when it is compiled; searching for it can only fail by going over a limit.
-/

namespace PatternSearch

/-- A pattern as it was written, and what a search for it needs. -/
structure Regex where
  source : String
  anchor : Anchor
  groupCount : Nat
  automaton : Automaton
deriving DecidableEq, Repr

/-- A search that gave up after `steps` explorations. -/
structure StepLimitExceeded where
  steps : Nat
deriving DecidableEq, Repr

/-- The wording of a search that gave up. -/
def StepLimitExceeded.message (e : StepLimitExceeded) : String :=
  "match aborted after exploring " ++ e.steps.repr ++ " states"

namespace Regex

/-- Makes a pattern that has been read ready for searching. -/
def ofPattern (source : String) (p : Pattern) : Regex where
  source
  anchor := p.anchor
  groupCount := p.groupCount
  automaton := .ofChoice p.body

/-- Reads a pattern and makes it ready for searching. -/
def compile (source : String) : Except Rejection Regex :=
  (Pattern.parse source).map (ofPattern source)

theorem compile_of_parse {source : String} {p : Pattern} (h : Pattern.parse source = .ok p) :
    compile source = .ok (ofPattern source p) := by
  rw [compile, h]
  rfl

def stateCount (r : Regex) : Nat :=
  r.automaton.size

/-- The search for a pattern in a text. -/
def query (r : Regex) (text : Array Char) (limit : Option Nat) : Query where
  automaton := r.automaton
  groups := r.groupCount
  start := Automaton.start
  anchor := r.anchor
  text
  limit

/-- Searches a text without limit. -/
def find (r : Regex) (text : String) : Report :=
  (r.query text.toList.toArray none).search

/-- Whether there is a match in a text. -/
def isMatch (r : Regex) (text : String) : Bool :=
  match (r.find text).outcome with
  | .matched _ => true
  | _ => false

/-- What the groups captured in the leftmost match, if there is one. -/
def captures? (r : Regex) (text : String) : Option (List (Option String)) :=
  let report := r.find text
  match report.outcome with
  | .matched _ => some (report.captures.texts text.toList.toArray)
  | _ => none

/-- Whether there is a match in a text, unless that takes more than `limit` explorations to find
out. -/
def isMatchWithin (r : Regex) (text : String) (limit : Nat) : Except StepLimitExceeded Bool :=
  let report := (r.query text.toList.toArray (some limit)).search
  match report.outcome with
  | .matched _ => .ok true
  | .unmatched => .ok false
  | .aborted => .error ⟨report.steps⟩

end Regex

end PatternSearch
