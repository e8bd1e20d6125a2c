import PatternSearch.Automaton.Listing
import PatternSearch.Regex

/-!
# Log records

What compiling a pattern and searching for it have to say on the way. A record is a value like any
other, made from the result of what it tells about.
-/

namespace PatternSearch

/-- How much a record matters. -/
inductive LogLevel where
  | debug
  | trace
deriving DecidableEq, Repr

/-- The name of a level. -/
def LogLevel.name : LogLevel → String
  | debug => "DEBUG"
  | trace => "TRACE"

structure LogRecord where
  level : LogLevel
  message : String
deriving DecidableEq, Repr

/-- The name of an anchor in a record. -/
def Anchor.name (anchor : Anchor) : String :=
  match anchor.atStart, anchor.atEnd with
  | false, false => "None"
  | true, false => "StartOfLine"
  | false, true => "EndOfLine"
  | true, true => "BothEnds"

/-- The records of compiling a pattern: a summary, and the automaton. -/
def Regex.compileRecords (r : Regex) : List LogRecord :=
  let source := Text.quoted r.source
  let summary := "compiled " ++ source ++ ": " ++ r.stateCount.repr ++ " states, " ++
    r.groupCount.repr ++ " groups, anchor " ++ r.anchor.name
  [⟨.debug, summary⟩, ⟨.trace, "automaton for " ++ source ++ ":\n" ++ r.automaton.listing⟩]

/-- The record of how a search ended; one that gave up leaves none. -/
def Report.closingRecord? (r : Report) : Option LogRecord :=
  let steps := " after " ++ r.steps.repr ++ " steps"
  match r.outcome with
  | .matched span =>
    some ⟨.trace, "matched " ++ span.start.repr ++ ".." ++ span.stop.repr ++ steps⟩
  | .unmatched => some ⟨.trace, "no match" ++ steps⟩
  | .aborted => none

/-- The records of a search: one for each attempt, and one for how it ended. -/
def Report.records (r : Report) : List LogRecord :=
  r.attempts.map (fun offset => ⟨.trace, "attempt at offset " ++ offset.repr⟩) ++
    r.closingRecord?.toList

end PatternSearch
