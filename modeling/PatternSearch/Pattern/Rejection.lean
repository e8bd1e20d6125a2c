import PatternSearch.Pattern.Basic

/-!
# Rejected patterns

Why a text is no pattern, and where in it the fault lies. Most faults are seen where they are made.
Where nothing more is known than that a pattern cannot be read on, the fault is told from what is
left over (`Fault.leftover`).
-/

namespace PatternSearch

/-- What can be wrong with a written pattern. Groups are numbered as they are written, from 1. -/
inductive Fault where
  | unclosedSet
  | emptySet
  | invalidRange (low high : Char)
  | unclosedGroup
  | unmatchedClose
  | trailingBackslash
  | invalidBackreference (number : Nat)
  | nothingToRepeat (q : Quantifier)
  | unexpected (c : Char)
  | unexpectedEnd
deriving DecidableEq, Repr

/-- The wording of a fault. -/
def Fault.message : Fault → String
  | unclosedSet => "unclosed character set, missing `]`"
  | emptySet => "empty character set"
  | invalidRange low high =>
    "invalid range `" ++ low.toString ++ "-" ++ high.toString ++ "` in character set"
  | unclosedGroup => "unclosed group, missing `)`"
  | unmatchedClose => "unmatched `)`"
  | trailingBackslash => "trailing backslash"
  | invalidBackreference number =>
    "backreference \\" ++ number.repr ++ " does not refer to a closed group"
  | nothingToRepeat q => "quantifier `" ++ q.symbol.toString ++ "` has nothing to repeat"
  | unexpected c => "unexpected `" ++ c.toString ++ "`"
  | unexpectedEnd => "unexpected end of pattern"

/-- What is wrong with a pattern that cannot be read on, of which these characters are left over. -/
def Fault.leftover : List Char → Fault
  | [] => unexpectedEnd
  | c :: _ =>
    if c = ')' then unmatchedClose
    else
      match Quantifier.ofSymbol? c with
      | some q => nothingToRepeat q
      | none => unexpected c

@[simp] theorem Fault.leftover_close (rest : List Char) :
    leftover (')' :: rest) = unmatchedClose := rfl

@[simp] theorem Fault.leftover_symbol (q : Quantifier) (rest : List Char) :
    leftover (q.symbol :: rest) = nothingToRepeat q := by
  cases q <;> rfl

/-- A fault and its place, which counts the characters of the pattern before it. -/
structure Rejection where
  fault : Fault
  position : Nat
deriving DecidableEq, Repr

/-- The wording of a rejection. -/
def Rejection.message (r : Rejection) : String :=
  r.fault.message ++ " at position " ++ r.position.repr

end PatternSearch
