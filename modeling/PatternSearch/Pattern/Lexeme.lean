import PatternSearch.Pattern.Rejection

/-!
# Lexemes

A written pattern is first cut into lexemes: matchers, with a set as one lexeme however long it is,
and the signs that build larger things from them. `Lexeme.scan` reads outside of sets,
`Lexeme.scanSet` within one. A backslash makes a shorthand of `d` and `w`, outside of sets a
backreference of a digit other than `0`, and of any other character that character itself.

The reading stops at a fault that shows in the characters alone; whether parentheses, backreferences
and quantifiers are in place is not decided here.
-/

namespace PatternSearch

/-- What a lexeme says. -/
inductive Token where
  | single (m : Matcher)
  /-- The group is numbered as it is written, from 1. -/
  | backreference (number : Nat)
  | openGroup
  | closeGroup
  | bar
  | quantifier (q : Quantifier)
  | invalid (fault : Fault)
deriving DecidableEq, Repr

/-- A token and the number of characters of the pattern before it. -/
structure Lexeme where
  position : Nat
  token : Token
deriving DecidableEq, Repr

namespace Token

/-- What `c` says after a backslash, outside of sets. -/
def escaped (c : Char) : Token :=
  match Shorthand.ofLetter? c with
  | some s => single (.shorthand s)
  | none =>
    if '1' ≤ c ∧ c ≤ '9' then backreference (c.toNat - '0'.toNat) else single (.literal c)

/-- What `c` says on its own, outside of sets. -/
def plain (c : Char) : Token :=
  match Quantifier.ofSymbol? c with
  | some q => quantifier q
  | none =>
    if c = '.' then single .any
    else if c = '(' then openGroup
    else if c = ')' then closeGroup
    else if c = '|' then bar
    else single (.literal c)

end Token

namespace Lexeme

/-- The members that `c` adds to a set after a backslash. -/
def escapedMembers (c : Char) : List Char :=
  match Shorthand.ofLetter? c with
  | some s => s.members
  | none => [c]

/-- Whether `c` cannot be an end of a range. -/
def endsItem (c : Char) : Bool :=
  c == ']' || c == '\\'

mutual

/-- The lexemes of characters that stand at `position`, outside of sets. -/
def scan (position : Nat) : List Char → List Lexeme
  | [] => []
  | ['\\'] => [⟨position, .invalid .trailingBackslash⟩]
  | '\\' :: c :: rest => ⟨position, .escaped c⟩ :: scan (position + 2) rest
  | '[' :: '^' :: rest => scanSet position true [] (position + 2) rest
  | '[' :: rest => scanSet position false [] (position + 1) rest
  | c :: rest => ⟨position, .plain c⟩ :: scan (position + 1) rest
termination_by structural chars => chars

/-- The lexemes of characters that stand at `position` in a set with the given members so far, in no
particular order, whose bracket stands at `opened`. -/
def scanSet (opened : Nat) (negated : Bool) (members : List Char) (position : Nat) :
    List Char → List Lexeme
  | [] => [⟨opened, .invalid .unclosedSet⟩]
  | ['\\'] => [⟨opened, .invalid .unclosedSet⟩]
  | ']' :: rest =>
    if members.isEmpty then [⟨opened, .invalid .emptySet⟩]
    else ⟨opened, .single (.set (.ofList negated members))⟩ :: scan (position + 1) rest
  | '\\' :: c :: rest =>
    scanSet opened negated (escapedMembers c ++ members) (position + 2) rest
  | low :: '-' :: high :: rest =>
    if endsItem high then
      scanSet opened negated (low :: members) (position + 1) ('-' :: high :: rest)
    else if low ≤ high then
      scanSet opened negated (Text.interval low high ++ members) (position + 3) rest
    else [⟨position, .invalid (.invalidRange low high)⟩]
  | c :: rest => scanSet opened negated (c :: members) (position + 1) rest
termination_by structural chars => chars

end

end Lexeme

end PatternSearch
