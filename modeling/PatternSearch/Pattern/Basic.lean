import PatternSearch.Matcher
import PatternSearch.Pattern.Anchor

/-!
# Patterns

The tree that a written pattern stands for. A `Term` matches one thing, a `Branch` is a row of terms
to be matched one after the other, and a `Choice` is a row of branches of which one is to be
matched, the earlier the better. A branch may be empty; a choice has at least one branch.
-/

namespace PatternSearch

/-- How often the term before it may be repeated. -/
inductive Quantifier where
  | optional
  | plus
  | star
deriving DecidableEq, Repr

namespace Quantifier

/-- The character that writes a quantifier. -/
def symbol : Quantifier → Char
  | optional => '?'
  | plus => '+'
  | star => '*'

/-- The quantifier that a character writes. -/
def ofSymbol? (c : Char) : Option Quantifier :=
  if c = '?' then some optional
  else if c = '+' then some plus
  else if c = '*' then some star
  else none

@[simp] theorem ofSymbol?_symbol (q : Quantifier) : ofSymbol? q.symbol = some q := by
  cases q <;> rfl

theorem ofSymbol?_eq_some_iff {c : Char} {q : Quantifier} :
    ofSymbol? c = some q ↔ c = q.symbol := by
  constructor
  · intro h
    unfold ofSymbol? at h
    grind [Quantifier.symbol]
  · rintro rfl
    exact ofSymbol?_symbol q

end Quantifier

mutual

/-- One thing to match. Groups are numbered from 0 by their opening parentheses. -/
inductive Term where
  | atom (m : Matcher)
  | group (index : Nat) (body : Choice)
  | quantified (q : Quantifier) (t : Term)

/-- Terms to be matched one after the other. -/
inductive Branch where
  | nil
  | cons (t : Term) (rest : Branch)

/-- Branches of which one is to be matched. -/
inductive Choice where
  | only (b : Branch)
  | or (b : Branch) (rest : Choice)

end

deriving instance DecidableEq, Repr for Term, Branch, Choice

namespace Branch

/-- The terms of a branch, in order. -/
def terms : Branch → List Term
  | nil => []
  | cons t rest => t :: rest.terms

/-- The branch with the given terms. -/
def ofList : List Term → Branch
  | [] => nil
  | t :: rest => cons t (ofList rest)

@[simp] theorem terms_ofList (l : List Term) : (ofList l).terms = l := by
  induction l with
  | nil => rfl
  | cons t l ih => simp [ofList, terms, ih]

end Branch

namespace Choice

/-- The branches of a choice, the preferred ones first. -/
def branches : Choice → List Branch
  | only b => [b]
  | or b rest => b :: rest.branches

/-- The choice of `last` after the branches of a list. -/
def ofList (earlier : List Branch) (last : Branch) : Choice :=
  earlier.foldr or (only last)

@[simp] theorem branches_ofList (earlier : List Branch) (last : Branch) :
    (ofList earlier last).branches = earlier ++ [last] := by
  induction earlier with
  | nil => rfl
  | cons b l ih => simpa [ofList, branches] using ih

theorem branches_ne_nil (c : Choice) : c.branches ≠ [] := by
  cases c <;> simp [branches]

end Choice

/-- A pattern that has been read. -/
structure Pattern where
  anchor : Anchor
  body : Choice
  groupCount : Nat
deriving DecidableEq, Repr

end PatternSearch
