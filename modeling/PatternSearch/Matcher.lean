import PatternSearch.Captures
import PatternSearch.CharSet
import PatternSearch.Shorthand
import PatternSearch.Text.Escape

/-!
# Matchers

A matcher says which characters may stand at some place of a text. All but one take a single
character and look at nothing else (`Matcher.allows`); a backreference takes a copy of what its
group captured, which may be empty, but like the others it takes nothing at the end of the text
(`Matcher.consume`).
-/

namespace PatternSearch

/-- What a step through a text may pass over. Groups count from 0. -/
inductive Matcher where
  | literal (c : Char)
  | shorthand (s : Shorthand)
  | any
  | set (s : CharSet)
  | backref (group : Nat)
deriving DecidableEq, Repr

namespace Matcher

/-- Whether a matcher of single characters takes `c`. -/
def allows : Matcher → Char → Bool
  | literal a, c => c == a
  | shorthand s, c => s.allows c
  | any, _ => true
  | set s, c => s.allows c
  | backref _, _ => false

/-- How many characters of `text` from `offset` on the matcher takes, if it takes any. -/
def consume (matcher : Matcher) (text : Array Char) (offset : Nat) (captures : Captures) :
    Option Nat :=
  match text[offset]? with
  | none => none
  | some c =>
    match matcher with
    | backref group =>
      match captures.span? group with
      | none => none
      | some span =>
        let copy := span.slice text
        if text.extract offset (offset + copy.size) = copy then some copy.size else none
    | single => if single.allows c then some 1 else none

/-- The spelling of a matcher in a listing. Groups count from 1 there. -/
def display : Matcher → String
  | literal c => String.ofList (Text.quotedChar c)
  | shorthand s => String.ofList ['\\', s.letter]
  | any => "."
  | set s =>
    let opening := if s.negated then "[^" else "["
    opening ++ String.ofList (s.members.toList.flatMap Text.bareChar) ++ "]"
  | backref group => "\\" ++ (group + 1).repr

/-- A matcher takes nothing at the end of the text or past it. -/
theorem consume_eq_none {matcher : Matcher} {text : Array Char} {offset : Nat}
    {captures : Captures} (h : text.size ≤ offset) :
    matcher.consume text offset captures = none := by
  simp [consume, Array.getElem?_eq_none h]

/-- What a matcher takes lies within the text. -/
theorem consume_le {matcher : Matcher} {text : Array Char} {offset n : Nat} {captures : Captures}
    (h : matcher.consume text offset captures = some n) :
    offset < text.size ∧ offset + n ≤ text.size := by
  have hlt : offset < text.size := by
    rcases Nat.lt_or_ge offset text.size with hlt | hge
    · exact hlt
    · simp [consume_eq_none hge] at h
  refine ⟨hlt, ?_⟩
  simp only [consume, Array.getElem?_eq_getElem hlt] at h
  split at h
  · split at h
    · simp at h
    · next span _ =>
      split at h
      · next hcopy =>
        have hsize := congrArg Array.size hcopy
        simp only [Array.size_extract] at hsize
        simp only [Option.some.injEq] at h
        omega
      · simp at h
  · split at h
    · simp only [Option.some.injEq] at h
      omega
    · simp at h

end Matcher

end PatternSearch
