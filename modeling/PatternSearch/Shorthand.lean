import PatternSearch.Text.Interval

/-!
# Shorthands

The two classes of characters that a pattern can name by a letter after a backslash. Both are
confined to ASCII. A class is given as a test (`Shorthand.allows`) and as a list
(`Shorthand.members`), and the two agree (`Shorthand.mem_members_iff`).
-/

namespace PatternSearch

open Text (interval)

/-- A class of characters with a name of one letter. -/
inductive Shorthand where
  | digit
  | word
deriving DecidableEq, Repr

namespace Shorthand

/-- The letter that names the class. -/
def letter : Shorthand → Char
  | digit => 'd'
  | word => 'w'

/-- The class that a letter names. -/
def ofLetter? (c : Char) : Option Shorthand :=
  if c = 'd' then some digit else if c = 'w' then some word else none

/-- Digits, and for `word` also letters and the underscore. -/
def allows : Shorthand → Char → Bool
  | digit, c => c.isDigit
  | word, c => c.isAlphanum || c == '_'

/-- The characters of the class. -/
def members : Shorthand → List Char
  | digit => interval '0' '9'
  | word => interval 'a' 'z' ++ interval 'A' 'Z' ++ interval '0' '9' ++ ['_']

@[simp] theorem ofLetter?_letter (s : Shorthand) : ofLetter? s.letter = some s := by
  cases s <;> rfl

theorem ofLetter?_eq_some_iff {c : Char} {s : Shorthand} : ofLetter? c = some s ↔ c = s.letter := by
  constructor
  · intro h
    unfold ofLetter? at h
    grind [letter]
  · rintro rfl
    exact ofLetter?_letter s

theorem mem_members_iff {s : Shorthand} {c : Char} : c ∈ s.members ↔ s.allows c := by
  cases s with
  | digit =>
    have h : allows digit c = (decide (c.val ≥ '0'.val) && decide (c.val ≤ '9'.val)) := rfl
    simp [h, members, Char.le_def]
  | word =>
    have h : allows word c =
        ((decide (c.val ≥ 'A'.val ∧ c.val ≤ 'Z'.val) ||
          (decide (c.val ≥ 'a'.val) && decide (c.val ≤ 'z'.val))) ||
          (decide (c.val ≥ '0'.val) && decide (c.val ≤ '9'.val)) || c == '_') := rfl
    simp [h, members, Char.le_def, or_assoc, or_left_comm]

end Shorthand

end PatternSearch
