import PatternSearch.Text.Graphic

/-!
# Displayed characters

How a character is spelled in a listing or a message: some controls and the backslash have a
two-letter form, the quotes of the context are escaped, other characters that are not graphic are
written by code point, and all else stands for itself.
-/

namespace PatternSearch.Text

def singleQuote : Char := '\x27'

def doubleQuote : Char := '\x22'

/-- The spelling of `c` in a context where the characters of `quotes` have to be escaped. -/
def escape (quotes : List Char) (c : Char) : List Char :=
  match c with
  | '\x00' => ['\\', '0']
  | '\t' => ['\\', 't']
  | '\n' => ['\\', 'n']
  | '\r' => ['\\', 'r']
  | '\\' => ['\\', '\\']
  | c =>
    if c ∈ quotes then ['\\', c]
    else if isGraphic c then [c]
    else '\\' :: 'u' :: '\x7b' :: (Nat.toDigits 16 c.toNat ++ ['\x7d'])

/-- A character on its own, between single quotes. -/
def quotedChar (c : Char) : List Char :=
  singleQuote :: (escape [singleQuote] c ++ [singleQuote])

/-- A character among others, where neither kind of quote stands bare. -/
def bareChar (c : Char) : List Char :=
  escape [singleQuote, doubleQuote] c

/-- A text between double quotes. -/
def quoted (s : String) : String :=
  String.ofList (doubleQuote :: (s.toList.flatMap (escape [doubleQuote]) ++ [doubleQuote]))

end PatternSearch.Text
