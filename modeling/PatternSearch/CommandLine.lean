import PatternSearch.Regex

/-!
# The command line

The command takes `-E` and a pattern as its arguments, and searches the first line of its input.
What it finds shows in the exit code: 0 for a match, 1 for none, 2 for a command that could not be
carried out, which is then explained. The pattern is judged before any input is looked at.
-/

namespace PatternSearch

/-- Why a command could not be carried out. -/
inductive CommandError where
  | missingOption
  | missingPattern
  | invalidPattern (source : String) (r : Rejection)
  | unreadableInput
deriving DecidableEq, Repr

namespace CommandError

/-- How the command is called. -/
def usage : String :=
  "usage: echo <input_text> | backtrack-grep -E <pattern>"

/-- The wording of an error. -/
def message : CommandError → String
  | missingOption => "expected first argument to be '-E'\n" ++ usage
  | missingPattern => "missing pattern\n" ++ usage
  | invalidPattern source r => "invalid pattern " ++ Text.quoted source ++ ": " ++ r.message
  | unreadableInput => "failed to read input line: stream did not contain valid UTF-8"

end CommandError

/-- What a command leaves behind. -/
structure CommandResult where
  exitCode : UInt8
  errorText : String
deriving DecidableEq, Repr

namespace Command

/-- The pattern that the arguments ask for. Arguments after it are ignored. -/
def ofArguments : List String → Except CommandError Regex
  | "-E" :: source :: _ => (Regex.compile source).mapError (.invalidPattern source)
  | ["-E"] => .error .missingPattern
  | _ => .error .missingOption

/-- The first line of the input, without the characters that end it. -/
def firstLine (input : ByteArray) : Except CommandError String :=
  let bytes := input.data.takeWhile (· != 10)
  match String.fromUTF8? ⟨bytes⟩ with
  | none => .error .unreadableInput
  | some line =>
    let isEnd (c : Char) : Bool := c == '\n' || c == '\r'
    .ok (String.ofList (line.toList.reverse.dropWhile isEnd).reverse)

/-- Whether the first line of the input has a match. -/
def matchesInput (r : Regex) (input : ByteArray) : Except CommandError Bool :=
  (firstLine input).map r.isMatch

/-- What an answer, or the lack of one, leaves behind. -/
def result : Except CommandError Bool → CommandResult
  | .ok true => ⟨0, ""⟩
  | .ok false => ⟨1, ""⟩
  | .error e => ⟨2, "error: " ++ e.message ++ "\n"⟩

/-- Carries out a command. -/
def run (arguments : List String) (input : ByteArray) : CommandResult :=
  result (ofArguments arguments >>= (matchesInput · input))

end Command

end PatternSearch
