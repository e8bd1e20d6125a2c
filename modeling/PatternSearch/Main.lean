import PatternSearch.CommandLine

/-!
# The command

Hands arguments and input to `Command`. The input is read only if there is a pattern to look for.
-/

namespace PatternSearch.Command

/-- Reads the input up to the end of its first line, or to its end. -/
partial def readFirstLine (input : IO.FS.Stream) (seen : ByteArray) : IO ByteArray := do
  let chunk ← input.read 4096
  if chunk.isEmpty || chunk.data.contains 10 then
    return seen ++ chunk
  else
    readFirstLine input (seen ++ chunk)

/-- Carries out the command with the standard streams. -/
def perform (arguments : List String) : IO UInt32 := do
  let answer ← match ofArguments arguments with
    | .error e => pure (.error e)
    | .ok r => do
      let input ← readFirstLine (← IO.getStdin) ByteArray.empty
      pure (matchesInput r input)
  let result := result answer
  IO.eprint result.errorText
  return result.exitCode.toUInt32

end PatternSearch.Command

def main (arguments : List String) : IO UInt32 :=
  PatternSearch.Command.perform arguments
