import LookML.Run

/-!
# The command
-/

namespace LookML

/-- Reads an input by its name: standard input for a hyphen, else a file. -/
def readInput (name : String) : IO Input := do
  if name = "-" then
    return .ofBytes (← (← IO.getStdin).readBinToEnd)
  else
    try
      return .ofBytes (← IO.FS.readBinFile name)
    catch e =>
      match e with
      | .noFileOrDirectory .. => return .missing
      | .inappropriateType _ 21 _ => return .directory
      | .inappropriateType .. => return .notDirectory
      | .invalidArgument _ code _ =>
        -- opening a file may give the code with its sign changed
        return if code = 36 || code + 36 = 0 then .nameTooLong else .unreadable (toString e)
      | e => return .unreadable (toString e)

end LookML

/-- Runs the command with the arguments it is given. -/
def main (arguments : List String) : IO UInt32 := do
  let outcome ← (LookML.Arguments.read arguments).answer LookML.readInput
  IO.print outcome.stdout
  IO.eprint outcome.stderr
  return outcome.exit.toUInt32
