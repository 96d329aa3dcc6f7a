import FormulaFold.Command.Run
import Std.Time

/-! # The command line

Reads the files that a call may look at, carries the call out and prints what it leaves
behind.
-/
namespace FormulaFold

/-- What stands under a path. -/
def readEntry (path : String) : IO (Option FileEntry) := do
  try
    return some (.file (← IO.FS.readFile path))
  catch
    | .noFileOrDirectory .. => return none
    | .inappropriateType _ _ "not a directory" => return some (.blocked .noDirectory)
    | .invalidArgument _ _ "name too long" => return some (.blocked .nameTooLong)
    | .invalidArgument .. => return some (.blocked .invalidName)
    | _ => return some .directory

/-- The present moment: days are counted from the end of 1899. -/
def presentMoment : IO Moment := do
  let now ← Std.Time.Timestamp.now
  let seconds := Float.ofInt now.toNanosecondsSinceUnixEpoch.val / 1000000000.0
  let unit : Nat := Nat.pow 2 53
  let random ← IO.rand 0 (unit - 1)
  return ⟨25569.0 + seconds / 86400.0, Float.ofNat random / Float.ofNat unit⟩

end FormulaFold

open FormulaFold in
/-- Carry out the call that the arguments make. -/
def main (args : List String) : IO UInt32 := do
  let workingDir := (← IO.currentDir).toString
  let noColor ← IO.getEnv "NO_COLOR"
  let defaults : Flags := { plain := noColor.getD "" ≠ "" }
  let paths := match Call.ofArguments defaults args with
    | .ok call => call.reads workingDir
    | .error _ => []
  let entries ← paths.mapM fun path => do return (path, ← readEntry path)
  let files : Files := ⟨fun path => (entries.lookup path).join⟩
  let transcript := runCommand files workingDir (← presentMoment) defaults args
  (← IO.getStdout).putStr transcript.output
  (← IO.getStderr).putStr transcript.errorOutput
  return if transcript.error.isSome then 1 else 0
