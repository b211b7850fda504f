import NodeFormula.CommandLine

/-!
# The program

Runs the command on the files of the disk.
-/

namespace NodeFormula

/-- The cause of a failed file operation. Codes come with either sign. -/
def FileError.ofDisk : IO.Error → FileError
  | .noFileOrDirectory .. => .missing
  | .inappropriateType _ code _ => if code = 20 ∨ -code = 20 then .notFolder else .isFolder
  | .permissionDenied _ code details => .other s!"{details} (os error {code})"
  | e => .other (toString e)

/-- Run a file operation that gives bytes, and read them as text. -/
def readText (action : IO ByteArray) : IO (Except FileError String) := do
  try
    match String.fromUTF8? (← action) with
    | some text => return .ok text
    | none => return .error .notText
  catch e => return .error (.ofDisk e)

/-- Reach the files of the disk. -/
def disk : Files IO where
  standardInput := do readText ((← IO.getStdin).readBinToEnd)
  read path := readText (IO.FS.readBinFile path)
  write path text := do
    try
      IO.FS.writeFile path text
      return .ok ()
    catch e => return .error (.ofDisk e)

end NodeFormula

/-- Compile a formula as the arguments say. -/
def main (arguments : List String) : IO UInt32 := do
  let tree ← IO.getEnv "MATHFORMULA_TREE"
  let outcome ← NodeFormula.CommandLine.run NodeFormula.disk arguments tree
  let stdout ← IO.getStdout
  stdout.putStr outcome.stdout
  stdout.flush
  (← IO.getStderr).putStr outcome.stderr
  return outcome.exit.toUInt32
