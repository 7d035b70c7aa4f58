import BehaviorTree.CommandLine.Execute

/-!
# The program

Reads the files that a command needs, prints what it says and writes what it gives. Exits with one
if the command fails and with two if the arguments make no sense.
-/

open BehaviorTree CommandLine

/-- The paths that a request reads. -/
def requestPaths : Request → List String
  | .validate document => [document]
  | .run document _ config _ => document :: config.toList
  | .convert input _ _ => [input]

/-- The contents of a file, if it can be read. -/
def readFile? (path : String) : IO (Option (List UInt8)) := do
  try
    return some (← IO.FS.readBinFile path).data.toList
  catch _ => return none

/-- Prints and writes what a command gives. -/
def present (outcome : Outcome) : IO UInt32 := do
  if let some (path, bytes) := outcome.written then
    try
      IO.FS.writeBinFile path ⟨bytes.toArray⟩
    catch _ =>
      IO.eprintln s!"Error: {(CommandError.unwritable path).message}"
      return 1
  outcome.lines.forM fun line => IO.println line
  return 0

def main (arguments : List String) : IO UInt32 := do
  match Request.ofArguments? arguments with
  | none =>
    IO.eprintln "usage: validate FILE | run FILE [-t N] [-c FILE] [-s N] | convert FILE FILE [-b]"
    return 2
  | some request =>
    let contents ← (requestPaths request).mapM fun path => return (path, ← readFile? path)
    let files : Files := fun path => (contents.lookup path).join
    match execute files (← IO.rand 0 0xffffffffffffffff) request with
    | .ok outcome => present outcome
    | .error e =>
      IO.eprintln s!"Error: {e.message}"
      return 1
