import ActorLang.Command.Run
import ActorLang.Settings.File

/-!
# The command line

Reads the files that a command line names and hands their contents to the library.
-/

namespace ActorLang

def readError : IO.Error → ReadError
  | .noFileOrDirectory .. => .notFound
  | .inappropriateType _ code _ => if code == 20 then .notDirectory else .isDirectory
  | .invalidArgument _ 36 _ => .nameTooLong
  | .permissionDenied .. => .denied
  | other => .other other.toString

def readContents (file : String) : IO Contents := do
  try
    return Contents.ofBytes (← IO.FS.readBinFile file)
  catch e =>
    return .error (readError e)

def outcomeOnDisk (request : Request) : IO (Option Outcome) := do
  match request with
  | .run i =>
    let config ← i.config.mapM fun file => do return (file, ← readContents file)
    return Command.run .standard Settings.ofText i config (← readContents i.file)
  | other => return other.outcome .standard Settings.ofText fun _ => .error .notFound

end ActorLang

/-- Runs a command line and exits with its status, or with 101 if it was stopped. -/
def main (args : List String) : IO UInt32 := do
  match ← ActorLang.outcomeOnDisk (ActorLang.Request.ofArguments args) with
  | none => return 101
  | some outcome =>
    IO.print outcome.stdout
    IO.eprint outcome.stderr
    return outcome.code.toUInt32
