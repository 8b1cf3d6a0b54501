import LcdHandhelds.Command.Run

/-!
The program itself: it reads and writes real files, prints the log to standard error, and says by
its exit code whether the manifest was written. Where a run never ends, the program does not either.
-/
namespace LcdHandhelds

/-- The directory of the user's settings. -/
def settingsDirectory : IO (Option String) := do
  match ← IO.getEnv "XDG_CONFIG_HOME" with
  | some dir =>
    if dir.startsWith "/" then return some dir else homeSettings
  | none => homeSettings
where
  homeSettings : IO (Option String) := do
    return (← IO.getEnv "HOME").map (· ++ "/.config")

def settingsPath : IO (Option String) := do
  return (← settingsDirectory).map (· ++ "/handheld-manifest/config.toml")

/-- The text of a file, if it can be read. -/
def readFile? (path : String) : IO (Option String) := do
  try return some (← IO.FS.readFile path) catch _ => return none

/-- Whether there is a file at a path, readable or not. -/
def isFile (path : String) : IO Bool := do
  try
    let _ ← IO.FS.readBinFile path
    return true
  catch
    | .noFileOrDirectory .. => return false
    | .inappropriateType .. => return false
    | _ => return true

def diskAccess : FileAccess IO where
  readText := readFile?
  userSettings := do
    match ← settingsPath with
    | some path => if ← isFile path then return some path else return none
    | none => return none
  writeText path text := do
    try IO.FS.writeFile path text; return true catch _ => return false

def usage : String :=
  "Usage: handheld-manifest [--config PATH] [-o|--output PATH] [-q|--quiet] SOURCE"

def ArgumentError.message : ArgumentError → String
  | unknownArgument => "unexpected argument"
  | invalidValue => "a value is missing or empty"
  | argumentConflict => "an argument is given twice"
  | tooManyValues => "a flag takes no value"
  | missingSource => "the driver source file is missing"
  | helpRequested => usage

end LcdHandhelds

open LcdHandhelds

def main (words : List String) : IO UInt32 := do
  match Arguments.ofWords words with
  | .error .helpRequested =>
    IO.println usage
    return 0
  | .error error =>
    IO.eprintln s!"error: {error.message}"
    IO.eprintln usage
    return 2
  | .ok args =>
    let outcome ← run diskAccess args
    for line in outcome.log do
      IO.eprintln line.message
    match outcome.ending with
    | .written => return 0
    | .failed error =>
      IO.eprintln s!"Error: {error.message}"
      return 1
    | .endless =>
      repeat IO.sleep 1000
      return 1
