import LcdHandhelds.Command.Arguments
import LcdHandhelds.Command.Settings
import LcdHandhelds.Manifest.Json

/-!
One run of the program: settings, then the source, then extraction and homebrew titles, and at the
end the one file that is written. The file system is a parameter, so that a run is the same function
over real files and over a modelled disk. A run that fails has written nothing. One that searches a
constructor for an empty marker never ends, and writes nothing either.
-/
namespace LcdHandhelds

/-- What a run needs of a file system. -/
structure FileAccess (m : Type → Type) where
  /-- The text of a file; none if it is missing or no UTF-8. -/
  readText : (path : String) → m (Option String)
  /-- The path of the user's own settings, if that file exists. -/
  userSettings : m (Option String)
  /-- Replaces a file, and says whether that went well. -/
  writeText : (path text : String) → m Bool

inductive RunError where
  | unreadableSettings (path : String)
  | invalidSettings (path : String)
  | unreadableSource (path : String)
  | duplicateInput (path : String) (duplicate : DuplicateInput)
  | unwritable (path : String)
  deriving DecidableEq, Repr

def RunError.message : RunError → String
  | unreadableSettings path => s!"failed to read config {path}"
  | invalidSettings path => s!"invalid config {path}"
  | unreadableSource path => s!"failed to read driver source {path}"
  | duplicateInput path duplicate => s!"extraction of {path} aborted: {duplicate.message}"
  | unwritable path => s!"failed to write {path}"

inductive LogLine where
  | warning (diagnostic : Diagnostic)
  | wrote (path : String) (devices diagnostics : Nat)
  deriving DecidableEq, Repr

def LogLine.message : LogLine → String
  | warning d => s!"WARN {d.message}"
  | wrote path devices diagnostics =>
    s!"INFO wrote {path} devices={devices} diagnostics={diagnostics}"

/-- How a run ends: with the manifest written, with an error, or not at all. -/
inductive Ending where
  | written
  | failed (error : RunError)
  | endless
  deriving DecidableEq, Repr

/-- What a run logged, and how it ended. -/
structure Outcome where
  log : List LogLine
  ending : Ending
  deriving DecidableEq, Repr

namespace Outcome

def failed (error : RunError) : Outcome := ⟨[], .failed error⟩

def endless : Outcome := ⟨[], .endless⟩

/-- Why a run failed, if it did. -/
def error (o : Outcome) : Option RunError :=
  match o.ending with
  | .failed error => some error
  | _ => none

end Outcome

namespace Settings

/-- The settings in a file. -/
def read {m : Type → Type} [Monad m] (files : FileAccess m) (path : String) :
    m (Except RunError Settings) := do
  match ← files.readText path with
  | none => return .error (.unreadableSettings path)
  | some text =>
    match parse? text with
    | some settings => return .ok settings
    | none => return .error (.invalidSettings path)

/-- The settings in the given file, else those of the user, else the defaults. -/
def load {m : Type → Type} [Monad m] (files : FileAccess m) (given : Option String) :
    m (Except RunError Settings) := do
  match given with
  | some path => read files path
  | none =>
    match ← files.userSettings with
    | some path => read files path
    | none => return .ok {}

end Settings

/--
The manifest of a source with the titles of the settings, and all that was reported; nothing if the
extraction never ends.
-/
def Settings.extract? (s : Settings) (source : String) :
    Option (Except DuplicateInput Extraction) :=
  (LcdHandhelds.extract? s.marker source.toList).map (·.map (·.overlay s.titles))

/-- Writes the manifest and logs the diagnostics, unless the run is quiet, and the success. -/
def publish {m : Type → Type} [Monad m] (files : FileAccess m) (quiet : Bool) (output : String)
    (e : Extraction) : m Outcome := do
  let warnings := if quiet then [] else e.diagnostics.map .warning
  if ← files.writeText output (Manifest.toText e.manifest) then
    return ⟨warnings ++ [.wrote output e.manifest.size e.diagnostics.length], .written⟩
  else return ⟨warnings, .failed (.unwritable output)⟩

def run {m : Type → Type} [Monad m] (files : FileAccess m) (args : Arguments) : m Outcome := do
  match ← Settings.load files args.config with
  | .error error => return .failed error
  | .ok settings =>
    match ← files.readText args.source with
    | none => return .failed (.unreadableSource args.source)
    | some source =>
      match settings.extract? source with
      | none => return .endless
      | some (.error duplicate) => return .failed (.duplicateInput args.source duplicate)
      | some (.ok e) => publish files args.quiet (args.output.getD settings.output) e

end LcdHandhelds
