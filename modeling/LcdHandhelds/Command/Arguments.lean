/-!
The arguments of the command line: one source file, the options `--config` and `--output` (`-o`),
and the flags `--quiet` (`-q`) and `--help` (`-h`). Arguments are read from left to right. A value is
looked at only when the next known argument takes effect, so an unknown argument right after a
faulty value is the fault that is reported.
-/
namespace LcdHandhelds

structure Arguments where
  source : String
  config : Option String := none
  output : Option String := none
  quiet : Bool := false
  deriving DecidableEq, Repr

/-- Why a list of arguments is rejected, or that help was asked for. -/
inductive ArgumentError where
  | unknownArgument
  /-- An option without a value, or an empty value. -/
  | invalidValue
  /-- An option or a flag given twice. -/
  | argumentConflict
  /-- A value given to a flag. -/
  | tooManyValues
  | missingSource
  | helpRequested
  deriving DecidableEq, Repr

namespace Arguments

/-- What takes a value. -/
inductive Target where
  | source | config | output
  deriving DecidableEq, Repr

/-- The last value that was read, or that still has to come, and what takes it. -/
structure Pending where
  target : Target
  value : Option String
  deriving DecidableEq, Repr

/-- The arguments read so far. `ended` says that options are no longer recognised. -/
structure Reading where
  source : Option String := none
  config : Option String := none
  output : Option String := none
  quiet : Bool := false
  pending : Option Pending := none
  sourceSeen : Bool := false
  ended : Bool := false
  deriving DecidableEq, Repr

namespace Reading

/-- Gives a target its value, once. -/
def assign (r : Reading) (target : Target) (value : String) : Except ArgumentError Reading :=
  match target with
  | .source => if value = "" then .error .invalidValue else .ok { r with source := some value }
  | .config =>
    if r.config.isSome then .error .argumentConflict
    else if value = "" then .error .invalidValue
    else .ok { r with config := some value }
  | .output =>
    if r.output.isSome then .error .argumentConflict
    else if value = "" then .error .invalidValue
    else .ok { r with output := some value }

/-- Lets the pending value take effect. -/
def settle (r : Reading) : Except ArgumentError Reading :=
  match r.pending with
  | none => .ok r
  | some ⟨_, none⟩ => .error .invalidValue
  | some ⟨target, some value⟩ => { r with pending := none }.assign target value

/-- An option with its value attached, or to come as the next argument. -/
def option (r : Reading) (target : Target) (attached : Option String) :
    Except ArgumentError Reading := do
  let r ← r.settle
  match attached with
  | some value => r.assign target value
  | none => return { r with pending := some ⟨target, none⟩ }

def setQuiet (r : Reading) : Except ArgumentError Reading := do
  let r ← r.settle
  if r.quiet then .error .argumentConflict else return { r with quiet := true }

def help (r : Reading) : Except ArgumentError Reading := do
  let _ ← r.settle
  .error .helpRequested

/-- A flag takes no value, not even an empty one. -/
def flag (r : Reading) (attached : Option String) (act : Reading → Except ArgumentError Reading) :
    Except ArgumentError Reading :=
  if attached.isSome then .error .tooManyValues else act r

/-- The name of a long argument, and what follows its first equals sign. -/
def splitLong (text : List Char) : List Char × Option String :=
  match text.dropWhile (· != '=') with
  | [] => (text, none)
  | _ :: value => (text.takeWhile (· != '='), some (String.ofList value))

/-- An argument after two dashes. -/
def long (r : Reading) (text : List Char) : Except ArgumentError Reading :=
  let (name, attached) := splitLong text
  if name = "config".toList then r.option .config attached
  else if name = "output".toList then r.option .output attached
  else if name = "quiet".toList then r.flag attached setQuiet
  else if name = "help".toList then r.flag attached help
  else .error .unknownArgument

/-- The value attached to a short option; an equals sign before it does not count. -/
def attachedValue : List Char → Option String
  | [] => none
  | '=' :: value => some (String.ofList value)
  | value => some (String.ofList value)

/-- The letters after one dash: flags, and an option that takes the rest as its value. -/
def short (r : Reading) : List Char → Except ArgumentError Reading
  | [] => .ok r
  | 'q' :: rest => do short (← r.setQuiet) rest
  | 'h' :: _ => r.help
  | 'o' :: rest => r.option .output (attachedValue rest)
  | _ => .error .unknownArgument

/-- The one argument without a name. -/
def positional (r : Reading) (text : String) : Except ArgumentError Reading :=
  if r.sourceSeen then .error .unknownArgument
  else do
    let r ← r.settle
    return { r with pending := some ⟨.source, some text⟩, sourceSeen := true }

/-- An argument that starts with no dash, or is a single one: the value that is due, or the source. -/
def plain (r : Reading) (text : String) : Except ArgumentError Reading :=
  match r.pending with
  | some ⟨target, none⟩ => .ok { r with pending := some ⟨target, some text⟩ }
  | _ => r.positional text

/-- Reads one argument. -/
def add (r : Reading) (text : String) : Except ArgumentError Reading :=
  if r.ended then r.positional text
  else
    match text.toList with
    | ['-', '-'] => .ok { r with ended := true }
    | '-' :: '-' :: rest => r.long rest
    | '-' :: c :: rest => r.short (c :: rest)
    | _ => r.plain text

def finish (r : Reading) : Except ArgumentError Arguments := do
  let r ← r.settle
  match r.source with
  | some source => return ⟨source, r.config, r.output, r.quiet⟩
  | none => .error .missingSource

end Reading

/-- The arguments that a list of words spells, without the name of the program. -/
def ofWords (words : List String) : Except ArgumentError Arguments := do
  (← words.foldlM Reading.add {}).finish

end Arguments

end LcdHandhelds
