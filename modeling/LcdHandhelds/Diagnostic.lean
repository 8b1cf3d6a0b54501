import LcdHandhelds.Machine.Rom

/-!
What can be wrong with a device's description. An anomaly never stops an extraction: the device is
left out or left incomplete, and the anomaly is reported under the device's name, in the order of
discovery.
-/
namespace LcdHandhelds

inductive Anomaly where
  /-- A bit whose input type is outside the vocabulary. -/
  | unknownAction (token : String)
  /-- A header that names no row, no auxiliary line and no `FAKE` port. -/
  | unknownPort (name : String)
  /-- A bit while no port is open. -/
  | bitWithoutPort (line : String)
  /-- The included device has no input block. -/
  | missingInclude (device : String)
  /-- The included device includes another one, and only one level is merged. -/
  | nestedInclude (device : String)
  /-- Neither the device nor its class has an input block. -/
  | missingInput (className : String)
  /-- The class declares a constructor that is defined nowhere. -/
  | missingConstructor (className : String)
  /-- The constructor does more than call its preset. -/
  | extraConstructorLines
  /-- The first line of the constructor calls no preset. -/
  | malformedConstructor
  | unknownPreset (preset : String)
  | unhandledArgument (argument : String)
  | presetArity (preset : String) (expected actual : Nat)
  | missingRomBlock
  /-- A second file of one kind in one block. -/
  | duplicateRom (kind : RomKind)
  | missingRomName
  /-- A homebrew title for a device that is not in the manifest. -/
  | missingHomebrewBase (base : String)
  deriving DecidableEq, Repr

def Anomaly.message : Anomaly → String
  | unknownAction token => s!"unknown button action {token}"
  | unknownPort name => s!"unknown port {name}"
  | bitWithoutPort line => s!"button without an open port: {line}"
  | missingInclude device => s!"could not find included port {device}"
  | nestedInclude device =>
    s!"included port {device} includes another port; only one level is merged"
  | missingInput className => s!"constructor without an input, in class {className}"
  | missingConstructor className => s!"could not find constructor in class {className}"
  | extraConstructorLines =>
    "may require additional configuration; constructor performs extra actions"
  | malformedConstructor => "could not extract preset call"
  | unknownPreset preset => s!"no matching preset {preset}"
  | unhandledArgument argument => s!"unhandled preset argument {argument}"
  | presetArity preset expected actual =>
    s!"preset {preset} takes {expected} arguments, constructor passes {actual}"
  | missingRomBlock => "could not find ROM block"
  | duplicateRom .melody => "melody ROM is already set"
  | duplicateRom .main => "main ROM is already set"
  | missingRomName => "could not find main ROM"
  | missingHomebrewBase base => s!"homebrew base device {base} is not in the manifest"

/-- An anomaly of one device. -/
structure Diagnostic where
  device : String
  anomaly : Anomaly
  deriving DecidableEq, Repr

def Diagnostic.message (d : Diagnostic) : String :=
  s!"{d.device}: {d.anomaly.message}"

/-- The anomalies reported for one device, in order. -/
def anomaliesOf (device : String) (diagnostics : List Diagnostic) : List Anomaly :=
  (diagnostics.filter (·.device = device)).map (·.anomaly)

end LcdHandhelds
