import LcdHandhelds.Machine.DriverClass
import LcdHandhelds.Machine.Ownership
import LcdHandhelds.Machine.Preset
import LcdHandhelds.Machine.RomBlock
import LcdHandhelds.Manifest.Profile
import LcdHandhelds.Wiring.Grounding
import LcdHandhelds.Wiring.InputTable

/-!
Extraction of the manifest from a driver source. Every constructor that a driver class declares
becomes a candidate or is dropped with a diagnostic; ownership of shared ROMs is settled among the
candidates, and each candidate then puts its profile into the manifest.
-/
namespace LcdHandhelds

/-- What is read of a source before its classes are visited. -/
structure Survey where
  source : List Char
  marker : String
  systems : Table String SystemEntry
  inputs : InputTable
  roms : Table String RomBlock

/-- The survey of a source whose input blocks have been read into `raw`. -/
def Survey.ofSource (marker : String) (source : List Char) (raw : InputTable) : Survey where
  source := source
  marker := marker
  systems := SystemEntry.scan source
  inputs := raw.collapse
  roms := RomBlock.index source

/-- A constructor that a class declares. -/
structure Declaration where
  className : String
  stem : String
  device : String
  deriving DecidableEq, Repr

/-- The declarations of a source, class by class. -/
def declarations (source : List Char) : List Declaration :=
  (DriverClass.scan source).flatMap fun c => c.devices.map (⟨c.name, c.stem, ·⟩)

/-- A device with all that its profile needs but the owner of its ROM. -/
structure Candidate where
  device : String
  hardware : Hardware
  portMap : PortMap
  system : Option SystemEntry
  identity : RomIdentity
  position : Nat

namespace Candidate

def hasParent (c : Candidate) : Bool :=
  c.system.any (·.parent.isSome)

def toOwnerCandidate (c : Candidate) : OwnerCandidate :=
  ⟨c.device, c.identity.main.sha1, c.hasParent, c.position⟩

def toProfile (c : Candidate) (owner : Option String) : Profile where
  hardware := c.hardware
  portMap := c.portMap
  release := c.system.map (·.release)
  rom := ⟨c.identity.main.name, c.identity.melody.map (·.name), c.identity.main.sha1, owner⟩

end Candidate

/-- What a declaration comes to: notes that drop nothing, and a candidate or why there is none. -/
structure Visit where
  notes : List Anomaly
  outcome : Except Anomaly Candidate

def Visit.anomalies (v : Visit) : List Anomaly :=
  v.notes ++
    match v.outcome with
    | .ok _ => []
    | .error reason => [reason]

namespace Survey

/-- The wiring of a declaration: that of its device, else the one under its class's stem. -/
def portMap? (s : Survey) (d : Declaration) : Option PortMap :=
  (s.inputs.get? d.device).or (s.inputs.get? d.stem)

/-- The candidate that a constructor's body gives, or the reason why the declaration is dropped. -/
def candidate (s : Survey) (d : Declaration) (body : List Char) : Except Anomaly Candidate := do
  let hardware ← Hardware.ofConstructor body
  let (block, identity) ← romOf s.roms d.device
  return {
    device := d.device
    hardware
    portMap := ((s.portMap? d).getD default).ground (marks s.marker body)
    system := s.systems.get? d.device
    identity
    position := block.position }

/-- A device without inputs of its own or its class is reported and keeps an empty wiring. -/
def inputNotes (s : Survey) (d : Declaration) : List Anomaly :=
  if (s.portMap? d).isSome then [] else [.missingInput d.className]

def visit (s : Survey) (d : Declaration) : Visit :=
  match constructorBody? s.source d.className d.device with
  | none => ⟨s.inputNotes d, .error (.missingConstructor d.className)⟩
  | some body => ⟨s.inputNotes d ++ lineNotes body, s.candidate d body⟩

/-- The visits of all declarations, each with its device. -/
def visits (s : Survey) : List (String × Visit) :=
  (declarations s.source).map fun d => (d.device, s.visit d)

/-- The candidates among the declarations, in their order. -/
def candidates (s : Survey) : List Candidate :=
  s.visits.filterMap (·.2.outcome.toOption)

def diagnostics (s : Survey) : List Diagnostic :=
  s.visits.flatMap fun v => v.2.anomalies.map (⟨v.1, ·⟩)

end Survey

/--
Puts a profile into the manifest. An owner is handed out once: of two candidates for one device the
first takes it, and the profile of the second replaces that of the first.
-/
def Manifest.addCandidate (built : Manifest × Table String String) (c : Candidate) :
    Manifest × Table String String :=
  (built.1.insert c.device (c.toProfile (built.2.get? c.device)), built.2.erase c.device)

def Manifest.ofCandidates (candidates : List Candidate) : Manifest :=
  (candidates.foldl addCandidate
    (∅, romOwners (candidates.map Candidate.toOwnerCandidate))).1

/-- A manifest, and what was reported while it was made. -/
structure Extraction where
  manifest : Manifest
  diagnostics : List Diagnostic

/--
The manifest of a source. Only a repeated input block stands in its way, once every search for the
marker has come to an end; where one does not, `extract?` gives none.
-/
def extract (marker : String) (source : List Char) : Except DuplicateInput Extraction := do
  let (raw, reported) ← InputTable.ofSource source
  let survey := Survey.ofSource marker source raw
  return {
    manifest := Manifest.ofCandidates survey.candidates
    diagnostics := reported ++ raw.inclusionDiagnostics ++ survey.diagnostics }

/-- The bodies in which the marker is searched: those of the constructors that set up hardware. -/
def searchedBodies (source : List Char) : List (List Char) :=
  (declarations source).filterMap fun d =>
    (constructorBody? source d.className d.device).filter fun body =>
      (Hardware.ofConstructor body).isOk

/-- Whether extraction comes to an end. A repeated input block ends it before any search. -/
def extractionEnds (marker : String) (source : List Char) : Bool :=
  !(InputTable.ofSource source).isOk || (searchedBodies source).all (searchEnds marker)

/-- The manifest of a source, or why there is none; nothing if a search for the marker never ends. -/
def extract? (marker : String) (source : List Char) : Option (Except DuplicateInput Extraction) :=
  if extractionEnds marker source then some (extract marker source) else none

end LcdHandhelds
