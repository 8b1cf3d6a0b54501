import LcdHandhelds.Wiring.Block

/-!
The input blocks of a driver source, and the wiring of each device by name. Two blocks of one name
end the reading; `InputTable.collapse` lays every wiring over the one it includes, one level deep.
-/
namespace LcdHandhelds

open Text

/-- One `INPUT_PORTS_START( name ) ... INPUT_PORTS_END`, the body untrimmed. -/
structure InputBlock where
  name : String
  body : List Char
  deriving DecidableEq, Repr

/-- The block that a call opens. It needs a name and an end, which is the next one in the text. -/
def InputBlock.ofCall? (c : Call) : Option InputBlock := do
  let body ← before? "INPUT_PORTS_END" c.after
  match trim c.args with
  | [] => none
  | name => return ⟨String.ofList name, body⟩

/-- The input blocks in source order. -/
def inputBlocks (source : List Char) : List InputBlock :=
  (calls "INPUT_PORTS_START" source).filterMap InputBlock.ofCall?

/-- The wiring of each device. -/
abbrev InputTable := Table String PortMap

/-- A second block for a device, and what the blocks before it reported. -/
structure DuplicateInput where
  device : String
  reported : List Diagnostic
  deriving DecidableEq, Repr

def DuplicateInput.message (d : DuplicateInput) : String :=
  s!"duplicate input definition for {d.device}"

namespace InputTable

/-- Adds a block to those read so far. -/
def addBlock (read : InputTable × List Diagnostic) (block : InputBlock) :
    Except DuplicateInput (InputTable × List Diagnostic) :=
  if read.1.contains block.name then .error ⟨block.name, read.2⟩
  else
    let parsed := Block.ofBody block.body
    .ok (read.1.insert block.name parsed.toPortMap, read.2 ++ parsed.diagnostics block.name)

def ofBlocks (blocks : List InputBlock) : Except DuplicateInput (InputTable × List Diagnostic) :=
  blocks.foldlM addBlock (∅, [])

/-- The wirings as written in the source, and the anomalies of their blocks. -/
def ofSource (source : List Char) : Except DuplicateInput (InputTable × List Diagnostic) :=
  ofBlocks (inputBlocks source)

/-- A wiring laid over the one it includes, if the table has it. -/
def resolve (raw : InputTable) (m : PortMap) : PortMap :=
  match m.inherits.bind raw.get? with
  | none => m
  | some base => { m with ports := layer m.ports base.ports }

/-- Lays every wiring over the uncollapsed wiring it includes. -/
def collapse (raw : InputTable) : InputTable :=
  raw.mapValues fun _ m => raw.resolve m

/-- What is wrong with the inclusion of one wiring. -/
def inclusionAnomaly? (raw : InputTable) (m : PortMap) : Option Anomaly :=
  m.inherits.bind fun device =>
    match raw.get? device with
    | none => some (.missingInclude device)
    | some base => if base.inherits.isSome then some (.nestedInclude device) else none

/-- The anomalies of a collapse, by device. -/
def inclusionDiagnostics (raw : InputTable) : List Diagnostic :=
  raw.entries.filterMap fun e => (raw.inclusionAnomaly? e.2).map (⟨e.1, ·⟩)

end InputTable

end LcdHandhelds
