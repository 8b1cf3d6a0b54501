import LcdHandhelds.Diagnostic
import LcdHandhelds.Wiring.PortMap
import LcdHandhelds.Wiring.Statement

/-!
Reading the body of an input block line by line. A header opens the port of its key, anew or again,
and closes the one before it; bits overwrite the slots of the open port, settings fill them.
-/
namespace LcdHandhelds

open Text

/-- What has been read of a block: the open port, the closed ones, and the anomalies in order. -/
structure Block where
  opened : Option Port := none
  closed : List Port := []
  inherits : Option String := none
  anomalies : List Anomaly := []

namespace Block

def empty : Block := {}

def report (b : Block) (a : Anomaly) : Block :=
  { b with anomalies := b.anomalies ++ [a] }

/-- Puts the open port behind the closed ones. -/
def close (b : Block) : Block :=
  { b with opened := none, closed := b.closed ++ b.opened.toList }

/-- Opens the port of a key. A port that was closed before is taken back with all its switches. -/
def reopen (b : Block) (key : PortKey) : Block :=
  { b with
    opened := some ((b.closed.find? (·.key = key)).getD (Port.empty key))
    closed := b.closed.eraseP (·.key = key) }

/-- Opens the port that a header names. A fake or unknown name only closes the one before it. -/
def header (b : Block) (name : String) : Block :=
  match PortName.ofText name with
  | .known key => b.close.reopen key
  | .fake => b.close
  | .unknown => b.close.report (.unknownPort name)

/-- An unknown token is reported first, with or without an open port. -/
def bit (b : Block) (mask : UInt32) (activeHigh : Bool) (token : String) (name : Option String)
    (line : List Char) : Block :=
  match Action.ofToken? token with
  | none => b.report (.unknownAction token)
  | some action =>
    match b.opened with
    | none => b.report (.bitWithoutPort (String.ofList (trim line)))
    | some port =>
      { b with opened := some (port.setSlot (slotOfMask mask) ⟨action, !activeHigh, name⟩) }

/-- Whether the placeholder of a setting is active low: on a line, when it is the line's bit. -/
def settingLow (key : PortKey) (mask : UInt32) : Bool :=
  match key with
  | .row _ => false
  | .line _ => mask == 1

/-- The first setting of a free slot is the factory default and wires an unused switch. -/
def setting (b : Block) (mask : UInt32) : Block :=
  match b.opened with
  | none => b
  | some port =>
    match port.slot? (slotOfMask mask) with
    | some _ => b
    | none =>
      { b with
        opened := some
          (port.setSlot (slotOfMask mask) ⟨.unused, settingLow port.key mask, none⟩) }

/-- Reads one line. -/
def feed (b : Block) (line : List Char) : Block :=
  match Statement.ofLine? line with
  | some (.header name) => b.header name
  | some (.bit mask activeHigh token name) => b.bit mask activeHigh token name line
  | some (.setting mask) => b.setting mask
  | some (.inherit device) => { b with inherits := some device }
  | none => b

def ofLines (lines : List (List Char)) : Block :=
  lines.foldl feed empty

/-- Reads a body without the blanks around it. -/
def ofBody (body : List Char) : Block :=
  ofLines (lines (trim body))

/-- The finished wiring. The open port is closed, the vacuous rows go, and the rest is sorted. -/
def toPortMap (b : Block) : PortMap :=
  PortMap.finalize ⟨b.close.closed, b.inherits, none⟩

def diagnostics (device : String) (b : Block) : List Diagnostic :=
  b.anomalies.map (⟨device, ·⟩)

end Block

end LcdHandhelds
