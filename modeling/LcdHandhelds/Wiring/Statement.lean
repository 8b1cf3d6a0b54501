import LcdHandhelds.Text.Call
import LcdHandhelds.Text.Argument
import LcdHandhelds.Text.Numeric
import LcdHandhelds.Wiring.Port

/-!
The statements of an input block. A line holds at most one: a header, a bit, a setting or an
inheritance, tried in this order.
-/
namespace LcdHandhelds

open Text

inductive Statement where
  /-- `PORT_START("name")` or `PORT_MODIFY("name")` opens a port. -/
  | header (name : String)
  /-- `PORT_BIT( mask, polarity, token )` wires a switch, which a `PORT_NAME("name")` may label. -/
  | bit (mask : UInt32) (activeHigh : Bool) (token : String) (name : Option String)
  /-- `PORT_CONFSETTING( mask, label )` declares a setting of a slot. -/
  | setting (mask : UInt32)
  /-- `PORT_INCLUDE( device )` lays the wiring of a device underneath. -/
  | inherit (device : String)
  deriving DecidableEq, Repr

namespace Statement

/-- A `PORT_START` counts only as the first statement of its line, a `PORT_MODIFY` anywhere. -/
def header? (line : List Char) : Option Statement := do
  let start := (firstCall? "PORT_START" line).filter fun c => (line.take c.place).all isBlank
  let call ← start.or (firstCall? "PORT_MODIFY" line)
  let name ← unquote? call.args
  return header (String.ofList name)

def bit? (line : List Char) : Option Statement := do
  let call ← firstCall? "PORT_BIT" line
  match arguments call.args with
  | mask :: polarity :: token :: _ =>
    if isHexLiteral mask then
      let name := (firstCall? "PORT_NAME" call.after).bind (unquote? ·.args)
      return bit (hexValue mask) (polarity = "IP_ACTIVE_HIGH".toList) (String.ofList token)
        (name.map String.ofList)
    else none
  | _ => none

def setting? (line : List Char) : Option Statement := do
  let call ← firstCall? "PORT_CONFSETTING" line
  match arguments call.args with
  | mask :: _ :: _ => if isHexLiteral mask then return setting (hexValue mask) else none
  | _ => none

def inherit? (line : List Char) : Option Statement := do
  let call ← firstCall? "PORT_INCLUDE" line
  match trim call.args with
  | [] => none
  | device => return inherit (String.ofList device)

/-- The statement of a line, if it holds one. -/
def ofLine? (line : List Char) : Option Statement :=
  header? line <|> bit? line <|> setting? line <|> inherit? line

end Statement

/-- The slot of a mask: its lowest bit among the first three, else the last slot. -/
def slotOfMask (mask : UInt32) : Nat :=
  if mask.toNat.testBit 0 then 0
  else if mask.toNat.testBit 1 then 1
  else if mask.toNat.testBit 2 then 2
  else 3

theorem slotOfMask_lt (mask : UInt32) : slotOfMask mask < 4 := by
  unfold slotOfMask
  repeat' split
  all_goals decide

/-- What the name in a header stands for. -/
inductive PortName where
  | known (key : PortKey)
  /-- A port that the emulator keeps for itself. -/
  | fake
  | unknown
  deriving DecidableEq, Repr

/-- `IN.` with a 64-bit number names a row. -/
def PortName.ofText (name : String) : PortName :=
  match "IN.".toList.isPrefixOf? name.toList with
  | some digits =>
    match natBelow? 10 UInt64.size digits with
    | some index => known (.row (UInt64.ofNat index))
    | none => unknown
  | none =>
    if name = "ACL" then known (.line .acl)
    else if name = "B" then known (.line .b)
    else if name = "BA" then known (.line .ba)
    else if name = "FAKE" then fake
    else unknown

end LcdHandhelds
