import LcdHandhelds.Json.Printer
import LcdHandhelds.Json.Reader
import LcdHandhelds.Json.Record
import LcdHandhelds.Manifest.Profile

/-!
The JSON form of a manifest. Each part has a writer `toJson` and a reader `ofJson?`; optional parts
are left out, except that a slot or a line without a switch is written as null.
-/
namespace LcdHandhelds

namespace Switch

def toJson (s : Switch) : Json :=
  .record <| [("action", .ofString s.action.name), ("activeLow", .bool s.activeLow)] ++
    Json.optionalField "name" (s.name.map .ofString)

/-- Reads a switch. `isNothing` accepts what may stand beside the name of its action. -/
def read? (isNothing : Json → Bool) (j : Json) : Option Switch := do
  let [action, activeLow, name] ← j.fields? ["action", "activeLow", "name"] 2 | none
  let action ← Json.required? (Json.name? isNothing) action
  return {
    action := ← Action.ofName? action
    activeLow := ← Json.required? Json.bool? activeLow
    name := ← Json.optional? Json.text? name }

/-- Reads a switch that stands by itself. -/
def ofJson? (j : Json) : Option Switch := read? Json.isNull j

/-- Reads a switch of a port. In a tagged record an empty object says as little as null. -/
def inPort? (j : Json) : Option Switch := read? Json.isNullOrEmpty j

end Switch

namespace Port

def toJson : Port → Json
  | row index slots =>
    .record [("type", .ofString "s"), ("index", .ofNat index.toNat),
      ("bitmap", .array (slots.toList.map fun s => .ofOption (s.map Switch.toJson)))]
  | line l switch =>
    .record [("type", .ofString l.name), ("bit", .ofOption (switch.map Switch.toJson))]

def slots? : Json → Option (Vector (Option Switch) 4)
  | .array [a, b, c, d] => do
    let a ← Json.optional? Switch.inPort? a
    let b ← Json.optional? Switch.inPort? b
    let c ← Json.optional? Switch.inPort? c
    let d ← Json.optional? Switch.inPort? d
    return #v[a, b, c, d]
  | _ => none

def line? (l : Line) (j : Json) : Option Port := do
  let [switch] ← j.fields? ["bit"] 1 | none
  return line l (← Json.optional? Switch.inPort? switch)

/-- Reads a port whose values nest no deeper than a limit. -/
def ofJsonWithin? (deepest : Nat) (j : Json) : Option Port := do
  let (form, j) ← j.tagged? deepest
  if form = "s" then
    let [index, slots] ← j.fields? ["index", "bitmap"] 2 | none
    return row (← Json.required? Json.uint64? index) (← Json.required? slots? slots)
  else if form = Line.acl.name then line? .acl j
  else if form = Line.b.name then line? .b j
  else if form = Line.ba.name then line? .ba j
  else none

/-- How deep the values of a port in a manifest may nest. -/
def deepest : Nat := 123

def ofJson? (j : Json) : Option Port := ofJsonWithin? deepest j

end Port

namespace PortMap

def toJson (m : PortMap) : Json :=
  .record <| [("ports", .array (m.ports.map Port.toJson))] ++
    Json.optionalField "include" (m.inherits.map .ofString) ++
    Json.optionalField "groundLastIndex" (m.groundedRow.map fun i => .ofNat i.toNat)

def ofJson? (j : Json) : Option PortMap := do
  let [ports, inherits, groundedRow] ← j.fields? ["ports", "include", "groundLastIndex"] 1 | none
  return {
    ports := ← Json.required? (Json.items? Port.ofJson?) ports
    inherits := ← Json.optional? Json.text? inherits
    groundedRow := ← Json.optional? Json.uint64? groundedRow }

end PortMap

def Binary64.toJson (x : Binary64) : Json := .number (.ofBinary64 x)

namespace Size

def fields (s : Size) : List (String × Json) :=
  [("width", s.width.toJson), ("height", s.height.toJson)]

def toJson (s : Size) : Json := .record s.fields

def ofJson? (j : Json) : Option Size := do
  let [width, height] ← j.fields? ["width", "height"] 2 | none
  return ⟨← Json.required? Json.binary64? width, ← Json.required? Json.binary64? height⟩

end Size

namespace Screen

def toJson : Screen → Json
  | single size => .record (("type", .ofString "single") :: size.fields)
  | dualVertical top bottom =>
    .record [("type", .ofString "dualVertical"), ("top", top.toJson), ("bottom", bottom.toJson)]
  | dualHorizontal left right =>
    .record [("type", .ofString "dualHorizontal"), ("left", left.toJson), ("right", right.toJson)]

/-- How deep the values of a screen may nest. -/
def deepest : Nat := 124

def ofJson? (j : Json) : Option Screen := do
  let (form, j) ← j.tagged? deepest
  if form = "single" then
    return single (← Size.ofJson? j)
  else if form = "dualVertical" then
    let [top, bottom] ← j.fields? ["top", "bottom"] 2 | none
    return dualVertical (← Json.required? Size.ofJson? top) (← Json.required? Size.ofJson? bottom)
  else if form = "dualHorizontal" then
    let [left, right] ← j.fields? ["left", "right"] 2 | none
    return dualHorizontal (← Json.required? Size.ofJson? left)
      (← Json.required? Size.ofJson? right)
  else none

end Screen

namespace Hardware

def toJson (h : Hardware) : Json :=
  .record [("cpu", .ofString h.cpu.name), ("screen", h.screen.toJson)]

def ofJson? (j : Json) : Option Hardware := do
  let [cpu, screen] ← j.fields? ["cpu", "screen"] 2 | none
  let cpu ← Json.required? (Json.name? Json.isNull) cpu
  return ⟨← Cpu.ofName? cpu, ← Json.required? Screen.ofJson? screen⟩

end Hardware

namespace Release

def toJson (r : Release) : Json :=
  .record [("year", .ofString r.year), ("company", .ofString r.company),
    ("name", .ofString r.name)]

def ofJson? (j : Json) : Option Release := do
  let [year, company, name] ← j.fields? ["year", "company", "name"] 3 | none
  return {
    year := ← Json.required? Json.text? year
    company := ← Json.required? Json.text? company
    name := ← Json.required? Json.text? name }

end Release

namespace RomRecord

def toJson (r : RomRecord) : Json :=
  .record <| [("rom", .ofString r.file)] ++
    Json.optionalField "melody" (r.melody.map .ofString) ++
    [("romHash", .ofString r.sha1)] ++
    Json.optionalField "romOwner" (r.owner.map .ofString)

def ofJson? (j : Json) : Option RomRecord := do
  let [file, melody, sha1, owner] ← j.fields? ["rom", "melody", "romHash", "romOwner"] 3 | none
  return {
    file := ← Json.required? Json.text? file
    melody := ← Json.optional? Json.text? melody
    sha1 := ← Json.required? Json.text? sha1
    owner := ← Json.optional? Json.text? owner }

end RomRecord

namespace Profile

def toJson (p : Profile) : Json :=
  .record <| [("device", p.hardware.toJson), ("portMap", p.portMap.toJson)] ++
    Json.optionalField "metadata" (p.release.map Release.toJson) ++
    [("rom", p.rom.toJson)]

def ofJson? (j : Json) : Option Profile := do
  let [hardware, portMap, release, rom] ←
    j.fields? ["device", "portMap", "metadata", "rom"] 4 | none
  return {
    hardware := ← Json.required? Hardware.ofJson? hardware
    portMap := ← Json.required? PortMap.ofJson? portMap
    release := ← Json.optional? Release.ofJson? release
    rom := ← Json.required? RomRecord.ofJson? rom }

end Profile

namespace Manifest

def toJson (m : Manifest) : Json :=
  .record (m.entries.map fun e => (e.1, e.2.toJson))

/-- An object of profiles; of two fields with one key the later one counts. -/
def ofJson? : Json → Option Manifest
  | .object fields => do
    let entries ← fields.mapM fun (key, j) => do return (← key, ← Profile.ofJson? j)
    return Table.ofList entries
  | _ => none

/-- The text that is written for a manifest. -/
def toText (m : Manifest) : String := (toJson m).toText

/-- The manifest that a text spells. -/
def parse? (text : String) : Option Manifest :=
  (Json.parse? text.toList).bind ofJson?

end Manifest

end LcdHandhelds
