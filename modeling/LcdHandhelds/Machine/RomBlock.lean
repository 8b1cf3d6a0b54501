import LcdHandhelds.Diagnostic
import LcdHandhelds.Table
import LcdHandhelds.Text.Argument
import LcdHandhelds.Text.Call

/-!
ROM blocks: the regions that a device loads. The program is the file loaded into region `maincpu`,
a melody the one in `maincpu:melody`; a block with two files of one kind identifies nothing.
-/
namespace LcdHandhelds

open Text

/-- One `ROM_START( device ) ... ROM_END`; `position` is the byte offset of its start. -/
structure RomBlock where
  position : Nat
  body : List Char
  deriving DecidableEq, Repr

namespace RomBlock

/-- The block that a call opens, under the name it gives. -/
def ofCall? (source : List Char) (c : Call) : Option (String × RomBlock) :=
  (before? "ROM_END" c.after).map fun body =>
    (String.ofList (trim c.args), ⟨byteOffset source c.place, body⟩)

/-- The blocks of a source in source order. -/
def all (source : List Char) : List (String × RomBlock) :=
  (calls "ROM_START" source).filterMap (ofCall? source)

/-- The blocks by device. The first block of a name is kept. -/
def index (source : List Char) : Table String RomBlock :=
  (all source).foldl (fun t e => t.insertIfNew e.1 e.2) ∅

/-- The kind of file that a region's tag asks for, letters in either case. -/
def kindOfTag? (tag : List Char) : Option RomKind :=
  let lower := tag.map Char.toLower
  if lower = "maincpu:melody".toList then some .melody
  else if lower = "maincpu".toList then some .main
  else none

/-- The file of a `ROM_LOAD` that directly follows a region, with the `SHA1` on its first line. -/
def loadedFile? (text : List Char) : Option RomFile := do
  let text := skipBlank text
  let load ← (firstCall? "ROM_LOAD" text).filter (·.place = 0)
  let name ← (arguments load.args).head?.bind unquote?
  let digest ← firstCall? "SHA1" ((lines text).headD [])
  return ⟨String.ofList name, String.ofList (trim digest.args)⟩

/-- The file that a region loads, if it is of a kind that identifies a device. -/
def load? (region : Call) : Option (RomKind × RomFile) := do
  let tag ← (arguments region.args)[1]?.bind unquote?
  let kind ← kindOfTag? tag
  let file ← loadedFile? region.after
  return (kind, file)

/-- The files of a block, in order. -/
def loads (b : RomBlock) : List (RomKind × RomFile) :=
  (calls "ROM_REGION" b.body).filterMap load?

/-- The files found so far, one of each kind at most. -/
structure Found where
  main : Option RomFile := none
  melody : Option RomFile := none

def Found.add (f : Found) : RomKind × RomFile → Except Anomaly Found
  | (.main, file) => if f.main.isSome then .error (.duplicateRom .main) else .ok ⟨file, f.melody⟩
  | (.melody, file) =>
    if f.melody.isSome then .error (.duplicateRom .melody) else .ok ⟨f.main, file⟩

/-- The identity that a list of files gives: one program, and one melody at most. -/
def identityOf (loads : List (RomKind × RomFile)) : Except Anomaly RomIdentity := do
  let found ← loads.foldlM Found.add {}
  match found.main with
  | some main => return ⟨main, found.melody⟩
  | none => .error .missingRomName

def identity (b : RomBlock) : Except Anomaly RomIdentity :=
  identityOf b.loads

end RomBlock

/-- The block and the ROM identity of a device. -/
def romOf (blocks : Table String RomBlock) (device : String) :
    Except Anomaly (RomBlock × RomIdentity) :=
  match blocks.get? device with
  | none => .error .missingRomBlock
  | some block => block.identity.map (block, ·)

end LcdHandhelds
