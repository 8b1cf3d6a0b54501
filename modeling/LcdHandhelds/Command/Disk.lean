import LcdHandhelds.Command.Run
import LcdHandhelds.Table

/-!
A modelled disk: files by path below a working directory, and the user's settings. A directory
exists where a file lies below it; the working directory always does, and nothing outside it.
-/
namespace LcdHandhelds

/-- The names on the way from the working directory. -/
abbrev Path := List String

structure Disk where
  files : Table Path ByteArray
  /-- The user's settings: the path that they go by, and their content. -/
  settings : Option (String × ByteArray) := none

namespace Disk

def isDirectory (d : Disk) (path : Path) : Bool :=
  path.isEmpty || d.files.keys.any fun p => path.isPrefixOf p && p != path

/-- Follows the parts of a path. Each step has to start from a directory. -/
def walk? (d : Disk) : (here : Path) → List String → Option Path
  | here, [] => some here
  | here, part :: rest =>
    if !d.isDirectory here then none
    else if part = "" ∨ part = "." then walk? d here rest
    else if part = ".." then
      if here.isEmpty then none else walk? d here.dropLast rest
    else walk? d (here ++ [part]) rest

/-- Where a path leads, if it stays below the working directory. -/
def locate? (d : Disk) (path : String) : Option Path :=
  if path = "" ∨ path.front = '/' ∨ path.toList.contains '\x00' then none
  else d.walk? [] (path.splitOn "/")

def readText? (d : Disk) (path : String) : Option String :=
  match d.settings with
  | some (name, content) =>
    if name = path then String.fromUTF8? content else fromFile d path
  | none => fromFile d path
where
  fromFile (d : Disk) (path : String) : Option String := do
    let content ← d.files.get? (← d.locate? path)
    String.fromUTF8? content

def writeText? (d : Disk) (path text : String) : Option Disk := do
  let target ← d.locate? path
  if d.isDirectory target then none
  else return { d with files := d.files.insert target text.toUTF8 }

/-- Access to a disk that is kept as state. -/
def access : FileAccess (StateM Disk) where
  readText path := return (← get).readText? path
  userSettings := return (← get).settings.map (·.1)
  writeText path text := do
    match (← get).writeText? path text with
    | some d => set d; return true
    | none => return false

end Disk

end LcdHandhelds
