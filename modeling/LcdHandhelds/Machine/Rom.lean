/-!
The ROM files of a handheld: its program, and for some machines a separate melody.
-/
namespace LcdHandhelds

inductive RomKind where
  | main | melody
  deriving DecidableEq, Repr

/-- A file by its name and the SHA1 digest of its content. -/
structure RomFile where
  name : String
  sha1 : String
  deriving DecidableEq, Repr

structure RomIdentity where
  main : RomFile
  melody : Option RomFile
  deriving DecidableEq, Repr

end LcdHandhelds
