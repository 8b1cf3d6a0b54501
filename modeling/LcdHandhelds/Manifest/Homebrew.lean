import LcdHandhelds.Manifest.Extraction

/-!
Homebrew titles: new programs for the hardware of an existing handheld. A title borrows hardware and
wiring from its base, which may be a title added before.
-/
namespace LcdHandhelds

structure Title where
  id : String
  /-- The device that the title is written for. -/
  base : String
  name : String
  company : String
  year : String
  rom : String
  sha1 : String
  deriving DecidableEq, Repr

/-- The title's profile on the hardware of its base. It shares its ROM with no one. -/
def Title.profile (t : Title) (base : Profile) : Profile where
  hardware := base.hardware
  portMap := base.portMap
  release := some ⟨t.year, t.company, t.name⟩
  rom := ⟨t.rom, none, t.sha1, none⟩

/-- Adds a title, in place of any profile under its id, or reports that its base is missing. -/
def Extraction.addTitle (e : Extraction) (t : Title) : Extraction :=
  match e.manifest.get? t.base with
  | some base => { e with manifest := e.manifest.insert t.id (t.profile base) }
  | none =>
    { e with diagnostics := e.diagnostics ++ [⟨t.id, .missingHomebrewBase t.base⟩] }

/-- Adds titles in order. -/
def Extraction.overlay (e : Extraction) (titles : List Title) : Extraction :=
  titles.foldl addTitle e

end LcdHandhelds
