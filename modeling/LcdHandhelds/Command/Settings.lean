import LcdHandhelds.Manifest.Homebrew
import LcdHandhelds.Toml.Document

/-!
Settings: where the manifest is written, the grounding marker, and the homebrew titles. They are
read from a TOML document in which every key may be missing and unknown keys do not count.
-/
namespace LcdHandhelds

structure Settings where
  output : String := "manifest.json"
  marker : String := defaultMarker
  titles : List Title := []
  deriving DecidableEq, Repr

namespace Toml

def text? : Toml → Option String
  | string text => some text
  | _ => none

/-- The text under a key that has to be there. -/
def textAt? (key : String) (es : Entries) : Option String :=
  (es.lookup key).bind text?

/-- The text under a key that may be missing. -/
def textAtD? (key : String) (otherwise : String) (es : Entries) : Option String :=
  match es.lookup key with
  | none => some otherwise
  | some v => v.text?

end Toml

namespace Title

def ofEntries? (es : Toml.Entries) : Option Title := do
  return {
    id := ← Toml.textAt? "id" es
    base := ← Toml.textAt? "base" es
    name := ← Toml.textAt? "name" es
    company := ← Toml.textAt? "company" es
    year := ← Toml.textAt? "year" es
    rom := ← Toml.textAt? "rom" es
    sha1 := ← Toml.textAt? "sha1" es }

/-- A title is a table, or an array that starts with the texts in their order. -/
def ofToml? : Toml → Option Title
  | .table _ es => ofEntries? es
  | .array (id :: base :: name :: company :: year :: rom :: sha1 :: _) => do
    return {
      id := ← id.text?
      base := ← base.text?
      name := ← name.text?
      company := ← company.text?
      year := ← year.text?
      rom := ← rom.text?
      sha1 := ← sha1.text? }
  | _ => none

def listOfToml? : Toml → Option (List Title)
  | .tables elements => elements.mapM ofEntries?
  | .array items => items.mapM ofToml?
  | _ => none

end Title

namespace Settings

def ofEntries? (es : Toml.Entries) : Option Settings := do
  return {
    output := ← Toml.textAtD? "output" "manifest.json" es
    marker := ← Toml.textAtD? "grounding_marker" defaultMarker es
    titles := ← match es.lookup "homebrew" with
      | none => some []
      | some v => Title.listOfToml? v }

/-- The settings that a document spells. -/
def parse? (text : String) : Option Settings :=
  (Toml.parse? text.toList).bind ofEntries?

end Settings

end LcdHandhelds
