import LcdHandhelds.Command.Settings
import LcdHandhelds.Proofs.Option

/-!
The settings that a document spells, said by its keys: which key fills which field, what a missing key
leaves, and that each title that is listed is read, with all of its texts. Main statement:
`Settings.ofEntries?_eq_some_iff`.
-/
namespace LcdHandhelds

namespace Toml

/-- The text under a key, or what stands for it where the key is missing. -/
inductive TextUnder (es : Entries) (key otherwise : String) : String → Prop
  | present {text : String} (h : es.lookup key = some (.string text)) :
    TextUnder es key otherwise text
  | missing (h : es.lookup key = none) : TextUnder es key otherwise otherwise

variable {es : Entries} {key otherwise text : String}

theorem text?_eq_some_iff {v : Toml} : v.text? = some text ↔ v = .string text := by
  cases v <;> simp [text?]

theorem textAt?_eq_some_iff : textAt? key es = some text ↔ es.lookup key = some (.string text) := by
  simp only [textAt?, Option.bind_eq_some_iff, text?_eq_some_iff, exists_eq_right]

theorem textAtD?_eq_some_iff :
    textAtD? key otherwise es = some text ↔ TextUnder es key otherwise text := by
  rw [textAtD?]
  constructor
  · intro h
    split at h
    next hkey => exact Option.some.inj h ▸ .missing hkey
    next v hkey => exact .present (text?_eq_some_iff.1 h ▸ hkey)
  · rintro (hkey | hkey) <;> rw [hkey]
    exact text?_eq_some_iff.2 rfl

end Toml

namespace Title

/-- A table that has one text under each key of a title. -/
structure SpelledBy (es : Toml.Entries) (t : Title) : Prop where
  id : es.lookup "id" = some (.string t.id)
  base : es.lookup "base" = some (.string t.base)
  name : es.lookup "name" = some (.string t.name)
  company : es.lookup "company" = some (.string t.company)
  year : es.lookup "year" = some (.string t.year)
  rom : es.lookup "rom" = some (.string t.rom)
  sha1 : es.lookup "sha1" = some (.string t.sha1)

/-- A title in a list of values: a table, or an array that starts with its texts in their order. -/
inductive GivenBy : Toml → Title → Prop
  | table {kind : Toml.TableKind} {es : Toml.Entries} {t : Title} (h : SpelledBy es t) :
    GivenBy (.table kind es) t
  | array {id base name company year rom sha1 : String} (rest : List Toml) :
    GivenBy (.array (.string id :: .string base :: .string name :: .string company ::
      .string year :: .string rom :: .string sha1 :: rest))
      ⟨id, base, name, company, year, rom, sha1⟩

/-- The titles that a value lists, one by one. -/
inductive ListedBy : Toml → List Title → Prop
  | tables {elements : List Toml.Entries} {titles : List Title}
    (h : List.Forall₂ SpelledBy elements titles) : ListedBy (.tables elements) titles
  | array {items : List Toml} {titles : List Title} (h : List.Forall₂ GivenBy items titles) :
    ListedBy (.array items) titles

theorem ofEntries?_eq_some_iff {es : Toml.Entries} {t : Title} :
    ofEntries? es = some t ↔ SpelledBy es t := by
  simp only [ofEntries?, Option.bind_eq_bind, Option.bind_eq_some_iff, Toml.textAt?_eq_some_iff]
  constructor
  · rintro ⟨id, hid, base, hbase, name, hname, company, hcompany, year, hyear, rom, hrom, sha1,
      hsha1, h⟩
    cases h
    exact ⟨hid, hbase, hname, hcompany, hyear, hrom, hsha1⟩
  · intro h
    exact ⟨_, h.id, _, h.base, _, h.name, _, h.company, _, h.year, _, h.rom, _, h.sha1, rfl⟩

/-- A title that lacks a text is refused. -/
theorem ofEntries?_eq_none {es : Toml.Entries} {key : String}
    (hkey : key ∈ ["id", "base", "name", "company", "year", "rom", "sha1"])
    (h : es.lookup key = none) : ofEntries? es = none := by
  rw [Option.eq_none_iff_forall_ne_some]
  intro t ht
  obtain ⟨hid, hbase, hname, hcompany, hyear, hrom, hsha1⟩ := ofEntries?_eq_some_iff.1 ht
  simp only [List.mem_cons, List.not_mem_nil, or_false] at hkey
  rcases hkey with rfl | rfl | rfl | rfl | rfl | rfl | rfl <;> simp_all

theorem ofToml?_eq_some_iff {v : Toml} {t : Title} : ofToml? v = some t ↔ GivenBy v t := by
  constructor
  · intro h
    unfold ofToml? at h
    split at h
    · exact .table (ofEntries?_eq_some_iff.1 h)
    next =>
      simp only [Option.bind_eq_bind, Option.bind_eq_some_iff, Toml.text?_eq_some_iff] at h
      obtain ⟨_, rfl, _, rfl, _, rfl, _, rfl, _, rfl, _, rfl, _, rfl, h⟩ := h
      cases h
      exact .array _
    · cases h
  · rintro (hes | rest)
    · exact ofEntries?_eq_some_iff.2 hes
    · rfl

theorem listOfToml?_eq_some_iff {v : Toml} {titles : List Title} :
    listOfToml? v = some titles ↔ ListedBy v titles := by
  have htables : (fun es t => ofEntries? es = some t) = SpelledBy := by
    funext es t
    exact propext ofEntries?_eq_some_iff
  have harray : (fun v t => ofToml? v = some t) = GivenBy := by
    funext v t
    exact propext ofToml?_eq_some_iff
  constructor
  · intro h
    unfold listOfToml? at h
    split at h
    · exact .tables (htables ▸ mapM_eq_some_iff.1 h)
    · exact .array (harray ▸ mapM_eq_some_iff.1 h)
    · cases h
  · rintro (h | h)
    · exact mapM_eq_some_iff.2 (htables ▸ h)
    · exact mapM_eq_some_iff.2 (harray ▸ h)

end Title

namespace Settings

/-- What a document says of the output, the grounding marker and the titles. -/
structure SpelledBy (es : Toml.Entries) (s : Settings) : Prop where
  output : Toml.TextUnder es "output" "manifest.json" s.output
  marker : Toml.TextUnder es "grounding_marker" "inp_fixed_last" s.marker
  titles : (es.lookup "homebrew" = none ∧ s.titles = []) ∨
    ∃ v, es.lookup "homebrew" = some v ∧ Title.ListedBy v s.titles

theorem ofEntries?_eq_some_iff {es : Toml.Entries} {s : Settings} :
    ofEntries? es = some s ↔ SpelledBy es s := by
  simp only [ofEntries?, Option.bind_eq_bind, Option.bind_eq_some_iff, Toml.textAtD?_eq_some_iff]
  constructor
  · rintro ⟨output, houtput, marker, hmarker, h⟩
    split at h
    next hkey =>
      cases h
      exact ⟨houtput, hmarker, .inl ⟨hkey, rfl⟩⟩
    next v hkey =>
      obtain ⟨titles, htitles, h⟩ := Option.bind_eq_some_iff.1 h
      cases h
      exact ⟨houtput, hmarker, .inr ⟨v, hkey, Title.listOfToml?_eq_some_iff.1 htitles⟩⟩
  · intro h
    refine ⟨_, h.output, _, h.marker, ?_⟩
    rcases h.titles with ⟨hkey, htitles⟩ | ⟨v, hkey, htitles⟩
    · rw [hkey]
      exact congrArg some (by rw [← htitles])
    · rw [hkey]
      exact Option.bind_eq_some_iff.2 ⟨_, Title.listOfToml?_eq_some_iff.2 htitles, rfl⟩

theorem SpelledBy.unique {es : Toml.Entries} {s t : Settings} (hs : SpelledBy es s)
    (ht : SpelledBy es t) : s = t :=
  Option.some.inj ((ofEntries?_eq_some_iff.2 hs).symm.trans (ofEntries?_eq_some_iff.2 ht))

end Settings

end LcdHandhelds
