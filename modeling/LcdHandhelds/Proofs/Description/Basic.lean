import LcdHandhelds.Machine.Preset
import LcdHandhelds.Machine.SystemEntry
import LcdHandhelds.Proofs.Wiring.Entry
import LcdHandhelds.Wiring.Grounding

/-!
Handhelds as a driver source describes them. A description is written in five parts: the class that
declares its constructor, its input block, the constructor, its ROM block and its system.
-/
namespace LcdHandhelds

open Text

/-- Lower-case letters, digits and underscores, with a letter first, and no keyword. -/
structure IsDeviceId (id : List Char) : Prop where
  first : id.head?.any Char.isLower
  chars : id.all fun c => c.isLower || c.isDigit || c == '_'
  noKeyword : id ≠ "class".toList ∧ id ≠ "void".toList

instance (id : List Char) : Decidable (IsDeviceId id) :=
  decidable_of_iff (id.head?.any Char.isLower ∧
      (id.all fun c => c.isLower || c.isDigit || c == '_') ∧
      id ≠ "class".toList ∧ id ≠ "void".toList)
    ⟨fun h => ⟨h.1, h.2.1, h.2.2⟩, fun h => ⟨h.first, h.chars, h.noKeyword⟩⟩

/-- All that a source says of one handheld. -/
structure Description where
  id : List Char
  entries : List Entry
  preset : Preset
  /-- The arguments of the preset, width before height. -/
  sizes : List Nat
  grounded : Bool
  file : List Char
  sha1 : List Char
  year : List Char
  parent : Option (List Char)
  company : List Char
  title : List Char
  deriving DecidableEq, Repr

def isHexDigit (c : Char) : Bool := (digit? 16 c).isSome

namespace Description

structure Valid (d : Description) : Prop where
  id : IsDeviceId d.id
  entries : ∀ e ∈ d.entries, e.Valid
  preset : d.preset ∈ Preset.all
  arity : d.sizes.length = d.preset.layout.arity
  sizes : ∀ n ∈ d.sizes, n < UInt64.size
  file : IsFreeText d.file
  sha1 : d.sha1.all isHexDigit
  year : SystemEntry.isYear d.year
  /-- A parent that is written `0` is none. -/
  parent : ∀ p ∈ d.parent, IsToken p ∧ p ≠ ['0']
  company : IsFreeText d.company
  title : IsFreeText d.title

instance (d : Description) : Decidable d.Valid :=
  decidable_of_iff ((IsDeviceId d.id ∧ (∀ e ∈ d.entries, e.Valid) ∧ d.preset ∈ Preset.all ∧
      d.sizes.length = d.preset.layout.arity ∧ ∀ n ∈ d.sizes, n < UInt64.size) ∧
      (IsFreeText d.file ∧ d.sha1.all isHexDigit ∧ SystemEntry.isYear d.year ∧
      (∀ p ∈ d.parent, IsToken p ∧ p ≠ ['0']) ∧ IsFreeText d.company ∧ IsFreeText d.title))
    ⟨fun h => ⟨h.1.1, h.1.2.1, h.1.2.2.1, h.1.2.2.2.1, h.1.2.2.2.2, h.2.1, h.2.2.1, h.2.2.2.1,
      h.2.2.2.2.1, h.2.2.2.2.2.1, h.2.2.2.2.2.2⟩,
    fun h => ⟨⟨h.id, h.entries, h.preset, h.arity, h.sizes⟩, h.file, h.sha1, h.year, h.parent,
      h.company, h.title⟩⟩

/-! ### The written form -/

section Texts

variable (d : Description)

def className : List Char := d.id ++ "_state".toList

/-- The declaration of the constructor, after the word `void`. -/
def declarationText : List Char :=
  ' ' :: (d.id ++ '(' :: "machine_config &config); ".toList)

/-- What stands between the colon of the class and its end. -/
def classBody : List Char :=
  " public hh_sm510_state \x7b ".toList ++ ("void".toList ++ d.declarationText)

/-- The class after the word `class` and a space. -/
def classRest : List Char :=
  d.className ++ ' ' :: ':' :: (d.classBody ++ "\x7d;\n".toList)

def classText : List Char :=
  "class".toList ++ ' ' :: d.classRest

def inputsText : List Char :=
  "static ".toList ++ (callText "INPUT_PORTS_START".toList [' '] [' '] [d.id] ++
    (entriesText d.entries ++ ("INPUT_PORTS_END".toList ++ ['\n'])))

/-- The call of the preset, which is the first line of a constructor. -/
def presetText : List Char :=
  callText d.preset.name.toList [] [] ("config".toList :: d.sizes.map (Nat.toDigits 10)) ++ [';']

/-- The other lines of a constructor. -/
def markerText : List Char :=
  if d.grounded then
    '\n' :: '\t' :: (callText defaultMarker.toList [] [] [] ++ [';'])
  else []

/-- The lines of a constructor, without the blanks around them. -/
def constructorBody : List Char :=
  d.presetText ++ d.markerText

/-- What follows the brace that opens the constructor. -/
def constructorBlock : List Char :=
  ("\n\t".toList ++ d.constructorBody ++ ['\n']) ++ "\x7d\n".toList

/-- The constructor after the word `void` and a space. -/
def constructorRest : List Char :=
  d.className ++ ':' :: ':' :: (d.id ++ '(' ::
    ("machine_config &config)\n\x7b".toList ++ d.constructorBlock))

def constructorText : List Char :=
  "void".toList ++ ' ' :: d.constructorRest

def regionText : List Char :=
  callText "ROM_REGION".toList [' '] [' '] ["0x1000".toList, literal "maincpu".toList, ['0']]

/-- The digests of the file. -/
def digestsText : List Char :=
  callText "CRC".toList [] [] ["00000000".toList] ++ ' ' ::
    callText "SHA1".toList [] [] [d.sha1]

def loadText : List Char :=
  callText "ROM_LOAD".toList [' '] [' ']
    [literal d.file, "0x0000".toList, "0x1000".toList, d.digestsText]

/-- The lines between the two ends of a ROM block. -/
def romBody : List Char :=
  "\n\t".toList ++ (regionText ++ ("\n\t".toList ++ (d.loadText ++ ['\n'])))

def romText : List Char :=
  callText "ROM_START".toList [' '] [' '] [d.id] ++
    (d.romBody ++ ("ROM_END".toList ++ ['\n']))

/-- The arguments of the system, the parent `0` if there is none. -/
def systemArguments : List (List Char) :=
  [d.year, d.id, d.parent.getD ['0'], ['0'], d.id, d.id, d.className, "empty_init".toList,
    literal d.company, literal d.title, "MACHINE_SUPPORTS_SAVE".toList]

def systemText : List Char :=
  callText "SYST".toList [' '] [' '] d.systemArguments ++ ['\n']

end Texts

end Description

/-- The five parts that a description is written in. -/
inductive Part where
  | declaration | inputs | constructor | rom | system
  deriving DecidableEq, Repr

namespace Part

def all : List Part := [declaration, inputs, constructor, rom, system]

theorem mem_all (part : Part) : part ∈ all := by
  cases part <;> decide

def text (d : Description) : Part → List Char
  | declaration => d.classText
  | inputs => d.inputsText
  | constructor => d.constructorText
  | rom => d.romText
  | system => d.systemText

/-- The macros on the lines of an input block. -/
def portMacros : List (List Char) :=
  ["PORT_START", "PORT_MODIFY", "PORT_BIT", "PORT_NAME", "PORT_CONFSETTING",
    "PORT_INCLUDE"].map String.toList

/-- The macros on the lines of a ROM block. -/
def romMacros : List (List Char) :=
  ["ROM_REGION", "ROM_LOAD", "SHA1"].map String.toList

/-- The words of a part that a scan may look for. -/
def sought : Part → List (List Char)
  | declaration => ["class".toList, "void".toList]
  | inputs => "INPUT_PORTS_START".toList :: "INPUT_PORTS_END".toList :: portMacros
  | constructor => ["void".toList]
  | rom => "ROM_START".toList :: "ROM_END".toList :: romMacros
  | system => ["SYST".toList]

end Part

/-! ### Tokens of a description -/

/-- A word in lower case is a token, unless it is one of the two keywords. -/
theorem isToken_of_lowerCase {text : List Char}
    (h : text.all fun c => c.isLower || c.isDigit || c == '_') (hne : text ≠ [])
    (hclass : text ≠ "class".toList) (hvoid : text ≠ "void".toList) : IsToken text := by
  have hchar : ∀ c ∈ text, (c.isLower ∨ c.isDigit) ∨ c = '_' := by
    simpa [List.all_eq_true] using h
  have hword : text.all isWordChar := by
    refine List.all_eq_true.2 fun c hc => isWordChar_iff.2 ?_
    have := hchar c hc
    tauto
  have hcapital : text.all fun c => !c.isUpper := by
    refine List.all_eq_true.2 fun c hc => ?_
    rw [Bool.not_eq_true', Bool.eq_false_iff, Ne, isUpper_iff]
    rcases hchar c hc with (hl | hd) | rfl
    · rw [isLower_iff] at hl
      omega
    · have hdigit : 48 ≤ c.toNat ∧ c.toNat ≤ 57 := Char.isDigit_iff_toNat.1 hd
      omega
    · decide
  refine ⟨hword, hne, inert_of_noCapital hcapital ?_ ?_⟩
  · rw [words_of_word hword hne, List.mem_singleton]
    exact hclass.symm
  · rw [words_of_word hword hne, List.mem_singleton]
    exact hvoid.symm

/-- The macros of a description that no scan looks for. -/
theorem isToken_macro :
    IsToken "CRC".toList ∧ IsToken "MACHINE_SUPPORTS_SAVE".toList := by
  decide +kernel

theorem isToken_zero : IsToken ['0'] :=
  isToken_of_isHexLiteral (by decide)

theorem IsDeviceId.isToken {id : List Char} (h : IsDeviceId id) : IsToken id := by
  refine isToken_of_lowerCase h.chars ?_ h.noKeyword.1 h.noKeyword.2
  rintro rfl
  exact absurd h.first (by decide)

namespace Description

variable {d : Description}

theorem closed_id (h : d.Valid) : ∀ a ∈ [d.id], Closed a :=
  List.forall_mem_singleton.2 h.id.isToken.isArgument.closed

/-- The name between the blanks of a block's start. -/
theorem trim_id (h : d.Valid) : trim ([' '] ++ separated [d.id] ++ [' ']) = d.id :=
  (trim_append_blank (by decide) (by decide) _).trans h.id.isToken.isArgument.trimmed

theorem isToken_className (h : d.Valid) : IsToken d.className := by
  have hunderscore : '_' ∈ d.className := List.mem_append_right _ List.mem_cons_self
  refine isToken_of_lowerCase ?_ (List.ne_nil_of_mem hunderscore) ?_ ?_
  · rw [className, List.all_append, Bool.and_eq_true]
    exact ⟨h.id.chars, by decide⟩
  · intro he
    rw [he] at hunderscore
    exact absurd hunderscore (by decide)
  · intro he
    rw [he] at hunderscore
    exact absurd hunderscore (by decide)

/-! ### Words of the parts -/

theorem opens_base {sought : List (List Char)} :
    Opens sought " public hh_sm510_state \x7b ".toList :=
  (inert_of_noCapital (by decide) (by decide) (by decide)).opens

theorem opens_parameter {sought : List (List Char)} :
    Opens sought "machine_config &config); ".toList :=
  (inert_of_noCapital (by decide) (by decide) (by decide)).opens

theorem opens_class : Opens ["class".toList] "class".toList :=
  opens_of_word (by decide) (by decide) (.inl List.mem_cons_self)

theorem opens_void : Opens ["void".toList] "void".toList :=
  opens_of_word (by decide) (by decide) (.inl List.mem_cons_self)

theorem ended_classBody (d : Description) : Ended d.classBody := by
  have hrest : Ended (d.id ++ '(' :: "machine_config &config); ".toList) :=
    Ended.append_cons (by decide) d.id
  exact Ended.append (by decide) ((hrest.cons (by decide)).append_cons _)

theorem opens_classBody (h : d.Valid) : Opens ["void".toList] d.classBody := by
  have hrest : Opens ["void".toList] (d.id ++ '(' :: "machine_config &config); ".toList) :=
    h.id.isToken.opens.append_cons (by decide) opens_parameter
  exact opens_base.append (by decide) (opens_void.append_cons (by decide) hrest)

theorem ended_classRest (d : Description) : Ended d.classRest := by
  have hbody : Ended (d.classBody ++ "\x7d;\n".toList) := d.ended_classBody.append (by decide)
  exact ((hbody.cons (by decide)).cons (by decide)).append_cons _

theorem opens_classRest (h : d.Valid) : Opens ["void".toList] d.classRest := by
  have hbody : Opens ["void".toList] (d.classBody ++ "\x7d;\n".toList) :=
    (opens_classBody h).append d.ended_classBody (opens_of_none (by decide))
  exact (isToken_className h).opens.append_cons (by decide) (hbody.cons (by decide))

theorem ended_presetText (d : Description) : Ended d.presetText :=
  Ended.append (ended_callText _ _ _ _) (by decide)

theorem isToken_presetName {p : Preset} (hp : p ∈ Preset.all) : IsToken p.name.toList := by
  have hname : ∀ p ∈ Preset.all, (p.name.toList.all fun c => c.isLower || c.isDigit || c == '_') ∧
      p.name.toList ≠ [] ∧ p.name.toList ≠ "class".toList ∧ p.name.toList ≠ "void".toList := by
    decide
  obtain ⟨hchars, hne, hclass, hvoid⟩ := hname p hp
  exact isToken_of_lowerCase hchars hne hclass hvoid

theorem opens_presetText (h : d.Valid) {sought : List (List Char)} : Opens sought d.presetText := by
  have hname := isToken_presetName h.preset
  have hargs : ∀ a ∈ "config".toList :: d.sizes.map (Nat.toDigits 10), Opens sought a := by
    refine List.forall_mem_cons.2 ⟨(isToken_of_lowerCase (by decide) (by decide) (by decide)
      (by decide)).opens, fun a ha => ?_⟩
    obtain ⟨n, -, rfl⟩ := List.mem_map.1 ha
    exact (isToken_toDigits n).opens
  exact (hname.opens_callText rfl rfl hargs).append_cons (by decide) .nil

theorem opens_markerText (d : Description) {sought : List (List Char)} :
    Opens sought d.markerText := by
  have hname : IsToken defaultMarker.toList :=
    isToken_of_lowerCase (by decide) (by decide) (by decide) (by decide)
  rw [markerText]
  split
  · exact .cons (by decide) (.cons (by decide) ((hname.opens_callText rfl rfl
      (List.forall_mem_nil _)).append_cons (by decide) .nil))
  · exact .nil

theorem ended_constructorBlock (d : Description) : Ended d.constructorBlock :=
  ended_append (by decide) (by decide) _

theorem opens_constructorBlock (h : d.Valid) {sought : List (List Char)} :
    Opens sought d.constructorBlock := by
  have hbody : Opens sought (d.constructorBody ++ ['\n']) :=
    Opens.append_cons (by decide)
      ((opens_presetText h).append d.ended_presetText d.opens_markerText) .nil
  have hend : Opens sought "\x7d\n".toList := opens_of_none (by decide)
  rw [constructorBlock, List.append_assoc "\n\t".toList]
  refine Opens.append ?_ (Opens.cons (by decide) (.cons (by decide) hbody)) hend
  exact ended_append (ended_append_singleton (by decide) _) (by simp) _

theorem ended_constructorRest (d : Description) : Ended d.constructorRest := by
  have hrest := Ended.append (s := "machine_config &config)\n\x7b".toList) (by decide)
    d.ended_constructorBlock
  exact (((((hrest.cons (d := '(') (by decide)).append_cons d.id).cons (d := ':') (by decide)).cons
    (d := ':') (by decide)).append_cons d.className)

theorem opens_constructorRest (h : d.Valid) {sought : List (List Char)} :
    Opens sought d.constructorRest := by
  have hhead : Opens sought "machine_config &config)\n\x7b".toList :=
    (inert_of_noCapital (by decide) (by decide) (by decide)).opens
  have hrest := hhead.append (by decide) (opens_constructorBlock h)
  exact (isToken_className h).opens.append_cons (by decide)
    ((h.id.isToken.opens.append_cons (by decide) hrest).cons (by decide))

theorem ended_entriesText (entries : List Entry) : Ended (entriesText entries) :=
  Ended.cons (by decide) (ended_flatMap fun _ _ =>
    Ended.cons (by decide) (ended_append_singleton (by decide) _))

theorem macros_subset (e : Entry) : e.macros ⊆ Part.portMacros := by
  cases e with
  | header modifies name =>
    cases modifies <;>
    · rw [Entry.macros]
      decide
  | bit mask polarity action name =>
    rw [Entry.macros]
    decide
  | setting mask label =>
    rw [Entry.macros]
    decide
  | inherit device =>
    rw [Entry.macros]
    decide

theorem opens_entriesText (h : ∀ e ∈ d.entries, e.Valid) :
    Opens Part.portMacros (entriesText d.entries) := by
  refine Opens.cons (by decide) (opens_flatMap (fun _ _ => ?_) fun e he => ?_)
  · exact Ended.cons (by decide) (ended_append_singleton (by decide) _)
  · exact (((Entry.opens_text (h e he)).mono (macros_subset e)).append_cons (by decide) .nil).cons
      (by decide)

theorem opens_inputsText (h : d.Valid) : Opens Part.inputs.sought d.inputsText := by
  have hstart : Opens Part.inputs.sought (callText "INPUT_PORTS_START".toList [' '] [' '] [d.id]) :=
    opens_callText (by decide) (by decide) (.inl (by decide)) (by decide) (by decide)
      (List.forall_mem_singleton.2 h.id.isToken.opens)
  have hlines : Opens Part.inputs.sought (entriesText d.entries) :=
    (opens_entriesText h.entries).mono (by decide)
  have hend : Opens Part.inputs.sought ("INPUT_PORTS_END".toList ++ ['\n']) :=
    (opens_of_word (by decide) (by decide) (.inl (by decide))).append_cons (by decide) .nil
  have hstatic : Opens Part.inputs.sought "static ".toList :=
    (inert_of_noCapital (by decide) (by decide) (by decide)).opens
  exact hstatic.append (by decide) (hstart.append (ended_callText _ _ _ _)
    (hlines.append (ended_entriesText _) hend))

theorem opens_crcText {sought : List (List Char)} :
    Opens sought (callText "CRC".toList [] [] ["00000000".toList]) :=
  isToken_macro.1.opens_callText rfl rfl
    (List.forall_mem_singleton.2 (isToken_of_isHexLiteral (by decide)).opens)

theorem opens_digestsText (h : d.Valid) : Opens ["SHA1".toList] d.digestsText := by
  have hdigest : Inert d.sha1 := inert_of_all h.sha1 (by decide)
  have hsha : Opens ["SHA1".toList] (callText "SHA1".toList [] [] [d.sha1]) :=
    opens_callText (by decide) (by decide) (.inl (by decide)) rfl rfl
      (List.forall_mem_singleton.2 hdigest.opens)
  exact opens_crcText.append_cons (by decide) hsha

theorem opens_loadText (h : d.Valid) : Opens ["ROM_LOAD".toList, "SHA1".toList] d.loadText := by
  refine opens_callText (by decide) (by decide) (.inl (by decide)) (by decide) (by decide) ?_
  simp only [List.forall_mem_cons]
  exact ⟨h.file.opens, (isToken_of_isHexLiteral (by decide)).opens,
    (isToken_of_isHexLiteral (by decide)).opens, (opens_digestsText h).mono (by decide),
    List.forall_mem_nil _⟩

theorem ended_romBody (d : Description) : Ended d.romBody :=
  Ended.append (by decide) (Ended.append (ended_callText _ _ _ _)
    (Ended.append (by decide) (ended_append_singleton (by decide) _)))

theorem opens_romBody (h : d.Valid) : Opens Part.romMacros d.romBody := by
  have hload : Opens Part.romMacros (d.loadText ++ ['\n']) :=
    ((opens_loadText h).mono (by decide)).append_cons (by decide) .nil
  have hregion : Opens Part.romMacros regionText := by
    refine opens_callText (by decide) (by decide) (.inl (by decide)) (by decide) (by decide) ?_
    simp only [List.forall_mem_cons]
    exact ⟨(isToken_of_isHexLiteral (by decide)).opens, opens_literal (isToken_of_lowerCase
      (by decide) (by decide) (by decide) (by decide)).opens, isToken_zero.opens,
      List.forall_mem_nil _⟩
  exact ((hregion.append (ended_callText _ _ _ _) ((hload.cons (d := '\t') (by decide)).cons
    (d := '\n') (by decide))).cons (by decide)).cons (by decide)

theorem opens_romText (h : d.Valid) : Opens Part.rom.sought d.romText := by
  have hstart : Opens Part.rom.sought (callText "ROM_START".toList [' '] [' '] [d.id]) :=
    opens_callText (by decide) (by decide) (.inl (by decide)) (by decide) (by decide)
      (List.forall_mem_singleton.2 h.id.isToken.opens)
  have hbody : Opens Part.rom.sought d.romBody := (opens_romBody h).mono (by decide)
  have hend : Opens Part.rom.sought ("ROM_END".toList ++ ['\n']) :=
    (opens_of_word (by decide) (by decide) (.inl (by decide))).append_cons (by decide) .nil
  exact hstart.append (ended_callText _ _ _ _) (hbody.append d.ended_romBody hend)

theorem yearChar_of_mem (h : d.Valid) {c : Char} (hc : c ∈ d.year) :
    (c.isDigit || c == '?') = true := by
  have hyear := h.year
  rw [SystemEntry.isYear, Bool.and_eq_true] at hyear
  exact List.all_eq_true.1 hyear.2 c hc

theorem inert_year (h : d.Valid) : Inert d.year :=
  inert_of_all (List.all_eq_true.2 fun _ => yearChar_of_mem h) (by decide)

theorem isToken_parent (h : d.Valid) : IsToken (d.parent.getD ['0']) := by
  cases hp : d.parent with
  | none => exact isToken_zero
  | some parent => exact (h.parent parent hp).1

theorem opens_systemArguments (h : d.Valid) {sought : List (List Char)} :
    ∀ a ∈ d.systemArguments, Opens sought a := by
  have hid := h.id.isToken
  simp only [systemArguments, List.forall_mem_cons]
  exact ⟨(inert_year h).opens, hid.opens, (isToken_parent h).opens,
    isToken_zero.opens, hid.opens, hid.opens, (isToken_className h).opens,
    (isToken_of_lowerCase (by decide) (by decide) (by decide) (by decide)).opens,
    h.company.opens, h.title.opens, isToken_macro.2.opens,
    List.forall_mem_nil _⟩

theorem opens_systemText (h : d.Valid) : Opens Part.system.sought d.systemText := by
  have hcall : Opens Part.system.sought (callText "SYST".toList [' '] [' '] d.systemArguments) :=
    opens_callText (by decide) (by decide) (.inl (by decide)) (by decide) (by decide)
      (opens_systemArguments h)
  exact hcall.append_cons (by decide) .nil

end Description

namespace Part

variable {d : Description}

theorem ended_text (d : Description) (part : Part) : Ended (part.text d) := by
  cases part with
  | declaration => exact (d.ended_classRest.cons (by decide)).append_cons _
  | inputs =>
    exact Ended.append (by decide) (Ended.append (ended_callText _ _ _ _)
      (Ended.append (Description.ended_entriesText _) (by decide)))
  | constructor => exact (d.ended_constructorRest.cons (by decide)).append_cons _
  | rom =>
    exact Ended.append (ended_callText _ _ _ _) (Ended.append d.ended_romBody (by decide))
  | system => exact Ended.append (ended_callText _ _ _ _) (by decide)

theorem opens_text (h : d.Valid) (part : Part) : Opens part.sought (part.text d) := by
  cases part with
  | declaration =>
    exact (Description.opens_class.mono (by decide)).append_cons (by decide)
      ((Description.opens_classRest h).mono (by decide))
  | inputs => exact Description.opens_inputsText h
  | constructor =>
    exact Description.opens_void.append_cons (by decide) (Description.opens_constructorRest h)
  | rom => exact Description.opens_romText h
  | system => exact Description.opens_systemText h

end Part

end LcdHandhelds
