import LcdHandhelds.Manifest.Extraction
import LcdHandhelds.Proofs.Bytewise.Call

/-!
Driver classes and the bodies of constructors by byte offsets. The body of a class is a text of its
own, so the offsets of its declarations count from its start.
-/
namespace LcdHandhelds.Bytewise

open Text

/-! ### Declarations -/

/-- The device that a constructor is declared for, behind the word `void`. -/
def declaredDevice (source : List Char) (offset : Nat) : Attempt String := do
  let r ← Reader.space ⟨source, offset⟩
  let (name, r) ← r.identifier
  let r ← r.eatNext "("
  let r ← r.eatNext "machine_config"
  let r ← r.eatNext "&"
  let _ ← r.eatNext "config"
  return String.ofList name

/-- The name of a driver class behind the word `class`, and the offset past its colon. -/
def className (source : List Char) (offset : Nat) : Attempt (List Char × Nat) := do
  let r ← Reader.space ⟨source, offset⟩
  let (name, r) ← r.identifier
  let r ← r.space
  let r ← r.eat ":".toList
  if "_state".toList.isSuffixOf name then return (name, r.position) else failure

/-- A driver class with the devices that it declares. -/
structure DeclaredClass where
  name : String
  devices : List String

/-- The class behind the word `class`, and the offset where its body ends. -/
def classAt (source : List Char) (offset : Nat) : Attempt (DeclaredClass × Nat) := do
  let (name, start) ← className source offset
  let length ← maybe (find? ['\x7d', ';'] (← sliceFrom source start))
  let body ← slice source start (start + length)
  let offsets ← wordOffsets "void" body
  let devices ← collect (fun i => declaredDevice body (i + byteLength "void".toList)) offsets
  return (⟨String.ofList name, devices⟩, start + length)

/-- The classes at the offsets of the word `class` from `resume` on. -/
def classesFrom (source : List Char) : (resume : Nat) → List Nat → Checked (List DeclaredClass)
  | _, [] => return []
  | resume, offset :: offsets =>
    if offset < resume then classesFrom source resume offsets
    else do
      match ← (classAt source (offset + byteLength "class".toList)).run with
      | some (c, stop) => return c :: (← classesFrom source stop offsets)
      | none => classesFrom source resume offsets

/-- The driver classes of a source. -/
def classes (source : List Char) : Checked (List DeclaredClass) := do
  classesFrom source 0 (← wordOffsets "class" source)

/-- The declarations of a class. Its name without the ending is the stem. -/
def DeclaredClass.declarations (c : DeclaredClass) : List Declaration :=
  let stem := c.name.toList.take (c.name.toList.length - "_state".toList.length)
  c.devices.map (⟨c.name, String.ofList stem, ·⟩)

def declarations (source : List Char) : Checked (List Declaration) := do
  return (← classes source).flatMap (·.declarations)

theorem finds_declaredDevice {source rest : List Char} {offset : Nat}
    (h : Ahead source offset rest) :
    Finds Eq (declaredDevice source offset) (declaredDevice? rest) := by
  refine (Reader.finds_space ⟨rfl, h⟩).bind fun r text h => ?_
  refine (Reader.finds_identifier h).bind ?_
  rintro ⟨name, r⟩ ⟨name', text⟩ ⟨rfl, h⟩
  refine (Reader.finds_eatNext "(" h).bind fun r text h => ?_
  refine (Reader.finds_eatNext "machine_config" h).bind fun r text h => ?_
  refine (Reader.finds_eatNext "&" h).bind fun r text h => ?_
  exact (Reader.finds_eatNext "config" h).bind fun r text h => .pure rfl

theorem finds_className {source rest : List Char} {offset : Nat} (h : Ahead source offset rest) :
    Finds (fun a b => a.1 = b.1 ∧ Ahead source a.2 b.2) (className source offset)
      (className? rest) := by
  refine (Reader.finds_space ⟨rfl, h⟩).bind fun r text h => ?_
  refine (Reader.finds_identifier h).bind ?_
  rintro ⟨name, r⟩ ⟨name', text⟩ ⟨rfl, h⟩
  refine (Reader.finds_space h).bind fun r text h => ?_
  refine (Reader.finds_eat ":".toList h).bind fun r text h => ?_
  dsimp only
  split
  · exact .pure ⟨rfl, h.ahead⟩
  · exact .failure

/-- A class by offsets stands for a class, and `stop` for the place where its body ends. -/
structure DeclaredClass.Stands (source : List Char) (a : DeclaredClass × Nat) (c : DriverClass) :
    Prop where
  name : a.1.name = c.name
  devices : a.1.devices = c.devices
  le : c.stop ≤ source.length
  stop : a.2 = byteOffset source c.stop

theorem finds_classAt {source : List Char} {offset : Nat} {o : Occurrence}
    (h : Ahead source offset o.after) :
    Finds (DeclaredClass.Stands source) (classAt source offset)
      (DriverClass.ofOccurrence? source.length o) := by
  refine (finds_className h).bind ?_
  rintro ⟨name, start⟩ ⟨name', text⟩ ⟨rfl, h⟩
  refine .ok_bind h.sliceFrom_eq ?_
  refine (Finds.maybe (rel_find? ['\x7d', ';'] text)).bind ?_
  rintro _ ⟨body, rest⟩ ⟨rfl, rfl⟩
  refine .ok_bind h.slice_eq ?_
  refine .lift_bind (gives_wordOffsets "void" body) fun offsets hoffsets => ?_
  refine .ok_bind (collect_eq hoffsets fun i o ho => finds_declaredDevice ho.ahead) ?_
  exact .pure ⟨rfl, rfl, Nat.sub_le _ _, h.forward.eq_byteOffset⟩

theorem gives_classesFrom {source : List Char} {resume : Nat} (hresume : resume ≤ source.length)
    {offsets : List Nat} {os : List Occurrence}
    (h : List.Forall₂ (Stands "class".toList source) offsets os) :
    Gives (List.Forall₂ fun a c => a.name = c.name ∧ a.devices = c.devices)
      (classesFrom source (byteOffset source resume) offsets)
      (DriverClass.scanFrom source.length resume os) := by
  induction h generalizing resume with
  | nil => exact gives_ok .nil
  | @cons offset o offsets os ho _ ih =>
    rw [classesFrom, DriverClass.scanFrom, ho.start]
    simp only [byteOffset_lt_iff ho.place hresume]
    split
    · exact ih hresume
    · obtain ⟨found, hfound, hrel⟩ := finds_classAt ho.ahead
      rw [← ho.start, hfound, ok_bind]
      generalize DriverClass.ofOccurrence? source.length o = y at hrel
      cases hrel with
      | none => exact ih hresume
      | @some a c hc =>
        obtain ⟨later, hlater, hall⟩ := ih hc.le
        obtain ⟨a, stop⟩ := a
        obtain rfl := hc.stop
        dsimp only
        rw [hlater]
        exact gives_ok (.cons ⟨hc.name, hc.devices⟩ hall)

theorem declarations_of_stands {a : DeclaredClass} {c : DriverClass} (hname : a.name = c.name)
    (hdevices : a.devices = c.devices) :
    a.declarations = c.devices.map (⟨c.name, c.stem, ·⟩) := by
  rw [DeclaredClass.declarations, hname, hdevices]
  rfl

theorem flatMap_declarations {as : List DeclaredClass} {cs : List DriverClass}
    (h : List.Forall₂ (fun a c => a.name = c.name ∧ a.devices = c.devices) as cs) :
    as.flatMap (·.declarations) =
      cs.flatMap fun c => c.devices.map (⟨c.name, c.stem, ·⟩) := by
  induction h with
  | nil => rfl
  | cons h _ ih =>
    rw [List.flatMap_cons, List.flatMap_cons, ih, declarations_of_stands h.1 h.2]

theorem declarations_eq (source : List Char) :
    declarations source = .ok (LcdHandhelds.declarations source) := by
  obtain ⟨offsets, hoffsets, hall⟩ := gives_wordOffsets "class" source
  obtain ⟨found, hfound, hclasses⟩ := gives_classesFrom (Nat.zero_le source.length) hall
  have hstart : classesFrom source 0 offsets = .ok found := hfound
  rw [declarations, classes, hoffsets, ok_bind, hstart, ok_bind, flatMap_declarations hclasses]
  rfl

/-! ### Constructors -/

/-- The offset of a brace, if an ASCII blank stands directly before it. -/
def closingBrace (body : List Char) (offset : Nat) : Attempt Nat := do
  if offset = 0 then failure
  else do
    let b ← byteBefore body offset
    if isAsciiBlank (Char.ofUInt8 b) then return offset else failure

/-- The trimmed body of a constructor's definition, behind the word `void`. -/
def definedBody (source : List Char) (className device : String) (offset : Nat) :
    Attempt (List Char) := do
  let r ← Reader.space ⟨source, offset⟩
  let r ← r.eat className.toList
  let r ← r.eat "::".toList
  let r ← r.eat device.toList
  let r ← r.eatNext "("
  let r ← r.eatNext "machine_config"
  let r ← r.eatNext "&"
  let r ← r.eatNext "config"
  let r ← r.eatNext ")"
  let r ← r.eatNext "\x7b"
  let body ← r.rest
  let close ← firstFound (closingBrace body) (matchOffsets ['\x7d'] body)
  return trim (← slice source r.position (r.position + close))

/-- The trimmed body of the first definition of a device's constructor. -/
def constructorBody (source : List Char) (className device : String) : Attempt (List Char) := do
  let offsets ← wordOffsets "void" source
  firstFound (fun i => definedBody source className device (i + byteLength "void".toList)) offsets

theorem onAscii_isAsciiBlank : OnAscii isAsciiBlank := by
  intro c hc
  have hother : ∀ d : Char, d.toNat < 128 → c ≠ d := fun d hd => ne_of_le hc hd
  simp [isAsciiBlank, hother]

theorem finds_closingBrace (read rest : List Char) :
    Finds (fun i body => ∃ tail, read ++ rest = body ++ tail ∧ i = byteLength body)
      (closingBrace (read ++ rest) (byteLength read))
      (if lastIs isAsciiBlank false read then some read else none) := by
  by_cases hne : read = []
  · subst hne
    exact .failure
  · obtain ⟨b, hbyte, hb⟩ := exists_byteBefore onAscii_isAsciiBlank hne rest
    rw [closingBrace, if_neg (byteLength_ne_zero hne)]
    refine .ok_bind hbyte ?_
    rw [hb]
    split
    · exact .pure ⟨rest, rfl, rfl⟩
    · exact .failure

theorem finds_bodyBefore? (read rest : List Char) :
    Finds (fun i body => ∃ tail, read ++ rest = body ++ tail ∧ i = byteLength body)
      (firstFound (closingBrace (read ++ rest))
        (matchOffsetsFrom ['\x7d'] (byteLength read) 0 rest))
      (bodyBefore? read.reverse (lastIs isAsciiBlank false read) rest) := by
  induction rest generalizing read with
  | nil => exact .failure
  | cons c rest ih =>
    have hnext := ih (read ++ [c])
    rw [lastIs_append_singleton, List.reverse_append, List.append_assoc, byteLength_append,
      byteLength_cons, byteLength_nil, Nat.add_zero] at hnext
    rw [matchOffsetsFrom, bodyBefore?_cons]
    by_cases hc : c = '\x7d'
    · subst hc
      have hfirst := (finds_closingBrace read ('\x7d' :: rest)).orElse hnext
      rw [if_pos (by rfl), firstFound]
      cases hlast : lastIs isAsciiBlank false read <;> simpa [hlast] using hfirst
    · rw [if_neg (by simpa using Ne.symm hc), if_neg (fun h => hc h.2)]
      exact hnext

theorem finds_definedBody {source rest : List Char} {offset : Nat} (className device : String)
    (h : Ahead source offset rest) :
    Finds Eq (definedBody source className device offset)
      ((definedBody? className device rest).map trim) := by
  simp only [definedBody?, Option.bind_eq_bind, Option.map_bind, Function.comp_def]
  refine (Reader.finds_space ⟨rfl, h⟩).bind fun r text h => ?_
  refine (Reader.finds_eat className.toList h).bind fun r text h => ?_
  refine (Reader.finds_eat "::".toList h).bind fun r text h => ?_
  refine (Reader.finds_eat device.toList h).bind fun r text h => ?_
  refine (Reader.finds_eatNext "(" h).bind fun r text h => ?_
  refine (Reader.finds_eatNext "machine_config" h).bind fun r text h => ?_
  refine (Reader.finds_eatNext "&" h).bind fun r text h => ?_
  refine (Reader.finds_eatNext "config" h).bind fun r text h => ?_
  refine (Reader.finds_eatNext ")" h).bind fun r text h => ?_
  refine (Reader.finds_eatNext "\x7b" h).bind fun r text h => ?_
  refine .ok_bind (Reader.rest_eq h) ?_
  rw [Option.map_eq_bind]
  refine (finds_bodyBefore? [] text).bind ?_
  rintro _ body ⟨tail, rfl, rfl⟩
  exact .ok_bind h.ahead.slice_eq (.pure rfl)

theorem constructorBody_eq (source : List Char) (className device : String) :
    (constructorBody source className device).run =
      .ok (constructorBody? source className device) := by
  refine Finds.eq_iff.1 (.lift_bind (gives_wordOffsets "void" source) fun offsets h => ?_)
  exact finds_firstFound h fun i o ho => finds_definedBody className device ho.ahead

end LcdHandhelds.Bytewise
