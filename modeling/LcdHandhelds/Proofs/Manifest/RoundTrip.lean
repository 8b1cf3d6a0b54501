import LcdHandhelds.Manifest.Json
import LcdHandhelds.Proofs.Json.Record
import LcdHandhelds.Proofs.Table

/-!
The JSON form of a manifest loses nothing. Each part is read back from what is written for it, and
what is written can be printed and read as text.
-/
namespace LcdHandhelds

open Json

theorem Json.optional?_text (x : Option String) :
    optional? text? (x.map ofString) = some x :=
  have hread (s : String) : text? (ofString s) = some s := rfl
  have hnull (s : String) : ofString s ≠ null := nofun
  optional?_map hread hnull x

theorem Json.optional?_uint64 (x : Option UInt64) :
    optional? uint64? (x.map fun i => .ofNat i.toNat) = some x :=
  have hnull (i : UInt64) : Json.ofNat i.toNat ≠ null := nofun
  optional?_map Numeral.uint64?_ofNat hnull x

namespace Switch

theorem printable_toJson (s : Switch) : s.toJson.Printable := by
  refine .record ?_
  cases s.name <;> simp [optionalField, Printable.ofString, Printable.bool]

theorem depth_toJson_le (s : Switch) : s.toJson.depth ≤ 1 := by
  refine depth_record_le ?_
  cases s.name <;> simp [optionalField, ofString, depth]

theorem toJson_ne_null (s : Switch) : s.toJson ≠ null := record_ne_null _

theorem read?_toJson (isNothing : Json → Bool) (s : Switch) :
    read? isNothing s.toJson = some s := by
  rw [toJson, read?, fields?_record]
  · simp [List.lookup_cons, lookup_optionalField, required?, optional?_text, name?, bool?, ofString,
      Action.ofName?_name]
  · cases s.name <;> simp [optionalField]

end Switch

namespace Port

theorem exists_eq_slots {α : Type} (v : Vector α 4) : ∃ a b c d, v = #v[a, b, c, d] := by
  obtain ⟨⟨l⟩, h⟩ := v
  match l, h with
  | [a, b, c, d], _ => exact ⟨a, b, c, d, rfl⟩

/-- The value of a slot or of a line. -/
def switchJson (s : Option Switch) : Json := .ofOption (s.map Switch.toJson)

theorem printable_switchJson (s : Option Switch) : (switchJson s).Printable := by
  cases s with
  | none => exact .null
  | some s => exact s.printable_toJson

theorem depth_switchJson_le (s : Option Switch) : (switchJson s).depth ≤ 1 := by
  cases s with
  | none => exact Nat.zero_le _
  | some s => exact s.depth_toJson_le

theorem inPort?_switchJson (s : Option Switch) :
    optional? Switch.inPort? (some (switchJson s)) = some s :=
  optional?_ofOption (Switch.read?_toJson _) Switch.toJson_ne_null s

theorem slots?_array (slots : Vector (Option Switch) 4) :
    slots? (.array (slots.toList.map switchJson)) = some slots := by
  obtain ⟨a, b, c, d, rfl⟩ := exists_eq_slots slots
  simp [slots?, inPort?_switchJson]

/-- The fields of a port beside its tag. -/
def fields : Port → List (String × Json)
  | row index slots =>
    [("index", .ofNat index.toNat), ("bitmap", .array (slots.toList.map switchJson))]
  | line _ switch => [("bit", switchJson switch)]

def tag : Port → String
  | row _ _ => "s"
  | line l _ => l.name

theorem toJson_eq (p : Port) : p.toJson = .record (("type", .ofString p.tag) :: p.fields) := by
  cases p <;> rfl

theorem printable_fields (p : Port) : ∀ f ∈ p.fields, f.2.Printable := by
  cases p with
  | row index slots =>
    have hslots : (Json.array (slots.toList.map switchJson)).Printable :=
      .array (List.forall_mem_map.2 fun s _ => printable_switchJson s)
    simp [fields, Printable.ofUInt64, hslots]
  | line l switch => simp [fields, printable_switchJson]

theorem depth_fields_le (p : Port) : ∀ f ∈ p.fields, f.2.depth ≤ 2 := by
  cases p with
  | row index slots =>
    have hslots : (Json.array (slots.toList.map switchJson)).depth ≤ 2 :=
      depth_array_le (List.forall_mem_map.2 fun s _ => depth_switchJson_le s)
    exact List.forall_mem_cons.2 ⟨Nat.zero_le _, List.forall_mem_singleton.2 hslots⟩
  | line l switch => simpa [fields] using Nat.le_succ_of_le (depth_switchJson_le switch)

theorem printable_toJson (p : Port) : p.toJson.Printable := by
  rw [toJson_eq]
  exact .record (List.forall_mem_cons.2 ⟨.ofString _, p.printable_fields⟩)

theorem tagged?_toJson (p : Port) :
    p.toJson.tagged? deepest = some (p.tag, .record p.fields) := by
  rw [toJson_eq]
  exact tagged?_record _ (by cases p <;> simp [fields]) p.printable_fields p.depth_fields_le
    (by decide)

theorem line?_fields (l : Line) (switch : Option Switch) :
    line? l (.record (line l switch).fields) = some (line l switch) := by
  rw [line?, fields?_record]
  · simp [fields, List.lookup_cons, inPort?_switchJson]
  · simp [fields]

theorem ofJson?_toJson (p : Port) : ofJson? p.toJson = some p := by
  rw [ofJson?, ofJsonWithin?, tagged?_toJson]
  cases p with
  | row index slots =>
    simp only [Option.bind_eq_bind, Option.bind_some, tag, ↓reduceIte]
    rw [fields?_record]
    · simp [fields, List.lookup_cons, required?, uint64?, Json.ofNat, Numeral.uint64?_ofNat,
        slots?_array]
    · simp [fields]
  | line l switch => cases l <;> simp [tag, Line.name, line?_fields]

end Port

namespace PortMap

theorem printable_toJson (m : PortMap) : m.toJson.Printable := by
  refine .record ?_
  have hports : (Json.array (m.ports.map Port.toJson)).Printable :=
    .array (List.forall_mem_map.2 fun p _ => p.printable_toJson)
  cases m.inherits <;> cases m.groundedRow <;>
    simp [optionalField, hports, Printable.ofString, Printable.ofUInt64]

theorem ofJson?_toJson (m : PortMap) : ofJson? m.toJson = some m := by
  have hports : (m.ports.map Port.toJson).mapM Port.ofJson? = some m.ports :=
    mapM_map_eq_some fun p _ => p.ofJson?_toJson
  rw [toJson, ofJson?, fields?_record]
  · simp [List.lookup_append, List.lookup_cons, lookup_optionalField, required?, items?, hports,
      optional?_text, optional?_uint64]
  · cases m.inherits <;> cases m.groundedRow <;> simp [optionalField]

end PortMap

/-- Both sides are read back. -/
def Size.ReadsBack (s : Size) : Prop := s.width.ReadsBack ∧ s.height.ReadsBack

instance (s : Size) : Decidable s.ReadsBack :=
  inferInstanceAs (Decidable (s.width.ReadsBack ∧ s.height.ReadsBack))

namespace Size

theorem printable_fields {s : Size} (h : s.ReadsBack) : ∀ f ∈ s.fields, f.2.Printable := by
  simp [fields, Binary64.toJson, Printable.ofBinary64 h.1, Printable.ofBinary64 h.2]

theorem depth_fields_le (s : Size) : ∀ f ∈ s.fields, f.2.depth ≤ 0 := by
  simp [fields, Binary64.toJson, depth]

theorem printable_toJson {s : Size} (h : s.ReadsBack) : s.toJson.Printable :=
  .record (printable_fields h)

theorem depth_toJson_le (s : Size) : s.toJson.depth ≤ 1 := depth_record_le s.depth_fields_le

theorem ofJson?_toJson {s : Size} (h : s.ReadsBack) : ofJson? s.toJson = some s := by
  have hwidth : (Numeral.ofBinary64 s.width).binary64? = some s.width := h.1
  have hheight : (Numeral.ofBinary64 s.height).binary64? = some s.height := h.2
  rw [toJson, ofJson?, fields?_record]
  · simp [fields, List.lookup_cons, required?, binary64?, Binary64.toJson, hwidth, hheight]
  · simp [fields]

end Size

/-- Every size of the screen is read back. -/
def Screen.ReadsBack : Screen → Prop
  | single size => size.ReadsBack
  | dualVertical top bottom => top.ReadsBack ∧ bottom.ReadsBack
  | dualHorizontal left right => left.ReadsBack ∧ right.ReadsBack

namespace Screen

instance : DecidablePred ReadsBack
  | single size => inferInstanceAs (Decidable size.ReadsBack)
  | dualVertical top bottom => inferInstanceAs (Decidable (top.ReadsBack ∧ bottom.ReadsBack))
  | dualHorizontal left right => inferInstanceAs (Decidable (left.ReadsBack ∧ right.ReadsBack))

section Panels

variable {s t : Size} {a b : String}

theorem printable_panels (hs : s.ReadsBack) (ht : t.ReadsBack) :
    ∀ f ∈ [(a, s.toJson), (b, t.toJson)], f.2.Printable := by
  simp [Size.printable_toJson hs, Size.printable_toJson ht]

theorem tagged?_panels (tag : String) (hs : s.ReadsBack) (ht : t.ReadsBack) (ha : a ≠ "type")
    (hb : b ≠ "type") :
    tagged? deepest (.record [("type", .ofString tag), (a, s.toJson), (b, t.toJson)]) =
      some (tag, .record [(a, s.toJson), (b, t.toJson)]) := by
  refine tagged?_record (d := 1) tag ?_ (printable_panels hs ht) ?_ (by decide)
  · simp [ha.symm, hb.symm]
  · simp [Size.depth_toJson_le]

theorem fields?_panels (h : a ≠ b) :
    fields? [a, b] 2 (.record [(a, s.toJson), (b, t.toJson)]) =
      some [some s.toJson, some t.toJson] := by
  rw [fields?_record]
  · simp [List.lookup_cons, beq_eq_false_iff_ne.2 h.symm]
  · simp [h]

end Panels

theorem printable_toJson {s : Screen} (h : s.ReadsBack) : s.toJson.Printable := by
  cases s with
  | single size =>
    exact .record (List.forall_mem_cons.2 ⟨.ofString _, Size.printable_fields h⟩)
  | dualVertical top bottom =>
    exact .record (List.forall_mem_cons.2 ⟨.ofString _, printable_panels h.1 h.2⟩)
  | dualHorizontal left right =>
    exact .record (List.forall_mem_cons.2 ⟨.ofString _, printable_panels h.1 h.2⟩)

theorem ofJson?_toJson {s : Screen} (h : s.ReadsBack) : ofJson? s.toJson = some s := by
  cases s with
  | single size =>
    have htagged : (single size).toJson.tagged? deepest = some ("single", size.toJson) :=
      tagged?_record _ (by simp [Size.fields]) (Size.printable_fields h) size.depth_fields_le
        (by decide)
    simp [ofJson?, htagged, Size.ofJson?_toJson h]
  | dualVertical top bottom =>
    rw [ofJson?, toJson, tagged?_panels _ h.1 h.2 (by decide) (by decide)]
    simp [fields?_panels, required?, Size.ofJson?_toJson h.1, Size.ofJson?_toJson h.2]
  | dualHorizontal left right =>
    rw [ofJson?, toJson, tagged?_panels _ h.1 h.2 (by decide) (by decide)]
    simp [fields?_panels, required?, Size.ofJson?_toJson h.1, Size.ofJson?_toJson h.2]

end Screen

namespace Hardware

theorem printable_toJson {h : Hardware} (hsizes : h.screen.ReadsBack) : h.toJson.Printable :=
  .record (by simp [Printable.ofString, Screen.printable_toJson hsizes])

theorem ofJson?_toJson {h : Hardware} (hsizes : h.screen.ReadsBack) :
    ofJson? h.toJson = some h := by
  rw [toJson, ofJson?, fields?_record]
  · simp [List.lookup_cons, required?, name?, ofString, Cpu.ofName?_name,
      Screen.ofJson?_toJson hsizes]
  · simp

end Hardware

namespace Release

theorem printable_toJson (r : Release) : r.toJson.Printable :=
  .record (by simp [Printable.ofString])

theorem ofJson?_toJson (r : Release) : ofJson? r.toJson = some r := by
  rw [toJson, ofJson?, fields?_record]
  · simp [List.lookup_cons, required?, text?, ofString]
  · simp

end Release

namespace RomRecord

theorem printable_toJson (r : RomRecord) : r.toJson.Printable := by
  refine .record ?_
  cases r.melody <;> cases r.owner <;> simp [optionalField, Printable.ofString]

theorem ofJson?_toJson (r : RomRecord) : ofJson? r.toJson = some r := by
  rw [toJson, ofJson?, fields?_record]
  · simp [List.lookup_append, List.lookup_cons, lookup_optionalField, required?, text?, ofString,
      optional?_text]
  · cases r.melody <;> cases r.owner <;> simp [optionalField]

end RomRecord

namespace Profile

variable {p : Profile}

theorem printable_toJson (h : p.hardware.screen.ReadsBack) : p.toJson.Printable := by
  refine .record ?_
  have hhardware := Hardware.printable_toJson h
  cases p.release <;>
    simp [optionalField, hhardware, PortMap.printable_toJson, Release.printable_toJson,
      RomRecord.printable_toJson]

theorem ofJson?_toJson (h : p.hardware.screen.ReadsBack) : ofJson? p.toJson = some p := by
  have hrelease := optional?_map Release.ofJson?_toJson (fun _ => record_ne_null _) p.release
  rw [toJson, ofJson?, fields?_record]
  · simp [List.lookup_append, List.lookup_cons, lookup_optionalField, required?,
      Hardware.ofJson?_toJson h, PortMap.ofJson?_toJson, RomRecord.ofJson?_toJson, hrelease]
  · cases p.release <;> simp [optionalField]

end Profile

namespace Manifest

/-- Every size in the manifest is read back. -/
def SizesReadBack (m : Manifest) : Prop := ∀ p ∈ m.values, p.hardware.screen.ReadsBack

instance (m : Manifest) : Decidable m.SizesReadBack :=
  inferInstanceAs (Decidable (∀ p ∈ m.values, p.hardware.screen.ReadsBack))

variable {m : Manifest}

theorem printable_toJson (h : m.SizesReadBack) : (toJson m).Printable := by
  refine .record (List.forall_mem_map.2 fun e he => ?_)
  exact Profile.printable_toJson (h e.2 (List.mem_map_of_mem he))

theorem ofJson?_toJson (h : m.SizesReadBack) : ofJson? (toJson m) = some m := by
  rw [toJson, record, List.map_map, ofJson?, mapM_map_eq_some, Option.bind_eq_bind,
    Option.bind_some, Table.ofList_entries]
  · rfl
  · intro e he
    have hsize := h e.2 (List.mem_map_of_mem he)
    simp [Profile.ofJson?_toJson hsize]

theorem parse?_toText (h : m.SizesReadBack) : parse? m.toText = some m := by
  rw [parse?, toText, Json.parse?_toText (printable_toJson h), Option.bind_some,
    ofJson?_toJson h]

/-- Reads a manifest and writes it again. -/
def normalize? (text : String) : Option String := (parse? text).map toText

/--
The text of a manifest is read as the manifest. So a text that spells a manifest, in whatever layout,
order of fields or number format, is brought into a form that does not change again.
-/
theorem lossless_toText :
    (∀ m : Manifest, m.SizesReadBack → parse? m.toText = some m) ∧
      ∀ (text : String) (m : Manifest), parse? text = some m → m.SizesReadBack →
        normalize? text = some m.toText ∧ normalize? m.toText = some m.toText := by
  refine ⟨fun m => parse?_toText, fun text m hm hsizes => ⟨?_, ?_⟩⟩
  · rw [normalize?, hm, Option.map_some]
  · rw [normalize?, parse?_toText hsizes, Option.map_some]

/-- One manifest with records as arrays, fields in another order, escapes, and the greatest rows. -/
def oddText : String :=
  "\x7b\"q\\\"\\\\\\u0001\\ud83d\\ude00\": \x7b\"rom\": [\"\\/\", null, \"e\"], " ++
  "\"device\": \x7b\"screen\": [\"dualVertical\", \x7b\"height\": 8.555e2, \"width\": 1671\x7d, " ++
  "[0.3333333333333333, -0]], \"cpu\": \x7b\"sm510_tiger\": null\x7d\x7d, " ++
  "\"portMap\": [[\x7b\"index\": 18446744073709551615, \"bitmap\": [null, null, " ++
  "[\x7b\"joyUp\": \x7b\x7d\x7d, false], null], \"type\": \"s\"\x7d, [\"acl\", null]], " ++
  "null, 18446744073709551615]\x7d\x7d"

theorem lossless_toText_oddText :
    ∃ m : Manifest, m.keys = ["q\"\\\x01😀"] ∧ m.SizesReadBack ∧ parse? oddText = some m ∧
      parse? m.toText = some m ∧ normalize? oddText = some m.toText ∧
      normalize? m.toText = some m.toText := by
  have h : (parse? oddText).any fun m => m.keys = ["q\"\\\x01😀"] ∧ m.SizesReadBack := by
    unfold parse? oddText
    simp only [String.toList_append]
    repeat rw [String.toList_ofList]
    decide +kernel
  obtain ⟨m, hm, hall⟩ := (Option.any_eq_true _ _).1 h
  obtain ⟨hkeys, hsizes⟩ := of_decide_eq_true hall
  exact ⟨m, hkeys, hsizes, hm, lossless_toText.1 m hsizes, lossless_toText.2 oddText m hm hsizes⟩

end Manifest

end LcdHandhelds
