import LcdHandhelds.Json.Record
import LcdHandhelds.Proofs.Json.RoundTrip

/-!
Records are taken out of the JSON that is written for them: the fields of a record whose names differ
are found by name, those of a tagged one after its tag, and optional ones as they were left out.
-/
namespace LcdHandhelds.Json

section Sound

theorem areSoundItems_iff {items : List Json} : areSoundItems items ↔ ∀ j ∈ items, j.isSound := by
  induction items with
  | nil => simp [areSoundItems]
  | cons j items ih => simp [areSoundItems, ih]

theorem areSoundFields_iff {fields : List (Option String × Json)} :
    areSoundFields fields ↔ ∀ f ∈ fields, f.1.isSome ∧ f.2.isSound := by
  induction fields with
  | nil => simp [areSoundFields]
  | cons f fields ih =>
    obtain ⟨key, j⟩ := f
    simp [areSoundFields, ih]

theorem Printable.isSound {j : Json} (h : j.Printable) : j.isSound := by
  induction h with
  | null => rfl
  | bool b => rfl
  | number _ finite => exact finite
  | string s => rfl
  | array _ ih => exact areSoundItems_iff.2 ih
  | object keys _ ih => exact areSoundFields_iff.2 fun f hf => ⟨keys f hf, ih f hf⟩

theorem Printable.ofString (s : String) : (ofString s).Printable := .string s

theorem Printable.ofUInt64 (i : UInt64) : (ofNat i.toNat).Printable :=
  .number (.ofNat _) (Numeral.isSome_binary64?_ofNat i.toNat_lt_size)

theorem Printable.ofBinary64 {x : Binary64} (h : x.ReadsBack) :
    (Json.number (.ofBinary64 x)).Printable :=
  .number (.ofBinary64 h) (Option.isSome_iff_exists.2 ⟨x, h⟩)

theorem Printable.record {fields : List (String × Json)} (h : ∀ f ∈ fields, f.2.Printable) :
    (record fields).Printable := by
  refine .object ?_ ?_ <;> rw [List.forall_mem_map]
  · exact fun _ _ => rfl
  · exact h

end Sound

section Depth

variable {d : Nat}

theorem depth_array_le {items : List Json} (h : ∀ j ∈ items, j.depth ≤ d) :
    (array items).depth ≤ d + 1 := by
  have hitems : depthOfItems items ≤ d := by
    induction items with
    | nil => exact Nat.zero_le _
    | cons j items ih =>
      obtain ⟨hj, hitems⟩ := List.forall_mem_cons.1 h
      exact Nat.max_le.2 ⟨hj, ih hitems⟩
  exact Nat.add_le_add_right hitems 1

theorem depth_record_le {fields : List (String × Json)} (h : ∀ f ∈ fields, f.2.depth ≤ d) :
    (record fields).depth ≤ d + 1 := by
  have hfields : depthOfFields (fields.map fun f => (some f.1, f.2)) ≤ d := by
    induction fields with
    | nil => exact Nat.zero_le _
    | cons f fields ih =>
      obtain ⟨hf, hfields⟩ := List.forall_mem_cons.1 h
      exact Nat.max_le.2 ⟨hf, ih hfields⟩
  exact Nat.add_le_add_right hfields 1

end Depth

section Fields

variable {fields : List (String × Json)}

theorem countKey_map (key : String) :
    countKey key (fields.map fun f => (some f.1, f.2)) = (fields.map (·.1)).count key := by
  rw [countKey, List.count_eq_countP, List.countP_map, List.filter_map, List.length_map,
    ← List.countP_eq_length_filter]
  exact List.countP_congr fun f _ => by simp

theorem lookup_map (key : String) :
    (fields.map fun f => (some f.1, f.2)).lookup (some key) = fields.lookup key := by
  induction fields with
  | nil => rfl
  | cons f fields ih =>
    obtain ⟨name, j⟩ := f
    simp [List.lookup_cons, ih]

/-- The fields of a record without repetition are found by their names. -/
theorem fields?_record (names : List String) (least : Nat) (h : (fields.map (·.1)).Nodup) :
    fields? names least (record fields) = some (names.map (List.lookup · fields)) := by
  have hkeys : (fields.map fun f => (some f.1, f.2)).all (·.1.isSome) := by simp
  have hcount : names.all fun key => countKey key (fields.map fun f => (some f.1, f.2)) ≤ 1 := by
    simpa [countKey_map] using fun key _ => List.nodup_iff_count.1 h key
  simp [record, fields?, hkeys, hcount, lookup_map]

/-- A tagged record is taken apart into its tag and the other fields. -/
theorem tagged?_record {d deepest : Nat} (tag : String) (hkeys : "type" ∉ fields.map (·.1))
    (hprint : ∀ f ∈ fields, f.2.Printable) (hdepth : ∀ f ∈ fields, f.2.depth ≤ d)
    (hd : d < deepest) :
    tagged? deepest (record (("type", ofString tag) :: fields)) = some (tag, record fields) := by
  have hsound : (record (("type", ofString tag) :: fields)).isSound :=
    (Printable.record (List.forall_mem_cons.2 ⟨.ofString tag, hprint⟩)).isSound
  have hdeep : (record (("type", ofString tag) :: fields)).depth ≤ deepest :=
    Nat.le_trans (depth_record_le (List.forall_mem_cons.2 ⟨Nat.zero_le d, hdepth⟩)) hd
  have hcount :
      countKey "type" ((("type", ofString tag) :: fields).map fun f => (some f.1, f.2)) = 1 := by
    rw [countKey_map, List.map_cons, List.count_cons_self, List.count_eq_zero.2 hkeys]
  have hlookup : ((("type", ofString tag) :: fields).map fun f => (some f.1, f.2)).lookup
      (some "type") = some (ofString tag) := by
    rw [lookup_map, List.lookup_cons_self]
  have hrest : ((("type", ofString tag) :: fields).map fun f => (some f.1, f.2)).filter
      (·.1 ≠ some "type") = fields.map fun f => (some f.1, f.2) := by
    rw [List.map_cons, List.filter_cons_of_neg (by simp), List.filter_eq_self, List.forall_mem_map]
    intro f hf
    have hne : f.1 ≠ "type" := fun h => hkeys (h ▸ List.mem_map_of_mem hf)
    simpa using hne
  simp only [tagged?, hsound, hdeep, decide_true, Bool.and_self, ↓reduceIte]
  simp only [record, hcount, hlookup, hrest, ↓reduceIte]
  rfl

theorem record_ne_null (fields : List (String × Json)) : record fields ≠ null := nofun

theorem optional?_map {α : Type} {read : Json → Option α} {write : α → Json}
    (h : ∀ a, read (write a) = some a) (hnull : ∀ a, write a ≠ null) (x : Option α) :
    optional? read (x.map write) = some x := by
  cases x with
  | none => rfl
  | some a =>
    have hread : optional? read (some (write a)) = (read (write a)).map some := by
      rw [optional?]
      exact hnull a
    rw [Option.map_some, hread, h, Option.map_some]

theorem optional?_ofOption {α : Type} {read : Json → Option α} {write : α → Json}
    (h : ∀ a, read (write a) = some a) (hnull : ∀ a, write a ≠ null) (x : Option α) :
    optional? read (some (ofOption (x.map write))) = some x := by
  cases x with
  | none => rfl
  | some a => exact optional?_map h hnull (some a)

theorem lookup_optionalField (name key : String) (x : Option Json) :
    (optionalField name x).lookup key = if key = name then x else none := by
  cases x with
  | none => simp [optionalField]
  | some j =>
    rw [optionalField, List.lookup_cons, List.lookup_nil]
    by_cases hkey : key = name
    · rw [if_pos hkey, beq_iff_eq.2 hkey]
    · rw [if_neg hkey, beq_eq_false_iff_ne.2 hkey]

theorem mapM_map_eq_some {α β : Type} {read : β → Option α} {write : α → β} {l : List α}
    (h : ∀ a ∈ l, read (write a) = some a) : (l.map write).mapM read = some l := by
  induction l with
  | nil => rfl
  | cons a l ih =>
    obtain ⟨ha, hl⟩ := List.forall_mem_cons.1 h
    simp only [List.map_cons, List.mapM_cons, ha, ih hl, Option.bind_eq_bind, Option.bind_some,
      Option.pure_def]

end Fields

end LcdHandhelds.Json
