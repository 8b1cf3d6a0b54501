import LcdHandhelds.Proofs.Description.Basic
import LcdHandhelds.Proofs.Except
import LcdHandhelds.Proofs.Machine.DriverClass
import LcdHandhelds.Proofs.Machine.Preset
import LcdHandhelds.Wiring.Grounding

/-!
The constructor of a description: it is the definition of the device's constructor and of no other,
and its body gives the described hardware and says whether the last row is grounded.
-/
namespace LcdHandhelds

open Text

namespace Description

variable {d : Description}

/-- The processor of the preset, and panels of the sizes that are nearest to the written ones. -/
def hardware? (d : Description) : Option Hardware :=
  (d.sizes.mapM Binary64.ofNat?).bind d.preset.build?

/-! ### The lines of the constructor -/

theorem isArgument_size {a : List Char} (ha : a ∈ d.sizes.map (Nat.toDigits 10)) :
    IsArgument a := by
  obtain ⟨n, -, rfl⟩ := List.mem_map.1 ha
  exact (isToken_toDigits n).isArgument

theorem oneLine_presetText (h : d.Valid) : OneLine d.presetText := by
  have hargs : ∀ a ∈ "config".toList :: d.sizes.map (Nat.toDigits 10), OneLine a := by
    refine List.forall_mem_cons.2 ⟨by decide, fun a ha => ?_⟩
    obtain ⟨n, -, rfl⟩ := List.mem_map.1 ha
    exact (isToken_toDigits n).oneLine
  exact (oneLine_callText (isToken_presetName h.preset).oneLine (by decide) (by decide)
    hargs).append (by decide)

theorem trim_constructorBody (h : d.Valid) : trim d.constructorBody = d.constructorBody := by
  have hfirst : ∃ more, d.constructorBody = d.preset.name.toList ++ more := by
    rw [constructorBody, presetText, callText]
    simp only [List.append_assoc]
    exact ⟨_, rfl⟩
  have hlast : ∃ front, d.constructorBody = front ++ [';'] := by
    rw [constructorBody, markerText]
    cases d.grounded with
    | false => exact ⟨_, List.append_nil _⟩
    | true => exact ⟨_, (List.append_assoc d.presetText
        ('\n' :: '\t' :: callText defaultMarker.toList [] [] []) [';']).symm⟩
  obtain ⟨more, hmore⟩ := hfirst
  obtain ⟨front, hfront⟩ := hlast
  obtain ⟨c, name, hname⟩ := List.exists_cons_of_ne_nil (isToken_presetName h.preset).ne_nil
  have hc : isWordChar c :=
    List.all_eq_true.1 (isToken_presetName h.preset).word c (hname ▸ List.mem_cons_self)
  refine trim_of_ends ?_ (hfront ▸ List.getLast?_concat) (isBlank_of_isWordChar hc)
    (by decide : isBlank ';' = false)
  rw [hmore, hname]
  rfl

theorem constructorLines_constructorBody (h : d.Valid) :
    ∃ more, constructorLines d.constructorBody = d.presetText :: more ∧
      more.length = if d.grounded then 1 else 0 := by
  have hpreset : OneLine d.presetText ∧ d.presetText ≠ [] :=
    ⟨oneLine_presetText h, List.append_ne_nil_of_right_ne_nil _ (List.cons_ne_nil _ _)⟩
  rw [constructorLines, trim_constructorBody h, constructorBody, markerText]
  cases d.grounded with
  | false => exact ⟨[], @lines_append_flatMap d.presetText [] hpreset (by simp), rfl⟩
  | true =>
    have hmarker : ∀ l ∈ ['\t' :: (callText defaultMarker.toList [] [] [] ++ [';'])],
        OneLine l ∧ l ≠ [] := by
      decide
    exact ⟨_, lines_append_flatMap hpreset hmarker, rfl⟩

/-! ### What the body says -/

theorem ofConstructor_constructorBody (h : d.Valid) :
    ∃ hardware, d.hardware? = some hardware ∧
      Hardware.ofConstructor d.constructorBody = .ok hardware := by
  obtain ⟨values, hvalues, hlength, hread⟩ := mapM_sizeArgument?_toDigits h.sizes
  obtain ⟨hardware, hbuild⟩ := Preset.exists_build? (hlength.trans h.arity)
  obtain ⟨more, hlines, -⟩ := constructorLines_constructorBody h
  have hcall : presetCall? d.presetText =
      some (d.preset.name, d.sizes.map (Nat.toDigits 10)) := by
    rw [presetText, presetCall?_callText (isToken_presetName h.preset)
      (fun a ha => isArgument_size ha), String.ofList_toList]
  refine ⟨hardware, by rw [hardware?, hvalues, Option.bind_some, hbuild], ?_⟩
  rw [Hardware.ofConstructor, hlines, List.headD_cons, hcall]
  dsimp only
  rw [Preset.find?_name _ h.preset]
  dsimp only
  refine bind_eq_ok_iff.2 ⟨values, hread, ?_⟩
  rw [hbuild]
  rfl

theorem lineNotes_constructorBody (h : d.Valid) :
    lineNotes d.constructorBody = if d.grounded then [.extraConstructorLines] else [] := by
  obtain ⟨more, hlines, hmore⟩ := constructorLines_constructorBody h
  rw [lineNotes, hlines, List.length_cons, hmore]
  cases d.grounded <;> rfl

theorem marker_notMem_words_presetText (h : d.Valid) :
    defaultMarker.toList ∉ words d.presetText := by
  have hname := isToken_presetName h.preset
  have hother : ∀ p ∈ Preset.all, defaultMarker.toList ≠ p.name.toList := by decide
  have hwords : words d.presetText = d.preset.name.toList ::
      ("config".toList :: d.sizes.map (Nat.toDigits 10)).flatMap words := by
    rw [presetText, words_append_cons (by decide), words_callText hname.word hname.ne_nil rfl rfl]
    exact List.append_nil _
  rw [hwords, List.mem_cons, List.flatMap_cons, List.mem_append, not_or, not_or]
  refine ⟨hother _ h.preset, by decide, fun hmem => ?_⟩
  obtain ⟨a, ha, hmem⟩ := List.mem_flatMap.1 hmem
  obtain ⟨n, -, rfl⟩ := List.mem_map.1 ha
  rw [(isToken_toDigits n).words_eq, List.mem_singleton] at hmem
  have hdigits : defaultMarker.toList.all Char.isDigit := List.all_eq_true.2 fun c hc =>
    Nat.isDigit_of_mem_toDigits (by decide) (by decide) (hmem ▸ hc)
  exact absurd hdigits (by decide)

theorem marks_constructorBody (h : d.Valid) :
    marks defaultMarker d.constructorBody = d.grounded := by
  rw [marks, constructorBody, calls_append (by decide) (by decide) d.ended_presetText
    (marker_notMem_words_presetText h), List.any_map, markerText]
  cases d.grounded with
  | false => rfl
  | true =>
    change (calls defaultMarker ('\n' :: '\t' ::
      (callText defaultMarker.toList [] [] [] ++ [';']))).any (·.args.all isBlank) = true
    decide

/-! ### The definition -/

theorem brace_notMem_constructorBody (h : d.Valid) : '\x7d' ∉ d.constructorBody := by
  have hargs : ∀ a ∈ "config".toList :: d.sizes.map (Nat.toDigits 10), '\x7d' ∉ a := by
    refine List.forall_mem_cons.2 ⟨by decide, fun a ha => ?_⟩
    obtain ⟨n, -, rfl⟩ := List.mem_map.1 ha
    exact (isToken_toDigits n).notMem (by decide)
  have hcall := @notMem_callText '\x7d' (by decide) _ [] [] _
    ((isToken_presetName h.preset).notMem (by decide)) List.not_mem_nil List.not_mem_nil hargs
  have hmarker : '\x7d' ∉ d.markerText := by
    rw [markerText]
    split <;> decide
  exact List.not_mem_append (List.not_mem_append hcall (by decide)) hmarker

/-- The block of a constructor is its lines with blanks around them. -/
theorem bodyAfterName?_constructorBlock (h : d.Valid) (rest : List Char) :
    bodyAfterName? ('(' :: ("machine_config &config)\n\x7b".toList ++ d.constructorBlock) ++ rest) =
      some ("\n\t".toList ++ d.constructorBody ++ ['\n']) := by
  have hbrace : '\x7d' ∉ "\n\t".toList ++ d.constructorBody :=
    List.not_mem_append (by decide) (brace_notMem_constructorBody h)
  have htext : d.constructorBlock ++ rest =
      ("\n\t".toList ++ d.constructorBody) ++ '\n' :: '\x7d' :: '\n' :: rest := by
    unfold constructorBlock
    rw [List.append_assoc, List.append_assoc]
    rfl
  rw [List.cons_append, List.append_assoc, bodyAfterName?_parameter, htext,
    bodyBefore?_of_notMem hbrace]
  rfl

section Definition

variable {className device : String} (hclass : className.toList.all isWordChar)
  (hdevice : device.toList.all isWordChar)

include hclass hdevice

theorem definedBody?_constructorRest (h : d.Valid) (rest : List Char) :
    definedBody? className device (' ' :: (d.constructorRest ++ rest)) =
      if className.toList = d.className then
        if device.toList = d.id then some ("\n\t".toList ++ d.constructorBody ++ ['\n']) else none
      else none := by
  unfold constructorRest
  rw [List.append_assoc, List.cons_append, definedBody?_token hclass (isToken_className h)
    (by decide), List.cons_append, List.append_assoc, List.cons_append,
    bodyAfterClass?_token hdevice h.id.isToken (by decide), ← List.cons_append,
    bodyAfterName?_constructorBlock h]

/-- The constructor of a description is found under the names of its class and its device. -/
theorem constructorBody?_constructorText (h : d.Valid) (rest : List Char) :
    constructorBody? (d.constructorText ++ rest) className device =
      if className.toList = d.className ∧ device.toList = d.id then some d.constructorBody
      else constructorBody? rest className device := by
  have hskip : constructorBody? (d.constructorRest ++ rest) className device =
      constructorBody? rest className device :=
    constructorBody?_append d.ended_constructorRest
      ((opens_constructorRest h).notMem (by decide) List.not_mem_nil) rest className device
  have htrim : trim ("\n\t".toList ++ d.constructorBody ++ ['\n']) = d.constructorBody := by
    rw [trim_append_blank (by decide) (by decide), trim_constructorBody h]
  rw [constructorText, List.append_assoc, List.cons_append, constructorBody?_void,
    definedBody?_constructorRest hclass hdevice h, hskip]
  by_cases hc : className.toList = d.className
  · by_cases hd : device.toList = d.id
    · rw [if_pos hc, if_pos hd, if_pos ⟨hc, hd⟩, Option.map_some, htrim, Option.some_or]
    · rw [if_pos hc, if_neg hd, if_neg fun hboth => hd hboth.2, Option.map_none, Option.none_or]
  · rw [if_neg hc, if_neg fun hboth => hc hboth.1, Option.map_none, Option.none_or]

end Definition

end Description

end LcdHandhelds
