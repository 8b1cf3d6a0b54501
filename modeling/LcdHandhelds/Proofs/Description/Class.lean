import LcdHandhelds.Proofs.Description.Basic
import LcdHandhelds.Proofs.Machine.DriverClass

/-!
The class of a description: it declares the constructor of its device and defines none.
-/
namespace LcdHandhelds

open Text

namespace Description

variable {d : Description}

theorem devices_of_body (h : d.Valid) {c : DriverClass} (hc : c.body = d.classBody) :
    c.devices = [String.ofList d.id] := by
  have hafter : Opens [] (d.id ++ '(' :: "machine_config &config); ".toList) :=
    h.id.isToken.opens.append_cons (by decide) opens_parameter
  have hnone : occurrences "void" (d.id ++ '(' :: "machine_config &config); ".toList) = [] :=
    occurrences_eq_nil (by decide) (by decide) (Ended.append_cons (by decide) d.id)
      (hafter.notMem (by decide) List.not_mem_nil)
  have hhead : "void".toList ∉ words " public hh_sm510_state \x7b ".toList := by decide
  have hdevice : declaredDevice? (' ' :: (d.id ++ '(' :: "machine_config &config); ".toList)) =
      some (String.ofList d.id) :=
    declaredDevice?_token h.id.isToken "); ".toList
  unfold classBody at hc
  rw [DriverClass.devices, hc, occurrences_append (by decide) (by decide) (by decide) hhead,
    declarationText, occurrences_word (by decide) (by decide) (by decide), hnone,
    List.filterMap_map, List.map_nil, List.filterMap_cons, Function.comp, Occurrence.shift, hdevice,
    List.filterMap_nil]

theorem brace_notMem_classBody (h : d.Valid) : '\x7d' ∉ d.classBody := by
  have hdevice : '\x7d' ∉ d.id ++ '(' :: "machine_config &config); ".toList :=
    List.not_mem_append (h.id.isToken.notMem (by decide)) (by decide)
  have hvoid : '\x7d' ∉ "void".toList ++ d.declarationText :=
    List.not_mem_append (by decide) (List.not_mem_cons_of_ne_of_not_mem (by decide) hdevice)
  exact List.not_mem_append (by decide) hvoid

theorem occurrences_classText (h : d.Valid) (rest : List Char) :
    occurrences "class" (d.classText ++ rest) = ⟨0, ' ' :: (d.classRest ++ rest)⟩ ::
      (occurrences "class" rest).map (Occurrence.shift d.classText.length) := by
  have hclass : "class".toList ∉ words d.classRest :=
    (opens_classRest h).notMem (by decide) (by decide)
  have htext : d.classText ++ rest = "class".toList ++ ' ' :: (d.classRest ++ rest) := by
    unfold classText
    rw [List.append_assoc, List.cons_append]
  have hlength : d.classText.length = "class".toList.length + 1 + d.classRest.length := by
    unfold classText
    rw [List.length_append, List.length_cons, Nat.add_assoc, Nat.add_comm 1]
  rw [htext, occurrences_word (by decide) (by decide) (by decide),
    occurrences_append (by decide) (by decide) d.ended_classRest hclass, List.map_map, hlength]
  exact congrArg _ (List.map_congr_left fun o _ => Occurrence.shift_shift _ _ o)

theorem className?_classRest (h : d.Valid) (rest : List Char) :
    className? (' ' :: (d.classRest ++ rest)) =
      some (d.className, d.classBody ++ (['\x7d', ';'] ++ '\n' :: rest)) := by
  have hstate : "_state".toList.isSuffixOf d.className = true :=
    List.isSuffixOf_iff_suffix.2 (List.suffix_append _ _)
  rw [← className?_token (isToken_className h) hstate]
  unfold classRest
  simp only [List.append_assoc, List.cons_append]
  rfl

/-- The class of a description is found in front of those of the rest. -/
theorem scan_classText (h : d.Valid) (rest : List Char) :
    ∃ c : DriverClass, c.name = String.ofList d.className ∧ c.body = d.classBody ∧
      DriverClass.scan (d.classText ++ rest) =
        c :: (DriverClass.scan rest).map (DriverClass.shift d.classText.length) := by
  have hbody : splitBefore? ['\x7d', ';'] [] (d.classBody ++ (['\x7d', ';'] ++ '\n' :: rest)) =
      some (d.classBody, ['\x7d', ';'] ++ '\n' :: rest) := by
    rw [splitBefore?_of_notMem (brace_notMem_classBody h), List.reverse_nil, List.nil_append]
  refine ⟨⟨0, String.ofList d.className, d.classBody,
    (d.classText ++ rest).length - (['\x7d', ';'] ++ '\n' :: rest).length⟩, rfl, rfl, ?_⟩
  have hstop : (d.classText ++ rest).length - (['\x7d', ';'] ++ '\n' :: rest).length ≤
      d.classText.length := by
    simp only [List.length_append, List.length_cons]
    omega
  have hlater := DriverClass.scanFrom_shifted hstop rest
  rw [← List.length_append] at hlater
  rw [DriverClass.scan, occurrences_classText h, DriverClass.scanFrom,
    if_neg (Nat.not_lt_zero _), DriverClass.ofOccurrence?_eq, className?_classRest h,
    Option.bind_some, hbody]
  exact congrArg _ hlater

theorem declarations_classText (h : d.Valid) (rest : List Char) :
    declarations (d.classText ++ rest) =
      ⟨String.ofList d.className, String.ofList d.id, String.ofList d.id⟩ :: declarations rest := by
  obtain ⟨c, hname, hbody, hscan⟩ := scan_classText h rest
  have hstem : c.stem = String.ofList d.id := by
    rw [DriverClass.stem, hname, String.toList_ofList, className, List.length_append,
      Nat.add_sub_cancel, List.take_left]
  rw [declarations, hscan, List.flatMap_cons, devices_of_body h hbody, hname, hstem,
    List.flatMap_map]
  rfl

/-- The class up to the word `void`. -/
def classFront (d : Description) : List Char :=
  "class".toList ++ ' ' :: (d.className ++ ' ' :: ':' :: " public hh_sm510_state \x7b ".toList)

/-- The class from the name of its device on. -/
def classBack (d : Description) : List Char :=
  d.id ++ '(' :: ("machine_config &config); ".toList ++ "\x7d;\n".toList)

theorem classText_eq (d : Description) :
    d.classText = d.classFront ++ ("void".toList ++ ' ' :: d.classBack) := by
  unfold classText classRest classBody declarationText classFront classBack
  simp only [List.append_assoc, List.cons_append]

/-- A class defines no constructor. -/
theorem constructorBody?_classText (h : d.Valid) (rest : List Char) {className device : String}
    (hname : className.toList.all isWordChar) :
    constructorBody? (d.classText ++ rest) className device =
      constructorBody? rest className device := by
  have hfront : "void".toList ∉ words d.classFront := by
    have hopens : Opens ["class".toList] d.classFront :=
      opens_class.append_cons (by decide) ((isToken_className h).opens.append_cons (by decide)
        (opens_base.cons (by decide)))
    exact hopens.notMem (by decide) (by decide)
  have hback : "void".toList ∉ words d.classBack := by
    have hopens : Opens [] d.classBack :=
      h.id.isToken.opens.append_cons (by decide) (opens_parameter.append (by decide)
        (opens_of_none (by decide)))
    exact hopens.notMem (by decide) List.not_mem_nil
  have hfrontEnd : Ended d.classFront :=
    (((Ended.cons (d := ' ') (by decide) (.cons (d := ':') (by decide) (by decide))).append_cons
      d.className).cons (d := ' ') (by decide)).append_cons _
  have hbackEnd : Ended d.classBack := Ended.append_cons (by decide) d.id
  have hnone : definedBody? className device (' ' :: (d.classBack ++ rest)) = none := by
    rw [classBack, List.append_assoc, List.cons_append,
      definedBody?_token hname h.id.isToken (by decide)]
    split
    · exact bodyAfterClass?_of_ne device (by decide) _
    · rfl
  rw [classText_eq, List.append_assoc, List.append_assoc, List.cons_append,
    constructorBody?_append hfrontEnd hfront, constructorBody?_void, hnone, Option.map_none,
    Option.none_or, constructorBody?_append hbackEnd hback]

end Description

end LcdHandhelds
