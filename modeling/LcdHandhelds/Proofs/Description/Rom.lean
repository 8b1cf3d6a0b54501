import LcdHandhelds.Manifest.Extraction
import LcdHandhelds.Proofs.Description.Basic
import LcdHandhelds.Proofs.Text.Reading

/-!
The ROM block of a description: it holds the described file and no other, and it stands at the byte
offset of its own start.
-/
namespace LcdHandhelds

open Text

/-! ### Blocks behind a part of the source -/

namespace RomBlock

/-- A named block as it stands behind `n` more bytes. -/
def behind (n : Nat) (e : String × RomBlock) : String × RomBlock :=
  (e.1, { e.2 with position := n + e.2.position })

theorem behind_zero (e : String × RomBlock) : behind 0 e = e := by
  rw [behind, Nat.zero_add]

theorem map_behind (m n : Nat) (found : List (String × RomBlock)) :
    (found.map (behind n)).map (behind m) = found.map (behind (m + n)) := by
  rw [List.map_map]
  refine List.map_congr_left fun e _ => ?_
  rw [Function.comp_apply, behind, behind, behind, Nat.add_assoc]

theorem filterMap_ofCall?_shift (front back : List Char) (found : List Call) :
    (found.map (Call.shift front.length)).filterMap (ofCall? (front ++ back)) =
      (found.filterMap (ofCall? back)).map (behind (byteLength front)) := by
  rw [List.filterMap_map, List.map_filterMap]
  refine List.filterMap_congr fun c _ => ?_
  have hplace : byteOffset (front ++ back) (front.length + c.place) =
      byteLength front + byteOffset back c.place := by
    rw [byteOffset, List.take_length_add_append, byteLength_append, byteOffset]
  rw [Function.comp_apply, ofCall?, ofCall?, Call.shift, hplace, Option.map_map]
  rfl

theorem all_append {text : List Char} (hend : Ended text) (hfree : "ROM_START".toList ∉ words text)
    (rest : List Char) : all (text ++ rest) = (all rest).map (behind (byteLength text)) := by
  rw [all, calls_append (by decide) (by decide) hend hfree, filterMap_ofCall?_shift, all]

end RomBlock

namespace Description

variable {d : Description}

/-- A ROM block is found in front of those of the rest. -/
theorem all_romText (h : d.Valid) (rest : List Char) :
    RomBlock.all (d.romText ++ rest) = (String.ofList d.id, ⟨0, d.romBody⟩) ::
      (RomBlock.all rest).map (RomBlock.behind (byteLength d.romText)) := by
  have hopens := opens_romBody h
  have hend : Ended (d.romBody ++ ("ROM_END".toList ++ ['\n'])) :=
    d.ended_romBody.append (by decide)
  have hfree : "ROM_START".toList ∉ words (d.romBody ++ ("ROM_END".toList ++ ['\n'])) := by
    rw [words_append d.ended_romBody, List.mem_append, not_or]
    exact ⟨hopens.notMem (by decide) (by decide), by decide⟩
  have hback : RomBlock.all (d.romBody ++ ("ROM_END".toList ++ ['\n']) ++ rest) =
      (RomBlock.all rest).map
        (RomBlock.behind (byteLength (d.romBody ++ ("ROM_END".toList ++ ['\n'])))) :=
    RomBlock.all_append hend hfree rest
  have hbody : before? "ROM_END" (d.romBody ++ ("ROM_END".toList ++ ['\n']) ++ rest) =
      some d.romBody := by
    rw [List.append_assoc, List.append_assoc]
    exact before?_append_mark (by decide) rfl (by decide)
      (hopens.noMark (by decide) (by decide +kernel)) _
  have hblock : ∀ source, RomBlock.ofCall? source ⟨0, [' '] ++ separated [d.id] ++ [' '],
      d.romBody ++ ("ROM_END".toList ++ ['\n']) ++ rest⟩ =
        some (String.ofList d.id, ⟨0, d.romBody⟩) := by
    intro source
    rw [RomBlock.ofCall?, hbody, trim_id h]
    rfl
  have hcalls := @calls_of_groupAt? "ROM_START" _ _
    (groupAt?_callText (by decide : [' '].all isBlank) (by decide : [' '].all isBlank) (closed_id h)
      (d.romBody ++ ("ROM_END".toList ++ ['\n']) ++ rest))
  rw [List.length_append, Nat.add_sub_cancel] at hcalls
  unfold romText
  rw [List.append_assoc, RomBlock.all, hcalls, List.filterMap_cons, hblock,
    RomBlock.filterMap_ofCall?_shift, ← RomBlock.all, hback, RomBlock.map_behind,
    ← byteLength_append]

/-! ### The file of the block -/

theorem word_sha1 (h : d.Valid) : d.sha1.all isWordChar :=
  List.all_eq_true.2 fun c hc => isWordChar_of_digit? (List.all_eq_true.1 h.sha1 c hc)

theorem closed_sha1 (h : d.Valid) : ∀ a ∈ [d.sha1], Closed a :=
  List.forall_mem_singleton.2 (closed_of_word (word_sha1 h))

theorem isArgument_digestsText (h : d.Valid) : IsArgument d.digestsText where
  closed := by
    have hcrc : IsArgument (callText "CRC".toList [] [] ["00000000".toList]) :=
      isArgument_callText (by decide) (by decide) rfl rfl (closed_of_word (by decide))
    have hsha : IsArgument (callText "SHA1".toList [] [] [d.sha1]) :=
      isArgument_callText (by decide) (by decide) rfl rfl (closed_sha1 h _ List.mem_cons_self)
    exact hcrc.closed.append (.cons (by decide) hsha.closed)
  trimmed := by
    have hlast : d.digestsText.getLast? = some ')' := by
      rw [digestsText, callText, callText, List.getLast?_append_cons, List.getLast?_cons,
        List.getLast?_concat]
      rfl
    exact trim_of_ends rfl hlast (by decide) (by decide)
  ne_nil := List.append_ne_nil_of_right_ne_nil _ (List.cons_ne_nil _ _)

theorem isArgument_of_load (h : d.Valid) :
    ∀ a ∈ [literal d.file, "0x0000".toList, "0x1000".toList, d.digestsText], IsArgument a := by
  simp only [List.forall_mem_cons]
  exact ⟨h.file.isArgument, isArgument_of_word (by decide) (by decide),
    isArgument_of_word (by decide) (by decide), isArgument_digestsText h,
    List.forall_mem_nil _⟩

theorem oneLine_loadText (h : d.Valid) : OneLine d.loadText := by
  have hsha : OneLine (callText "SHA1".toList [] [] [d.sha1]) :=
    oneLine_callText (by decide) (by decide) (by decide)
      (List.forall_mem_singleton.2 (oneLine_of_all_isWordChar (word_sha1 h)))
  have hdigests : OneLine d.digestsText :=
    OneLine.append (s := callText "CRC".toList [] [] ["00000000".toList] ++ [' '])
      (by decide) hsha
  refine oneLine_callText (by decide) (by decide) (by decide) ?_
  simp only [List.forall_mem_cons]
  exact ⟨oneLine_literal h.file.oneLine, by decide, by decide, hdigests,
    List.forall_mem_nil _⟩

/-- The load up to its digest. -/
def loadFront (d : Description) : List Char :=
  "ROM_LOAD".toList ++ '(' :: ' ' :: (literal d.file ++ ',' :: ' ' :: ("0x0000".toList ++
    ',' :: ' ' :: ("0x1000".toList ++ ',' :: ' ' ::
      (callText "CRC".toList [] [] ["00000000".toList] ++ [' ']))))

theorem loadText_eq (d : Description) :
    d.loadText = d.loadFront ++ (callText "SHA1".toList [] [] [d.sha1] ++ [' ', ')']) := by
  unfold loadText loadFront digestsText
  simp only [callText, separated, List.append_assoc, List.cons_append, List.nil_append]

theorem digest_of_loadText (h : d.Valid) :
    (firstCall? "SHA1" d.loadText).map (·.args) = some d.sha1 := by
  have hzero : Opens ["ROM_LOAD".toList] ("0x0000".toList ++ ',' :: ' ' :: ("0x1000".toList ++
      ',' :: ' ' :: (callText "CRC".toList [] [] ["00000000".toList] ++ [' ']))) := by
    have hword : Opens ["ROM_LOAD".toList] "0x0000".toList ∧
        Opens ["ROM_LOAD".toList] "0x1000".toList := ⟨(isToken_of_isHexLiteral (by decide)).opens,
      (isToken_of_isHexLiteral (by decide)).opens⟩
    exact hword.1.append_cons (by decide) (.cons (by decide) (hword.2.append_cons (by decide)
      (.cons (by decide) (opens_crcText.append_cons (by decide) .nil))))
  have hname : Opens ["ROM_LOAD".toList] "ROM_LOAD".toList :=
    opens_of_word (by decide) (by decide) (.inl List.mem_cons_self)
  have hopens : Opens ["ROM_LOAD".toList] d.loadFront :=
    hname.append_cons (by decide) ((h.file.opens.append_cons (by decide)
      (hzero.cons (by decide))).cons (by decide))
  have hzeroEnd : Ended ("0x0000".toList ++ ',' :: ' ' :: ("0x1000".toList ++
      ',' :: ' ' :: (callText "CRC".toList [] [] ["00000000".toList] ++ [' ']))) := by
    decide
  have hfileEnd := ((hzeroEnd.cons (d := ' ') (by decide)).cons (d := ',') (by decide)).append_cons
    (literal d.file)
  have hend : Ended d.loadFront :=
    ((hfileEnd.cons (d := ' ') (by decide)).cons (d := '(') (by decide)).append_cons _
  have hcall := @firstCall?_callText "SHA1" (by decide) [] [] [] _ rfl rfl rfl (closed_sha1 h)
    [' ', ')']
  rw [List.nil_append] at hcall
  rw [loadText_eq, firstCall?_append (by decide) hend (hopens.notMem (by decide) (by decide)),
    hcall]
  exact congrArg some (List.append_nil d.sha1)

theorem loadedFile?_loadText (h : d.Valid) :
    RomBlock.loadedFile? ("\n\t".toList ++ (d.loadText ++ ['\n'])) =
      some ⟨String.ofList d.file, String.ofList d.sha1⟩ := by
  have hargs := isArgument_of_load h
  have hskip : skipBlank ("\n\t".toList ++ (d.loadText ++ ['\n'])) = d.loadText ++ ['\n'] := by
    rw [skipBlank_append_of_blank (by decide)]
    exact skipBlank_eq_self fun c hc => by
      obtain rfl : 'R' = c := Option.some.inj hc
      decide
  have hcall : firstCall? "ROM_LOAD" (d.loadText ++ ['\n']) =
      some ⟨0, [' '] ++ separated [literal d.file, "0x0000".toList, "0x1000".toList,
        d.digestsText] ++ [' '], ['\n']⟩ :=
    @firstCall?_callText "ROM_LOAD" (by decide) [] [' '] [' '] _ rfl (by decide) (by decide)
      (fun a ha => (hargs a ha).closed) ['\n']
  have hread := @arguments_callText [' '] [' '] _ (by decide) (by decide) (List.cons_ne_nil _ _)
    hargs
  have hline : (lines (d.loadText ++ ['\n'])).headD [] = d.loadText := by
    rw [lines_append_newline (oneLine_loadText h).noReturn (oneLine_loadText h).noFeed,
      List.headD_cons]
  obtain ⟨c, hc, hsha⟩ := Option.map_eq_some_iff.1 (digest_of_loadText h)
  rw [RomBlock.loadedFile?, hskip, hcall]
  simp only [Option.filter_some, decide_true, if_true, Option.bind_eq_bind, Option.bind_some,
    hread, List.head?_cons, unquote?_literal, hline, hc, hsha, trim_of_word (word_sha1 h)]
  rfl

theorem loads_romBody (h : d.Valid) (position : Nat) :
    RomBlock.loads ⟨position, d.romBody⟩ =
      [(.main, ⟨String.ofList d.file, String.ofList d.sha1⟩)] := by
  have hregion : ∀ a ∈ ["0x1000".toList, literal "maincpu".toList, ['0']], IsArgument a := by
    simp only [List.forall_mem_cons]
    exact ⟨isArgument_of_word (by decide) (by decide),
      isArgument_literal (by decide) (by decide), isArgument_of_word (by decide) (by decide),
      List.forall_mem_nil _⟩
  have hread := @arguments_callText [' '] [' '] _ (by decide) (by decide) (List.cons_ne_nil _ _)
    hregion
  have hload : RomBlock.load? ⟨0, [' '] ++ separated ["0x1000".toList, literal "maincpu".toList,
      ['0']] ++ [' '], "\n\t".toList ++ (d.loadText ++ ['\n'])⟩ =
        some (.main, ⟨String.ofList d.file, String.ofList d.sha1⟩) := by
    have hkind : RomBlock.kindOfTag? "maincpu".toList = some .main := by decide
    simp only [RomBlock.load?, hread, List.getElem?_cons_succ, List.getElem?_cons_zero,
      Option.bind_eq_bind, Option.bind_some, unquote?_literal, hkind, loadedFile?_loadText h]
    rfl
  have hlater : calls "ROM_REGION" ("\n\t".toList ++ (d.loadText ++ ['\n'])) = [] := by
    have hload : Opens ["ROM_LOAD".toList, "SHA1".toList] (d.loadText ++ ['\n']) :=
      (opens_loadText h).append_cons (by decide) .nil
    have hopens : Opens ["ROM_LOAD".toList, "SHA1".toList]
        ("\n\t".toList ++ (d.loadText ++ ['\n'])) :=
      Opens.append (by decide) (by decide) hload
    exact calls_eq_nil (by decide) (hopens.notMem (by decide) (by decide))
  rw [RomBlock.loads, romBody, filterMap_calls_append (fun _ _ => rfl) (by decide) (by decide)
    (by decide), regionText, filterMap_calls_callText (fun _ _ => rfl) (by decide) (by decide)
    (fun a ha => (hregion a ha).closed), hload, hlater]
  rfl

theorem identity_romBody (h : d.Valid) (position : Nat) :
    RomBlock.identity ⟨position, d.romBody⟩ =
      .ok ⟨⟨String.ofList d.file, String.ofList d.sha1⟩, none⟩ := by
  rw [RomBlock.identity, loads_romBody h]
  rfl

end Description

end LcdHandhelds
