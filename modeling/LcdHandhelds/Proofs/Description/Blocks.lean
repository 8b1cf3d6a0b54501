import LcdHandhelds.Manifest.Extraction
import LcdHandhelds.Proofs.Description.Basic

/-!
The input block and the system of a description, as the scans for their calls read them. A part of
the source without the name of a call is passed over.
-/
namespace LcdHandhelds

open Text

namespace Description

variable {d : Description}

/-! ### The input block -/

/-- What is read of the written statements. -/
def block (d : Description) : Block := Block.ofBody (entriesText d.entries)

theorem inputBlocks_append {text : List Char} (hend : Ended text)
    (hfree : "INPUT_PORTS_START".toList ∉ words text) (rest : List Char) :
    inputBlocks (text ++ rest) = inputBlocks rest :=
  filterMap_calls_append (fun _ _ => rfl) (by decide) hend hfree rest

theorem inputBlocks_inputsText (h : d.Valid) (rest : List Char) :
    inputBlocks (d.inputsText ++ rest) =
      ⟨String.ofList d.id, entriesText d.entries⟩ :: inputBlocks rest := by
  have hopens := opens_entriesText h.entries
  have hbody : before? "INPUT_PORTS_END"
      (entriesText d.entries ++ ("INPUT_PORTS_END".toList ++ '\n' :: rest)) =
        some (entriesText d.entries) :=
    before?_append_mark (by decide) rfl (by decide)
      (hopens.noMark (by decide) (by decide +kernel)) _
  have hlater : inputBlocks (entriesText d.entries ++ ("INPUT_PORTS_END".toList ++ '\n' :: rest)) =
      inputBlocks rest := by
    have hfree : "INPUT_PORTS_START".toList ∉
        words (entriesText d.entries ++ ("INPUT_PORTS_END".toList ++ ['\n'])) := by
      rw [words_append (ended_entriesText _), List.mem_append, not_or]
      exact ⟨hopens.notMem (by decide) (by decide), by decide⟩
    have htext := inputBlocks_append ((ended_entriesText d.entries).append (by decide)) hfree rest
    rwa [List.append_assoc, List.append_assoc] at htext
  have htext : d.inputsText ++ rest = "static ".toList ++
      (callText "INPUT_PORTS_START".toList [' '] [' '] [d.id] ++
        (entriesText d.entries ++ ("INPUT_PORTS_END".toList ++ '\n' :: rest))) := by
    unfold inputsText
    simp only [List.append_assoc, List.singleton_append]
  have hblock : InputBlock.ofCall? ⟨0, [' '] ++ separated [d.id] ++ [' '],
      entriesText d.entries ++ ("INPUT_PORTS_END".toList ++ '\n' :: rest)⟩ =
        some ⟨String.ofList d.id, entriesText d.entries⟩ := by
    obtain ⟨c, more, hid⟩ := List.exists_cons_of_ne_nil h.id.isToken.ne_nil
    have htrim := trim_id h
    rw [hid] at htrim ⊢
    simp only [InputBlock.ofCall?, htrim, hbody, Option.bind_eq_bind, Option.bind_some]
    rfl
  rw [htext, inputBlocks_append (by decide) (by decide), inputBlocks,
    filterMap_calls_callText (fun _ _ => rfl) (by decide) (by decide) (closed_id h),
    hblock, Option.toList_some, List.singleton_append, ← inputBlocks, hlater]

/-! ### The system -/

/-- The release and the parent that are written. -/
def systemEntry (d : Description) : SystemEntry :=
  ⟨⟨String.ofList d.year, String.ofList d.company, String.ofList d.title⟩,
    d.parent.map String.ofList⟩

/-- The systems of a source, in order. -/
def systems (source : List Char) : List (String × SystemEntry) :=
  (calls "SYST" source).filterMap (SystemEntry.ofArguments? ·.args)

theorem systems_append {text : List Char} (hend : Ended text) (hfree : "SYST".toList ∉ words text)
    (rest : List Char) : systems (text ++ rest) = systems rest :=
  filterMap_calls_append (fun _ _ => rfl) (by decide) hend hfree rest

theorem isArgument_year (h : d.Valid) : IsArgument d.year := by
  have hyear := h.year
  rw [SystemEntry.isYear, Bool.and_eq_true, decide_eq_true_iff] at hyear
  refine isArgument_of_forall (List.ne_nil_of_length_pos (by omega)) fun c hc => ?_
  have hchar := yearChar_of_mem h hc
  rw [Bool.or_eq_true, beq_iff_eq] at hchar
  rcases hchar with hdigit | rfl
  · exact plain_of_isWordChar (isWordChar_of_isDigit hdigit)
  · decide

theorem isArgument_systemArguments (h : d.Valid) : ∀ a ∈ d.systemArguments, IsArgument a := by
  have hid := h.id.isToken.isArgument
  simp only [systemArguments, List.forall_mem_cons]
  exact ⟨isArgument_year h, hid, (isToken_parent h).isArgument,
    isArgument_of_word (by decide) (by decide), hid, hid, (isToken_className h).isArgument,
    isArgument_of_word (by decide) (by decide), h.company.isArgument, h.title.isArgument,
    isArgument_of_word (by decide) (by decide), List.forall_mem_nil _⟩

theorem ofArguments?_systemArguments (h : d.Valid) :
    SystemEntry.ofArguments? ([' '] ++ separated d.systemArguments ++ [' ']) =
      some (String.ofList d.id, d.systemEntry) := by
  have hread : arguments ([' '] ++ separated d.systemArguments ++ [' ']) = d.systemArguments :=
    arguments_callText (by decide) (by decide) (List.cons_ne_nil _ _) (isArgument_systemArguments h)
  have hname : d.id.isEmpty = false := List.isEmpty_eq_false_iff.2 h.id.isToken.ne_nil
  have hparent : (if d.parent.getD ['0'] = [] ∨ d.parent.getD ['0'] = ['0'] then none
      else some (String.ofList (d.parent.getD ['0']))) = d.parent.map String.ofList := by
    cases hp : d.parent with
    | none => rfl
    | some parent =>
      have hvalid := h.parent parent hp
      exact if_neg (not_or.2 ⟨hvalid.1.ne_nil, hvalid.2⟩)
  rw [SystemEntry.ofArguments?, hread]
  simp only [systemArguments, unquote?_literal, Option.bind_eq_bind, Option.bind_some, h.year,
    hname, Bool.not_false, Bool.and_true, if_true, hparent]
  rfl

theorem systems_systemText (h : d.Valid) (rest : List Char) :
    systems (d.systemText ++ rest) =
      (String.ofList d.id, d.systemEntry) :: systems rest := by
  have hlater : systems ('\n' :: rest) = systems rest :=
    @systems_append ['\n'] (by decide) (by decide) rest
  unfold systemText
  rw [List.append_assoc, systems, filterMap_calls_callText (fun _ _ => rfl) (by decide) (by decide)
    (fun a ha => (isArgument_systemArguments h a ha).closed),
    ofArguments?_systemArguments h, Option.toList_some, List.singleton_append, ← systems,
    List.singleton_append, hlater]

end Description

end LcdHandhelds
