import LcdHandhelds.Proofs.Except
import LcdHandhelds.Proofs.List
import LcdHandhelds.Proofs.Text.Call
import LcdHandhelds.Proofs.Text.Lines
import LcdHandhelds.Manifest.Extraction

/-!
When extraction comes to an end. With a marker that has a character it always does. An empty marker is
searched for ever in each constructor that sets up hardware, since such a constructor starts with the
name of a preset and not with a group.
-/
namespace LcdHandhelds

open Text

theorem searchEnds_of_ne {marker : String} (h : marker ≠ "") (body : List Char) :
    searchEnds marker body = true := by
  rw [searchEnds, decide_eq_true h, Bool.true_or]

theorem leadingGroups_of_isWordChar {c : Char} {text : List Char} (hc : isWordChar c)
    (hfirst : (skipBlank text).head? = some c) : leadingGroups text = [] := by
  obtain ⟨rest, hrest⟩ := List.head?_eq_some_iff.1 hfirst
  have hopen : c ≠ '(' := by
    rintro rfl
    exact absurd hc (by decide)
  have hnone : Group.ofText? (skipBlank text) = none := by
    rw [hrest, Group.ofText?]
    rintro _ h
    exact hopen (List.cons.inj h).1
  rw [leadingGroups]
  split
  · rfl
  next g hg => rw [hnone] at hg; cases hg

/-- The groups at the front of a text are calls of the empty name. -/
theorem exists_call_of_mem_leadingGroups {text : List Char} {g : Group} (h : g ∈ leadingGroups text)
    (place : Nat) : ∃ c ∈ callsFrom [] place false 0 text, c.args = g.inner := by
  induction text using leadingGroups.induct generalizing place with
  | case1 text hnone =>
    rw [leadingGroups] at h
    split at h
    · cases h
    next g' hsome => rw [hnone] at hsome; cases hsome
  | case2 text first hfirst ih =>
    rw [leadingGroups] at h
    split at h
    · cases h
    next g' hsome =>
      obtain rfl := Option.some.inj (hfirst.symm.trans hsome)
      obtain ⟨c, rest, rfl⟩ : ∃ c rest, text = c :: rest := by
        cases text with
        | nil => cases hfirst
        | cons c rest => exact ⟨c, rest, rfl⟩
      have hgroup : groupAt? [] false (c :: rest) = some first := hfirst
      obtain ⟨next, hcalls, -⟩ := callsFrom_of_groupAt? hgroup place
      rw [hcalls]
      rcases List.mem_cons.1 h with rfl | h
      · exact ⟨_, List.mem_cons_self, rfl⟩
      · obtain ⟨c', hc', hargs⟩ := ih h next
        exact ⟨c', List.mem_cons_of_mem _ hc', hargs⟩

/-- A search for an empty marker that ends has found it. -/
theorem marks_of_searchEnds {body : List Char} (h : searchEnds "" body) : marks "" body := by
  rw [searchEnds, decide_eq_false (not_not_intro rfl), Bool.false_or, List.any_eq_true] at h
  obtain ⟨g, hg, hblank⟩ := h
  obtain ⟨c, hc, hargs⟩ := exists_call_of_mem_leadingGroups hg 0
  exact List.any_eq_true.2 ⟨c, hc, hargs ▸ hblank⟩

/-- A preset is called by a name at the front of the text whose first line calls it. -/
theorem exists_first_of_presetCall? {text : List Char} {call : String × List (List Char)}
    (h : presetCall? ((lines (trim text)).headD []) = some call) :
    ∃ c, isWordChar c ∧ (skipBlank text).head? = some c := by
  have htrim : trim text <+: skipBlank text := by
    have := List.reverse_prefix.2 (List.dropWhile_suffix isBlank (l := (skipBlank text).reverse))
    rwa [List.reverse_reverse] at this
  have hline := (headD_lines_isPrefix (trim text)).trans htrim
  obtain ⟨⟨name, rest⟩, hname, -⟩ := Option.bind_eq_some_iff.1 h
  cases hl : (lines (trim text)).headD [] with
  | nil => rw [hl] at hname; cases hname
  | cons c line =>
    rw [hl] at hline hname
    obtain ⟨after, hafter⟩ := hline
    have hfirst : (skipBlank text).head? = some c := by rw [← hafter]; rfl
    have hblank : isBlank c = false := not_of_mem_head?_dropWhile text c hfirst
    rw [skipBlank_cons, hblank, if_neg Bool.false_ne_true, identifier?, List.takeWhile_cons] at hname
    refine ⟨c, ?_, hfirst⟩
    by_contra hc
    rw [if_neg hc] at hname
    cases hname

/-- Hardware is set up by a preset's call, at which no search for an empty marker gets on. -/
theorem not_searchEnds_empty {body : List Char} {hardware : Hardware}
    (h : Hardware.ofConstructor body = .ok hardware) : searchEnds "" body = false := by
  rw [Hardware.ofConstructor] at h
  split at h
  · cases h
  next name arguments hcall =>
    obtain ⟨c, hc, hfirst⟩ := exists_first_of_presetCall? hcall
    rw [searchEnds, leadingGroups_of_isWordChar hc hfirst]
    rfl

/-- A declaration whose constructor sets up hardware, so that it is searched for the marker. -/
def IsSearched (source : List Char) (d : Declaration) : Prop :=
  ∃ body, constructorBody? source d.className d.device = some body ∧
    ∃ hardware, Hardware.ofConstructor body = .ok hardware

theorem mem_searchedBodies_iff {source body : List Char} :
    body ∈ searchedBodies source ↔ ∃ d ∈ declarations source,
      constructorBody? source d.className d.device = some body ∧
        ∃ hardware, Hardware.ofConstructor body = .ok hardware := by
  simp only [searchedBodies, List.mem_filterMap, Option.filter_eq_some_iff, isOk_iff]

theorem extractionEnds_of_ne {marker : String} (h : marker ≠ "") (source : List Char) :
    extractionEnds marker source = true := by
  rw [extractionEnds, Bool.or_eq_true, List.all_eq_true]
  exact .inr fun body _ => searchEnds_of_ne h body

theorem extract?_of_ne {marker : String} (h : marker ≠ "") (source : List Char) :
    extract? marker source = some (extract marker source) :=
  if_pos (extractionEnds_of_ne h source)

/--
Extraction goes on for ever exactly if the marker is empty, no input block is repeated, and some
constructor is searched for the marker.
-/
theorem extract?_eq_none_iff {marker : String} {source : List Char} :
    extract? marker source = none ↔
      marker = "" ∧ (InputTable.ofSource source).isOk ∧
        ∃ d ∈ declarations source, IsSearched source d := by
  have hends : extract? marker source = none ↔ extractionEnds marker source = false := by
    rw [extract?]
    split <;> simp_all
  rw [hends, extractionEnds, Bool.or_eq_false_iff, Bool.not_eq_false', List.all_eq_false]
  constructor
  · rintro ⟨hok, body, hbody, hends⟩
    obtain ⟨d, hd, hfound, hhardware⟩ := mem_searchedBodies_iff.1 hbody
    exact ⟨by_contra fun h => hends (searchEnds_of_ne h body), hok, d, hd, body, hfound, hhardware⟩
  · rintro ⟨rfl, hok, d, hd, body, hfound, hardware, hhardware⟩
    exact ⟨hok, body, mem_searchedBodies_iff.2 ⟨d, hd, hfound, hardware, hhardware⟩,
      by rw [not_searchEnds_empty hhardware]; exact Bool.false_ne_true⟩

theorem extract?_eq_some_iff {marker : String} {source : List Char}
    {result : Except DuplicateInput Extraction} :
    extract? marker source = some result ↔
      extract? marker source ≠ none ∧ extract marker source = result := by
  rw [extract?]
  split <;> simp_all

end LcdHandhelds
