import LcdHandhelds.Manifest.Homebrew
import LcdHandhelds.Proofs.Bytewise.DriverClass
import LcdHandhelds.Proofs.Bytewise.Wiring
import LcdHandhelds.Proofs.List
import LcdHandhelds.Proofs.Manifest.Candidates
import LcdHandhelds.Proofs.Manifest.Ending

/-!
Extraction by byte offsets. It never stops at a fault, whatever the source and the titles are, and
gives what the extraction gives; only a marker has to have a character, for otherwise the search for
it does not get on. With an empty marker it is endless exactly where extraction is:
`extract_eq_extract?`.
-/
namespace LcdHandhelds.Bytewise

open Text

/-- Whether a constructor's body calls the marker, with no arguments. -/
def marks (marker : String) (body : List Char) : Checked Bool := do
  return (← calls marker body).any fun c => (trim c.args).isEmpty

/-- What a declaration comes to. -/
def visit (s : Survey) (d : Declaration) : Checked Visit := do
  match ← (constructorBody s.source d.className d.device).run with
  | none => return ⟨s.inputNotes d, .error (.missingConstructor d.className)⟩
  | some body =>
    let notes := s.inputNotes d ++ lineNotes body
    match ← hardware body with
    | .error anomaly => return ⟨notes, .error anomaly⟩
    | .ok hardware =>
      let observed ← marks s.marker body
      match ← romOf s.roms d.device with
      | .error anomaly => return ⟨notes, .error anomaly⟩
      | .ok (block, identity) =>
        return ⟨notes, .ok {
          device := d.device
          hardware
          portMap := ((s.portMap? d).getD default).ground observed
          system := s.systems.get? d.device
          identity
          position := block.position }⟩

/-- The visits of all declarations, each with its device. -/
def visits (s : Survey) : Checked (List (String × Visit)) := do
  (← declarations s.source).mapM fun d => return (d.device, ← visit s d)

/-- The manifest of a source. -/
def extract (marker : String) (source : List Char) :
    Checked (Except DuplicateInput Extraction) := do
  let systems ← systems source
  match ← inputs source with
  | .error duplicate => return .error duplicate
  | .ok (raw, reported) =>
    let roms ← romIndex source
    let visits ← visits ⟨source, marker, systems, raw.collapse, roms⟩
    return .ok {
      manifest := Manifest.ofCandidates (visits.filterMap (·.2.outcome.toOption))
      diagnostics := reported ++ raw.inclusionDiagnostics ++
        visits.flatMap fun v => v.2.anomalies.map (⟨v.1, ·⟩) }

/-- Extraction, and the titles added to what it gives. -/
def run (marker : String) (source : List Char) (titles : List Title) :
    Checked (Except DuplicateInput Extraction) := do
  return (← extract marker source).map (·.overlay titles)

theorem marks_eq {marker : String} (hne : marker ≠ "") (body : List Char) :
    marks marker body = .ok (LcdHandhelds.marks marker body) := by
  obtain ⟨found, hfound, hall⟩ := gives_calls hne body
  rw [marks, hfound, ok_bind, LcdHandhelds.marks]
  refine congrArg Except.ok (any_eq_of_forall₂ hall fun b c h => ?_)
  rw [isEmpty_trim, h.args]

/-- A visit gives what it should if its search for the marker does, where there is one. -/
theorem visit_eq {s : Survey} {d : Declaration}
    (h : ∀ body hardware, constructorBody? s.source d.className d.device = some body →
      Hardware.ofConstructor body = .ok hardware →
        marks s.marker body = .ok (LcdHandhelds.marks s.marker body)) :
    visit s d = .ok (s.visit d) := by
  rw [visit, constructorBody_eq, ok_bind, Survey.visit]
  cases hbody : constructorBody? s.source d.className d.device with
  | none => rfl
  | some body =>
    dsimp only
    rw [hardware_eq, ok_bind, Survey.candidate]
    cases hhardware : Hardware.ofConstructor body with
    | error anomaly => rfl
    | ok hardware =>
      dsimp only
      rw [h body hardware hbody hhardware, ok_bind, romOf_eq, ok_bind]
      cases LcdHandhelds.romOf s.roms d.device <;> rfl

theorem visits_eq {s : Survey}
    (h : ∀ d ∈ LcdHandhelds.declarations s.source, visit s d = .ok (s.visit d)) :
    visits s = .ok s.visits := by
  rw [visits, declarations_eq, ok_bind, mapM_eq_ok_iff, Survey.visits, List.forall₂_map_right_iff,
    List.forall₂_same]
  exact fun d hd => congrArg (fun v : Checked Visit => return (d.device, ← v)) (h d hd)

/-- Extraction after its input blocks are read comes down to its visits. -/
theorem extract_of_inputs {source : List Char} {raw : InputTable} {reported : List Diagnostic}
    (h : InputTable.ofSource source = .ok (raw, reported)) (marker : String) :
    extract marker source = do
      let visits ← visits (.ofSource marker source raw)
      return .ok {
        manifest := Manifest.ofCandidates (visits.filterMap (·.2.outcome.toOption))
        diagnostics := reported ++ raw.inclusionDiagnostics ++
          visits.flatMap fun v => v.2.anomalies.map (⟨v.1, ·⟩) } := by
  rw [extract, systems_eq, ok_bind, inputs_eq, ok_bind, h]
  dsimp only
  rw [romIndex_eq, ok_bind]
  rfl

theorem extract_eq {marker : String} {source : List Char}
    (h : ∀ raw reported, InputTable.ofSource source = .ok (raw, reported) →
      ∀ d ∈ LcdHandhelds.declarations source, visit (.ofSource marker source raw) d =
        .ok ((Survey.ofSource marker source raw).visit d)) :
    extract marker source = .ok (LcdHandhelds.extract marker source) := by
  cases hinputs : InputTable.ofSource source with
  | error duplicate =>
    rw [extract, systems_eq, ok_bind, inputs_eq, ok_bind, LcdHandhelds.extract, hinputs]
    rfl
  | ok read =>
    obtain ⟨raw, reported⟩ := read
    rw [extract_of_inputs hinputs, visits_eq (h raw reported hinputs), LcdHandhelds.extract, hinputs]
    rfl

theorem extract_eq_of_ne {marker : String} (hne : marker ≠ "") (source : List Char) :
    extract marker source = .ok (LcdHandhelds.extract marker source) :=
  extract_eq fun _ _ _ _ _ => visit_eq fun body _ _ _ => marks_eq hne body

/--
Extraction and overlay never fault: every offset lies between two characters of the text that is cut
there, no cut ends before it starts, no depth falls below zero, every argument taken by its index is
there, and every search comes to its end.
-/
theorem run_eq_ok {marker : String} (hne : marker ≠ "") (source : List Char)
    (titles : List Title) :
    run marker source titles =
      .ok ((LcdHandhelds.extract marker source).map (·.overlay titles)) := by
  rw [run, extract_eq_of_ne hne]
  rfl

/-- A class whose source has characters of several bytes, open groups and an open literal. -/
def brokenText : List Char :=
  "SYST( (é, \"→ )\n".toList ++ classText ['a', 'b'] ++
    constructorText " é→( )((\"é\n".toList 'a' ++ romText 'a' ++ "ROM_START( é".toList

set_option maxRecDepth 4000 in
theorem run_brokenText : "→" ≠ "" ∧
    ∃ e, run "→" brokenText [⟨"t", "a", "é", "c", "1980", "p", "e"⟩] = .ok (.ok e) ∧
      e.manifest.keys = ["a", "t"] ∧ e.diagnostics.map (·.device) = ["a", "a", "b", "b"] := by
  have h : ((LcdHandhelds.extract "→" brokenText).toOption.map fun e =>
      let e := e.overlay [⟨"t", "a", "é", "c", "1980", "p", "e"⟩]
      (e.manifest.keys, e.diagnostics.map (·.device))) =
      some (["a", "t"], ["a", "a", "b", "b"]) := by
    unfold brokenText classText constructorText romText
    repeat rw [String.toList_ofList]
    decide +kernel
  obtain ⟨e, he, hpair⟩ := Option.map_eq_some_iff.1 h
  obtain ⟨hkeys, hdiagnostics⟩ := Prod.mk.inj hpair
  have hne : "→" ≠ "" := by decide
  refine ⟨hne, _, ?_, hkeys, hdiagnostics⟩
  rw [run_eq_ok hne, toOption_eq_some_iff.1 he]
  rfl

/-! ### Searches that never end -/

theorem marks_empty (body : List Char) : marks "" body = .error .endless := by
  rw [marks, calls_empty]
  rfl

variable {s : Survey} {d : Declaration} {source : List Char}

theorem visit_endless (hmarker : s.marker = "") (h : IsSearched s.source d) :
    visit s d = .error .endless := by
  obtain ⟨body, hbody, hardware, hhardware⟩ := h
  rw [visit, constructorBody_eq, ok_bind, hbody]
  dsimp only
  rw [hardware_eq, ok_bind, hhardware]
  dsimp only
  rw [hmarker, marks_empty]
  rfl

theorem visit_eq_of_not_isSearched (h : ¬ IsSearched s.source d) : visit s d = .ok (s.visit d) :=
  visit_eq fun body hardware hbody hhardware => absurd ⟨body, hbody, hardware, hhardware⟩ h

/-- With an empty marker, the visits never end if one of them makes a search. -/
theorem visits_endless (hmarker : s.marker = "") (hd : d ∈ LcdHandhelds.declarations s.source)
    (h : IsSearched s.source d) : visits s = .error .endless := by
  rw [visits, declarations_eq, ok_bind]
  refine mapM_eq_error_of_mem (fun d' _ => ?_) hd (by rw [visit_endless hmarker h]; rfl)
  by_cases h' : IsSearched s.source d'
  · rw [visit_endless hmarker h']
    exact .inr rfl
  · rw [visit_eq_of_not_isSearched h']
    exact .inl rfl

/-- Extraction by offsets is endless exactly where extraction is, and gives the same where it is not. -/
theorem extract_eq_extract? (marker : String) (source : List Char) :
    extract marker source =
      match extract? marker source with
      | none => .error .endless
      | some result => .ok result := by
  by_cases hmarker : marker = ""
  · subst hmarker
    cases hresult : extract? "" source with
    | none =>
      obtain ⟨-, hok, d, hd, hsearched⟩ := extract?_eq_none_iff.1 hresult
      obtain ⟨⟨raw, reported⟩, hinputs⟩ := isOk_iff.1 hok
      rw [extract_of_inputs hinputs, visits_endless (s := .ofSource "" source raw) rfl hd hsearched]
      rfl
    | some result =>
      obtain ⟨hends, rfl⟩ := extract?_eq_some_iff.1 hresult
      rw [Ne, extract?_eq_none_iff] at hends
      refine extract_eq fun raw reported hinputs d hd => visit_eq_of_not_isSearched fun h => ?_
      exact hends ⟨rfl, isOk_iff.2 ⟨_, hinputs⟩, d, hd, h⟩
  · rw [extract_eq_of_ne hmarker, extract?_of_ne hmarker]

end LcdHandhelds.Bytewise
