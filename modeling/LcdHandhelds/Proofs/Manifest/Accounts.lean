import LcdHandhelds.Proofs.Manifest.Candidates

/-!
What becomes of the constructors that the classes of a source declare. Each declaration is kept as a
candidate, or dropped for one reason that is reported under its device, and nothing but a dropped
declaration reports such a reason. Main statement: `accounts_of_extract`.
-/
namespace LcdHandhelds

/-- The anomalies that cost a declaration its candidate. -/
def Anomaly.drops : Anomaly → Bool
  | missingConstructor _ | malformedConstructor | unknownPreset _ | unhandledArgument _
  | presetArity _ _ _ | missingRomBlock | duplicateRom _ | missingRomName => true
  | unknownAction _ | unknownPort _ | bitWithoutPort _ | missingInclude _ | nestedInclude _
  | missingInput _ | extraConstructorLines | missingHomebrewBase _ => false

/-! ### Reasons for which a declaration is dropped -/

theorem drops_of_sizesOf {arguments : List (List Char)} {a : Anomaly}
    (h : sizesOf arguments = .error a) : a.drops := by
  obtain ⟨argument, -, he⟩ := exists_of_mapM_eq_error h
  split at he
  · cases he
  · cases he
    rfl

theorem drops_of_ofConstructor {body : List Char} {a : Anomaly}
    (h : Hardware.ofConstructor body = .error a) : a.drops := by
  rw [Hardware.ofConstructor] at h
  split at h
  · cases h
    rfl
  · split at h
    · cases h
      rfl
    · rcases bind_eq_error_iff.1 h with hs | ⟨sizes, -, hb⟩
      · exact drops_of_sizesOf hs
      · split at hb
        · cases hb
        · cases hb
          rfl

theorem RomBlock.drops_of_identity {b : RomBlock} {a : Anomaly} (h : b.identity = .error a) :
    a.drops := by
  rw [identity, identityOf] at h
  rcases bind_eq_error_iff.1 h with hf | ⟨found, -, hm⟩
  · obtain ⟨found, ⟨kind, file⟩, -, he⟩ := exists_of_foldlM_eq_error hf
    cases kind <;>
    · simp only [Found.add] at he
      split at he
      · cases he
        rfl
      · cases he
  · split at hm
    · cases hm
    · cases hm
      rfl

theorem drops_of_romOf {blocks : Table String RomBlock} {device : String} {a : Anomaly}
    (h : romOf blocks device = .error a) : a.drops := by
  rw [romOf] at h
  split at h
  · cases h
    rfl
  · exact RomBlock.drops_of_identity (map_eq_error_iff.1 h)

theorem Survey.drops_of_outcome {s : Survey} {d : Declaration} {a : Anomaly}
    (h : (s.visit d).outcome = .error a) : a.drops := by
  rw [visit] at h
  split at h
  · cases h
    rfl
  · rw [candidate] at h
    rcases bind_eq_error_iff.1 h with hh | ⟨hardware, -, hr⟩
    · exact drops_of_ofConstructor hh
    · rcases bind_eq_error_iff.1 hr with hr | ⟨found, -, hpure⟩
      · exact drops_of_romOf hr
      · cases hpure

/-! ### Reports that drop nothing -/

theorem Survey.not_drops_of_mem_notes {s : Survey} {d : Declaration} {a : Anomaly}
    (h : a ∈ (s.visit d).notes) : a.drops = false := by
  have hinput : a ∈ s.inputNotes d → a.drops = false := by
    rw [inputNotes]
    split
    · exact fun ha => absurd ha List.not_mem_nil
    · rintro ha
      obtain rfl := List.mem_singleton.1 ha
      rfl
  have hline : ∀ body, a ∈ lineNotes body → a.drops = false := by
    intro body
    rw [lineNotes]
    split
    · rintro ha
      obtain rfl := List.mem_singleton.1 ha
      rfl
    · exact fun ha => absurd ha List.not_mem_nil
  rw [visit] at h
  split at h
  · exact hinput h
  · rcases List.mem_append.1 h with h | h
    · exact hinput h
    · exact hline _ h

namespace Block

/-- Reading a block reports on its lines only. -/
def Reports (b : Block) : Prop := ∀ a ∈ b.anomalies, a.drops = false

theorem Reports.report {b : Block} (h : b.Reports) {a : Anomaly} (ha : a.drops = false) :
    (b.report a).Reports := by
  intro x hx
  rcases List.mem_append.1 hx with hx | hx
  · exact h x hx
  · rw [List.mem_singleton.1 hx, ha]

theorem Reports.feed {b : Block} (h : b.Reports) (line : List Char) : (b.feed line).Reports := by
  rw [Block.feed]
  split
  · rw [Block.header]
    split
    · exact h
    · exact h
    · exact report h rfl
  · rw [Block.bit]
    split
    · exact h.report rfl
    · split
      · exact h.report rfl
      · exact h
  · rw [Block.setting]
    split
    · exact h
    · split <;> exact h
  · exact h
  · exact h

theorem reports_ofLines (lines : List (List Char)) : (ofLines lines).Reports := by
  induction lines using List.reverseRecOn with
  | nil => exact fun _ ha => absurd ha List.not_mem_nil
  | append_singleton lines line ih =>
    rw [ofLines, List.foldl_append]
    exact ih.feed line

end Block

namespace InputTable

theorem not_drops_of_addBlock {read next : InputTable × List Diagnostic} {block : InputBlock}
    (h : ∀ d ∈ read.2, d.anomaly.drops = false) (hn : addBlock read block = .ok next) :
    ∀ d ∈ next.2, d.anomaly.drops = false := by
  rw [addBlock] at hn
  split at hn
  · cases hn
  · cases hn
    intro d hd
    rcases List.mem_append.1 hd with hd | hd
    · exact h d hd
    · obtain ⟨a, ha, rfl⟩ := List.mem_map.1 hd
      exact Block.reports_ofLines _ a ha

theorem not_drops_of_foldlM {read result : InputTable × List Diagnostic}
    {blocks : List InputBlock} (h : ∀ d ∈ read.2, d.anomaly.drops = false)
    (hr : blocks.foldlM addBlock read = .ok result) : ∀ d ∈ result.2, d.anomaly.drops = false := by
  induction blocks generalizing read with
  | nil =>
    cases hr
    exact h
  | cons block blocks ih =>
    rw [List.foldlM_cons, bind_eq_ok_iff] at hr
    obtain ⟨next, hn, hr⟩ := hr
    exact ih (not_drops_of_addBlock h hn) hr

theorem not_drops_of_ofSource {source : List Char} {raw : InputTable} {reported : List Diagnostic}
    (h : ofSource source = .ok (raw, reported)) : ∀ d ∈ reported, d.anomaly.drops = false :=
  not_drops_of_foldlM (fun _ hd => absurd hd List.not_mem_nil) h

theorem not_drops_of_mem_inclusionDiagnostics {raw : InputTable} {d : Diagnostic}
    (h : d ∈ raw.inclusionDiagnostics) : d.anomaly.drops = false := by
  obtain ⟨e, -, he⟩ := List.mem_filterMap.1 h
  obtain ⟨a, ha, rfl⟩ := Option.map_eq_some_iff.1 he
  obtain ⟨device, -, hf⟩ := Option.bind_eq_some_iff.1 ha
  split at hf
  · cases hf
    rfl
  · split at hf
    · cases hf
      rfl
    · cases hf

theorem filter_drops_reported {source : List Char} {raw : InputTable} {reported : List Diagnostic}
    (h : ofSource source = .ok (raw, reported)) :
    (reported ++ raw.inclusionDiagnostics).filter (·.anomaly.drops) = [] := by
  refine List.filter_eq_nil_iff.2 fun d hd => Bool.eq_false_iff.1 ?_
  rcases List.mem_append.1 hd with hd | hd
  · exact not_drops_of_ofSource h d hd
  · exact not_drops_of_mem_inclusionDiagnostics hd

end InputTable

/-! ### The account of an extraction -/

/-- The reasons that a visit reports for dropping its declaration. -/
def Visit.reasons (v : Visit) : List Anomaly := v.anomalies.filter Anomaly.drops

/-- How an extraction accounts for the constructors that the classes of its source declare. -/
structure Accounts (source : List Char) (visits : List (String × Visit)) (e : Extraction) :
    Prop where
  /-- There is one visit for each declaration, in order. -/
  declared : visits.map (·.1) = (DriverClass.scan source).flatMap DriverClass.devices
  kept : ∀ device v c, (device, v) ∈ visits → v.outcome = .ok c → c.device = device ∧ v.reasons = []
  dropped : ∀ device v reason, (device, v) ∈ visits → v.outcome = .error reason →
    v.reasons = [reason]
  /-- The reasons that are reported are those of the visits. -/
  reported : e.diagnostics.filter (·.anomaly.drops) =
    visits.flatMap fun v => v.2.reasons.map (⟨v.1, ·⟩)
  candidates : e.manifest = .ofCandidates (visits.filterMap (·.2.outcome.toOption))
  /-- A device has as many reasons as dropped declarations. -/
  balance : ∀ device, (anomaliesOf device e.diagnostics).countP Anomaly.drops =
    visits.countP fun v => v.1 = device && !v.2.outcome.isOk
  keys : ∀ device, device ∈ e.manifest.keys ↔ ∃ v, (device, v) ∈ visits ∧ v.outcome.isOk
  known : ∀ device ∈ e.manifest.keys,
    device ∈ (DriverClass.scan source).flatMap DriverClass.devices

theorem countP_anomaliesOf (device : String) (diagnostics : List Diagnostic)
    (p : Anomaly → Bool) :
    (anomaliesOf device diagnostics).countP p =
      (diagnostics.filter (p ·.anomaly)).countP (·.device = device) := by
  rw [anomaliesOf, List.countP_map, List.countP_filter, List.countP_filter]
  refine List.countP_congr fun d _ => ?_
  simp [and_comm]

theorem Manifest.mem_keys_ofCandidates_iff {candidates : List Candidate} {device : String} :
    device ∈ (ofCandidates candidates).keys ↔ ∃ c ∈ candidates, c.device = device := by
  rw [Table.mem_keys_iff]
  constructor
  · rintro ⟨profile, hp⟩
    obtain ⟨c, hc, hd, -⟩ := exists_of_get?_ofCandidates hp
    exact ⟨c, hc, hd⟩
  · rintro ⟨c, hc, rfl⟩
    exact exists_get?_ofCandidates hc

namespace Survey

variable {s : Survey}

theorem reasons_visit (s : Survey) (d : Declaration) :
    (s.visit d).reasons =
      match (s.visit d).outcome with
      | .ok _ => []
      | .error reason => [reason] := by
  have hnotes : (s.visit d).notes.filter Anomaly.drops = [] :=
    List.filter_eq_nil_iff.2 fun a ha => by simp [not_drops_of_mem_notes ha]
  rw [Visit.reasons, Visit.anomalies, List.filter_append, hnotes, List.nil_append]
  cases ho : (s.visit d).outcome with
  | ok c => rfl
  | error reason => simp [drops_of_outcome ho]

theorem mem_visits_iff {device : String} {v : Visit} :
    (device, v) ∈ s.visits ↔ ∃ d ∈ declarations s.source, d.device = device ∧ s.visit d = v := by
  simp only [visits, List.mem_map, Prod.mk.injEq]

theorem devices_visits (s : Survey) :
    s.visits.map (·.1) = (DriverClass.scan s.source).flatMap DriverClass.devices := by
  simp only [visits, declarations, List.map_map, List.map_flatMap, Function.comp_def, List.map_id']

theorem filter_drops_diagnostics (s : Survey) :
    s.diagnostics.filter (·.anomaly.drops) =
      s.visits.flatMap fun v => v.2.reasons.map (⟨v.1, ·⟩) := by
  simp only [diagnostics, Visit.reasons, List.filter_flatMap, List.filter_map, Function.comp_def]

theorem kept_of_mem_visits {device : String} {v : Visit} {c : Candidate}
    (hv : (device, v) ∈ s.visits) (hc : v.outcome = .ok c) : c.device = device ∧ v.reasons = [] := by
  obtain ⟨d, -, rfl, rfl⟩ := mem_visits_iff.1 hv
  refine ⟨device_of_outcome hc, ?_⟩
  rw [reasons_visit, hc]

theorem dropped_of_mem_visits {device : String} {v : Visit} {reason : Anomaly}
    (hv : (device, v) ∈ s.visits) (hc : v.outcome = .error reason) : v.reasons = [reason] := by
  obtain ⟨d, -, rfl, rfl⟩ := mem_visits_iff.1 hv
  rw [reasons_visit, hc]

/-- A device has one reason for each of its dropped declarations. -/
theorem countP_reasons (s : Survey) (device : String) :
    (s.visits.flatMap fun v => v.2.reasons.map (Diagnostic.mk v.1)).countP (·.device = device) =
      s.visits.countP fun v => v.1 = device && !v.2.outcome.isOk := by
  have hone : ∀ v ∈ s.visits, v.2.reasons.length = if v.2.outcome.isOk then 0 else 1 := by
    rintro ⟨name, v⟩ hv
    cases ho : v.outcome with
    | ok c => rw [(kept_of_mem_visits hv ho).2]; rfl
    | error reason => rw [dropped_of_mem_visits hv ho]; rfl
  generalize s.visits = visits at hone ⊢
  induction visits with
  | nil => rfl
  | cons v visits ih =>
    rw [List.flatMap_cons, List.countP_append, List.countP_cons,
      ih fun w hw => hone w (List.mem_cons_of_mem _ hw), Nat.add_comm, List.countP_map]
    congr 1
    by_cases hd : v.1 = device
    · have hall : v.2.reasons.countP ((fun d => decide (d.device = device)) ∘ Diagnostic.mk v.1) =
          v.2.reasons.length := List.countP_eq_length.2 fun a _ => decide_eq_true hd
      rw [hall, hone v List.mem_cons_self]
      cases v.2.outcome.isOk <;> simp [hd]
    · have hnone : v.2.reasons.countP ((fun d => decide (d.device = device)) ∘ Diagnostic.mk v.1) =
          0 := List.countP_eq_zero.2 fun a _ => by simp [hd]
      rw [hnone]
      simp [hd]

/-- The devices of a manifest are those with a declaration that is kept. -/
theorem mem_keys_iff {device : String} :
    device ∈ (Manifest.ofCandidates s.candidates).keys ↔
      ∃ v, (device, v) ∈ s.visits ∧ v.outcome.isOk := by
  rw [Manifest.mem_keys_ofCandidates_iff]
  simp only [candidates, List.mem_filterMap, toOption_eq_some_iff, isOk_iff, Prod.exists]
  constructor
  · rintro ⟨c, ⟨name, v, hv, hc⟩, rfl⟩
    exact ⟨v, (kept_of_mem_visits hv hc).1 ▸ hv, c, hc⟩
  · rintro ⟨v, hv, c, hc⟩
    exact ⟨c, ⟨device, v, hv, hc⟩, (kept_of_mem_visits hv hc).1⟩

end Survey

/-- Every declaration is accounted for, and every device of the manifest is declared. -/
theorem accounts_of_extract {marker : String} {source : List Char} {e : Extraction}
    (h : extract marker source = .ok e) :
    ∃ raw reported, InputTable.ofSource source = .ok (raw, reported) ∧
      Accounts source (Survey.ofSource marker source raw).visits e := by
  obtain ⟨raw, reported, hr, rfl⟩ := extract_eq_ok_iff.1 h
  set s := Survey.ofSource marker source raw with hs
  have hdeclared : s.visits.map (·.1) = (DriverClass.scan source).flatMap DriverClass.devices :=
    s.devices_visits
  have hreported : (reported ++ raw.inclusionDiagnostics ++ s.diagnostics).filter
      (·.anomaly.drops) = s.visits.flatMap fun v => v.2.reasons.map (⟨v.1, ·⟩) := by
    rw [List.filter_append, InputTable.filter_drops_reported hr, Survey.filter_drops_diagnostics,
      List.nil_append]
  refine ⟨raw, reported, hr, hdeclared, fun _ _ _ => Survey.kept_of_mem_visits,
    fun _ _ _ => Survey.dropped_of_mem_visits, hreported, rfl, fun device => ?_,
    fun _ => Survey.mem_keys_iff, fun device hd => ?_⟩
  · rw [countP_anomaliesOf, hreported, Survey.countP_reasons]
  · obtain ⟨v, hv, -⟩ := Survey.mem_keys_iff.1 hd
    rw [← hdeclared]
    exact List.mem_map_of_mem hv

/-- One class with a device declared twice, one without a ROM and one without a constructor. -/
def patchyClass : List Char :=
  classText "abca".toList ++ "ab".toList.flatMap (constructorText []) ++ romText 'a'

set_option maxRecDepth 4000 in
/-- The two devices that are missing from the manifest are reported once each. -/
theorem accounts_of_extract_patchyClass :
    ∃ e raw reported, extract defaultMarker patchyClass = .ok e ∧ e.manifest.keys = ["a"] ∧
      e.diagnostics.filter (·.anomaly.drops) =
        [⟨"b", .missingRomBlock⟩, ⟨"c", .missingConstructor "x_state"⟩] ∧
      InputTable.ofSource patchyClass = .ok (raw, reported) ∧
      Accounts patchyClass (Survey.ofSource defaultMarker patchyClass raw).visits e := by
  have h : ((extract defaultMarker patchyClass).toOption.map fun e =>
      (e.manifest.keys, e.diagnostics.filter (·.anomaly.drops))) =
      some (["a"], [⟨"b", .missingRomBlock⟩, ⟨"c", .missingConstructor "x_state"⟩]) := by
    unfold patchyClass classText constructorText romText
    repeat rw [String.toList_ofList]
    decide +kernel
  obtain ⟨e, he, hpair⟩ := Option.map_eq_some_iff.1 h
  obtain ⟨hkeys, hreasons⟩ := Prod.mk.inj hpair
  have he := toOption_eq_some_iff.1 he
  obtain ⟨raw, reported, hr, haccounts⟩ := accounts_of_extract he
  exact ⟨e, raw, reported, he, hkeys, hreasons, hr, haccounts⟩

end LcdHandhelds
