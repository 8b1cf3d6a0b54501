import LcdHandhelds.Command.Disk
import LcdHandhelds.Proofs.Command.Settings
import LcdHandhelds.Proofs.Manifest.Candidates
import LcdHandhelds.Proofs.Manifest.Ending

/-!
What a run does to the files. Over any file system whose reads change nothing and whose refused
writes change nothing, a run that fails has left all files as they were, and one that succeeds has
written the manifest to its output and nothing else. A run that searches a constructor for an empty
marker does neither: it never ends, with all files as they were. Main statement: `effect_of_run`.
-/
namespace LcdHandhelds

/-- The places of a file system: where a path leads, and what lies there. -/
structure FileView (σ : Type) where
  Place : Type
  locate? : σ → String → Option Place
  content? : σ → Place → Option ByteArray

/-- The text is written where the path leads, and no other place changes. -/
def FileView.Written {σ : Type} (view : FileView σ) (path text : String) (before after : σ) :
    Prop :=
  ∃ place, view.locate? before path = some place ∧
    view.content? after place = some text.toUTF8 ∧
    ∀ other, other ≠ place → view.content? after other = view.content? before other

/-- A file system in which only a write that went well changes anything. -/
structure FileAccess.Lawful {σ : Type} (files : FileAccess (StateM σ)) (view : FileView σ) :
    Prop where
  readText : ∀ path s, (files.readText path s).2 = s
  userSettings : ∀ s, (files.userSettings s).2 = s
  refused : ∀ path text s, (files.writeText path text s).1 = false →
    (files.writeText path text s).2 = s
  written : ∀ path text s, (files.writeText path text s).1 = true →
    view.Written path text s (files.writeText path text s).2

section States

variable {σ α β : Type}

theorem stateM_bind_apply (x : StateM σ α) (f : α → StateM σ β) (s : σ) :
    (x >>= f) s = f (x s).1 (x s).2 := rfl

theorem stateM_pure_apply (a : α) (s : σ) : (pure a : StateM σ α) s = (a, s) := rfl

end States

section Runs

variable {σ : Type} {files : FileAccess (StateM σ)} {view : FileView σ} {s : σ}

/-! ### Settings -/

/-- The document that a run takes its settings from: the given one, else the user's, else none. -/
inductive ConfiguredBy (files : FileAccess (StateM σ)) (s : σ) :
    Option String → Toml.Entries → Prop
  | given {path text es} (hread : (files.readText path s).1 = some text)
      (hparse : Toml.parse? text.toList = some es) : ConfiguredBy files s (some path) es
  | user {path text es} (hfile : (files.userSettings s).1 = some path)
      (hread : (files.readText path s).1 = some text)
      (hparse : Toml.parse? text.toList = some es) : ConfiguredBy files s none es
  | absent (hfile : (files.userSettings s).1 = none) : ConfiguredBy files s none []

namespace Settings

/-- An empty document leaves all defaults. -/
theorem spelledBy_nil : SpelledBy [] {} := ofEntries?_eq_some_iff.1 rfl

theorem read_apply (h : files.Lawful view) (path : String) (s : σ) :
    read files path s =
      (match (files.readText path s).1 with
      | none => .error (.unreadableSettings path)
      | some text =>
        match parse? text with
        | some settings => .ok settings
        | none => .error (.invalidSettings path), s) := by
  rw [read, stateM_bind_apply, h.readText]
  cases (files.readText path s).1 with
  | none => rfl
  | some text => cases hp : parse? text <;> simp only [hp, stateM_pure_apply]

theorem read_eq_ok_iff (h : files.Lawful view) {path : String} {settings : Settings} :
    (read files path s).1 = .ok settings ↔
      ∃ text es, (files.readText path s).1 = some text ∧ Toml.parse? text.toList = some es ∧
        SpelledBy es settings := by
  simp only [← ofEntries?_eq_some_iff]
  rw [read_apply h]
  cases hr : (files.readText path s).1 with
  | none => simp
  | some text =>
    cases hp : Toml.parse? text.toList with
    | none => simp [parse?, hp]
    | some es => cases he : ofEntries? es <;> simp [parse?, hp, he]

theorem load_state (h : files.Lawful view) (given : Option String) (s : σ) :
    (load files given s).2 = s := by
  cases given with
  | some path => rw [load, read_apply h]
  | none =>
    rw [load, stateM_bind_apply, h.userSettings]
    cases (files.userSettings s).1 with
    | some path => simp only [read_apply h]
    | none => rfl

theorem load_eq_ok_iff (h : files.Lawful view) {given : Option String} {settings : Settings} :
    (load files given s).1 = .ok settings ↔
      ∃ es, ConfiguredBy files s given es ∧ SpelledBy es settings := by
  cases given with
  | some path =>
    rw [load, read_eq_ok_iff h]
    constructor
    · rintro ⟨text, es, hr, hp, he⟩
      exact ⟨es, .given hr hp, he⟩
    · rintro ⟨es, ⟨hr, hp⟩, he⟩
      exact ⟨_, es, hr, hp, he⟩
  | none =>
    rw [load, stateM_bind_apply, h.userSettings]
    cases hu : (files.userSettings s).1 with
    | some path =>
      simp only [read_eq_ok_iff h]
      constructor
      · rintro ⟨text, es, hr, hp, he⟩
        exact ⟨es, .user hu hr hp, he⟩
      · rintro ⟨es, hc, he⟩
        cases hc with
        | user hu' hr hp =>
          obtain rfl := Option.some.inj (hu.symm.trans hu')
          exact ⟨_, es, hr, hp, he⟩
        | absent hu' => rw [hu] at hu'; cases hu'
    | none =>
      change Except.ok ({} : Settings) = .ok settings ↔ _
      constructor
      · intro hs
        exact ⟨[], .absent hu, (Except.ok.inj hs) ▸ spelledBy_nil⟩
      · rintro ⟨es, hc, he⟩
        cases hc with
        | user hu' => rw [hu] at hu'; cases hu'
        | absent => rw [spelledBy_nil.unique he]

end Settings

/-! ### The run -/

theorem Outcome.error_eq_none_iff {o : Outcome} :
    o.error = none ↔ o.ending = .written ∨ o.ending = .endless := by
  rw [error]
  cases o.ending <;> simp

/-- What a run reads before it extracts: settings, as a document spells them, and a source. -/
structure RunsOn (files : FileAccess (StateM σ)) (args : Arguments) (s : σ) (settings : Settings)
    (source : String) : Prop where
  settings : ∃ es, ConfiguredBy files s args.config es ∧ Settings.SpelledBy es settings
  source : (files.readText args.source s).1 = some source

/-- What a run has to write, and to which path. -/
def IsToWrite (files : FileAccess (StateM σ)) (args : Arguments) (s : σ) (path text : String) :
    Prop :=
  ∃ settings source e, RunsOn files args s settings source ∧
    extract? settings.marker source.toList = some (.ok e) ∧
    path = args.output.getD settings.output ∧ text = (e.overlay settings.titles).manifest.toText

/--
A run that never ends: its marker is empty, no input block of its source is repeated, and one of the
constructors that are declared there is searched for the marker.
-/
def NeverEnds (files : FileAccess (StateM σ)) (args : Arguments) (s : σ) : Prop :=
  ∃ settings source, RunsOn files args s settings source ∧
    settings.marker = "" ∧ (InputTable.ofSource source.toList).isOk ∧
    ∃ d ∈ declarations source.toList, IsSearched source.toList d

theorem ConfiguredBy.unique {given : Option String} {es es' : Toml.Entries}
    (h : ConfiguredBy files s given es) (h' : ConfiguredBy files s given es') : es = es' := by
  cases h with
  | given hread hparse => cases h' with | given hread' hparse' => simp_all
  | user hfile hread hparse => cases h' with | user => simp_all | absent => simp_all
  | absent hfile => cases h' with | user => simp_all | absent => rfl

section Outcomes

variable {args : Arguments} {quiet : Bool} {settings : Settings} {source : String}

theorem RunsOn.unique {settings' : Settings} {source' : String}
    (h : RunsOn files args s settings source) (h' : RunsOn files args s settings' source') :
    settings = settings' ∧ source = source' := by
  obtain ⟨⟨es, hc, hs⟩, hr⟩ := h
  obtain ⟨⟨es', hc', hs'⟩, hr'⟩ := h'
  obtain rfl := hc.unique hc'
  exact ⟨hs.unique hs', Option.some.inj (hr.symm.trans hr')⟩

/-- What has to be written is fixed by the extraction of what the run reads. -/
theorem RunsOn.isToWrite_iff (h : RunsOn files args s settings source) (path text : String) :
    IsToWrite files args s path text ↔
      ∃ e, settings.extract? source = some (.ok e) ∧
        path = args.output.getD settings.output ∧ text = e.manifest.toText := by
  constructor
  · rintro ⟨_, _, e, h', he, hpath, htext⟩
    obtain ⟨rfl, rfl⟩ := h.unique h'
    exact ⟨e.overlay settings.titles, by rw [Settings.extract?, he]; rfl, hpath, htext⟩
  · rintro ⟨e, he, hpath, htext⟩
    obtain ⟨result, hresult, hmap⟩ := Option.map_eq_some_iff.1 he
    obtain ⟨base, rfl, rfl⟩ := map_eq_ok_iff.1 hmap
    exact ⟨settings, source, base, h, hresult, hpath, htext⟩

theorem IsToWrite.unique {path path' text text' : String}
    (h : IsToWrite files args s path text) (h' : IsToWrite files args s path' text') :
    path = path' ∧ text = text' := by
  obtain ⟨settings, source, e, hon, he, rfl, rfl⟩ := h
  obtain ⟨settings', source', e', hon', he', rfl, rfl⟩ := h'
  obtain ⟨rfl, rfl⟩ := hon.unique hon'
  obtain rfl := Except.ok.inj (Option.some.inj (he.symm.trans he'))
  exact ⟨rfl, rfl⟩

theorem RunsOn.neverEnds_iff (h : RunsOn files args s settings source) :
    NeverEnds files args s ↔ settings.extract? source = none := by
  rw [Settings.extract?, Option.map_eq_none_iff, extract?_eq_none_iff]
  constructor
  · rintro ⟨_, _, h', hnone⟩
    obtain ⟨rfl, rfl⟩ := h.unique h'
    exact hnone
  · exact fun hnone => ⟨settings, source, h, hnone⟩

theorem run_of_load_error (h : files.Lawful view) {error : RunError}
    (hl : (Settings.load files args.config s).1 = .error error) :
    run files { args with quiet } s = (.failed error, s) := by
  rw [run, stateM_bind_apply, Settings.load_state h, hl]
  rfl

theorem run_of_unreadable (h : files.Lawful view)
    (hl : (Settings.load files args.config s).1 = .ok settings)
    (hr : (files.readText args.source s).1 = none) :
    run files { args with quiet } s = (.failed (.unreadableSource args.source), s) := by
  rw [run, stateM_bind_apply, Settings.load_state h, hl]
  simp only [stateM_bind_apply, h.readText, hr]
  rfl

theorem run_of_runsOn (h : files.Lawful view) (hon : RunsOn files args s settings source)
    (quiet : Bool) :
    run files { args with quiet } s =
      match settings.extract? source with
      | none => (.endless, s)
      | some (.error duplicate) => (.failed (.duplicateInput args.source duplicate), s)
      | some (.ok e) => publish files quiet (args.output.getD settings.output) e s := by
  rw [run, stateM_bind_apply, Settings.load_state h, (Settings.load_eq_ok_iff h).2 hon.settings]
  simp only [stateM_bind_apply, h.readText, hon.source]
  rcases settings.extract? source with _ | _ | e <;> rfl

end Outcomes

/-- A run stops before its extraction with the files as they were, or has settings and a source. -/
theorem stops_or_runsOn (h : files.Lawful view) (args : Arguments) (s : σ) :
    ((∀ settings source, ¬ RunsOn files args s settings source) ∧
      ∃ error, ∀ quiet, run files { args with quiet } s = (.failed error, s)) ∨
    ∃ settings source, RunsOn files args s settings source := by
  cases hl : (Settings.load files args.config s).1 with
  | error error =>
    refine .inl ⟨fun settings source hon => ?_, error, fun _ => run_of_load_error h hl⟩
    rw [(Settings.load_eq_ok_iff h).2 hon.settings] at hl
    cases hl
  | ok settings =>
    cases hr : (files.readText args.source s).1 with
    | none =>
      refine .inl ⟨fun settings source hon => ?_, .unreadableSource args.source,
        fun _ => run_of_unreadable h hl hr⟩
      rw [hon.source] at hr
      cases hr
    | some source => exact .inr ⟨settings, source, (Settings.load_eq_ok_iff h).1 hl, hr⟩

theorem publish_ending (files : FileAccess (StateM σ)) (quiet : Bool) (output : String)
    (e : Extraction) (s : σ) :
    (publish files quiet output e s).1.ending =
      if (files.writeText output (Manifest.toText e.manifest) s).1 then .written
      else .failed (.unwritable output) := by
  rw [publish, stateM_bind_apply]
  cases (files.writeText output (Manifest.toText e.manifest) s).1 <;> rfl

theorem publish_state (files : FileAccess (StateM σ)) (quiet : Bool) (output : String)
    (e : Extraction) (s : σ) :
    (publish files quiet output e s).2 =
      (files.writeText output (Manifest.toText e.manifest) s).2 := by
  rw [publish, stateM_bind_apply]
  cases (files.writeText output (Manifest.toText e.manifest) s).1 <;> rfl

/-- What a run with these arguments does to the files. -/
structure Effect (files : FileAccess (StateM σ)) (view : FileView σ) (args : Arguments) (s : σ)
    (outcome : Outcome) (after : σ) : Prop where
  failed : outcome.error ≠ none → after = s
  endless : outcome.ending = .endless → after = s
  succeeded : outcome.ending = .written → ∃ path text, IsToWrite files args s path text ∧
    after = (files.writeText path text s).2 ∧ view.Written path text s after
  /-- A run that has something to write fails only if the write does. -/
  succeeds_iff : outcome.ending = .written ↔
    ∃ path text, IsToWrite files args s path text ∧ (files.writeText path text s).1 = true
  endless_iff : outcome.ending = .endless ↔ NeverEnds files args s
  quiet : ∀ quiet, (run files { args with quiet } s).1.ending = outcome.ending ∧
    (run files { args with quiet } s).2 = after

section Effects

variable {args : Arguments} {settings : Settings} {source : String}

/-- A run that fails before it has anything to write. -/
theorem Effect.of_failed {error : RunError}
    (hwrite : ¬ ∃ path text, IsToWrite files args s path text)
    (hends : ¬ NeverEnds files args s)
    (hrun : ∀ quiet, run files { args with quiet } s = (.failed error, s)) :
    Effect files view args s (.failed error) s where
  failed _ := rfl
  endless _ := rfl
  succeeded h := nomatch h
  succeeds_iff := ⟨nofun, fun ⟨path, text, h, _⟩ => absurd ⟨path, text, h⟩ hwrite⟩
  endless_iff := ⟨nofun, fun h => absurd h hends⟩
  quiet quiet := by rw [hrun]; exact ⟨rfl, rfl⟩

theorem Effect.of_endless (hwrite : ¬ ∃ path text, IsToWrite files args s path text)
    (hends : NeverEnds files args s)
    (hrun : ∀ quiet, run files { args with quiet } s = (.endless, s)) :
    Effect files view args s .endless s where
  failed _ := rfl
  endless _ := rfl
  succeeded h := nomatch h
  succeeds_iff := ⟨nofun, fun ⟨path, text, h, _⟩ => absurd ⟨path, text, h⟩ hwrite⟩
  endless_iff := ⟨fun _ => hends, fun _ => rfl⟩
  quiet quiet := by rw [hrun]; exact ⟨rfl, rfl⟩

/-- A run that comes down to its write succeeds or fails with it. -/
theorem Effect.of_publish (h : files.Lawful view) {output : String} {e : Extraction}
    (hwrite : ∀ path text, IsToWrite files args s path text ↔
      path = output ∧ text = e.manifest.toText)
    (hends : ¬ NeverEnds files args s)
    (hrun : ∀ quiet, run files { args with quiet } s = publish files quiet output e s) :
    Effect files view args s (publish files args.quiet output e s).1
      (files.writeText output e.manifest.toText s).2 := by
  have hok : (publish files args.quiet output e s).1.ending = .written ↔
      (files.writeText output e.manifest.toText s).1 = true := by
    rw [publish_ending]
    split <;> simp_all
  refine ⟨fun herror => ?_, fun hendless => ?_, fun hwritten => ?_, ⟨fun hwritten => ?_, ?_⟩,
    ⟨fun hendless => ?_, fun h => absurd h hends⟩, fun quiet => ?_⟩
  · refine h.refused _ _ _ (Bool.eq_false_iff.2 fun htrue => herror ?_)
    rw [Outcome.error, hok.2 htrue]
  · rw [publish_ending] at hendless
    split at hendless <;> cases hendless
  · exact ⟨_, _, (hwrite _ _).2 ⟨rfl, rfl⟩, rfl, h.written _ _ _ (hok.1 hwritten)⟩
  · exact ⟨_, _, (hwrite _ _).2 ⟨rfl, rfl⟩, hok.1 hwritten⟩
  · rintro ⟨path, text, hw, ht⟩
    obtain ⟨rfl, rfl⟩ := (hwrite path text).1 hw
    exact hok.2 ht
  · rw [publish_ending] at hendless
    split at hendless <;> cases hendless
  · rw [hrun, publish_state, publish_ending, publish_ending]
    exact ⟨rfl, rfl⟩

end Effects

/-- A failed run changes nothing, a successful one writes the manifest and nothing else. -/
theorem effect_of_run (h : files.Lawful view) (args : Arguments) (s : σ) :
    Effect files view args s (run files args s).1 (run files args s).2 := by
  rcases stops_or_runsOn h args s with ⟨hnone, error, hrun⟩ | ⟨settings, source, hon⟩
  · have hself : run files args s = (.failed error, s) := hrun args.quiet
    rw [hself]
    refine .of_failed ?_ ?_ hrun
    · rintro ⟨path, text, settings, source, e, hon, -⟩
      exact hnone settings source hon
    · rintro ⟨settings, source, hon, -⟩
      exact hnone settings source hon
  · have hrun := run_of_runsOn h hon
    have hself : run files args s = _ := hrun args.quiet
    have hwrite := hon.isToWrite_iff
    have hends := hon.neverEnds_iff
    rw [hself]
    rcases hresult : settings.extract? source with _ | duplicate | e <;>
      rw [hresult] at hends <;> simp only [hresult] at hrun hwrite ⊢
    · refine .of_endless ?_ (hends.2 rfl) hrun
      rintro ⟨path, text, hw⟩
      obtain ⟨e, he, -⟩ := (hwrite path text).1 hw
      cases he
    · refine .of_failed ?_ (fun hw => nomatch hends.1 hw) hrun
      rintro ⟨path, text, hw⟩
      obtain ⟨e, he, -⟩ := (hwrite path text).1 hw
      cases he
    · rw [publish_state]
      refine .of_publish h (fun path text => ?_) (fun hw => nomatch hends.1 hw) hrun
      rw [hwrite]
      exact ⟨fun ⟨e', he, hw⟩ => by cases he; exact hw, fun hw => ⟨e, rfl, hw⟩⟩

end Runs

/-! ### The modelled disk -/

namespace Disk

/-- The files below the working directory, and the user's settings as a place of their own. -/
def view : FileView Disk where
  Place := Option Path
  locate? d path := (d.locate? path).map some
  content? d
    | some path => d.files.get? path
    | none => d.settings.map (·.2)

theorem content?_view (d : Disk) (path : Path) :
    view.content? d (some path) = d.files.get? path := rfl

theorem writeText_access (path text : String) (d : Disk) :
    access.writeText path text d =
      match d.writeText? path text with
      | some after => (true, after)
      | none => (false, d) := by
  change (match d.writeText? path text with
    | some after => _
    | none => _ : StateM Disk Bool) d = _
  cases d.writeText? path text <;> rfl

theorem lawful_access : access.Lawful view where
  readText _ _ := rfl
  userSettings _ := rfl
  refused path text d := by
    rw [writeText_access]
    cases d.writeText? path text with
    | none => exact fun _ => rfl
    | some after => exact fun hw => nomatch hw
  written path text d := by
    rw [writeText_access]
    cases hd : d.writeText? path text with
    | none => exact fun hw => nomatch hw
    | some after =>
      intro _
      obtain ⟨target, ht, hd⟩ := Option.bind_eq_some_iff.1 hd
      split at hd
      · cases hd
      · cases hd
        refine ⟨some target, by simp [view, ht], ?_, ?_⟩
        · simp [view, Table.get?_insert]
        · rintro (_ | other) hne
          · rfl
          · have hother : other ≠ target := fun he => hne (congrArg some he)
            simp [view, Table.get?_insert, hother]

/-- A board with one row, which its constructor says is grounded. -/
def boardText : List Char :=
  "INPUT_PORTS_START( a )\nPORT_START( \"IN.0\" )\n".toList ++
    "PORT_BIT( 1, IP_ACTIVE_HIGH, IPT_BUTTON1 )\nINPUT_PORTS_END\n".toList ++
    classText ['a'] ++ constructorText " grounded();\n".toList 'a' ++ romText 'a'

/-- An input block twice. -/
def twiceText : List Char :=
  "INPUT_PORTS_START( a )INPUT_PORTS_END INPUT_PORTS_START( a )INPUT_PORTS_END".toList

/-- An output, a marker and a title for the board. -/
def settingsText : List Char :=
  "output = \"m\"\ngrounding_marker = \"grounded\"\n[[homebrew]]\nid = \"t\"\nbase = \"a\"\n".toList ++
    "name = \"n\"\ncompany = \"c\"\nyear = \"1999\"\nrom = \"q\"\nsha1 = \"f\"\n".toList

def emptyMarkerText : List Char :=
  "grounding_marker = \"\"".toList

/-- Two sources, settings that are chosen by their path, and the user's own. -/
def smallDisk : Disk where
  files := Table.ofList [(["d"], (String.ofList boardText).toUTF8),
    (["t"], (String.ofList twiceText).toUTF8), (["e"], (String.ofList emptyMarkerText).toUTF8)]
  settings := some ("/c", (String.ofList settingsText).toUTF8)

theorem fromUTF8?_toUTF8 (text : String) : String.fromUTF8? text.toUTF8 = some text :=
  dif_pos text.isValidUTF8

theorem locate?_smallDisk {path : String} (h : path ∈ ["d", "t", "e", "m"]) :
    smallDisk.locate? path = some [path] := by
  have hsplit : path.splitOn "/" = [path] := by
    simp only [List.mem_cons, List.not_mem_nil, or_false] at h
    rcases h with rfl | rfl | rfl | rfl <;>
    · rw [String.splitOn, if_neg (by decide), String.splitOnAux, if_neg (by decide +kernel),
        if_neg (by decide +kernel), String.splitOnAux]
      decide +kernel
  rw [locate?, hsplit]
  clear hsplit
  revert path
  decide +kernel

theorem content_smallDisk :
    smallDisk.files.get? ["d"] = some (String.ofList boardText).toUTF8 ∧
      smallDisk.files.get? ["t"] = some (String.ofList twiceText).toUTF8 ∧
      smallDisk.files.get? ["e"] = some (String.ofList emptyMarkerText).toUTF8 := by
  have h : ∀ d t e : ByteArray,
      (Table.ofList [(["d"], d), (["t"], t), (["e"], e)]).get? ["d"] = some d ∧
      (Table.ofList [(["d"], d), (["t"], t), (["e"], e)]).get? ["t"] = some t ∧
      (Table.ofList [(["d"], d), (["t"], t), (["e"], e)]).get? ["e"] = some e :=
    fun _ _ _ => ⟨rfl, rfl, rfl⟩
  exact h _ _ _

/-- The settings go by a path of their own, all other paths lead to files. -/
theorem readText_access_smallDisk (path : String) :
    (access.readText path smallDisk).1 =
      if "/c" = path then some (String.ofList settingsText)
      else readText?.fromFile smallDisk path := by
  have hsettings : smallDisk.settings = some ("/c", (String.ofList settingsText).toUTF8) := rfl
  have hread : (access.readText path smallDisk).1 = smallDisk.readText? path := rfl
  rw [hread, readText?, hsettings]
  dsimp only
  rw [fromUTF8?_toUTF8]

theorem readText_smallDisk {path : String} {text : List Char} (hpath : path ∈ ["d", "t", "e", "m"])
    (hfile : smallDisk.files.get? [path] = some (String.ofList text).toUTF8) :
    (access.readText path smallDisk).1 = some (String.ofList text) := by
  have hne : "/c" ≠ path := by
    rintro rfl
    revert hpath
    decide
  rw [readText_access_smallDisk, if_neg hne, readText?.fromFile, locate?_smallDisk hpath,
    Option.bind_eq_bind, Option.bind_some, hfile, Option.bind_eq_bind, Option.bind_some,
    fromUTF8?_toUTF8]

theorem writeText_smallDisk (text : String) : (access.writeText "m" text smallDisk).1 = true := by
  have hw : ∃ after, smallDisk.writeText? "m" text = some after := by
    rw [writeText?, locate?_smallDisk (by decide)]
    simp only [Option.bind_eq_bind, Option.bind_some]
    rw [if_neg (by decide +kernel)]
    exact ⟨_, rfl⟩
  obtain ⟨after, hd⟩ := hw
  rw [writeText_access, hd]

set_option maxRecDepth 4000 in
theorem configured_smallDisk : ∃ es, ConfiguredBy access smallDisk none es ∧ Settings.SpelledBy es
    ⟨"m", "grounded", [⟨"t", "a", "n", "c", "1999", "q", "f"⟩]⟩ := by
  have hparse : (Toml.parse? settingsText).any fun es => Settings.ofEntries? es =
      some ⟨"m", "grounded", [⟨"t", "a", "n", "c", "1999", "q", "f"⟩]⟩ := by
    unfold settingsText
    repeat rw [String.toList_ofList]
    decide +kernel
  obtain ⟨es, hes, hsettings⟩ := (Option.any_eq_true _ _).1 hparse
  have hread : (access.readText "/c" smallDisk).1 = some (String.ofList settingsText) := by
    rw [readText_access_smallDisk, if_pos rfl]
  exact ⟨es, .user rfl hread (by rw [String.toList_ofList]; exact hes),
    Settings.ofEntries?_eq_some_iff.1 (of_decide_eq_true hsettings)⟩

theorem configured_emptyMarker : ∃ es, ConfiguredBy access smallDisk (some "e") es ∧
    Settings.SpelledBy es ⟨"manifest.json", "", []⟩ := by
  have hparse : (Toml.parse? emptyMarkerText).any fun es =>
      Settings.ofEntries? es = some ⟨"manifest.json", "", []⟩ := by
    unfold emptyMarkerText
    rw [String.toList_ofList]
    decide +kernel
  obtain ⟨es, hes, hsettings⟩ := (Option.any_eq_true _ _).1 hparse
  have hread := readText_smallDisk (by decide) content_smallDisk.2.2
  exact ⟨es, .given hread (by rw [String.toList_ofList]; exact hes),
    Settings.ofEntries?_eq_some_iff.1 (of_decide_eq_true hsettings)⟩

/-- The manifest has the board and the title, both with the board's row grounded. -/
theorem isToWrite_smallDisk : ∃ m : Manifest,
    IsToWrite access ⟨"d", none, none, false⟩ smallDisk "m" m.toText ∧
      m.entries.map (fun e => (e.1, e.2.portMap.groundedRow, e.2.rom)) =
        [("a", some 0, ⟨"p", none, "e", none⟩), ("t", some 0, ⟨"q", none, "f", none⟩)] := by
  have hextract : ((extract "grounded" boardText).toOption.map fun e =>
      (e.overlay [⟨"t", "a", "n", "c", "1999", "q", "f"⟩]).manifest.entries.map fun e =>
        (e.1, e.2.portMap.groundedRow, e.2.rom)) =
      some [("a", some 0, ⟨"p", none, "e", none⟩), ("t", some 0, ⟨"q", none, "f", none⟩)] := by
    unfold boardText classText constructorText romText
    repeat rw [String.toList_ofList]
    decide +kernel
  obtain ⟨e, he, hentries⟩ := Option.map_eq_some_iff.1 hextract
  have hread := readText_smallDisk (by decide) content_smallDisk.1
  refine ⟨_, ⟨_, _, e, ⟨configured_smallDisk, hread⟩, ?_, rfl, rfl⟩, hentries⟩
  rw [String.toList_ofList, extract?_of_ne (by decide), toOption_eq_some_iff.1 he]

theorem neverEnds_emptyMarker : NeverEnds access ⟨"d", some "e", none, false⟩ smallDisk := by
  have hsearched : (InputTable.ofSource boardText).isOk ∧
      (declarations boardText).any fun d =>
        (constructorBody? boardText d.className d.device).any fun body =>
          (Hardware.ofConstructor body).isOk := by
    unfold boardText classText constructorText romText
    repeat rw [String.toList_ofList]
    decide +kernel
  obtain ⟨hok, hany⟩ := hsearched
  obtain ⟨d, hd, hany⟩ := List.any_eq_true.1 hany
  obtain ⟨body, hbody, hhardware⟩ := (Option.any_eq_true _ _).1 hany
  have hread := readText_smallDisk (by decide) content_smallDisk.1
  refine ⟨_, _, ⟨configured_emptyMarker, hread⟩, rfl, ?_⟩
  rw [String.toList_ofList]
  exact ⟨hok, d, hd, body, hbody, isOk_iff.1 hhardware⟩

theorem isOk_twiceText : (InputTable.ofSource twiceText).isOk = false := by
  unfold twiceText
  rw [String.toList_ofList]
  decide +kernel

/-- A repeated input block leaves nothing to write, and no search for the marker either. -/
theorem failed_twice :
    (¬ ∃ path text, IsToWrite access ⟨"t", none, none, false⟩ smallDisk path text) ∧
      ¬ NeverEnds access ⟨"t", none, none, false⟩ smallDisk := by
  have hread := readText_smallDisk (by decide) content_smallDisk.2.1
  constructor
  · rintro ⟨path, text, settings, source, e, hon, he, -⟩
    obtain rfl := Option.some.inj (hread.symm.trans hon.source)
    obtain ⟨raw, reported, hraw, -⟩ := extract_eq_ok_iff.1 (extract?_eq_some_iff.1 he).2
    have hnot := isOk_twiceText
    rw [String.toList_ofList] at hraw
    rw [hraw] at hnot
    cases hnot
  · rintro ⟨settings, source, hon, -, hok, -⟩
    obtain rfl := Option.some.inj (hread.symm.trans hon.source)
    rw [String.toList_ofList, isOk_twiceText] at hok
    cases hok

/--
The output is the one of the user's settings, and the source stays as it is. A source with an input
block twice changes nothing at all, and neither does the board's under settings with an empty marker,
with which the run never ends.
-/
theorem effect_of_run_smallDisk :
    access.Lawful view ∧
      (∃ m : Manifest,
        (run access ⟨"d", none, none, false⟩ smallDisk).1.ending = .written ∧
        (run access ⟨"d", none, none, false⟩ smallDisk).2.files.get? ["m"] =
          some m.toText.toUTF8 ∧
        (run access ⟨"d", none, none, false⟩ smallDisk).2.files.get? ["d"] =
          smallDisk.files.get? ["d"] ∧
        m.entries.map (fun e => (e.1, e.2.portMap.groundedRow, e.2.rom)) =
          [("a", some 0, ⟨"p", none, "e", none⟩), ("t", some 0, ⟨"q", none, "f", none⟩)]) ∧
      ((run access ⟨"t", none, none, false⟩ smallDisk).1.error ≠ none ∧
        (run access ⟨"t", none, none, false⟩ smallDisk).2 = smallDisk) ∧
      (run access ⟨"d", some "e", none, false⟩ smallDisk).1.ending = .endless ∧
      (run access ⟨"d", some "e", none, false⟩ smallDisk).2 = smallDisk := by
  have hd := effect_of_run lawful_access ⟨"d", none, none, false⟩ smallDisk
  have ht := effect_of_run lawful_access ⟨"t", none, none, false⟩ smallDisk
  have he := effect_of_run lawful_access ⟨"d", some "e", none, false⟩ smallDisk
  obtain ⟨m, hm, hentries⟩ := isToWrite_smallDisk
  have hok := hd.succeeds_iff.2 ⟨"m", _, hm, writeText_smallDisk _⟩
  have hendless := he.endless_iff.2 neverEnds_emptyMarker
  have hfail : (run access ⟨"t", none, none, false⟩ smallDisk).1.error ≠ none := by
    rw [Ne, Outcome.error_eq_none_iff, ht.succeeds_iff, ht.endless_iff]
    rintro (⟨path, text, hw, -⟩ | hends)
    · exact failed_twice.1 ⟨path, text, hw⟩
    · exact failed_twice.2 hends
  refine ⟨lawful_access, ⟨m, hok, ?_⟩, ⟨hfail, ht.failed hfail⟩, hendless, he.endless hendless⟩
  obtain ⟨path, text, hwrite, -, place, hplace, hcontent, hothers⟩ := hd.succeeded hok
  obtain ⟨rfl, rfl⟩ := hm.unique hwrite
  obtain ⟨target, htarget, rfl⟩ := Option.map_eq_some_iff.1 hplace
  obtain rfl := Option.some.inj ((locate?_smallDisk (by decide)).symm.trans htarget)
  have hne : (some ["d"] : Option Path) ≠ some ["m"] := by decide
  have hkept := hothers (some ["d"]) hne
  rw [content?_view] at hcontent hkept
  rw [content?_view] at hkept
  exact ⟨hcontent, hkept, hentries⟩

end Disk
end LcdHandhelds
