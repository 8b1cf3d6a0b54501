import LcdHandhelds.Machine.RomBlock
import LcdHandhelds.Proofs.Except
import LcdHandhelds.Proofs.Text.Argument
import LcdHandhelds.Proofs.Text.CallSearch

/-!
ROM identities. The regions of a block come to the list of the files that they load (`Gathered`), and
what decides is how often each kind occurs in it. A run over the list that reaches its end holds all
files (`Found.filesOf_eq_toList`), and a run that does not stops at the first file of a kind that it
holds (`Found.firstRepeated_of_error`). Main statement: `verdict_identity`.
-/
namespace LcdHandhelds

namespace Text

/-- A call at the front of a text is the first one. -/
theorem filter_firstCall?_eq_some_iff {name : String} {text : List Char} {c : Call} :
    (firstCall? name text).filter (·.place = 0) = some c ↔ c ∈ calls name text ∧ c.place = 0 := by
  rw [Option.filter_eq_some_iff, decide_eq_true_iff, firstCall?]
  constructor
  · rintro ⟨hc, hplace⟩
    exact ⟨List.mem_of_head? hc, hplace⟩
  · rintro ⟨hc, hplace⟩
    refine ⟨?_, hplace⟩
    obtain ⟨before, rest, rfl, hbefore, -, hg⟩ := exists_groupAt?_of_mem_calls hc
    obtain rfl := List.length_eq_zero_iff.1 (hbefore.symm.trans hplace)
    rw [List.nil_append, calls_of_groupAt? hg, List.head?_cons, ← hplace]

theorem skipBlank_eq_self_of_call {name : String} (hword : name.toList.all isWordChar)
    (hne : name.toList ≠ []) {text : List Char} {c : Call} (hc : c ∈ calls name text)
    (hplace : c.place = 0) : skipBlank text = text := by
  obtain ⟨before, blanks, rfl, hbefore, -⟩ := exists_placed_of_mem_calls hc
  obtain rfl := List.length_eq_zero_iff.1 (hbefore.symm.trans hplace)
  obtain ⟨d, rest, hname⟩ := List.exists_cons_of_ne_nil hne
  rw [hname] at hword ⊢
  refine skipBlank_eq_self fun d' hd' => ?_
  obtain rfl : d = d' := by simpa using hd'
  exact isBlank_of_isWordChar (List.all_eq_true.1 hword d List.mem_cons_self)

end Text

open Text

namespace RomBlock

/-! ### What a region loads -/

def tagOf : RomKind → String
  | .main => "maincpu"
  | .melody => "maincpu:melody"

/-- The text starts with a call that names the file, and its first line has the file's digest. -/
structure LoadedBy (text : List Char) (file : RomFile) : Prop where
  named : ∃ load ∈ calls "ROM_LOAD" text, load.place = 0 ∧
    ∃ arg name, (arguments load.args).head? = some arg ∧ trim arg = '"' :: name ++ ['"'] ∧
      file.name = String.ofList name
  digested : ∃ line digest, (lines text).head? = some line ∧
    (calls "SHA1" line).head? = some digest ∧ file.sha1 = String.ofList (trim digest.args)

/-- The region has the tag of the kind, and nothing but blanks before a load of the file. -/
structure Loads (region : Call) (kind : RomKind) (file : RomFile) : Prop where
  tagged : ∃ arg tag, (arguments region.args)[1]? = some arg ∧ trim arg = '"' :: tag ++ ['"'] ∧
    tag.map Char.toLower = (tagOf kind).toList.map Char.toLower
  loaded : ∃ blanks text, region.after = blanks ++ text ∧ blanks.all isBlank ∧ LoadedBy text file

theorem kindOfTag?_eq_some_iff {tag : List Char} {kind : RomKind} :
    kindOfTag? tag = some kind ↔
      tag.map Char.toLower = (tagOf kind).toList.map Char.toLower := by
  rw [kindOfTag?]
  split
  next hmelody =>
    rw [hmelody]
    cases kind <;> decide
  next hmelody =>
    split
    next hmain =>
      rw [hmain]
      cases kind <;> decide
    next hmain =>
      refine ⟨nofun, fun h => ?_⟩
      cases kind with
      | main => exact absurd (h.trans (by decide)) hmain
      | melody => exact absurd (h.trans (by decide)) hmelody

theorem firstCall?_headD_eq_some_iff {name : String} {texts : List (List Char)} {c : Call} :
    firstCall? name (texts.headD []) = some c ↔
      ∃ line, texts.head? = some line ∧ (calls name line).head? = some c := by
  cases texts with
  | nil => exact ⟨nofun, fun ⟨_, h, _⟩ => nomatch h⟩
  | cons line _ => exact ⟨fun h => ⟨line, rfl, h⟩, fun ⟨_, hline, h⟩ => Option.some.inj hline ▸ h⟩

theorem loadedFile?_eq_some_iff {after : List Char} {file : RomFile} :
    loadedFile? after = some file ↔
      ∃ blanks text, after = blanks ++ text ∧ blanks.all isBlank ∧ LoadedBy text file := by
  simp only [loadedFile?, Option.bind_eq_bind, Option.bind_eq_some_iff, Option.pure_def,
    Option.some.injEq, unquote?_eq_some_iff, firstCall?_headD_eq_some_iff,
    filter_firstCall?_eq_some_iff]
  constructor
  · rintro ⟨load, ⟨hload, hplace⟩, name, ⟨arg, harg, hname⟩, digest, ⟨line, hline, hdigest⟩, rfl⟩
    exact ⟨after.takeWhile isBlank, skipBlank after, (takeWhile_append_skipBlank after).symm,
      List.all_takeWhile, ⟨load, hload, hplace, arg, name, harg, hname, rfl⟩,
      ⟨line, digest, hline, hdigest, rfl⟩⟩
  · rintro ⟨blanks, text, rfl, hblank, ⟨load, hload, hplace, arg, name, harg, hname, hfile⟩,
      ⟨line, digest, hline, hdigest, hsha1⟩⟩
    have hskip : skipBlank (blanks ++ text) = text := by
      rw [skipBlank_append_of_blank (skipBlank_of_all hblank)]
      exact skipBlank_eq_self_of_call (by decide) (by decide) hload hplace
    rw [hskip]
    exact ⟨load, ⟨hload, hplace⟩, name, ⟨arg, harg, hname⟩, digest, ⟨line, hline, hdigest⟩,
      by rw [← hfile, ← hsha1]⟩

theorem load?_eq_some_iff {region : Call} {kind : RomKind} {file : RomFile} :
    load? region = some (kind, file) ↔ Loads region kind file := by
  simp only [load?, Option.bind_eq_bind, Option.bind_eq_some_iff, Option.pure_def,
    Option.some.injEq, Prod.mk.injEq, kindOfTag?_eq_some_iff, unquote?_eq_some_iff,
    loadedFile?_eq_some_iff]
  constructor
  · rintro ⟨tag, ⟨arg, harg, htag⟩, kind, hkind, file, hfile, rfl, rfl⟩
    exact ⟨⟨arg, tag, harg, htag, hkind⟩, hfile⟩
  · rintro ⟨⟨arg, tag, harg, htag, hkind⟩, hfile⟩
    exact ⟨tag, ⟨arg, harg, htag⟩, kind, hkind, file, hfile, rfl, rfl⟩

/-- The files that the regions load, in order, without the regions that load none. -/
inductive Gathered : List Call → List (RomKind × RomFile) → Prop
  | nil : Gathered [] []
  | load {region regions kind file l} :
    Loads region kind file → Gathered regions l → Gathered (region :: regions) ((kind, file) :: l)
  | pass {region regions l} :
    (∀ kind file, ¬ Loads region kind file) → Gathered regions l → Gathered (region :: regions) l

theorem gathered_iff {regions : List Call} {l : List (RomKind × RomFile)} :
    Gathered regions l ↔ l = regions.filterMap load? := by
  constructor
  · intro h
    induction h with
    | nil => rfl
    | load hload _ ih => rw [List.filterMap_cons_some (load?_eq_some_iff.2 hload), ih]
    | @pass region _ _ hnone _ ih =>
      have hregion : load? region = none := Option.eq_none_iff_forall_ne_some.2
        fun ⟨kind, file⟩ h => hnone kind file (load?_eq_some_iff.1 h)
      rw [List.filterMap_cons_none hregion, ih]
  · rintro rfl
    induction regions with
    | nil => exact .nil
    | cons region regions ih =>
      cases hregion : load? region with
      | none =>
        rw [List.filterMap_cons_none hregion]
        refine .pass (fun kind file h => ?_) ih
        rw [load?_eq_some_iff.2 h] at hregion
        cases hregion
      | some entry =>
        rw [List.filterMap_cons_some hregion]
        exact .load (load?_eq_some_iff.1 hregion) ih

/-! ### The run over the files -/

/-- The files of one kind. -/
def filesOf (kind : RomKind) (l : List (RomKind × RomFile)) : List RomFile :=
  (l.filter (·.1 = kind)).map (·.2)

/-- The second file of the kind stands before the second file of any other kind. -/
def FirstRepeated (kind : RomKind) (l : List (RomKind × RomFile)) : Prop :=
  ∃ before file after, l = before ++ (kind, file) :: after ∧ (filesOf kind before).length = 1 ∧
    ∀ other, (filesOf other before).length ≤ 1

theorem filesOf_append (kind : RomKind) (l l' : List (RomKind × RomFile)) :
    filesOf kind (l ++ l') = filesOf kind l ++ filesOf kind l' := by
  rw [filesOf, List.filter_append, List.map_append, filesOf, filesOf]

theorem filesOf_cons_self (kind : RomKind) (file : RomFile) (l : List (RomKind × RomFile)) :
    filesOf kind ((kind, file) :: l) = file :: filesOf kind l := by
  simp [filesOf]

theorem filesOf_singleton_of_ne {kind kind' : RomKind} (h : kind' ≠ kind) (file : RomFile) :
    filesOf kind [(kind', file)] = [] := by
  simp [filesOf, h]

theorem FirstRepeated.append {kind : RomKind} {l : List (RomKind × RomFile)}
    (h : FirstRepeated kind l) (l' : List (RomKind × RomFile)) : FirstRepeated kind (l ++ l') := by
  obtain ⟨before, file, after, rfl, hone, hother⟩ := h
  exact ⟨before, file, after ++ l', by rw [List.append_assoc, List.cons_append], hone, hother⟩

theorem FirstRepeated.two_le {kind : RomKind} {l : List (RomKind × RomFile)}
    (h : FirstRepeated kind l) : 2 ≤ (filesOf kind l).length := by
  obtain ⟨before, file, after, rfl, hone, -⟩ := h
  rw [filesOf_append, filesOf_cons_self, List.length_append, hone, List.length_cons]
  omega

namespace Found

variable {f g : Found} {kind : RomKind} {file : RomFile} {l : List (RomKind × RomFile)}
  {anomaly : Anomaly}

def file? (f : Found) : RomKind → Option RomFile
  | .main => f.main
  | .melody => f.melody

theorem add_eq (f : Found) (kind : RomKind) (file : RomFile) :
    f.add (kind, file) =
      if (f.file? kind).isSome then .error (.duplicateRom kind)
      else .ok (match kind with
        | .main => { f with main := file }
        | .melody => { f with melody := file }) := by
  cases kind <;> rfl

/-- A file is taken where there is none of its kind. -/
theorem file?_of_add (h : f.add (kind, file) = .ok g) :
    f.file? kind = none ∧ g.file? kind = some file ∧
      ∀ other, kind ≠ other → g.file? other = f.file? other := by
  rw [add_eq] at h
  split at h
  · cases h
  next hnone =>
    rw [Option.not_isSome_iff_eq_none] at hnone
    cases h
    cases kind with
    | main =>
      refine ⟨hnone, rfl, fun other hne => ?_⟩
      cases other with
      | main => exact absurd rfl hne
      | melody => rfl
    | melody =>
      refine ⟨hnone, rfl, fun other hne => ?_⟩
      cases other with
      | main => rfl
      | melody => exact absurd rfl hne

theorem add_eq_error_iff :
    f.add (kind, file) = .error anomaly ↔
      (f.file? kind).isSome ∧ anomaly = .duplicateRom kind := by
  rw [add_eq]
  split
  next hsome => exact ⟨fun h => by cases h; exact ⟨hsome, rfl⟩, fun h => by rw [h.2]⟩
  next hnone => exact ⟨nofun, fun h => absurd h.1 hnone⟩

theorem foldlM_add_snoc (l : List (RomKind × RomFile)) (p : RomKind × RomFile) :
    (l ++ [p]).foldlM add {} = (l.foldlM add {} >>= fun f => f.add p) := by
  rw [List.foldlM_append]
  simp only [List.foldlM_cons, List.foldlM_nil, bind_pure]

/-- A run to the end holds all files. -/
theorem filesOf_eq_toList (h : l.foldlM add {} = .ok f) (kind : RomKind) :
    filesOf kind l = (f.file? kind).toList := by
  induction l using List.reverseRecOn generalizing f with
  | nil =>
    cases h
    cases kind <;> rfl
  | append_singleton l p ih =>
    rw [foldlM_add_snoc] at h
    obtain ⟨g, hg, hadd⟩ := bind_eq_ok_iff.1 h
    obtain ⟨hnone, hsome, hother⟩ := file?_of_add hadd
    rw [filesOf_append, ih hg]
    by_cases hkind : p.1 = kind
    · obtain rfl := hkind
      rw [hnone, hsome, filesOf_cons_self]
      rfl
    · rw [filesOf_singleton_of_ne hkind, hother kind hkind, List.append_nil]

theorem length_filesOf (h : l.foldlM add {} = .ok f) (kind : RomKind) :
    (filesOf kind l).length = if (f.file? kind).isSome then 1 else 0 := by
  rw [filesOf_eq_toList h, Option.length_toList]

theorem length_filesOf_le (h : l.foldlM add {} = .ok f) (kind : RomKind) :
    (filesOf kind l).length ≤ 1 := by
  rw [length_filesOf h]
  split <;> omega

/-- A run that stops does so at the first file of a kind that it holds. -/
theorem firstRepeated_of_error (h : l.foldlM add {} = .error anomaly) :
    ∃ kind, anomaly = .duplicateRom kind ∧ FirstRepeated kind l := by
  induction l using List.reverseRecOn with
  | nil => cases h
  | append_singleton l p ih =>
    rw [foldlM_add_snoc] at h
    rcases bind_eq_error_iff.1 h with hl | ⟨f, hf, hadd⟩
    · obtain ⟨kind, rfl, hfirst⟩ := ih hl
      exact ⟨kind, rfl, hfirst.append [p]⟩
    · obtain ⟨hsome, rfl⟩ := add_eq_error_iff.1 hadd
      refine ⟨p.1, rfl, l, p.2, [], rfl, ?_, length_filesOf_le hf⟩
      rw [length_filesOf hf, if_pos hsome]

theorem error_of_firstRepeated (h : FirstRepeated kind l) :
    l.foldlM add {} = .error (.duplicateRom kind) := by
  obtain ⟨before, file, after, rfl, hone, hother⟩ := h
  rw [List.foldlM_append]
  -- no kind has a second file in front, so the run comes to the repeated one
  cases hrun : before.foldlM add {} with
  | error anomaly =>
    obtain ⟨other, -, hfirst⟩ := firstRepeated_of_error hrun
    have htwo := hfirst.two_le
    have hle := hother other
    omega
  | ok f =>
    have hsome : (f.file? kind).isSome := by
      rw [length_filesOf hrun] at hone
      by_contra hnone
      rw [if_neg hnone] at hone
      omega
    change ((kind, file) :: after).foldlM add f = _
    rw [List.foldlM_cons, add_eq_error_iff.2 ⟨hsome, rfl⟩]
    rfl

end Found

/-! ### Second files of a kind -/

namespace FirstRepeated

variable {l : List (RomKind × RomFile)} {kind kind' : RomKind}

theorem unique (h : FirstRepeated kind l) (h' : FirstRepeated kind' l) : kind = kind' := by
  have herror := (Found.error_of_firstRepeated h).symm.trans (Found.error_of_firstRepeated h')
  cases herror
  rfl

theorem not_le (h : FirstRepeated kind l) :
    ¬ ((filesOf .main l).length ≤ 1 ∧ (filesOf .melody l).length ≤ 1) := by
  rintro ⟨hmain, hmelody⟩
  have htwo := h.two_le
  cases kind <;> omega

end FirstRepeated

/-! ### The identity -/

/-- What the files of a block come to. An error is the one anomaly that is reported. -/
structure Verdict (l : List (RomKind × RomFile)) (result : Except Anomaly RomIdentity) : Prop where
  accepted : ∀ identity, result = .ok identity ↔
    filesOf .main l = [identity.main] ∧ filesOf .melody l = identity.melody.toList
  isOk : result.isOk ↔ (filesOf .main l).length = 1 ∧ (filesOf .melody l).length ≤ 1
  repeated : ∀ kind, result = .error (.duplicateRom kind) ↔ FirstRepeated kind l
  nameless : result = .error .missingRomName ↔
    (∀ kind, (filesOf kind l).length ≤ 1) ∧ filesOf .main l = []
  failed : ∀ anomaly, result = .error anomaly →
    anomaly = .missingRomName ∨ ∃ kind, anomaly = .duplicateRom kind

theorem verdict_ok {l : List (RomKind × RomFile)} {main : RomFile} {melody : Option RomFile}
    (hmain : filesOf .main l = [main]) (hmelody : filesOf .melody l = melody.toList)
    (hle : ∀ kind, (filesOf kind l).length ≤ 1) : Verdict l (.ok ⟨main, melody⟩) where
  accepted identity := by
    obtain ⟨main', melody'⟩ := identity
    cases melody <;> cases melody' <;> simp [hmain, hmelody]
  isOk := by simpa [Except.isOk, Except.toBool, hmain] using hle .melody
  repeated kind := ⟨nofun, fun h => absurd ⟨hle .main, hle .melody⟩ h.not_le⟩
  nameless := by simp [hmain]
  failed := nofun

theorem verdict_nameless {l : List (RomKind × RomFile)} (hmain : filesOf .main l = [])
    (hle : ∀ kind, (filesOf kind l).length ≤ 1) : Verdict l (.error .missingRomName) where
  accepted := by simp [hmain]
  isOk := by simp [Except.isOk, Except.toBool, hmain]
  repeated kind := ⟨nofun, fun h => absurd ⟨hle .main, hle .melody⟩ h.not_le⟩
  nameless := by simpa [hmain] using hle
  failed _ he := by
    cases he
    exact .inl rfl

theorem verdict_repeated {l : List (RomKind × RomFile)} {kind : RomKind}
    (h : FirstRepeated kind l) : Verdict l (.error (.duplicateRom kind)) where
  accepted identity := by
    refine ⟨nofun, fun ⟨hmain, hmelody⟩ => absurd ⟨?_, ?_⟩ h.not_le⟩
    · rw [hmain, List.length_singleton]
    · rw [hmelody, Option.length_toList]
      split <;> omega
  isOk := ⟨nofun, fun ⟨hmain, hmelody⟩ => absurd ⟨hmain.le, hmelody⟩ h.not_le⟩
  repeated other := by
    constructor
    · intro he
      cases he
      exact h
    · intro hother
      rw [h.unique hother]
  nameless := ⟨nofun, fun ⟨hle, _⟩ => absurd ⟨hle .main, hle .melody⟩ h.not_le⟩
  failed _ he := by
    cases he
    exact .inr ⟨kind, rfl⟩

theorem verdict_identityOf (l : List (RomKind × RomFile)) : Verdict l (identityOf l) := by
  cases hrun : l.foldlM Found.add {} with
  | error anomaly =>
    obtain ⟨kind, rfl, hfirst⟩ := Found.firstRepeated_of_error hrun
    rw [identityOf, hrun]
    exact verdict_repeated hfirst
  | ok f =>
    have hfiles := Found.filesOf_eq_toList hrun
    have hle := Found.length_filesOf_le hrun
    obtain ⟨main, melody⟩ := f
    rw [identityOf, hrun]
    cases main with
    | none => exact verdict_nameless (hfiles .main) hle
    | some main => exact verdict_ok (hfiles .main) (hfiles .melody) hle

/-- A block's regions come to one list of files, and this list decides on its identity. -/
theorem verdict_identity (b : RomBlock) :
    ∃ l, (∀ l', Gathered (calls "ROM_REGION" b.body) l' ↔ l' = l) ∧ Verdict l b.identity :=
  ⟨b.loads, fun _ => gathered_iff, verdict_identityOf b.loads⟩

/-- Both kinds are repeated, and the second melody stands first. -/
example : identityOf [(.melody, ⟨"a", "1"⟩), (.main, ⟨"b", "2"⟩), (.melody, ⟨"c", "3"⟩),
    (.main, ⟨"d", "4"⟩)] = .error (.duplicateRom .melody) := by
  decide

end RomBlock

end LcdHandhelds
