import LcdHandhelds.Machine.Ownership
import LcdHandhelds.Machine.RomBlock
import LcdHandhelds.Machine.SystemEntry
import LcdHandhelds.Proofs.Table
import LcdHandhelds.Proofs.Text.LineEnding

/-!
Systems, ROM blocks and owners of a source whose lines end in carriage return and line feed. Titles,
companies and file names are copied into a manifest and keep the line ends of the source; years,
digests and owners have none and are the same.
-/
namespace LcdHandhelds

open Text

/-! ### Texts that are copied -/

namespace Text

/-- A copied text as it is written where lines end in two. -/
def crlfText (text : String) : String := String.ofList (crlf text.toList)

theorem crlfText_ofList (text : List Char) :
    crlfText (String.ofList text) = String.ofList (crlf text) := by
  rw [crlfText, String.toList_ofList]

theorem crlfText_eq_self {text : String} (h : '\n' ∉ text.toList) : crlfText text = text := by
  rw [crlfText, crlf_eq_self h, String.ofList_toList]

theorem crlfText_eq_iff {text line : String} (h : '\n' ∉ line.toList) :
    crlfText text = line ↔ text = line := by
  rw [crlfText, ← String.toList_inj, String.toList_ofList, crlf_eq_iff h, String.toList_inj]

/-- An entry with a name of one line is found under the same name. -/
theorem find?_crlfText {α β : Type} (f : α → β) {key : String} (h : '\n' ∉ key.toList)
    (entries : List (String × α)) :
    (entries.map fun e => (crlfText e.1, f e.2)).find? (·.1 = key) =
      (entries.find? (·.1 = key)).map fun e => (crlfText e.1, f e.2) := by
  rw [List.find?_map]
  congr 2
  funext e
  exact decide_eq_decide.2 (crlfText_eq_iff h)

end Text

/-! ### Systems -/

/-- A release with its texts as they stand in the written form of the source. -/
def Release.crlf (r : Release) : Release := ⟨r.year, crlfText r.company, crlfText r.name⟩

namespace SystemEntry

def crlf (e : SystemEntry) : SystemEntry := ⟨e.release.crlf, e.parent.map crlfText⟩

/-- A year has no line feed, and no other text is written as a year. -/
theorem isYear_crlf (text : List Char) : isYear (Text.crlf text) = isYear text := by
  by_cases hn : '\n' ∈ text
  · have hfalse : ∀ {t : List Char}, '\n' ∈ t → isYear t = false := by
      intro t ht
      have hall : (t.all fun c => c.isDigit || c == '?') = false :=
        List.all_eq_false.2 ⟨'\n', ht, by decide⟩
      rw [isYear, hall, Bool.and_false]
    rw [hfalse hn, hfalse (mem_newline_crlf.2 hn)]
  · rw [crlf_eq_self hn]

theorem ofArguments?_crlf (text : List Char) :
    ofArguments? (Text.crlf text) =
      (ofArguments? text).map fun e => (crlfText e.1, e.2.crlf) := by
  rw [ofArguments?, arguments_crlf, ofArguments?]
  rcases arguments text with
    _ | ⟨year, _ | ⟨name, _ | ⟨parent, _ | ⟨a₁, _ | ⟨a₂, _ | ⟨a₃, _ | ⟨a₄, _ | ⟨a₅, _ | ⟨company,
      _ | ⟨title, rest⟩⟩⟩⟩⟩⟩⟩⟩⟩⟩
  case cons.cons.cons.cons.cons.cons.cons.cons.cons.cons =>
    have hname : (Text.crlf name).isEmpty = name.isEmpty := by
      rw [Bool.eq_iff_iff, List.isEmpty_iff, List.isEmpty_iff, crlf_eq_nil_iff]
    have hparent : Text.crlf parent = ['0'] ↔ parent = ['0'] := crlf_eq_iff (by decide)
    simp only [List.map_cons, unquote?_crlf, isYear_crlf, hname, crlf_eq_nil_iff, hparent,
      Option.bind_eq_bind, Option.bind_map, Function.comp_def, Option.map_bind]
    refine congrArg _ (funext fun company => congrArg _ (funext fun title => ?_))
    split
    next hyear =>
      have hline : '\n' ∉ year := by
        intro hm
        rw [Bool.and_eq_true, isYear, Bool.and_eq_true, List.all_eq_true] at hyear
        exact absurd (hyear.1.2 _ hm) (by decide)
      rw [crlf_eq_self hline]
      split <;> simp [crlf, Release.crlf, crlfText_ofList]
    · rfl
  all_goals rfl

/-- The system of a device, in either form of the source. -/
theorem get?_scan_crlf (source : List Char) {device : String} (h : '\n' ∉ device.toList) :
    (scan (Text.crlf source)).get? device = ((scan source).get? device).map crlf := by
  rw [scan, calls_crlf (by decide) (by decide), List.filterMap_map, scan, Table.get?_ofList,
    Table.get?_ofList, Option.map_map]
  have hentries : ((calls "SYST" source).filterMap
        ((ofArguments? ·.args) ∘ Call.crlf source)) =
      ((calls "SYST" source).filterMap (ofArguments? ·.args)).map
        fun e => (crlfText e.1, e.2.crlf) := by
    rw [List.map_filterMap]
    exact List.filterMap_congr fun c _ => ofArguments?_crlf c.args
  rw [hentries, ← List.map_reverse, find?_crlfText crlf h, Option.map_map]
  rfl

end SystemEntry

/-! ### Byte offsets -/

namespace Text

/-- The line feeds that end at a byte offset or before it. -/
def feedsUpTo : List Char → (offset : Nat) → Nat
  | [], _ => 0
  | c :: text, offset =>
    if offset < c.utf8Size then 0
    else (if c = '\n' then 1 else 0) + feedsUpTo text (offset - c.utf8Size)

/-- Where a byte offset of a text lies in the written form. -/
def crlfOffset (text : List Char) (offset : Nat) : Nat := offset + feedsUpTo text offset

theorem feedsUpTo_mono (text : List Char) {a b : Nat} (h : a ≤ b) :
    feedsUpTo text a ≤ feedsUpTo text b := by
  induction text generalizing a b with
  | nil => exact Nat.le_refl 0
  | cons c text ih =>
    rw [feedsUpTo, feedsUpTo]
    by_cases hc : a < c.utf8Size
    · rw [if_pos hc]
      exact Nat.zero_le _
    · rw [if_neg hc, if_neg fun hb => hc (Nat.lt_of_le_of_lt h hb)]
      exact Nat.add_le_add_left (ih (Nat.sub_le_sub_right h c.utf8Size)) _

theorem crlfOffset_strictMono (text : List Char) {a b : Nat} (h : a < b) :
    crlfOffset text a < crlfOffset text b :=
  Nat.add_lt_add_of_lt_of_le h (feedsUpTo_mono text (Nat.le_of_lt h))

theorem byteLength_crlf (front back : List Char) :
    byteLength (crlf front) = crlfOffset (front ++ back) (byteLength front) := by
  induction front with
  | nil =>
    cases back with
    | nil => rfl
    | cons c back => simp [crlfOffset, feedsUpTo, Char.utf8Size_pos]
  | cons c front ih =>
    rw [crlfOffset] at ih ⊢
    rw [List.cons_append, byteLength_cons, feedsUpTo, if_neg (by omega), Nat.add_sub_cancel_left]
    by_cases hc : c = '\n'
    · subst hc
      have hr : Char.utf8Size '\r' = 1 := by decide
      rw [crlf_newline, byteLength_cons, byteLength_cons, ih, if_pos rfl, hr]
      omega
    · rw [crlf_cons_of_ne hc, byteLength_cons, ih, if_neg hc]
      omega

theorem byteOffset_crlf (text : List Char) (place : Nat) :
    byteOffset (crlf text) (crlfPlace text place) = crlfOffset text (byteOffset text place) := by
  have hfront : (crlf text).take (crlfPlace text place) = crlf (text.take place) := by
    conv_lhs => rw [← List.take_append_drop place text, crlf_append, List.take_append_drop]
    rw [crlfPlace, List.take_left]
  rw [byteOffset, hfront, byteOffset, byteLength_crlf _ (text.drop place),
    List.take_append_drop]

end Text

/-! ### ROM blocks -/

/-- A file under its name in the written form. Its digest is the same. -/
def RomFile.crlf (f : RomFile) : RomFile := ⟨crlfText f.name, f.sha1⟩

def RomIdentity.crlf (i : RomIdentity) : RomIdentity := ⟨i.main.crlf, i.melody.map RomFile.crlf⟩

namespace RomBlock

/-- The block as it stands in the written form of its source. -/
def crlf (source : List Char) (b : RomBlock) : RomBlock :=
  ⟨crlfOffset source b.position, Text.crlf b.body⟩

theorem ofCall?_crlf (source : List Char) (c : Call) :
    ofCall? (Text.crlf source) (c.crlf source) =
      (ofCall? source c).map fun e => (crlfText e.1, e.2.crlf source) := by
  simp only [ofCall?, Call.crlf, @before?_crlf "ROM_END" (by decide) (by decide),
    trim_crlf, byteOffset_crlf, Option.map_map, Function.comp_def, crlfText_ofList, crlf]

theorem all_crlf (source : List Char) :
    all (Text.crlf source) = (all source).map fun e => (crlfText e.1, e.2.crlf source) := by
  rw [all, calls_crlf (by decide) (by decide), List.filterMap_map, all, List.map_filterMap]
  exact List.filterMap_congr fun c _ => ofCall?_crlf source c

theorem get?_index_crlf (source : List Char) {device : String} (h : '\n' ∉ device.toList) :
    (index (Text.crlf source)).get? device = ((index source).get? device).map (crlf source) := by
  rw [index, all_crlf, index, Table.get?_foldl_insertIfNew, Table.get?_foldl_insertIfNew,
    Table.get?_empty, Option.none_or, Option.none_or, find?_crlfText (crlf source) h,
    Option.map_map, Option.map_map]
  rfl

/-- No letter's other case is a line feed. -/
theorem kindOfTag?_crlf (tag : List Char) : kindOfTag? (Text.crlf tag) = kindOfTag? tag := by
  by_cases hn : '\n' ∈ tag
  · have hnone : ∀ {t : List Char}, '\n' ∈ t → kindOfTag? t = none := by
      intro t ht
      have hlower : '\n' ∈ t.map Char.toLower := List.mem_map.2 ⟨'\n', ht, by decide⟩
      rw [kindOfTag?, if_neg fun he => ?_, if_neg fun he => ?_]
      · rw [he] at hlower
        exact absurd hlower (by decide)
      · rw [he] at hlower
        exact absurd hlower (by decide)
    rw [hnone hn, hnone (mem_newline_crlf.2 hn)]
  · rw [crlf_eq_self hn]

theorem crlfPlace_eq_zero_iff {text : List Char} (hne : text ≠ []) (place : Nat) :
    crlfPlace text place = 0 ↔ place = 0 := by
  rw [crlfPlace, List.length_eq_zero_iff, crlf_eq_nil_iff, List.take_eq_nil_iff]
  simp [hne]

/-- The digest is looked for on the first line, which is the same. -/
theorem loadedFile?_crlf {text : List Char} (h : '\r' ∉ text) :
    loadedFile? (Text.crlf text) = (loadedFile? text).map RomFile.crlf := by
  have hlines : lines (Text.crlf (skipBlank text)) = lines (skipBlank text) :=
    lines_crlf fun hm => h ((List.dropWhile_suffix _).subset hm)
  have hload : (firstCall? "ROM_LOAD" (Text.crlf (skipBlank text))).filter (·.place = 0) =
      ((firstCall? "ROM_LOAD" (skipBlank text)).filter (·.place = 0)).map
        (Call.crlf (skipBlank text)) := by
    rw [firstCall?_crlf (by decide) (by decide)]
    cases hc : firstCall? "ROM_LOAD" (skipBlank text) with
    | none => rfl
    | some c =>
      have hne : skipBlank text ≠ [] := by
        rintro hnil
        rw [hnil] at hc
        cases hc
      have hplace := crlfPlace_eq_zero_iff hne c.place
      simp only [Option.map_some, Option.filter_some, Call.crlf, hplace]
      split <;> rfl
  simp only [loadedFile?, skipBlank_crlf, hload, hlines, Option.bind_eq_bind, Option.bind_map,
    Function.comp_def, Call.crlf, arguments_crlf, List.head?_map, unquote?_crlf, Option.map_bind,
    Option.bind_assoc, Option.pure_def, Option.map_some, RomFile.crlf, crlfText_ofList]

theorem load?_crlf {region : Call} (h : '\r' ∉ region.after) (text : List Char) :
    load? (region.crlf text) = (load? region).map fun p => (p.1, p.2.crlf) := by
  simp only [load?, Call.crlf, arguments_crlf, List.getElem?_map, unquote?_crlf,
    kindOfTag?_crlf, loadedFile?_crlf h, Option.bind_eq_bind, Option.bind_map, Function.comp_def,
    Option.map_bind, Option.bind_assoc]
  rfl

theorem loads_crlf {b : RomBlock} (h : '\r' ∉ b.body) (source : List Char) :
    (b.crlf source).loads = b.loads.map fun p => (p.1, p.2.crlf) := by
  rw [loads, crlf, calls_crlf (by decide) (by decide), List.filterMap_map, loads,
    List.map_filterMap]
  exact List.filterMap_congr fun c hc =>
    load?_crlf (fun hm => h ((args_subset_of_mem_calls hc).2 hm)) b.body

def Found.crlf (f : Found) : Found := ⟨f.main.map RomFile.crlf, f.melody.map RomFile.crlf⟩

theorem add_crlf (f : Found) (p : RomKind × RomFile) :
    f.crlf.add (p.1, p.2.crlf) = (f.add p).map Found.crlf := by
  obtain ⟨kind, file⟩ := p
  cases kind <;> simp only [Found.add, Found.crlf, Option.isSome_map] <;> split <;> rfl

theorem identityOf_crlf (loads : List (RomKind × RomFile)) :
    identityOf (loads.map fun p => (p.1, p.2.crlf)) =
      (identityOf loads).map RomIdentity.crlf := by
  have hfound : ∀ f : Found,
      (loads.map fun p => (p.1, p.2.crlf)).foldlM Found.add f.crlf =
        (loads.foldlM Found.add f).map Found.crlf := by
    induction loads with
    | nil => exact fun _ => rfl
    | cons p loads ih =>
      intro f
      rw [List.map_cons, List.foldlM_cons, List.foldlM_cons, add_crlf]
      cases f.add p with
      | error reason => rfl
      | ok next => exact ih next
  have hstart := hfound {}
  rw [identityOf, identityOf]
  change ((loads.map fun p => (p.1, p.2.crlf)).foldlM Found.add ({} : Found).crlf >>= _) = _
  rw [hstart]
  cases loads.foldlM Found.add {} with
  | error reason => rfl
  | ok found =>
    obtain ⟨main, melody⟩ := found
    cases main <;> rfl

end RomBlock

/-! ### Owners -/

namespace OwnerCandidate

/-- A candidate at another position. -/
def move (f : Nat → Nat) (c : OwnerCandidate) : OwnerCandidate :=
  { c with position := f c.position }

section Moved

variable {f : Nat → Nat} (hf : ∀ a b, a < b → f a < f b)

include hf

theorem compare_move (a b : OwnerCandidate) : compare (a.move f) (b.move f) = compare a b := by
  have hposition : Ord.compare (f a.position) (f b.position) =
      Ord.compare a.position b.position := by
    rcases Nat.lt_trichotomy a.position b.position with hlt | heq | hgt
    · rw [Nat.compare_eq_lt.2 hlt, Nat.compare_eq_lt.2 (hf _ _ hlt)]
    · rw [heq, Nat.compare_eq_eq.2 rfl, Nat.compare_eq_eq.2 rfl]
    · rw [Nat.compare_eq_gt.2 hgt, Nat.compare_eq_gt.2 (hf _ _ hgt)]
  rw [compare, compare, move, move, hposition]

theorem owner?_move (candidates : List OwnerCandidate) (sha1 : String) :
    owner? (candidates.map (move f)) sha1 = (owner? candidates sha1).map (move f) := by
  have hleast : ∀ (rest : List OwnerCandidate) c, (rest.map (move f)).foldl least (move f c) =
      move f (rest.foldl least c) := by
    intro rest
    induction rest with
    | nil => exact fun _ => rfl
    | cons d rest ih =>
      intro c
      have hstep : least (move f c) (move f d) = move f (least c d) := by
        rw [least, compare_move hf, least, apply_ite (move f)]
      rw [List.map_cons, List.foldl_cons, hstep, ih, List.foldl_cons]
  have hgroup : (candidates.map (move f)).filter (·.sha1 = sha1) =
      (candidates.filter (·.sha1 = sha1)).map (move f) := by
    rw [List.filter_map]
    rfl
  rw [owner?, hgroup, owner?]
  cases candidates.filter (·.sha1 = sha1) with
  | nil => rfl
  | cons c rest => exact congrArg some (hleast rest c)

/-- Positions matter for ownership by their order only. -/
theorem romOwners_move (candidates : List OwnerCandidate) :
    romOwners (candidates.map (move f)) = romOwners candidates := by
  rw [romOwners, List.filterMap_map, romOwners]
  congr 1
  refine List.filterMap_congr fun c _ => ?_
  rw [Function.comp_apply, referral?, referral?, move, owner?_move hf, Option.bind_map]
  rfl

end Moved

end OwnerCandidate

end LcdHandhelds
