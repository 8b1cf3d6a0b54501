import Mathlib.Data.Option.Basic
import LcdHandhelds.Proofs.Text.Respelling
import LcdHandhelds.Proofs.Wiring.Statement

/-!
The two spellings of a header. A `PORT_MODIFY` opens a port wherever it stands on its line, while a
`PORT_START` does so at the front only. Apart from that, a line is read in the one spelling as in
the other: `compared_of_spellings`.
-/
namespace LcdHandhelds

open Text

/-! ### The other recognizers -/

namespace Statement

/-- The statement of a line that is no header. -/
def unheaded? (line : List Char) : Option Statement :=
  bit? line <|> setting? line <|> inherit? line

/-- One text has `PORT_START` where the other has `PORT_MODIFY`. -/
abbrev Respelled : List Char → List Char → Prop :=
  Text.Respelled "PORT_START".toList "PORT_MODIFY".toList

/-- The same statement, but for a copy of the spelling in one of its texts. -/
inductive Alike : Statement → Statement → Prop
  | header (name : String) : Alike (.header name) (.header name)
  | bit (mask : UInt32) (activeHigh : Bool) {token token' : String} {name name' : Option String} :
    Respelled token.toList token'.toList →
    Option.Rel (fun x y => Respelled x.toList y.toList) name name' →
    Alike (.bit mask activeHigh token name) (.bit mask activeHigh token' name')
  | setting (mask : UInt32) : Alike (.setting mask) (.setting mask)
  | inherit {device device' : String} : Respelled device.toList device'.toList →
    Alike (.inherit device) (.inherit device')

theorem Alike.refl (st : Statement) : Alike st st := by
  cases st with
  | header name => exact .header name
  | bit mask activeHigh token name =>
    exact .bit mask activeHigh (.same _) (rel_refl (fun _ => .same _) _)
  | setting mask => exact .setting mask
  | inherit device => exact .inherit (.same _)

theorem Alike.eq_of_header {st : Statement} {name : String} (h : Alike st (.header name)) :
    st = .header name := by
  cases h
  rfl

theorem isSpelling_start : IsSpelling "PORT_START".toList := by
  decide

theorem isSpelling_modify : IsSpelling "PORT_MODIFY".toList := by
  decide

/-- What is sought besides headers. -/
def otherNames : List String :=
  ["PORT_BIT", "PORT_NAME", "PORT_CONFSETTING", "PORT_INCLUDE"]

theorem rel_firstCall? {name : String} (hname : name ∈ otherNames) {x y : List Char}
    (h : Respelled x y) :
    Option.Rel (Group.Respelled "PORT_START".toList "PORT_MODIFY".toList)
      ((firstCall? name x).map Call.group) ((firstCall? name y).map Call.group) := by
  have hall : ∀ name ∈ otherNames, name.toList ∈ scannedWords ∧
      Unlike name.toList "PORT_START".toList ∧ Unlike name.toList "PORT_MODIFY".toList := by
    decide
  obtain ⟨hscanned, hstart, hmodify⟩ := hall name hname
  exact h.firstCall? isSpelling_start isSpelling_modify hscanned hstart hmodify

/-- A text without the spellings reads the same in both. -/
theorem eq_iff_of_notInfix {x y word : List Char} (h : Respelled x y)
    (hstart : ¬ "PORT_START".toList <:+: word) (hmodify : ¬ "PORT_MODIFY".toList <:+: word) :
    x = word ↔ y = word := by
  rcases h.eq_or_infix with rfl | ⟨hx, hy⟩
  · rfl
  · refine iff_of_false ?_ ?_
    · rintro rfl
      exact hstart hx
    · rintro rfl
      exact hmodify hy

theorem mask_eq {x y : List Char} (h : Respelled x y) :
    x = y ∨ isHexLiteral x = false ∧ isHexLiteral y = false := by
  have hnone : ∀ {s text : List Char}, s <:+: text → ¬ s.all isHexChar →
      isHexLiteral text = false := by
    intro s text hpart hs
    rw [isHexLiteral, Bool.and_eq_false_iff, ← Bool.not_eq_true (text.all _)]
    exact .inr fun hall => hs (all_of_isInfix hpart hall)
  rcases h.eq_or_infix with rfl | ⟨hx, hy⟩
  · exact .inl rfl
  · exact .inr ⟨hnone hx (by decide), hnone hy (by decide)⟩

section Alike

variable {g h : Group} (hgroup : Group.Respelled "PORT_START".toList "PORT_MODIFY".toList g h)

include hgroup

theorem rel_arguments : List.Forall₂ Respelled (arguments g.inner) (arguments h.inner) :=
  hgroup.inner.arguments isSpelling_start isSpelling_modify

theorem rel_bitName : Option.Rel (fun x y => Respelled x.toList y.toList)
    (((firstCall? "PORT_NAME" g.after).bind (unquote? ·.args)).map String.ofList)
    (((firstCall? "PORT_NAME" h.after).bind (unquote? ·.args)).map String.ofList) := by
  have hname := rel_bind (@rel_firstCall? "PORT_NAME" (by decide) _ _ hgroup.after)
    fun g h hcall => hcall.inner.unquote? isSpelling_start isSpelling_modify
  rw [Option.bind_map, Option.bind_map] at hname
  refine rel_map hname fun x y hxy => ?_
  rwa [String.toList_ofList, String.toList_ofList]

theorem rel_bitOf? : Option.Rel Alike (bitOf? g) (bitOf? h) := by
  have hargs := rel_arguments hgroup
  have hname := rel_bitName hgroup
  rw [bitOf?, bitOf?]
  generalize arguments g.inner = xs at hargs
  generalize arguments h.inner = ys at hargs
  rcases hargs with _ | ⟨hmask, _ | ⟨hpolarity, _ | ⟨htoken, -⟩⟩⟩
  · exact .none
  · exact .none
  · exact .none
  · have hactive := @eq_iff_of_notInfix _ _ "IP_ACTIVE_HIGH".toList hpolarity (by decide)
      (by decide)
    rcases mask_eq hmask with rfl | ⟨hx, hy⟩
    · dsimp only
      split
      · rw [decide_eq_decide.2 hactive]
        refine .some (.bit _ _ ?_ hname)
        rwa [String.toList_ofList, String.toList_ofList]
      · exact .none
    · dsimp only
      rw [hx, hy]
      exact .none

theorem rel_settingOf? : Option.Rel Alike (settingOf? g) (settingOf? h) := by
  have hargs := rel_arguments hgroup
  rw [settingOf?, settingOf?]
  generalize arguments g.inner = xs at hargs
  generalize arguments h.inner = ys at hargs
  rcases hargs with _ | ⟨hmask, _ | ⟨-, -⟩⟩
  · exact .none
  · exact .none
  · rcases mask_eq hmask with rfl | ⟨hx, hy⟩
    · exact rel_refl Alike.refl _
    · dsimp only
      rw [hx, hy]
      exact .none

theorem rel_inheritOf? : Option.Rel Alike (inheritOf? g) (inheritOf? h) := by
  have htrim := hgroup.inner.trim isSpelling_start isSpelling_modify
  have hnil : trim g.inner = [] ↔ trim h.inner = [] :=
    eq_iff_of_notInfix htrim (by decide) (by decide)
  rw [inheritOf?, inheritOf?]
  by_cases hh : trim h.inner = []
  · rw [if_pos hh, if_pos (hnil.2 hh)]
    exact .none
  · rw [if_neg hh, if_neg fun hg => hh (hnil.1 hg)]
    refine .some (.inherit ?_)
    rwa [String.toList_ofList, String.toList_ofList]

end Alike

/-- Apart from headers, a line reads alike in both spellings. -/
theorem rel_unheaded? {x y : List Char} (h : Respelled x y) :
    Option.Rel Alike (unheaded? x) (unheaded? y) := by
  rw [unheaded?, unheaded?, bit?_eq, bit?_eq, setting?_eq, setting?_eq, inherit?_eq, inherit?_eq]
  exact rel_orElse (rel_bind (rel_firstCall? (by decide) h) fun _ _ => rel_bitOf?)
    (rel_orElse (rel_bind (rel_firstCall? (by decide) h) fun _ _ => rel_settingOf?)
      (rel_bind (rel_firstCall? (by decide) h) fun _ _ => rel_inheritOf?))

/-- Where the searches find the same, the same is read. -/
theorem unheaded?_congr {x y : List Char} (h : ∀ name ∈ otherNames,
    (firstCall? name x).map Call.group = (firstCall? name y).map Call.group) :
    unheaded? x = unheaded? y := by
  rw [unheaded?, unheaded?, bit?_eq, setting?_eq, inherit?_eq, h _ (by decide), h _ (by decide),
    h _ (by decide), ← bit?_eq, ← setting?_eq, ← inherit?_eq]

theorem bitOf?_ne_header {g : Group} {name : String} : bitOf? g ≠ some (.header name) := by
  intro h
  rw [bitOf?] at h
  split at h
  · split at h <;> cases h
  · cases h

theorem settingOf?_ne_header {g : Group} {name : String} : settingOf? g ≠ some (.header name) := by
  intro h
  rw [settingOf?] at h
  split at h
  · split at h <;> cases h
  · cases h

theorem inheritOf?_ne_header {g : Group} {name : String} : inheritOf? g ≠ some (.header name) := by
  intro h
  rw [inheritOf?] at h
  split at h <;> cases h

theorem unheaded?_ne_header {line : List Char} {name : String} :
    unheaded? line ≠ some (.header name) := by
  intro h
  rw [unheaded?, bit?_eq, setting?_eq, inherit?_eq, Option.orElse_eq_some,
    Option.orElse_eq_some] at h
  rcases h with h | ⟨-, h | ⟨-, h⟩⟩
  · exact bitOf?_ne_header (Option.bind_eq_some_iff.1 h).choose_spec.2
  · exact settingOf?_ne_header (Option.bind_eq_some_iff.1 h).choose_spec.2
  · exact inheritOf?_ne_header (Option.bind_eq_some_iff.1 h).choose_spec.2

end Statement

/-! ### Headers -/

/-- The names that open a port. -/
def headerNames : List (List Char) :=
  ["PORT_START", "PORT_MODIFY"].map String.toList

/-- A line around the one header name on it. -/
structure HeaderSite where
  before : List Char
  args : List Char
  after : List Char
  free : ∀ name ∈ headerNames, ∀ part ∈ [before, args, after], name ∉ words part

namespace HeaderSite

/-- What stands behind the name. -/
def group (s : HeaderSite) : List Char :=
  '(' :: (s.args ++ ')' :: s.after)

def line (s : HeaderSite) (name : String) : List Char :=
  s.before ++ (name.toList ++ s.group)

/-- The port that the parentheses name, if they close and hold a literal. -/
def heading? (s : HeaderSite) : Option String :=
  (Group.ofText? s.group).bind fun g => (unquote? g.inner).map String.ofList

variable (s : HeaderSite)

theorem words_group : words s.group = words s.args ++ words s.after := by
  rw [← words_append_cons (d := ')') (by decide)]
  rfl

theorem notMem_words_group {name : List Char} (hname : name ∈ headerNames) :
    name ∉ words s.group := by
  rw [words_group]
  exact List.not_mem_append (s.free name hname _ (by simp)) (s.free name hname _ (by simp))

theorem notMem_words_before {name : List Char} (hname : name ∈ headerNames) :
    name ∉ words s.before :=
  s.free name hname _ List.mem_cons_self

/-- Of the two names, a line has only its own, and that one only if nothing is glued to it. -/
theorem notMem_words_line {name : List Char} {own : String} (hname : name ∈ headerNames)
    (hown : own.toList ∈ headerNames) (h : name = own.toList → ¬ Ended s.before) :
    name ∉ words (s.line own) := by
  have hspelling : ∀ own ∈ headerNames, IsSpelling own := by decide
  have hsuffix : ∀ name ∈ headerNames, ∀ own ∈ headerNames, own <:+ name → name = own := by decide
  obtain ⟨front, glued, hbefore, hend, hglued⟩ := exists_glued s.before
  have hword : (glued ++ own.toList).all isWordChar := by
    rw [List.all_append, hglued, (hspelling _ hown).word]
    rfl
  have hne : glued ++ own.toList ≠ [] :=
    List.append_ne_nil_of_right_ne_nil _ (hspelling _ hown).ne_nil
  rw [line, hbefore, List.append_assoc, ← List.append_assoc glued, words_append hend, group,
    words_append_cons (by decide), words_of_word hword hne, List.mem_append, List.mem_append,
    List.mem_singleton]
  have hfree := s.notMem_words_before hname
  rw [hbefore, words_append hend, List.mem_append, not_or] at hfree
  rintro (hfront | rfl | hgroup)
  · exact hfree.1 hfront
  · -- the name ends with the one on the line, so nothing is glued to it
    have hown := hsuffix _ hname _ hown (List.suffix_append _ _)
    rw [List.append_left_eq_self] at hown
    refine h ?_ ?_
    · rw [hown, List.nil_append]
    · rw [hbefore, hown, List.append_nil]
      exact hend
  · exact s.notMem_words_group hname hgroup

/-- The first call of the name is the one at its place, if it is one. -/
theorem firstCall?_line {name : String} (hname : name.toList ∈ headerNames) :
    firstCall? name (s.line name) =
      if Ended s.before then
        (Group.ofText? s.group).map fun g => ⟨s.before.length, g.inner, g.after⟩
      else none := by
  have hscanned : name.toList ∈ scannedWords := by
    have hall : headerNames ⊆ scannedWords := by decide
    exact hall hname
  obtain ⟨hword, hne⟩ := word_of_mem_scannedWords _ hscanned
  split
  next hend =>
    have hat : groupAt? name.toList false (name.toList ++ s.group) = Group.ofText? s.group := by
      have hp : name.toList.isPrefixOf? (name.toList ++ s.group) = some s.group :=
        List.isPrefixOf?_eq_some_iff_append_eq.2 rfl
      have hskip : skipBlank s.group = s.group := by
        rw [group, skipBlank_cons, if_neg (by decide)]
      rw [groupAt?, hp, Option.bind_some, if_neg Bool.false_ne_true, hskip]
    rw [line, firstCall?_append hscanned hend (s.notMem_words_before hname), firstCall?]
    cases hg : Group.ofText? s.group with
    | some g =>
      rw [calls_of_groupAt? (hat.trans hg)]
      rfl
    | none =>
      have hlater : calls name (s.args ++ ')' :: s.after) = [] :=
        calls_eq_nil hscanned (s.notMem_words_group hname)
      rw [group, calls_of_groupAt?_eq_none hword hne (by decide) (hat.trans hg), hlater]
      rfl
  next hend => exact firstCall?_eq_none hscanned (s.notMem_words_line hname hname fun _ => hend)

theorem map_heading? (place : Nat) :
    ((Group.ofText? s.group).map fun g => (⟨place, g.inner, g.after⟩ : Call)).bind
      (Statement.headerOf? ·.group) = s.heading?.map .header := by
  rw [heading?]
  cases Group.ofText? s.group with
  | none => rfl
  | some g =>
    change (unquote? g.inner).map _ = ((unquote? g.inner).map _).map _
    rw [Option.map_map]
    rfl

/-- A `PORT_START` opens a port if nothing but blanks stands before it. -/
theorem header?_start :
    Statement.header? (s.line "PORT_START") =
      if s.before.all isBlank then s.heading?.map .header else none := by
  have hmodify : firstCall? "PORT_MODIFY" (s.line "PORT_START") = none :=
    firstCall?_eq_none (by decide)
      (s.notMem_words_line (by decide) (by decide) fun h => absurd h (by decide))
  have hlead : (s.line "PORT_START").take s.before.length = s.before := by
    rw [line, List.take_left]
  rw [Statement.header?_eq, hmodify, Option.or_none, s.firstCall?_line (by decide),
    ← s.map_heading? s.before.length]
  by_cases hend : Ended s.before
  · rw [if_pos hend]
    cases Group.ofText? s.group with
    | none => simp
    | some g =>
      rw [Option.map_some, Option.filter_some, hlead]
      split <;> rfl
  · rw [if_neg hend, if_neg fun hblank => hend (ended_of_blank hblank)]
    rfl

/-- A `PORT_MODIFY` opens a port wherever it stands, if nothing is glued to it. -/
theorem header?_modify :
    Statement.header? (s.line "PORT_MODIFY") =
      if Ended s.before then s.heading?.map .header else none := by
  have hstart : "PORT_START".toList ∉ words (s.line "PORT_MODIFY") :=
    s.notMem_words_line (by decide) (by decide) fun h => absurd h (by decide)
  rw [Statement.header?_of_modify hstart, s.firstCall?_line (by decide),
    ← s.map_heading? s.before.length]
  split <;> rfl

theorem rel_unheaded? : Option.Rel Statement.Alike (Statement.unheaded? (s.line "PORT_START"))
    (Statement.unheaded? (s.line "PORT_MODIFY")) :=
  Statement.rel_unheaded? ((Text.Respelled.here s.group).append_left s.before)

/-- Behind blanks the name comes before everything else that is sought, and nobody copies it. -/
theorem unheaded?_eq_of_blank (hblank : s.before.all isBlank) :
    Statement.unheaded? (s.line "PORT_START") = Statement.unheaded? (s.line "PORT_MODIFY") := by
  refine Statement.unheaded?_congr fun name hname => ?_
  have hunlike : ∀ name ∈ Statement.otherNames, name.toList ∈ scannedWords ∧
      ∀ own ∈ headerNames, IsSpelling own ∧ Unlike name.toList own := by
    decide
  obtain ⟨hscanned, hunlike⟩ := hunlike name hname
  obtain ⟨hword, hne⟩ := word_of_mem_scannedWords _ hscanned
  have hfree : name.toList ∉ words s.before := by
    rw [words_of_none (noWord_of_blank hblank)]
    exact List.not_mem_nil
  have hline : ∀ own : String, own.toList ∈ headerNames →
      (firstCall? name (s.line own)).map Call.group = firstGroup name.toList true s.group := by
    intro own hown
    obtain ⟨hspelling, hunlike⟩ := hunlike _ hown
    rw [← firstGroup_word hspelling hunlike hne false, ← group_firstCall? hword, line,
      firstCall?_append hscanned (ended_of_blank hblank) hfree, Option.map_map]
    rfl
  rw [hline _ (by decide), hline _ (by decide)]

theorem ofLine?_line (name : String) : Statement.ofLine? (s.line name) =
    (Statement.header? (s.line name) <|> Statement.unheaded? (s.line name)) :=
  rfl

theorem ofLine?_of_blank (hblank : s.before.all isBlank) :
    Statement.ofLine? (s.line "PORT_START") = Statement.ofLine? (s.line "PORT_MODIFY") := by
  rw [s.ofLine?_line, s.ofLine?_line, s.header?_start, s.header?_modify, if_pos hblank,
    if_pos (ended_of_blank hblank), s.unheaded?_eq_of_blank hblank]

/-- A `PORT_START` behind something else changes nothing. -/
theorem ofLine?_start (hblank : s.before.all isBlank = false) :
    Statement.ofLine? (s.line "PORT_START") = Statement.unheaded? (s.line "PORT_START") := by
  rw [s.ofLine?_line, s.header?_start, if_neg (Bool.eq_false_iff.1 hblank)]
  rfl

theorem ofLine?_modify (hend : Ended s.before) {name : String} (hname : s.heading? = some name) :
    Statement.ofLine? (s.line "PORT_MODIFY") = some (.header name) := by
  rw [s.ofLine?_line, s.header?_modify, if_pos hend, hname]
  rfl

/-- A line in both spellings says the same, up to copies, if neither makes it a header. -/
theorem rel_ofLine? (hnone : ¬ Ended s.before ∨ s.heading? = none) :
    Option.Rel Statement.Alike (Statement.ofLine? (s.line "PORT_START"))
      (Statement.ofLine? (s.line "PORT_MODIFY")) := by
  have hstart : Statement.header? (s.line "PORT_START") = none := by
    rcases hnone with hend | hheading
    · rw [s.header?_start, if_neg fun hblank => hend (ended_of_blank hblank)]
    · rw [s.header?_start, hheading, Option.map_none, ite_self]
  have hmodify : Statement.header? (s.line "PORT_MODIFY") = none := by
    rcases hnone with hend | hheading
    · rw [s.header?_modify, if_neg hend]
    · rw [s.header?_modify, hheading, Option.map_none, ite_self]
  rw [s.ofLine?_line, s.ofLine?_line, hstart, hmodify]
  exact s.rel_unheaded?

/-- What is read of a line in the two spellings. -/
structure Compared : Prop where
  /-- The first statement of a line is the same in both. -/
  leading : s.before.all isBlank →
    Statement.ofLine? (s.line "PORT_START") = Statement.ofLine? (s.line "PORT_MODIFY")
  /-- Behind something else, a header in the one spelling takes the place of what the line says. -/
  taken : s.before.all isBlank = false → Ended s.before → ∀ name, s.heading? = some name →
    Statement.ofLine? (s.line "PORT_MODIFY") = some (.header name) ∧
      Statement.ofLine? (s.line "PORT_START") = Statement.unheaded? (s.line "PORT_START")
  /-- Only then is something else read than a copy of the spelling. -/
  alike_iff : Option.Rel Statement.Alike (Statement.ofLine? (s.line "PORT_START"))
      (Statement.ofLine? (s.line "PORT_MODIFY")) ↔
    s.before.all isBlank ∨ ¬ Ended s.before ∨ s.heading? = none

end HeaderSite

/-- Lines in the two spellings say the same, up to copies, just if none of them is a late header. -/
theorem compared_of_spellings (s : HeaderSite) : s.Compared where
  leading := s.ofLine?_of_blank
  taken hblank hend name hname := ⟨s.ofLine?_modify hend hname, s.ofLine?_start hblank⟩
  alike_iff := by
    constructor
    · intro hrel
      by_contra hnone
      rw [not_or, not_or, not_not, Bool.not_eq_true] at hnone
      obtain ⟨hblank, hend, hheading⟩ := hnone
      obtain ⟨name, hname⟩ := Option.ne_none_iff_exists'.1 hheading
      -- the line is a header in one spelling, and never in the other
      rw [s.ofLine?_start hblank, s.ofLine?_modify hend hname] at hrel
      obtain ⟨st, hread, halike⟩ := exists_of_rel_some hrel
      rw [halike.eq_of_header] at hread
      exact Statement.unheaded?_ne_header hread
    · rintro (hblank | hnone)
      · rw [s.ofLine?_of_blank hblank]
        exact rel_refl Statement.Alike.refl _
      · exact s.rel_ofLine? hnone

/-- A bit with a header in the remark behind it. -/
def remarkedBit : HeaderSite where
  before := "PORT_BIT( 0x01, IP_ACTIVE_HIGH, IPT_BUTTON1 ) // ".toList
  args := "\"IN.1\"".toList
  after := []
  free := by decide

theorem compared_remarkedBit :
    remarkedBit.Compared ∧
      Statement.ofLine? (remarkedBit.line "PORT_START") =
        some (.bit 1 true "IPT_BUTTON1" none) ∧
      Statement.ofLine? (remarkedBit.line "PORT_MODIFY") = some (.header "IN.1") ∧
      ¬ Option.Rel Statement.Alike (Statement.ofLine? (remarkedBit.line "PORT_START"))
        (Statement.ofLine? (remarkedBit.line "PORT_MODIFY")) := by
  have h := compared_of_spellings remarkedBit
  have hlate : remarkedBit.before.all isBlank = false := by decide
  have hend : Ended remarkedBit.before := by decide
  have hname : remarkedBit.heading? = some "IN.1" := by decide
  obtain ⟨hmodify, hstart⟩ := h.taken hlate hend _ hname
  refine ⟨h, hstart.trans (by decide), hmodify, fun hrel => ?_⟩
  rcases h.alike_iff.1 hrel with hblank | hglued | hnone
  · exact Bool.eq_false_iff.1 hlate hblank
  · exact hglued hend
  · rw [hname] at hnone
    cases hnone

/-- A header in a remark takes the place of what its line says, in one spelling only. -/
theorem not_forall_spellings_alike :
    ¬ ∀ before args after : List Char,
      (∀ part ∈ [before, args, after], OneLine part ∧ ∀ name ∈ headerNames, ¬ name <:+: part) →
      Statement.ofLine? (before ++ ("PORT_START".toList ++ '(' :: (args ++ ')' :: after))) =
        Statement.ofLine? (before ++ ("PORT_MODIFY".toList ++ '(' :: (args ++ ')' :: after))) := by
  intro h
  have hline := h "PORT_BIT( 0x01, IP_ACTIVE_HIGH, IPT_BUTTON1 ) // ".toList "\"IN.1\"".toList []
    (by decide)
  revert hline
  decide

/-- Where neither spelling is read as a header, an argument may copy it. -/
example : Statement.ofLine? "PORT_BIT( 0x01, 0, PORT_MODIFY(x) )".toList =
    some (.bit 1 false "PORT_MODIFY(x)" none) := by
  decide

end LcdHandhelds
