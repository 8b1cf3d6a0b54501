import LcdHandhelds.Proofs.Wiring.Statement

/-!
Lines as a person may write them: blanks wherever they may stand, labels with any commas and
parentheses, and a remark behind the statement. Each is read as the statement that it writes:
`read_writtenLine`.
-/
namespace LcdHandhelds

open Text

/-- The names that a line of an input block is searched for. -/
def lineNames : List (List Char) :=
  ["PORT_START", "PORT_MODIFY", "PORT_BIT", "PORT_NAME", "PORT_CONFSETTING",
    "PORT_INCLUDE"].map String.toList

/-- Of the names that a line is searched for, a text holds only those in `called`. -/
def CallsOnly (called : List (List Char)) (text : List Char) : Prop :=
  ∀ name ∈ lineNames, name ∈ words text → name ∈ called

instance (called : List (List Char)) (text : List Char) : Decidable (CallsOnly called text) :=
  inferInstanceAs (Decidable (∀ name ∈ lineNames, name ∈ words text → name ∈ called))

namespace WrittenLine

/-- The name of a port, or a label, without its quotes. -/
structure Label where
  text : List Char
  noQuote : '"' ∉ text
  noBackslash : '\\' ∉ text
  free : CallsOnly [] text

/-- A polarity, an action or a device. -/
structure Identifier where
  text : List Char
  word : text.all isWordChar
  ne_nil : text ≠ []
  free : CallsOnly [] text

structure Mask where
  text : List Char
  hex : isHexLiteral text

/-- A label of its own, or one that the emulator has for many settings. -/
inductive SettingLabel where
  | own (label : Label)
  | common (gap : Blanks) (label : Padded) (balanced : Balanced label.argument)
    (free : CallsOnly [] label.argument)

/-- An argument with the blanks around it. -/
structure Spaced (α : Type) where
  left : Blanks
  item : α
  right : Blanks

/-- A call that names a bit, and what stands before it. -/
structure NameCall where
  between : List Char
  ended : Ended between
  free : CallsOnly [] between
  gap : Blanks
  label : Spaced Label

/-- A statement, with the blanks before the parenthesis. -/
inductive Form where
  | header (modifies : Bool) (gap : Blanks) (name : Spaced Label)
  | bit (gap : Blanks) (mask : Spaced Mask) (polarity action : Spaced Identifier)
    (name : Option NameCall)
  | setting (gap : Blanks) (mask : Spaced Mask) (label : Spaced SettingLabel)
  | inherit (gap : Blanks) (device : Spaced Identifier)

end WrittenLine

structure WrittenLine where
  lead : Blanks
  form : WrittenLine.Form
  rest : List Char
  free : CallsOnly [] rest

namespace WrittenLine

def SettingLabel.text : SettingLabel → List Char
  | own label => literal label.text
  | common gap label _ _ => spacedCall "DEF_STR".toList gap [label]

def Spaced.padded {α : Type} (text : α → List Char) (s : Spaced α) : Padded :=
  ⟨s.left, text s.item, s.right⟩

/-- The one argument of a call that takes a literal. -/
def quoted (label : Spaced Label) : List Padded :=
  [label.padded fun l => literal l.text]

def NameCall.text (n : NameCall) : List Char :=
  n.between ++ spacedCall "PORT_NAME".toList n.gap (quoted n.label)

namespace Form

/-- The name that a statement begins with. -/
def name : Form → String
  | header false _ _ => "PORT_START"
  | header true _ _ => "PORT_MODIFY"
  | bit _ _ _ _ _ => "PORT_BIT"
  | setting _ _ _ => "PORT_CONFSETTING"
  | inherit _ _ => "PORT_INCLUDE"

def gap : Form → Blanks
  | header _ gap _ => gap
  | bit gap _ _ _ _ => gap
  | setting gap _ _ => gap
  | inherit gap _ => gap

def args : Form → List Padded
  | header _ _ name => quoted name
  | bit _ mask polarity action _ =>
    [mask.padded Mask.text, polarity.padded Identifier.text, action.padded Identifier.text]
  | setting _ mask label => [mask.padded Mask.text, label.padded SettingLabel.text]
  | inherit _ device => [device.padded Identifier.text]

/-- What belongs to a statement behind its parenthesis. -/
def trailer : Form → List Char
  | bit _ _ _ _ (some name) => name.text
  | _ => []

def text (f : Form) : List Char :=
  spacedCall f.name.toList f.gap f.args ++ f.trailer

/-- What is written. -/
def statement : Form → Statement
  | header _ _ name => .header (String.ofList name.item.text)
  | bit _ mask polarity action name =>
    .bit (hexValue mask.item.text) (polarity.item.text = "IP_ACTIVE_HIGH".toList)
      (String.ofList action.item.text) (name.map fun n => String.ofList n.label.item.text)
  | setting _ mask _ => .setting (hexValue mask.item.text)
  | inherit _ device => .inherit (String.ofList device.item.text)

end Form

def text (l : WrittenLine) : List Char :=
  l.lead.text ++ (l.form.text ++ l.rest)

def statement (l : WrittenLine) : Statement :=
  l.form.statement

end WrittenLine

/-! ### What a text calls -/

theorem lineNames_subset : lineNames ⊆ scannedWords := by
  decide

section CallsOnly

variable {called : List (List Char)} {s t : List Char}

/-- A text none of whose parts is such a name calls nothing. -/
theorem callsOnly_of_notInfix (h : ∀ name ∈ lineNames, ¬ name <:+: s) : CallsOnly called s :=
  fun name hname hword => absurd (of_mem_words hword).2.2 (h name hname)

theorem callsOnly_of_inert (h : Inert s) : CallsOnly called s :=
  fun name hname hword => absurd (lineNames_subset hname) (h.noWord name hword)

theorem CallsOnly.mono {more : List (List Char)} (h : CallsOnly called s) (hsub : called ⊆ more) :
    CallsOnly more s :=
  fun name hname hword => hsub (h name hname hword)

theorem CallsOnly.append (hend : Ended s) (hs : CallsOnly called s) (ht : CallsOnly called t) :
    CallsOnly called (s ++ t) := by
  intro name hname hword
  rw [words_append hend, List.mem_append] at hword
  exact hword.elim (hs name hname) (ht name hname)

theorem callsOnly_spacedCall {name : List Char} (hword : name.all isWordChar) (hne : name ≠ [])
    (hcalled : name ∈ lineNames → name ∈ called) {gap : Blanks} {args : List Padded}
    (h : ∀ p ∈ args, CallsOnly called p.argument) :
    CallsOnly called (spacedCall name gap args) := by
  intro other hother hmem
  rw [words_spacedCall hword hne] at hmem
  rcases List.mem_cons.1 hmem with rfl | hmem
  · exact hcalled hother
  · obtain ⟨p, hp, hmem⟩ := List.mem_flatMap.1 hmem
    exact h p hp other hother hmem

theorem callsOnly_literal (h : CallsOnly called s) : CallsOnly called (literal s) := by
  intro name hname hword
  rw [words_literal] at hword
  exact h name hname hword

end CallsOnly

namespace WrittenLine

theorem callsOnly_of_nil {called : List (List Char)} {text : List Char} (h : CallsOnly [] text) :
    CallsOnly called text :=
  h.mono (List.nil_subset _)

theorem Mask.free (m : Mask) : CallsOnly [] m.text :=
  callsOnly_of_inert (isToken_of_isHexLiteral m.hex).inert

theorem SettingLabel.free (l : SettingLabel) : CallsOnly [] l.text := by
  cases l with
  | own label => exact callsOnly_literal label.free
  | common gap label balanced free =>
    exact callsOnly_spacedCall (by decide) (by decide) (by decide)
      (List.forall_mem_singleton.2 free)

theorem SettingLabel.isArgument (l : SettingLabel) : IsArgument l.text := by
  cases l with
  | own label => exact isArgument_literal label.noQuote label.noBackslash
  | common gap label balanced free =>
    exact isArgument_spacedCall (by decide) (by decide) gap (List.forall_mem_singleton.2 balanced)

theorem Mask.isArgument (m : Mask) : IsArgument m.text :=
  (isToken_of_isHexLiteral m.hex).isArgument

theorem Identifier.isArgument (i : Identifier) : IsArgument i.text :=
  isArgument_of_word i.word i.ne_nil

theorem isArgument_quoted (label : Spaced Label) : ∀ p ∈ quoted label, IsArgument p.argument :=
  List.forall_mem_singleton.2 (isArgument_literal label.item.noQuote label.item.noBackslash)

theorem free_quoted (label : Spaced Label) : ∀ p ∈ quoted label, CallsOnly [] p.argument :=
  List.forall_mem_singleton.2 (callsOnly_literal label.item.free)

namespace Form

variable (f : Form)

theorem isArgument_args : ∀ p ∈ f.args, IsArgument p.argument := by
  cases f with
  | header modifies gap name => exact isArgument_quoted name
  | bit gap mask polarity action name =>
    simp only [args, List.forall_mem_cons]
    exact ⟨mask.item.isArgument, polarity.item.isArgument, action.item.isArgument,
      List.forall_mem_nil _⟩
  | setting gap mask label =>
    simp only [args, List.forall_mem_cons]
    exact ⟨mask.item.isArgument, label.item.isArgument, List.forall_mem_nil _⟩
  | inherit gap device => exact List.forall_mem_singleton.2 device.item.isArgument

theorem free_args : ∀ p ∈ f.args, CallsOnly [] p.argument := by
  cases f with
  | header modifies gap name => exact free_quoted name
  | bit gap mask polarity action name =>
    simp only [args, List.forall_mem_cons]
    exact ⟨mask.item.free, polarity.item.free, action.item.free, List.forall_mem_nil _⟩
  | setting gap mask label =>
    simp only [args, List.forall_mem_cons]
    exact ⟨mask.item.free, label.item.free, List.forall_mem_nil _⟩
  | inherit gap device => exact List.forall_mem_singleton.2 device.item.free

theorem ended_text : Ended f.text := by
  rw [text]
  cases f with
  | bit gap mask polarity action name =>
    cases name with
    | none => exact (ended_spacedCall _ _ _).append ended_nil
    | some n =>
      exact (ended_spacedCall _ _ _).append (n.ended.append (ended_spacedCall _ _ _))
  | header modifies gap name => exact (ended_spacedCall _ _ _).append ended_nil
  | setting gap mask label => exact (ended_spacedCall _ _ _).append ended_nil
  | inherit gap device => exact (ended_spacedCall _ _ _).append ended_nil

/-- The names that a statement calls. -/
def called : Form → List (List Char)
  | header false _ _ => ["PORT_START".toList]
  | header true _ _ => ["PORT_MODIFY".toList]
  | bit _ _ _ _ _ => ["PORT_BIT".toList, "PORT_NAME".toList]
  | setting _ _ _ => ["PORT_CONFSETTING".toList]
  | inherit _ _ => ["PORT_INCLUDE".toList]

theorem name_mem_scannedWords : f.name.toList ∈ scannedWords := by
  cases f with
  | header modifies gap name => cases modifies <;> (rw [Form.name]; decide)
  | bit gap mask polarity action name => rw [Form.name]; decide
  | setting gap mask label => rw [Form.name]; decide
  | inherit gap device => rw [Form.name]; decide

theorem name_mem_called : f.name.toList ∈ f.called := by
  cases f with
  | header modifies gap name => cases modifies <;> exact List.mem_cons_self
  | bit gap mask polarity action name => exact List.mem_cons_self
  | setting gap mask label => exact List.mem_cons_self
  | inherit gap device => exact List.mem_cons_self

theorem callsOnly_trailer : CallsOnly f.called f.trailer := by
  have hnone : ∀ {called}, CallsOnly called [] := fun name _ hword => absurd hword List.not_mem_nil
  cases f with
  | bit gap mask polarity action name =>
    cases name with
    | none => exact hnone
    | some n =>
      exact (callsOnly_of_nil n.free).append n.ended (callsOnly_spacedCall (by decide) (by decide)
        (fun _ => List.mem_cons_of_mem _ List.mem_cons_self)
        fun p hp => callsOnly_of_nil (free_quoted n.label p hp))
  | header modifies gap name => exact hnone
  | setting gap mask label => exact hnone
  | inherit gap device => exact hnone

theorem callsOnly_text : CallsOnly f.called f.text := by
  obtain ⟨hword, hne⟩ := word_of_mem_scannedWords _ f.name_mem_scannedWords
  exact (callsOnly_spacedCall hword hne (fun _ => f.name_mem_called)
    fun p hp => callsOnly_of_nil (f.free_args p hp)).append (ended_spacedCall _ _ _)
      f.callsOnly_trailer

end Form

/-! ### What is read -/

/-- A name that a statement does not call is not found on its line. -/
theorem notMem_words (l : WrittenLine) {name : List Char} (hname : name ∈ lineNames)
    (hother : name ∉ l.form.called) : name ∉ words l.text := by
  intro hmem
  rw [text, words_blank_append l.lead.blank] at hmem
  exact hother (l.form.callsOnly_text.append l.form.ended_text (callsOnly_of_nil l.free) name hname
    hmem)

theorem firstCall?_text (l : WrittenLine) :
    firstCall? l.form.name l.text =
      some ⟨l.lead.text.length, commaSeparated l.form.args, l.form.trailer ++ l.rest⟩ := by
  have hfree : l.form.name.toList ∉ words l.lead.text := by
    rw [words_of_none (noWord_of_blank l.lead.blank)]
    exact List.not_mem_nil
  rw [text, Form.text, List.append_assoc]
  exact firstCall?_spacedCall l.form.name_mem_scannedWords (ended_of_blank l.lead.blank) hfree
    l.form.gap (fun p hp => (l.form.isArgument_args p hp).closed.balanced) _

theorem unquote?_quoted (label : Spaced Label) :
    unquote? (commaSeparated (quoted label)) = some label.item.text := by
  rw [unquote?_eq_some_iff, quoted, commaSeparated, Padded.trim_text]
  exact trim_literal label.item.text

theorem NameCall.firstCall?_text (n : NameCall) (rest : List Char) :
    firstCall? "PORT_NAME" (n.text ++ rest) =
      some ⟨n.between.length, commaSeparated (quoted n.label), rest⟩ := by
  have hfree : "PORT_NAME".toList ∉ words n.between := fun hmem =>
    List.not_mem_nil (n.free _ (by decide) hmem)
  rw [NameCall.text, List.append_assoc]
  exact firstCall?_spacedCall (by decide) n.ended hfree n.gap
    (fun p hp => (isArgument_quoted n.label p hp).closed.balanced) rest

section Forms

variable {lead : Blanks} {rest : List Char} {free : CallsOnly [] rest}

theorem header?_text (modifies : Bool) (gap : Blanks) (name : Spaced Label) :
    Statement.header? (text ⟨lead, .header modifies gap name, rest, free⟩) =
      some (Form.header modifies gap name).statement := by
  have hcall := firstCall?_text ⟨lead, .header modifies gap name, rest, free⟩
  have hread : ∀ after, Statement.headerOf? ⟨commaSeparated (quoted name), after⟩ =
      some (Form.header modifies gap name).statement := by
    intro after
    rw [Statement.headerOf?, unquote?_quoted]
    rfl
  cases modifies with
  | false =>
    refine (Statement.header?_of_start hcall ?_).trans (hread _)
    rw [text, List.take_left]
    exact lead.blank
  | true =>
    have hstart := @notMem_words ⟨lead, .header true gap name, rest, free⟩ "PORT_START".toList
      (by decide) (show _ ∉ ["PORT_MODIFY".toList] by decide)
    rw [Statement.header?_of_modify hstart]
    exact (congrArg (Option.bind · _) hcall).trans (hread _)

theorem bit?_text (gap : Blanks) (mask : Spaced Mask) (polarity action : Spaced Identifier)
    (name : Option NameCall) :
    Statement.bit? (text ⟨lead, .bit gap mask polarity action name, rest, free⟩) =
      some (Form.bit gap mask polarity action name).statement := by
  have hcall := firstCall?_text ⟨lead, .bit gap mask polarity action name, rest, free⟩
  have hargs := arguments_commaSeparated (List.cons_ne_nil _ _)
    (Form.isArgument_args (.bit gap mask polarity action name))
  have hname : (firstCall? "PORT_NAME" ((Form.bit gap mask polarity action name).trailer ++
      rest)).bind (unquote? ·.args) = name.map fun n => n.label.item.text := by
    cases name with
    | none =>
      exact congrArg (Option.bind · _) (firstCall?_eq_none (by decide) fun hmem =>
        List.not_mem_nil (free _ (by decide) hmem))
    | some n =>
      rw [Form.trailer, n.firstCall?_text, Option.bind_some, unquote?_quoted]
      rfl
  rw [Statement.bit?_of_call hcall hargs mask.item.hex, hname, Option.map_map]
  rfl

theorem setting?_text (gap : Blanks) (mask : Spaced Mask) (label : Spaced SettingLabel) :
    Statement.setting? (text ⟨lead, .setting gap mask label, rest, free⟩) =
      some (Form.setting gap mask label).statement := by
  have hcall := firstCall?_text ⟨lead, .setting gap mask label, rest, free⟩
  have hargs := arguments_commaSeparated (List.cons_ne_nil _ _)
    (Form.isArgument_args (.setting gap mask label))
  exact Statement.setting?_of_call hcall hargs mask.item.hex

theorem inherit?_text (gap : Blanks) (device : Spaced Identifier) :
    Statement.inherit? (text ⟨lead, .inherit gap device, rest, free⟩) =
      some (Form.inherit gap device).statement := by
  have hcall := firstCall?_text ⟨lead, .inherit gap device, rest, free⟩
  have hdevice : trim (commaSeparated (Form.inherit gap device).args) = device.item.text :=
    (device.padded Identifier.text).trim_text.trans device.item.isArgument.trimmed
  exact Statement.inherit?_of_call hcall hdevice device.item.ne_nil

/-! The recognizers are tried in order. Those before the right one need a name that is missing. -/

theorem ofLine?_header (modifies : Bool) (gap : Blanks) (name : Spaced Label) :
    Statement.ofLine? (text ⟨lead, .header modifies gap name, rest, free⟩) =
      some (Form.header modifies gap name).statement := by
  rw [Statement.ofLine?, header?_text]
  rfl

theorem ofLine?_bit (gap : Blanks) (mask : Spaced Mask) (polarity action : Spaced Identifier)
    (name : Option NameCall) :
    Statement.ofLine? (text ⟨lead, .bit gap mask polarity action name, rest, free⟩) =
      some (Form.bit gap mask polarity action name).statement := by
  have hother := fun {other} => @notMem_words ⟨lead, .bit gap mask polarity action name, rest, free⟩
    other
  rw [Form.called] at hother
  rw [Statement.ofLine?, Statement.header?_eq_none (hother (by decide) (by decide))
    (hother (by decide) (by decide)), bit?_text]
  rfl

theorem ofLine?_setting (gap : Blanks) (mask : Spaced Mask) (label : Spaced SettingLabel) :
    Statement.ofLine? (text ⟨lead, .setting gap mask label, rest, free⟩) =
      some (Form.setting gap mask label).statement := by
  have hother := fun {other} => @notMem_words ⟨lead, .setting gap mask label, rest, free⟩ other
  rw [Form.called] at hother
  rw [Statement.ofLine?, Statement.header?_eq_none (hother (by decide) (by decide))
    (hother (by decide) (by decide)), Statement.bit?_eq_none (hother (by decide) (by decide)),
    setting?_text]
  rfl

theorem ofLine?_inherit (gap : Blanks) (device : Spaced Identifier) :
    Statement.ofLine? (text ⟨lead, .inherit gap device, rest, free⟩) =
      some (Form.inherit gap device).statement := by
  have hother := fun {other} => @notMem_words ⟨lead, .inherit gap device, rest, free⟩ other
  rw [Form.called] at hother
  rw [Statement.ofLine?, Statement.header?_eq_none (hother (by decide) (by decide))
    (hother (by decide) (by decide)), Statement.bit?_eq_none (hother (by decide) (by decide)),
    Statement.setting?_eq_none (hother (by decide) (by decide)), inherit?_text]
  rfl

end Forms

end WrittenLine

/-- A line is read as the statement that it writes. -/
theorem read_writtenLine (l : WrittenLine) : Statement.ofLine? l.text = some l.statement := by
  obtain ⟨lead, form, rest, free⟩ := l
  cases form with
  | header modifies gap name => exact WrittenLine.ofLine?_header modifies gap name
  | bit gap mask polarity action name =>
    exact WrittenLine.ofLine?_bit gap mask polarity action name
  | setting gap mask label => exact WrittenLine.ofLine?_setting gap mask label
  | inherit gap device => exact WrittenLine.ofLine?_inherit gap device

namespace WrittenLine

/-- A setting whose label holds the signs that part arguments. -/
def playersLine : WrittenLine where
  lead := ⟨['\t'], by decide⟩
  form := .setting .space ⟨.space, ⟨"0x02".toList, by decide⟩, .none⟩
    ⟨.space, .own ⟨"2 Players (A, B)".toList, by decide, by decide,
      callsOnly_of_notInfix (by decide)⟩, .space⟩
  rest := " // default".toList
  free := callsOnly_of_notInfix (by decide)

/-- A bit whose name stands behind another call. -/
def startLine : WrittenLine where
  lead := .none
  form := .bit .none ⟨.space, ⟨"0x04".toList, by decide⟩, .space⟩
    ⟨.none, ⟨"IP_ACTIVE_HIGH".toList, by decide, by decide, callsOnly_of_notInfix (by decide)⟩,
      .none⟩
    ⟨.space, ⟨"IPT_START".toList, by decide, by decide, callsOnly_of_notInfix (by decide)⟩, .none⟩
    (some {
      between := " NOTE(1) ".toList
      ended := by decide
      free := callsOnly_of_notInfix (by decide)
      gap := .space
      label := ⟨.none, ⟨"Go, now".toList, by decide, by decide,
        callsOnly_of_notInfix (by decide)⟩, .space⟩ })
  rest := []
  free := callsOnly_of_notInfix (by decide)

theorem read_playersLine_startLine :
    Statement.ofLine? "\tPORT_CONFSETTING ( 0x02, \"2 Players (A, B)\" ) // default".toList =
        some (.setting 2) ∧
      Statement.ofLine?
          "PORT_BIT( 0x04 ,IP_ACTIVE_HIGH, IPT_START) NOTE(1) PORT_NAME (\"Go, now\" )".toList =
        some (.bit 4 true "IPT_START" (some "Go, now")) := by
  have hplayers : playersLine.text =
      "\tPORT_CONFSETTING ( 0x02, \"2 Players (A, B)\" ) // default".toList := by
    decide
  have hstart : startLine.text =
      "PORT_BIT( 0x04 ,IP_ACTIVE_HIGH, IPT_START) NOTE(1) PORT_NAME (\"Go, now\" )".toList := by
    decide
  rw [← hplayers, ← hstart, read_writtenLine playersLine, read_writtenLine startLine]
  decide

end WrittenLine

end LcdHandhelds
