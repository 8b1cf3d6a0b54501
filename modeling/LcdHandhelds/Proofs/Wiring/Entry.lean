import LcdHandhelds.Proofs.Wiring.WrittenLine
import LcdHandhelds.Wiring.Block

/-!
Statements as they are written. A line that writes a statement is read as that statement, and a
block of written statements is read line by line, one statement each: `exists_ofBody_entriesText`.
-/
namespace LcdHandhelds

open Text

/-- A statement of an input block, with its arguments as they are written. -/
inductive Entry where
  | header (modifies : Bool) (name : List Char)
  | bit (mask polarity action : List Char) (name : Option (List Char))
  | setting (mask label : List Char)
  | inherit (device : List Char)
  deriving DecidableEq, Repr

namespace Entry

def text : Entry → List Char
  | header false name => callText "PORT_START".toList [] [] [literal name]
  | header true name => callText "PORT_MODIFY".toList [] [] [literal name]
  | bit mask polarity action none =>
    callText "PORT_BIT".toList [' '] [' '] [mask, polarity, action]
  | bit mask polarity action (some name) =>
    callText "PORT_BIT".toList [' '] [' '] [mask, polarity, action] ++
      ' ' :: callText "PORT_NAME".toList [] [] [literal name]
  | setting mask label =>
    callText "PORT_CONFSETTING".toList [' ', ' ', ' ', ' '] [' ']
      [mask, callText "DEF_STR".toList [' '] [' '] [label]]
  | inherit device => callText "PORT_INCLUDE".toList [' '] [' '] [device]

/-- What is written. -/
def statement : Entry → Statement
  | header _ name => .header (String.ofList name)
  | bit mask polarity action name =>
    .bit (hexValue mask) (polarity = "IP_ACTIVE_HIGH".toList) (String.ofList action)
      (name.map String.ofList)
  | setting mask _ => .setting (hexValue mask)
  | inherit device => .inherit (String.ofList device)

/-- Names are free texts, masks are hexadecimal, and the rest is tokens. -/
def Valid : Entry → Prop
  | header _ name => IsFreeText name
  | bit mask polarity action name =>
    isHexLiteral mask ∧ IsToken polarity ∧ IsToken action ∧ ∀ n ∈ name, IsFreeText n
  | setting mask label => isHexLiteral mask ∧ IsToken label
  | inherit device => IsToken device

instance (e : Entry) : Decidable e.Valid :=
  match e with
  | header _ name => inferInstanceAs (Decidable (IsFreeText name))
  | bit mask polarity action name => inferInstanceAs (Decidable
      (isHexLiteral mask ∧ IsToken polarity ∧ IsToken action ∧ ∀ n ∈ name, IsFreeText n))
  | setting mask label => inferInstanceAs (Decidable (isHexLiteral mask ∧ IsToken label))
  | inherit device => inferInstanceAs (Decidable (IsToken device))

end Entry

/-- A line that writes a statement, with blanks before it. -/
structure EntryLine where
  pad : List Char
  entry : Entry
  blank : pad.all isBlank
  valid : entry.Valid

def EntryLine.text (l : EntryLine) : List Char := l.pad ++ l.entry.text

/-- The lines between the two ends of an input block. -/
def entriesText (entries : List Entry) : List Char :=
  '\n' :: entries.flatMap fun e => '\t' :: (e.text ++ ['\n'])

/-! ### One line -/

namespace Entry

/-- The macros that a line calls. -/
def macros : Entry → List (List Char)
  | header false _ => ["PORT_START".toList]
  | header true _ => ["PORT_MODIFY".toList]
  | bit _ _ _ _ => ["PORT_BIT".toList, "PORT_NAME".toList]
  | setting _ _ => ["PORT_CONFSETTING".toList]
  | inherit _ => ["PORT_INCLUDE".toList]

theorem opens_text {e : Entry} (h : e.Valid) : Opens e.macros e.text := by
  cases e with
  | header modifies name =>
    have hargs : ∀ a ∈ [literal name], Opens (header modifies name).macros a :=
      List.forall_mem_singleton.2 (IsFreeText.opens h)
    cases modifies with
    | false => exact opens_callText (by decide) (by decide) (.inl List.mem_cons_self) rfl rfl hargs
    | true => exact opens_callText (by decide) (by decide) (.inl List.mem_cons_self) rfl rfl hargs
  | bit mask polarity action name =>
    obtain ⟨hmask, hpolarity, haction, hname⟩ := h
    have hargs : ∀ a ∈ [mask, polarity, action],
        Opens ["PORT_BIT".toList, "PORT_NAME".toList] a := by
      simp only [List.forall_mem_cons]
      exact ⟨(isToken_of_isHexLiteral hmask).opens, hpolarity.opens, haction.opens,
        List.forall_mem_nil _⟩
    have hbit : Opens ["PORT_BIT".toList, "PORT_NAME".toList]
        (callText "PORT_BIT".toList [' '] [' '] [mask, polarity, action]) :=
      opens_callText (by decide) (by decide) (.inl (by decide)) (by decide) (by decide) hargs
    cases name with
    | none => exact hbit
    | some name =>
      have hlabel : ∀ a ∈ [literal name], Opens ["PORT_BIT".toList, "PORT_NAME".toList] a :=
        List.forall_mem_singleton.2 (hname name rfl).opens
      have hname : Opens ["PORT_BIT".toList, "PORT_NAME".toList]
          (callText "PORT_NAME".toList [] [] [literal name]) :=
        opens_callText (by decide) (by decide) (.inl (by decide)) rfl rfl hlabel
      exact hbit.append_cons (by decide) hname
  | setting mask label =>
    obtain ⟨hmask, hlabel⟩ := h
    have hdefault : Opens ["PORT_CONFSETTING".toList]
        (callText "DEF_STR".toList [' '] [' '] [label]) :=
      opens_callText (by decide) (by decide) (.inr (by decide +kernel)) (by decide) (by decide)
        (List.forall_mem_singleton.2 hlabel.opens)
    have hargs : ∀ a ∈ [mask, callText "DEF_STR".toList [' '] [' '] [label]],
        Opens ["PORT_CONFSETTING".toList] a := by
      simp only [List.forall_mem_cons]
      exact ⟨(isToken_of_isHexLiteral hmask).opens, hdefault,
        List.forall_mem_nil _⟩
    exact opens_callText (by decide) (by decide) (.inl List.mem_cons_self) (by decide) (by decide)
      hargs
  | inherit device =>
    have hargs : ∀ a ∈ [device], Opens ["PORT_INCLUDE".toList] a :=
      List.forall_mem_singleton.2 (IsToken.opens h)
    exact opens_callText (by decide) (by decide) (.inl List.mem_cons_self) (by decide) (by decide)
      hargs

/-- A free text as the name or the label that it is. -/
def label {text : List Char} (h : IsFreeText text) : WrittenLine.Label :=
  ⟨text, h.noQuote, h.noBackslash, callsOnly_of_inert h.inert⟩

def identifier {text : List Char} (h : IsToken text) : WrittenLine.Identifier :=
  ⟨text, h.word, h.ne_nil, callsOnly_of_inert h.inert⟩

/-- The label of a bit, a space behind the bit. -/
def nameCall {text : List Char} (h : IsFreeText text) : WrittenLine.NameCall where
  between := [' ']
  ended := by decide
  free := by decide
  gap := .none
  label := ⟨.none, label h, .none⟩

/-- The statement with its blanks. -/
def form : (e : Entry) → e.Valid → WrittenLine.Form
  | header modifies _, h => .header modifies .none ⟨.none, label h, .none⟩
  | bit mask _ _ none, h =>
    .bit .none ⟨.space, ⟨mask, h.1⟩, .none⟩ ⟨.space, identifier h.2.1, .none⟩
      ⟨.space, identifier h.2.2.1, .space⟩ none
  | bit mask _ _ (some name), h =>
    .bit .none ⟨.space, ⟨mask, h.1⟩, .none⟩ ⟨.space, identifier h.2.1, .none⟩
      ⟨.space, identifier h.2.2.1, .space⟩ (some (nameCall (h.2.2.2 name rfl)))
  | setting mask label, h =>
    .setting .none ⟨⟨[' ', ' ', ' ', ' '], by decide⟩, ⟨mask, h.1⟩, .none⟩
      ⟨.space, .common .none ⟨.space, label, .space⟩ (closed_of_word h.2.word).balanced
        (callsOnly_of_inert h.2.inert), .space⟩
  | inherit _, h => .inherit .none ⟨.space, identifier h, .space⟩

theorem text_form (e : Entry) (h : e.Valid) : (e.form h).text = e.text := by
  have hquoted : ∀ own name : List Char, callText own [] [] [literal name] =
      spacedCall own .none [⟨.none, literal name, .none⟩] := fun own name =>
    callText_eq own .none .none [literal name]
  have hbit : ∀ mask polarity action : List Char,
      callText "PORT_BIT".toList [' '] [' '] [mask, polarity, action] =
        spacedCall "PORT_BIT".toList .none
          [⟨.space, mask, .none⟩, ⟨.space, polarity, .none⟩, ⟨.space, action, .space⟩] :=
    fun mask polarity action => callText_eq _ .space .space [mask, polarity, action]
  cases e with
  | header modifies name =>
    cases modifies with
    | false =>
      rw [text, hquoted]
      exact List.append_nil _
    | true =>
      rw [text, hquoted]
      exact List.append_nil _
  | bit mask polarity action name =>
    cases name with
    | none =>
      rw [text, hbit]
      exact List.append_nil _
    | some name =>
      rw [text, hbit, hquoted]
      rfl
  | setting mask label =>
    have hlabel : callText "DEF_STR".toList [' '] [' '] [label] =
        spacedCall "DEF_STR".toList .none [⟨.space, label, .space⟩] :=
      callText_eq _ .space .space [label]
    rw [text, hlabel]
    exact (List.append_nil _).trans (callText_eq "PORT_CONFSETTING".toList
      ⟨[' ', ' ', ' ', ' '], by decide⟩ .space [mask, _]).symm
  | inherit device =>
    exact (List.append_nil _).trans (callText_eq _ .space .space [device]).symm

/-- A statement is read from its line, with or without blanks before it. -/
theorem ofLine?_text {e : Entry} (h : e.Valid) {pad : List Char} (hpad : pad.all isBlank) :
    Statement.ofLine? (pad ++ e.text) = some e.statement := by
  have hnone : CallsOnly [] [] := by decide
  have hline : Statement.ofLine? (WrittenLine.text ⟨⟨pad, hpad⟩, e.form h, [], hnone⟩) =
      some e.statement := by
    cases e with
    | header modifies name => exact WrittenLine.ofLine?_header _ _ _
    | bit mask polarity action name =>
      cases name with
      | none => exact WrittenLine.ofLine?_bit _ _ _ _ _
      | some name => exact WrittenLine.ofLine?_bit _ _ _ _ _
    | setting mask label => exact WrittenLine.ofLine?_setting _ _ _
    | inherit device => exact WrittenLine.ofLine?_inherit _ _
  rwa [WrittenLine.text, text_form, List.append_nil] at hline

/-! ### All lines -/

theorem text_ends (e : Entry) : e.text.head? = some 'P' ∧ e.text.getLast? = some ')' := by
  have hlast : ∀ name left right args, (callText name left right args).getLast? = some ')' :=
    fun _ _ _ _ => List.getLast?_concat
  cases e with
  | header modifies name => cases modifies <;> exact ⟨rfl, hlast _ _ _ _⟩
  | bit mask polarity action name =>
    cases name with
    | none => exact ⟨rfl, hlast _ _ _ _⟩
    | some name =>
      refine ⟨rfl, ?_⟩
      rw [text, List.getLast?_append, List.getLast?_cons, hlast]
      rfl
  | setting mask label => exact ⟨rfl, hlast _ _ _ _⟩
  | inherit device => exact ⟨rfl, hlast _ _ _ _⟩

theorem text_ne_nil (e : Entry) : e.text ≠ [] := by
  intro hnil
  have hends := e.text_ends.1
  rw [hnil] at hends
  cases hends

theorem oneLine_text {e : Entry} (h : e.Valid) : OneLine e.text := by
  cases e with
  | header modifies name =>
    have hargs : ∀ a ∈ [literal name], OneLine a :=
      List.forall_mem_singleton.2 (oneLine_literal (IsFreeText.oneLine h))
    cases modifies <;> exact oneLine_callText (by decide) (by decide) (by decide) hargs
  | bit mask polarity action name =>
    obtain ⟨hmask, hpolarity, haction, hname⟩ := h
    have hargs : ∀ a ∈ [mask, polarity, action], OneLine a := by
      simp only [List.forall_mem_cons]
      exact ⟨(isToken_of_isHexLiteral hmask).oneLine, hpolarity.oneLine, haction.oneLine,
        List.forall_mem_nil _⟩
    have hbit := @oneLine_callText "PORT_BIT".toList [' '] [' '] _ (by decide) (by decide)
      (by decide) hargs
    cases name with
    | none => exact hbit
    | some name =>
      have hlabel : ∀ a ∈ [literal name], OneLine a :=
        List.forall_mem_singleton.2 (oneLine_literal (hname name rfl).oneLine)
      exact hbit.append (OneLine.append (s := [' ']) (by decide)
        (oneLine_callText (by decide) (by decide) (by decide) hlabel))
  | setting mask label =>
    obtain ⟨hmask, hlabel⟩ := h
    refine oneLine_callText (by decide) (by decide) (by decide) ?_
    simp only [List.forall_mem_cons]
    exact ⟨(isToken_of_isHexLiteral hmask).oneLine,
      oneLine_callText (by decide) (by decide) (by decide)
        (List.forall_mem_singleton.2 hlabel.oneLine),
      List.forall_mem_nil _⟩
  | inherit device =>
    exact oneLine_callText (by decide) (by decide) (by decide)
      (List.forall_mem_singleton.2 (IsToken.oneLine h))

/-- Nothing is blank at the ends of a statement. -/
theorem trim_text (e : Entry) : trim e.text = e.text :=
  trim_of_ends e.text_ends.1 e.text_ends.2 (by decide) (by decide)

end Entry

namespace EntryLine

theorem ofLine?_text (l : EntryLine) : Statement.ofLine? l.text = some l.entry.statement :=
  Entry.ofLine?_text l.valid l.blank

theorem trim_text (l : EntryLine) : trim l.text = l.entry.text := by
  have htrim := @trim_append_blank l.pad [] l.blank rfl l.entry.text
  rwa [List.append_nil, Entry.trim_text] at htrim

end EntryLine

namespace Block

/-- The first statement of a block, and the others on the lines below. -/
def linesText (e : Entry) (rest : List Entry) : List Char :=
  e.text ++ (rest.map ('\t' :: ·.text)).flatMap ('\n' :: ·)

/-- A line end that follows each line, or that goes before it. -/
theorem entriesText_cons (e : Entry) (rest : List Entry) :
    entriesText (e :: rest) = ['\n', '\t'] ++ linesText e rest ++ ['\n'] := by
  have hbelow : '\n' :: rest.flatMap (fun e => '\t' :: (e.text ++ ['\n'])) =
      (rest.map ('\t' :: ·.text)).flatMap ('\n' :: ·) ++ ['\n'] := by
    induction rest with
    | nil => rfl
    | cons next rest ih =>
      rw [List.flatMap_cons, List.cons_append, List.append_assoc, List.singleton_append, ih]
      simp
  rw [entriesText, List.flatMap_cons, List.cons_append, List.append_assoc,
    List.singleton_append, hbelow, linesText]
  simp

theorem getLast?_linesText (e : Entry) (rest : List Entry) :
    (linesText e rest).getLast? = some ')' := by
  rcases List.eq_nil_or_concat' rest with rfl | ⟨front, last, rfl⟩
  · rw [linesText, List.map_nil, List.flatMap_nil, List.append_nil, e.text_ends.2]
  · rw [linesText, List.map_append, List.flatMap_append, ← List.append_assoc, List.map_singleton,
      List.flatMap_singleton, List.getLast?_append, List.getLast?_cons, List.getLast?_cons,
      last.text_ends.2]
    rfl

theorem trim_entriesText (e : Entry) (rest : List Entry) :
    trim (entriesText (e :: rest)) = linesText e rest := by
  have hfirst : (linesText e rest).head? = some 'P' := by
    rw [linesText, List.head?_append, e.text_ends.1]
    rfl
  rw [entriesText_cons, trim_append_blank (by decide) (by decide)]
  exact trim_of_ends hfirst (getLast?_linesText e rest) (by decide) (by decide)

theorem lines_linesText {e : Entry} {rest : List Entry} (h : ∀ e' ∈ e :: rest, e'.Valid) :
    lines (linesText e rest) = e.text :: rest.map ('\t' :: ·.text) := by
  rw [List.forall_mem_cons] at h
  refine lines_append_flatMap ⟨Entry.oneLine_text h.1, e.text_ne_nil⟩ fun l hl => ?_
  obtain ⟨next, hnext, rfl⟩ := List.mem_map.1 hl
  exact ⟨OneLine.append (s := ['\t']) (by decide) (Entry.oneLine_text (h.2 next hnext)),
    List.cons_ne_nil _ _⟩

/-- A block of written statements has one line for each, and no other line. -/
theorem exists_ofBody_entriesText {entries : List Entry} (h : ∀ e ∈ entries, e.Valid) :
    ∃ ls : List EntryLine, ls.map EntryLine.entry = entries ∧
      ofBody (entriesText entries) = ofLines (ls.map EntryLine.text) := by
  cases entries with
  | nil => exact ⟨[], rfl, rfl⟩
  | cons e rest =>
    have hrest : ∀ next ∈ rest, next.Valid :=
      fun next hnext => h next (List.mem_cons_of_mem _ hnext)
    let below : List EntryLine := rest.pmap (⟨['\t'], ·, by decide, ·⟩) hrest
    have hentries : below.map EntryLine.entry = rest := by
      rw [List.map_pmap, List.pmap_eq_map, List.map_id']
    have hlines : below.map EntryLine.text = rest.map ('\t' :: ·.text) := by
      rw [List.map_pmap]
      exact @List.pmap_eq_map _ _ _ ('\t' :: ·.text) rest hrest
    refine ⟨⟨[], e, by decide, h e List.mem_cons_self⟩ :: below, ?_, ?_⟩
    · rw [List.map_cons, hentries]
    · rw [ofBody, trim_entriesText, lines_linesText h, List.map_cons, hlines]
      rfl

end Block

end LcdHandhelds
