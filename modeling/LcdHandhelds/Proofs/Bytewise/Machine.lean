import LcdHandhelds.Machine.SystemEntry
import LcdHandhelds.Machine.RomBlock
import LcdHandhelds.Machine.Preset
import LcdHandhelds.Proofs.Bytewise.Call
import LcdHandhelds.Proofs.Option

/-!
Presets, system definitions and ROM blocks by byte offsets and indices. An argument is taken by its
index only after the arguments have been counted.
-/
namespace LcdHandhelds.Bytewise

open Text

/-! ### Calls of fixed names -/

def firstCall (name : String) (text : List Char) : Attempt Call := do
  maybe (← calls name text).head?

/-- The text from an offset up to the first mark. -/
def before (mark : String) (text : List Char) (offset : Nat) : Attempt (List Char) := do
  let rest ← sliceFrom text offset
  let stop ← maybe (find? mark.toList rest)
  slice rest 0 stop

variable {α β : Type}

theorem rel_head? {R : α → β → Prop} {as : List α} {bs : List β} (h : List.Forall₂ R as bs) :
    Option.Rel R as.head? bs.head? := by
  cases h with
  | nil => exact .none
  | cons h _ => exact .some h

theorem finds_firstCall {name : String} (hne : name ≠ "") (text : List Char) :
    Finds (Call.Stands text) (firstCall name text) (firstCall? name text) := by
  obtain ⟨found, hfound, hall⟩ := gives_calls hne text
  exact .ok_bind hfound (.maybe (rel_head? hall))

theorem finds_before (mark : String) {text rest : List Char} {offset : Nat}
    (h : Ahead text offset rest) : Finds Eq (before mark text offset) (before? mark rest) := by
  refine .ok_bind h.sliceFrom_eq ?_
  rw [before?, Option.map_eq_bind]
  refine (Finds.maybe (rel_find? mark.toList rest)).bind ?_
  rintro _ ⟨body, tail⟩ ⟨rfl, rfl⟩
  exact Finds.eq_iff.2 (congrArg (Except.map some) (slice_append body tail))

/-! ### Presets -/

/-- The screen of as many sizes as the layout takes, each taken by its index. -/
def screen (layout : Layout) (sizes : List Binary64) : Checked (Option Screen) :=
  if sizes.length ≠ layout.arity then return none
  else
    match layout with
    | .single => return some (.single ⟨← item sizes 0, ← item sizes 1⟩)
    | .dualHorizontal => return some (.dualHorizontal ⟨← item sizes 0, ← item sizes 1⟩
        ⟨← item sizes 2, ← item sizes 3⟩)
    | .dualVertical => return some (.dualVertical ⟨← item sizes 0, ← item sizes 1⟩
        ⟨← item sizes 2, ← item sizes 3⟩)

/-- The value of a preset argument. -/
def sizeArgument (text : List Char) : Attempt Binary64 :=
  match splitBefore? ['/'] [] text with
  | some (dividend, _ :: divisor) => do
    let a ← maybe (uintArgument? dividend)
    let count := ((bytes divisor).takeWhile fun b => (Char.ofUInt8 b).isDigit).length
    let b ← maybe (uintArgument? (← slice divisor 0 count))
    if b = 0 then failure
    else
      maybe do (← Binary64.ofNat? a).div? (← Binary64.ofNat? b)
  | _ => maybe (sizeArgument? text)

/-- The name that a line calls with `config`, and the arguments after that. -/
def presetCall (line : List Char) : Attempt (String × List (List Char)) := do
  let (_, r) ← Reader.skipBlank ⟨line, 0⟩
  let (name, r) ← r.identifier
  let (_, r) ← r.skipBlank
  let closing ← OptionT.mk (matchingParen line r.position)
  match ← arguments (← slice line (r.position + 1) closing) with
  | first :: others =>
    if first = "config".toList then return (String.ofList name, others) else failure
  | [] => failure

def sizesOf : List (List Char) → Checked (Except Anomaly (List Binary64))
  | [] => return .ok []
  | a :: as => do
    match ← (sizeArgument a).run with
    | some size => return (← sizesOf as).map (size :: ·)
    | none => return .error (.unhandledArgument (String.ofList a))

/-- The hardware that the body of a constructor sets up, or the first fault of its first line. -/
def hardware (body : List Char) : Checked (Except Anomaly Hardware) := do
  match ← (presetCall ((constructorLines body).headD [])).run with
  | none => return .error .malformedConstructor
  | some (name, arguments) =>
    match Preset.find? name with
    | none => return .error (.unknownPreset name)
    | some preset =>
      match ← sizesOf arguments with
      | .error anomaly => return .error anomaly
      | .ok sizes =>
        match ← screen preset.layout sizes with
        | some screen => return .ok ⟨preset.cpu, screen⟩
        | none => return .error (.presetArity preset.name preset.layout.arity sizes.length)

theorem screen_eq (layout : Layout) (sizes : List Binary64) :
    screen layout sizes = .ok (layout.screen? sizes) := by
  unfold screen
  by_cases h : sizes.length = layout.arity
  · rw [if_neg (not_not.2 h)]
    cases layout with
    | single =>
      match sizes, h with
      | [_, _], _ => rfl
    | dualHorizontal =>
      match sizes, h with
      | [_, _, _, _], _ => rfl
    | dualVertical =>
      match sizes, h with
      | [_, _, _, _], _ => rfl
  · have hnone : layout.screen? sizes = none := by
      rw [← Option.not_isSome_iff_eq_none, Layout.isSome_screen?]
      exact h
    rw [if_pos h, hnone]
    rfl

theorem onAscii_isDigit : OnAscii Char.isDigit := by
  intro c hc
  rw [Bool.eq_false_iff, Ne, Char.isDigit_iff_toNat]
  exact fun h => absurd (Nat.le_trans hc h.2) (by decide)

theorem sizeArgument_eq (text : List Char) :
    (sizeArgument text).run = .ok (sizeArgument? text) := by
  rw [sizeArgument]
  split
  next dividend c divisor hsplit =>
    have hcount : ((bytes divisor).takeWhile fun b => (Char.ofUInt8 b).isDigit).length =
        byteLength (divisor.takeWhile Char.isDigit) := by
      rw [← length_bytes, ← takeWhile_bytes onAscii_isDigit]
    have hcut := slice_append (divisor.takeWhile Char.isDigit) (divisor.dropWhile Char.isDigit)
    rw [List.takeWhile_append_dropWhile] at hcut
    rw [hcount, ← Finds.eq_iff]
    unfold sizeArgument?
    rw [hsplit]
    refine (Finds.maybe_self (uintArgument? dividend)).bind fun a _ ha => ?_
    refine .ok_bind hcut ?_
    refine (Finds.maybe_self _).bind fun b _ hb => ?_
    subst ha hb
    split
    · exact .failure
    · exact .maybe_self _
  · rfl

theorem finds_presetCall (line : List Char) : Finds Eq (presetCall line) (presetCall? line) := by
  have hstart : Reader.On line ⟨line, 0⟩ line := ⟨rfl, Ahead.start line⟩
  refine .ok_bind (Reader.skipBlank_eq hstart) ?_
  refine (Reader.finds_identifier (Reader.on_skipBlank hstart)).bind ?_
  rintro ⟨name, r⟩ ⟨name', rest⟩ ⟨rfl, h⟩
  refine .ok_bind (Reader.skipBlank_eq h) ?_
  have hopening := (Reader.on_skipBlank h).ahead
  refine (Finds.mk (gives_matchingParen hopening)).bind ?_
  rintro closing g ⟨hargs, -⟩
  refine .ok_bind hargs (.ok_bind (arguments_eq g.inner) ?_)
  cases Text.arguments g.inner with
  | nil => exact .failure
  | cons first others =>
    dsimp only
    split
    · exact .pure rfl
    · exact .failure

theorem sizesOf_cons (a : List Char) (as : List (List Char)) :
    LcdHandhelds.sizesOf (a :: as) =
      match sizeArgument? a with
      | some size => (LcdHandhelds.sizesOf as).map (size :: ·)
      | none => .error (.unhandledArgument (String.ofList a)) := by
  rw [LcdHandhelds.sizesOf, List.mapM_cons, ← LcdHandhelds.sizesOf]
  cases sizeArgument? a with
  | none => rfl
  | some size => cases LcdHandhelds.sizesOf as <;> rfl

theorem sizesOf_eq (as : List (List Char)) : sizesOf as = .ok (LcdHandhelds.sizesOf as) := by
  induction as with
  | nil => rfl
  | cons a as ih =>
    rw [sizesOf, sizeArgument_eq, ok_bind, ih, sizesOf_cons]
    cases sizeArgument? a <;> rfl

theorem hardware_eq (body : List Char) :
    hardware body = .ok (Hardware.ofConstructor body) := by
  rw [hardware, Finds.eq_iff.1 (finds_presetCall _), ok_bind, Hardware.ofConstructor]
  cases presetCall? ((constructorLines body).headD []) with
  | none => rfl
  | some call =>
    obtain ⟨name, arguments⟩ := call
    dsimp only
    cases Preset.find? name with
    | none => rfl
    | some preset =>
      dsimp only
      rw [sizesOf_eq, ok_bind]
      cases LcdHandhelds.sizesOf arguments with
      | error anomaly => rfl
      | ok sizes =>
        have hbuild : preset.build? sizes =
            (preset.layout.screen? sizes).map (⟨preset.cpu, ·⟩) := rfl
        dsimp only
        rw [screen_eq, ok_bind]
        dsimp only [bind, Except.bind]
        rw [hbuild]
        cases preset.layout.screen? sizes <;> rfl

/-! ### Systems -/

/-- A system from its arguments: the year is the first, the title the tenth. -/
def systemEntry (text : List Char) : Attempt (String × SystemEntry) := do
  let args ← arguments text
  if args.length ≤ 9 then failure
  else do
    let year : List Char ← item args 0
    let name : List Char ← item args 1
    let parent : List Char ← item args 2
    let company : List Char ← item args 8
    let title : List Char ← item args 9
    let company ← maybe (unquote? company)
    let title ← maybe (unquote? title)
    if SystemEntry.isYear year && !name.isEmpty then
      let release := ⟨String.ofList year, String.ofList company, String.ofList title⟩
      let parent := if parent = [] ∨ parent = ['0'] then none else some (String.ofList parent)
      return (String.ofList name, ⟨release, parent⟩)
    else failure

/-- The systems of a source by name. -/
def systems (source : List Char) : Checked (Table String SystemEntry) := do
  return Table.ofList (← collect (systemEntry ·.args) (← calls "SYST" source))

theorem finds_systemEntry (text : List Char) :
    Finds Eq (systemEntry text) (SystemEntry.ofArguments? text) := by
  refine .ok_bind (arguments_eq text) ?_
  rw [SystemEntry.ofArguments?]
  match hargs : Text.arguments text with
  | year :: name :: parent :: _ :: _ :: _ :: _ :: _ :: company :: title :: rest =>
    rw [if_neg (by simp)]
    refine .ok_bind rfl (.ok_bind rfl (.ok_bind rfl (.ok_bind rfl (.ok_bind rfl ?_))))
    refine (Finds.maybe_self (unquote? company)).bind fun c c' hc => ?_
    refine (Finds.maybe_self (unquote? title)).bind fun t t' ht => ?_
    subst hc ht
    split
    · exact .pure rfl
    · exact .failure
  | [] | [_] | [_, _] | [_, _, _] | [_, _, _, _] | [_, _, _, _, _] | [_, _, _, _, _, _]
  | [_, _, _, _, _, _, _] | [_, _, _, _, _, _, _, _] | [_, _, _, _, _, _, _, _, _] =>
    exact .failure

theorem systems_eq (source : List Char) : systems source = .ok (SystemEntry.scan source) := by
  obtain ⟨found, hfound, hall⟩ := @gives_calls "SYST" (by decide) source
  have hcollect : collect (systemEntry ·.args) found =
      .ok ((Text.calls "SYST" source).filterMap (SystemEntry.ofArguments? ·.args)) :=
    collect_eq hall fun b c h => h.args ▸ finds_systemEntry b.args
  rw [systems, hfound, ok_bind, hcollect]
  rfl

/-! ### ROM blocks -/

/-- The block that a call opens, under the name it gives. -/
def romBlock (source : List Char) (c : Call) : Attempt (String × RomBlock) := do
  let body ← before "ROM_END" source c.stop
  return (String.ofList (trim c.args), ⟨c.start, body⟩)

/-- The blocks by device. -/
def romIndex (source : List Char) : Checked (Table String RomBlock) := do
  let blocks ← collect (romBlock source) (← calls "ROM_START" source)
  return blocks.foldl (fun t e => t.insertIfNew e.1 e.2) ∅

/-- The file of a `ROM_LOAD` that directly follows a region, with the `SHA1` on its first line. -/
def loadedFile (text : List Char) : Attempt RomFile := do
  let text := skipBlank text
  let load ← maybe ((← calls "ROM_LOAD" text).head?.filter (·.start = 0))
  let name ← maybe ((← arguments load.args).head?.bind unquote?)
  let digest ← firstCall "SHA1" ((lines text).headD [])
  return ⟨String.ofList name, String.ofList (trim digest.args)⟩

/-- The file that a region of a block loads. -/
def regionLoad (body : List Char) (region : Call) : Attempt (RomKind × RomFile) := do
  let tag ← maybe ((← arguments region.args)[1]?.bind unquote?)
  let kind ← maybe (RomBlock.kindOfTag? tag)
  let file ← loadedFile (← sliceFrom body region.stop)
  return (kind, file)

/-- The block and the ROM identity of a device. -/
def romOf (blocks : Table String RomBlock) (device : String) :
    Checked (Except Anomaly (RomBlock × RomIdentity)) := do
  match blocks.get? device with
  | none => return .error .missingRomBlock
  | some block =>
    let loads ← collect (regionLoad block.body) (← calls "ROM_REGION" block.body)
    return (RomBlock.identityOf loads).map (block, ·)

theorem finds_romBlock {source : List Char} {b : Call} {c : Text.Call} (h : b.Stands source c) :
    Finds Eq (romBlock source b) (RomBlock.ofCall? source c) := by
  rw [RomBlock.ofCall?, Option.map_eq_bind]
  refine (finds_before "ROM_END" h.ahead).bind fun body body' hbody => ?_
  subst hbody
  rw [h.args, h.start]
  exact .pure rfl

theorem romIndex_eq (source : List Char) : romIndex source = .ok (RomBlock.index source) := by
  obtain ⟨found, hfound, hall⟩ := @gives_calls "ROM_START" (by decide) source
  rw [romIndex, hfound, ok_bind, collect_eq hall fun b c h => finds_romBlock h]
  rfl

/-- A call starts at offset zero if it starts at place zero. -/
theorem start_eq_zero_iff {text : List Char} {b : Call} {c : Text.Call} (h : b.Stands text c) :
    b.start = 0 ↔ c.place = 0 := by
  rw [h.start]
  constructor
  · intro hzero
    by_contra hne
    have hlt := (byteOffset_lt_iff (Nat.zero_le _) h.place).2 (Nat.pos_of_ne_zero hne)
    omega
  · intro hzero
    rw [hzero]
    rfl

theorem finds_loadedFile (text : List Char) :
    Finds Eq (loadedFile text) (RomBlock.loadedFile? text) := by
  obtain ⟨found, hfound, hall⟩ := @gives_calls "ROM_LOAD" (by decide) (skipBlank text)
  have hload : Option.Rel (Call.Stands (skipBlank text)) (found.head?.filter (·.start = 0))
      ((firstCall? "ROM_LOAD" (skipBlank text)).filter (·.place = 0)) :=
    rel_filter (rel_head? hall) fun b c h => by simp [start_eq_zero_iff h]
  refine .ok_bind hfound ((Finds.maybe hload).bind fun b c h => ?_)
  refine .ok_bind (arguments_eq b.args) ?_
  rw [h.args]
  refine (Finds.maybe_self _).bind fun name name' hname => ?_
  refine (finds_firstCall (by decide) _).bind fun digest digest' hdigest => ?_
  rw [hname, hdigest.args]
  exact .pure rfl

theorem finds_regionLoad {body : List Char} {b : Call} {c : Text.Call} (h : b.Stands body c) :
    Finds Eq (regionLoad body b) (RomBlock.load? c) := by
  refine .ok_bind (arguments_eq b.args) ?_
  rw [h.args]
  refine (Finds.maybe_self _).bind fun tag tag' htag => ?_
  subst htag
  refine (Finds.maybe_self _).bind fun kind kind' hkind => ?_
  subst hkind
  refine .ok_bind h.ahead.sliceFrom_eq ?_
  refine (finds_loadedFile c.after).bind fun file file' hfile => ?_
  exact .pure (by rw [hfile])

theorem romOf_eq (blocks : Table String RomBlock) (device : String) :
    romOf blocks device = .ok (LcdHandhelds.romOf blocks device) := by
  rw [romOf, LcdHandhelds.romOf]
  cases blocks.get? device with
  | none => rfl
  | some block =>
    obtain ⟨found, hfound, hall⟩ := @gives_calls "ROM_REGION" (by decide) block.body
    dsimp only
    rw [hfound, ok_bind, collect_eq hall fun b c h => finds_regionLoad h]
    rfl

end LcdHandhelds.Bytewise
