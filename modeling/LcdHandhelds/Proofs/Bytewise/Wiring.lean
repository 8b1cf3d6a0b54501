import LcdHandhelds.Proofs.Bytewise.Machine
import LcdHandhelds.Wiring.InputTable

/-!
Input blocks by byte offsets. A line is cut in front of its header and behind its bit; a port that
is opened again is taken out of the closed ones by its index.
-/
namespace LcdHandhelds.Bytewise

open Text

/-! ### Statements -/

/-- A `PORT_START` that only blanks precede, else a `PORT_MODIFY`. -/
def headerCall (line : List Char) : Attempt Call :=
  (do
    let call ← firstCall "PORT_START" line
    let front ← slice line 0 call.start
    if (trim front).isEmpty then return call else failure) <|>
  firstCall "PORT_MODIFY" line

def header (line : List Char) : Attempt Statement := do
  let call ← headerCall line
  let name ← maybe (unquote? call.args)
  return .header (String.ofList name)

def bit (line : List Char) : Attempt Statement := do
  let call ← firstCall "PORT_BIT" line
  match ← arguments call.args with
  | mask :: polarity :: token :: _ =>
    if isHexLiteral mask then
      let labels ← calls "PORT_NAME" (← sliceFrom line call.stop)
      let name := labels.head?.bind (unquote? ·.args)
      return .bit (hexValue mask) (polarity = "IP_ACTIVE_HIGH".toList) (String.ofList token)
        (name.map String.ofList)
    else failure
  | _ => failure

def setting (line : List Char) : Attempt Statement := do
  let call ← firstCall "PORT_CONFSETTING" line
  match ← arguments call.args with
  | mask :: _ :: _ => if isHexLiteral mask then return .setting (hexValue mask) else failure
  | _ => failure

def inherit (line : List Char) : Attempt Statement := do
  let call ← firstCall "PORT_INCLUDE" line
  match trim call.args with
  | [] => failure
  | device => return .inherit (String.ofList device)

/-- The statement of a line. -/
def statement (line : List Char) : Attempt Statement :=
  header line <|> bit line <|> setting line <|> inherit line

theorem finds_headerCall (line : List Char) :
    Finds (Call.Stands line) (headerCall line)
      (((firstCall? "PORT_START" line).filter fun c => (line.take c.place).all isBlank).or
        (firstCall? "PORT_MODIFY" line)) := by
  have hfilter : ∀ (x : Option Text.Call) (p : Text.Call → Bool),
      x.filter p = x >>= fun c => if p c then some c else none := by
    rintro (_ | c) p <;> rfl
  rw [Option.or_eq_orElse, hfilter]
  refine Finds.orElse ?_ (finds_firstCall (by decide) line)
  refine (finds_firstCall (by decide) line).bind fun b c h => ?_
  have hcut := slice_append (line.take c.place) (line.drop c.place)
  rw [List.take_append_drop] at hcut
  rw [h.start]
  refine .ok_bind hcut ?_
  rw [isEmpty_trim]
  split
  · exact .pure h
  · exact .failure

theorem finds_header (line : List Char) : Finds Eq (header line) (Statement.header? line) := by
  refine (finds_headerCall line).bind fun b c h => ?_
  rw [h.args]
  refine (Finds.maybe_self _).bind fun name name' hname => ?_
  exact .pure (by rw [hname])

theorem finds_bit (line : List Char) : Finds Eq (bit line) (Statement.bit? line) := by
  refine (finds_firstCall (by decide) line).bind fun b c h => ?_
  refine .ok_bind (arguments_eq b.args) ?_
  rw [h.args]
  match Text.arguments c.args with
  | mask :: polarity :: token :: _ =>
    dsimp only
    split
    · refine .ok_bind h.ahead.sliceFrom_eq ?_
      obtain ⟨labels, hlabels, hall⟩ := @gives_calls "PORT_NAME" (by decide) c.after
      refine .ok_bind hlabels ?_
      have hname : labels.head?.bind (unquote? ·.args) =
          (firstCall? "PORT_NAME" c.after).bind (unquote? ·.args) :=
        bind_eq_of_rel (rel_head? hall) fun a b h => congrArg unquote? h.args
      rw [hname]
      exact .pure rfl
    · exact .failure
  | [] | [_] | [_, _] => exact .failure

theorem finds_setting (line : List Char) : Finds Eq (setting line) (Statement.setting? line) := by
  refine (finds_firstCall (by decide) line).bind fun b c h => ?_
  refine .ok_bind (arguments_eq b.args) ?_
  rw [h.args]
  match Text.arguments c.args with
  | mask :: _ :: _ =>
    dsimp only
    split
    · exact .pure rfl
    · exact .failure
  | [] | [_] => exact .failure

theorem finds_inherit (line : List Char) : Finds Eq (inherit line) (Statement.inherit? line) := by
  refine (finds_firstCall (by decide) line).bind fun b c h => ?_
  rw [h.args]
  cases trim c.args with
  | nil => exact .failure
  | cons d device => exact .pure rfl

theorem statement_eq (line : List Char) :
    (statement line).run = .ok (Statement.ofLine? line) :=
  Finds.eq_iff.1 <| (finds_header line).orElse <| (finds_bit line).orElse <|
    (finds_setting line).orElse (finds_inherit line)

/-! ### Blocks -/

/-- Opens the port of a key: a closed one is taken out at its index. -/
def reopen (b : Block) (key : PortKey) : Checked Block :=
  match b.closed.findIdx? (·.key = key) with
  | some i => do
    let port ← item b.closed i
    return { b with opened := some port, closed := b.closed.eraseIdx i }
  | none => return { b with opened := some (Port.empty key) }

/-- Opens the port that a header names. -/
def openPort (b : Block) (name : String) : Checked Block :=
  match PortName.ofText name with
  | .known key => reopen b.close key
  | .fake => return b.close
  | .unknown => return b.close.report (.unknownPort name)

/-- Reads one line. -/
def feed (b : Block) (line : List Char) : Checked Block := do
  match ← (statement line).run with
  | some (.header name) => openPort b name
  | some (.bit mask activeHigh token name) => return b.bit mask activeHigh token name line
  | some (.setting mask) => return b.setting mask
  | some (.inherit device) => return { b with inherits := some device }
  | none => return b

/-- Reads a body without the blanks around it. -/
def block (body : List Char) : Checked Block :=
  (lines (trim body)).foldlM feed Block.empty

theorem reopen_eq (b : Block) (key : PortKey) : reopen b key = .ok (b.reopen key) := by
  have hfind := @List.find?_eq_bind_findIdx?_getElem? _ b.closed (·.key = key)
  rw [reopen, Block.reopen, hfind, List.eraseP_eq_eraseIdx]
  cases hindex : b.closed.findIdx? (·.key = key) with
  | none => rfl
  | some i =>
    obtain ⟨hlt, -⟩ := List.findIdx?_eq_some_iff_getElem.1 hindex
    have hport := List.getElem?_eq_getElem hlt
    dsimp only
    rw [item_of_getElem? hport, Option.bind_some, hport]
    rfl

theorem feed_eq (b : Block) (line : List Char) : feed b line = .ok (b.feed line) := by
  rw [feed, statement_eq, ok_bind, Block.feed]
  cases Statement.ofLine? line with
  | none => rfl
  | some s =>
    cases s with
    | header name =>
      dsimp only
      rw [openPort, Block.header]
      cases PortName.ofText name with
      | known key => exact reopen_eq b.close key
      | fake => rfl
      | unknown => rfl
    | bit mask activeHigh token name => rfl
    | setting mask => rfl
    | inherit device => rfl

theorem block_eq (body : List Char) : block body = .ok (Block.ofBody body) := by
  have hfeed : feed = fun b line => pure (b.feed line) := funext₂ feed_eq
  rw [block, hfeed, List.foldlM_pure]
  rfl

/-! ### The input table -/

/-- The block that a call opens. -/
def inputBlock (source : List Char) (c : Call) : Attempt InputBlock := do
  let body ← before "INPUT_PORTS_END" source c.stop
  match trim c.args with
  | [] => failure
  | name => return ⟨String.ofList name, body⟩

/-- Reads blocks into a table, up to the second one of a name. -/
def readBlocks : InputTable × List Diagnostic → List InputBlock →
    Checked (Except DuplicateInput (InputTable × List Diagnostic))
  | read, [] => return .ok read
  | read, b :: blocks =>
    if read.1.contains b.name then return .error ⟨b.name, read.2⟩
    else do
      let parsed ← block b.body
      readBlocks (read.1.insert b.name parsed.toPortMap, read.2 ++ parsed.diagnostics b.name) blocks

/-- The wirings of a source, and the anomalies of their blocks. -/
def inputs (source : List Char) :
    Checked (Except DuplicateInput (InputTable × List Diagnostic)) := do
  readBlocks (∅, []) (← collect (inputBlock source) (← calls "INPUT_PORTS_START" source))

theorem finds_inputBlock {source : List Char} {b : Call} {c : Text.Call} (h : b.Stands source c) :
    Finds Eq (inputBlock source b) (InputBlock.ofCall? c) := by
  refine (finds_before "INPUT_PORTS_END" h.ahead).bind fun body body' hbody => ?_
  subst hbody
  rw [h.args]
  cases trim c.args with
  | nil => exact .failure
  | cons d name => exact .pure rfl

theorem readBlocks_eq (read : InputTable × List Diagnostic) (blocks : List InputBlock) :
    readBlocks read blocks = .ok (blocks.foldlM InputTable.addBlock read) := by
  induction blocks generalizing read with
  | nil => rfl
  | cons b blocks ih =>
    rw [readBlocks, List.foldlM_cons, InputTable.addBlock]
    split
    · rfl
    · rw [block_eq, ok_bind, ih]
      rfl

theorem inputs_eq (source : List Char) : inputs source = .ok (InputTable.ofSource source) := by
  obtain ⟨found, hfound, hall⟩ := @gives_calls "INPUT_PORTS_START" (by decide) source
  rw [inputs, hfound, ok_bind, collect_eq hall fun b c h => finds_inputBlock h, ok_bind,
    readBlocks_eq]
  rfl

end LcdHandhelds.Bytewise
