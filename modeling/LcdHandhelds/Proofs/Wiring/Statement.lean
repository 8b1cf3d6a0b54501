import LcdHandhelds.Proofs.Text.Reading
import LcdHandhelds.Wiring.Statement

/-!
The recognizers of the four kinds of statements, by what the searches on a line give: a line whose
identifiers lack a name is no statement of that kind, and one with a call is what the call says.
-/
namespace LcdHandhelds.Statement

open Text

variable {line : List Char} {c : Call}

/-! ### Headers -/

/-- The header that a call opens. -/
def headerOf? (g : Group) : Option Statement :=
  (unquote? g.inner).map fun name => .header (String.ofList name)

theorem header?_eq (line : List Char) :
    header? line =
      (((firstCall? "PORT_START" line).filter fun c => (line.take c.place).all isBlank).or
        (firstCall? "PORT_MODIFY" line)).bind (headerOf? ·.group) := by
  refine congrArg (Option.bind _) (funext fun c => ?_)
  rw [headerOf?, Call.group]
  cases unquote? c.args <;> rfl

theorem header?_of_start (hc : firstCall? "PORT_START" line = some c)
    (hlead : (line.take c.place).all isBlank) : header? line = headerOf? c.group := by
  rw [header?_eq, hc, Option.filter_some, if_pos hlead]
  rfl

theorem header?_of_modify (hstart : "PORT_START".toList ∉ words line) :
    header? line = (firstCall? "PORT_MODIFY" line).bind (headerOf? ·.group) := by
  rw [header?_eq, firstCall?_eq_none (by decide) hstart]
  rfl

theorem header?_eq_none (hstart : "PORT_START".toList ∉ words line)
    (hmodify : "PORT_MODIFY".toList ∉ words line) : header? line = none := by
  rw [header?_of_modify hstart, firstCall?_eq_none (by decide) hmodify]
  rfl

/-! ### Bits -/

/-- The bit that a call declares, with the label behind it. -/
def bitOf? (g : Group) : Option Statement :=
  match arguments g.inner with
  | mask :: polarity :: token :: _ =>
    if isHexLiteral mask then
      some (.bit (hexValue mask) (polarity = "IP_ACTIVE_HIGH".toList) (String.ofList token)
        (((firstCall? "PORT_NAME" g.after).bind (unquote? ·.args)).map String.ofList))
    else none
  | _ => none

theorem bit?_eq (line : List Char) :
    bit? line = ((firstCall? "PORT_BIT" line).map Call.group).bind bitOf? := by
  rw [Option.bind_map]
  rfl

theorem bit?_eq_none (hbit : "PORT_BIT".toList ∉ words line) : bit? line = none := by
  rw [bit?_eq, firstCall?_eq_none (by decide) hbit]
  rfl

theorem bit?_of_call {mask polarity token : List Char} {rest : List (List Char)}
    (hc : firstCall? "PORT_BIT" line = some c)
    (hargs : arguments c.args = mask :: polarity :: token :: rest) (hmask : isHexLiteral mask) :
    bit? line = some (.bit (hexValue mask) (polarity = "IP_ACTIVE_HIGH".toList)
      (String.ofList token)
      (((firstCall? "PORT_NAME" c.after).bind (unquote? ·.args)).map String.ofList)) := by
  rw [bit?_eq, hc, Option.map_some, Option.bind_some, bitOf?, Call.group, hargs]
  exact if_pos hmask

/-! ### Settings -/

/-- The setting that a call declares. -/
def settingOf? (g : Group) : Option Statement :=
  match arguments g.inner with
  | mask :: _ :: _ => if isHexLiteral mask then some (.setting (hexValue mask)) else none
  | _ => none

theorem setting?_eq (line : List Char) :
    setting? line = ((firstCall? "PORT_CONFSETTING" line).map Call.group).bind settingOf? := by
  rw [Option.bind_map]
  rfl

theorem setting?_eq_none (hsetting : "PORT_CONFSETTING".toList ∉ words line) :
    setting? line = none := by
  rw [setting?_eq, firstCall?_eq_none (by decide) hsetting]
  rfl

theorem setting?_of_call {mask label : List Char} {rest : List (List Char)}
    (hc : firstCall? "PORT_CONFSETTING" line = some c)
    (hargs : arguments c.args = mask :: label :: rest) (hmask : isHexLiteral mask) :
    setting? line = some (.setting (hexValue mask)) := by
  rw [setting?_eq, hc, Option.map_some, Option.bind_some, settingOf?, Call.group, hargs]
  exact if_pos hmask

/-! ### Inheritances -/

/-- The inheritance that a call declares. -/
def inheritOf? (g : Group) : Option Statement :=
  if trim g.inner = [] then none else some (.inherit (String.ofList (trim g.inner)))

theorem inherit?_eq (line : List Char) :
    inherit? line = ((firstCall? "PORT_INCLUDE" line).map Call.group).bind inheritOf? := by
  rw [Option.bind_map]
  refine congrArg (Option.bind _) (funext fun c => ?_)
  rw [Function.comp_apply, inheritOf?, Call.group]
  cases trim c.args <;> rfl

theorem inherit?_of_call {device : List Char} (hc : firstCall? "PORT_INCLUDE" line = some c)
    (hdevice : trim c.args = device) (hne : device ≠ []) :
    inherit? line = some (.inherit (String.ofList device)) := by
  rw [inherit?_eq, hc, Option.map_some, Option.bind_some, inheritOf?, Call.group, hdevice,
    if_neg hne]

end LcdHandhelds.Statement
