import LcdHandhelds.Diagnostic
import LcdHandhelds.Machine.Hardware
import LcdHandhelds.Text.Argument
import LcdHandhelds.Text.Numeric
import LcdHandhelds.Text.Word

/-!
Presets: the configuration helpers that a device's constructor may call. A preset fixes the
processor, and its numeric arguments are the sizes of the screen artwork. The first line of a
constructor has to be `preset(config, w, h, ...)`; `Hardware.ofConstructor` names the first fault.
-/
namespace LcdHandhelds

open Text

/-- How the numeric arguments of a preset are spread over panels. -/
inductive Layout where
  | single | dualHorizontal | dualVertical
  deriving DecidableEq, Repr

namespace Layout

/-- The number of arguments: width and height of each panel. -/
def arity : Layout → Nat
  | single => 2
  | dualHorizontal => 4
  | dualVertical => 4

/-- The screen of as many sizes as the layout takes: left or top comes first. -/
def screen? : Layout → List Binary64 → Option Screen
  | single, [w, h] => some (.single ⟨w, h⟩)
  | dualHorizontal, [w, h, w', h'] => some (.dualHorizontal ⟨w, h⟩ ⟨w', h'⟩)
  | dualVertical, [w, h, w', h'] => some (.dualVertical ⟨w, h⟩ ⟨w', h'⟩)
  | _, _ => none

theorem isSome_screen? (l : Layout) (sizes : List Binary64) :
    (l.screen? sizes).isSome ↔ sizes.length = l.arity := by
  unfold screen?
  split
  · simp [arity]
  · simp [arity]
  · simp [arity]
  · rename_i hs hh hv
    simp only [Option.isSome_none, Bool.false_eq_true, false_iff]
    intro h
    cases l with
    | single =>
      match sizes, h with
      | [w, h], _ => exact hs w h rfl rfl
    | dualHorizontal =>
      match sizes, h with
      | [w, h, w', h'], _ => exact hh w h w' h' rfl rfl
    | dualVertical =>
      match sizes, h with
      | [w, h, w', h'], _ => exact hv w h w' h' rfl rfl

end Layout

structure Preset where
  name : String
  cpu : Cpu
  layout : Layout
  deriving DecidableEq, Repr

namespace Preset

/-- All presets, in the order of their names. -/
def all : List Preset :=
  [⟨"kb1013vk12_common", .kb1013vk12, .single⟩,
    ⟨"sm510_common", .sm510, .single⟩,
    ⟨"sm510_dualh", .sm510, .dualHorizontal⟩,
    ⟨"sm510_dualv", .sm510, .dualVertical⟩,
    ⟨"sm510_tiger", .sm510Tiger, .single⟩,
    ⟨"sm511_common", .sm511, .single⟩,
    ⟨"sm511_dualv", .sm511, .dualVertical⟩,
    ⟨"sm511_tiger1bit", .sm511Tiger1Bit, .single⟩,
    ⟨"sm511_tiger2bit", .sm511Tiger2Bit, .single⟩,
    ⟨"sm512_dualv", .sm512, .dualVertical⟩,
    ⟨"sm530_common", .sm530, .single⟩,
    ⟨"sm5a_common", .sm5a, .single⟩]

def find? (name : String) : Option Preset :=
  all.find? (·.name = name)

/-- The hardware of a preset with its sizes, if there are as many as the layout takes. -/
def build? (p : Preset) (sizes : List Binary64) : Option Hardware :=
  (p.layout.screen? sizes).map (⟨p.cpu, ·⟩)

end Preset

/-- Decimal digits of a 64-bit number. -/
def uintArgument? (text : List Char) : Option Nat :=
  (digits? 10 text).filter (· < UInt64.size)

/--
The value of a preset argument: a whole number with an optional minus sign, or a fraction of two,
which is rounded once. What follows the digits of the divisor does not count.
-/
def sizeArgument? (text : List Char) : Option Binary64 :=
  match splitBefore? ['/'] [] text with
  | some (dividend, _ :: divisor) => do
    let a ← uintArgument? dividend
    let b ← uintArgument? (divisor.takeWhile Char.isDigit)
    if b = 0 then none
    else (← Binary64.ofNat? a).div? (← Binary64.ofNat? b)
  | _ =>
    match text with
    | '-' :: magnitude => do return (← Binary64.ofNat? (← uintArgument? magnitude)).neg
    | _ => do Binary64.ofNat? (← uintArgument? text)

/-- The name that a line calls with `config`, and the arguments after that. -/
def presetCall? (line : List Char) : Option (String × List (List Char)) := do
  let (name, rest) ← identifier? (skipBlank line)
  let group ← Group.ofText? (skipBlank rest)
  match arguments group.inner with
  | first :: others =>
    if first = "config".toList then return (String.ofList name, others) else none
  | [] => none

/-- The sizes that the arguments spell, or the first argument that spells none. -/
def sizesOf (arguments : List (List Char)) : Except Anomaly (List Binary64) :=
  arguments.mapM fun a =>
    match sizeArgument? a with
    | some size => .ok size
    | none => .error (.unhandledArgument (String.ofList a))

/-- The lines of a constructor's body, without the blanks around it. -/
def constructorLines (body : List Char) : List (List Char) :=
  lines (trim body)

/-- The hardware that the body of a constructor sets up, or the first fault of its first line. -/
def Hardware.ofConstructor (body : List Char) : Except Anomaly Hardware :=
  match presetCall? ((constructorLines body).headD []) with
  | none => .error .malformedConstructor
  | some (name, arguments) =>
    match Preset.find? name with
    | none => .error (.unknownPreset name)
    | some preset => do
      let sizes ← sizesOf arguments
      match preset.build? sizes with
      | some hardware => return hardware
      | none => .error (.presetArity preset.name preset.layout.arity sizes.length)

/-- Further lines are reported, but do no harm to the preset. -/
def lineNotes (body : List Char) : List Anomaly :=
  if 1 < (constructorLines body).length then [.extraConstructorLines] else []

/-- All that is reported about a constructor's body: further lines, then the fault. -/
def constructorAnomalies (body : List Char) : List Anomaly :=
  lineNotes body ++
    match Hardware.ofConstructor body with
    | .ok _ => []
    | .error anomaly => [anomaly]

end LcdHandhelds
