import LcdHandhelds.Number.Binary64

/-!
What a handheld is built from: its processor and the sizes of its display panels.
-/
namespace LcdHandhelds

inductive Cpu where
  | sm5a | kb1013vk12 | sm510 | sm511 | sm512 | sm530
  | sm510Tiger | sm511Tiger1Bit | sm511Tiger2Bit
  deriving DecidableEq, Repr

namespace Cpu

/-- The spelling in a manifest. -/
def name : Cpu → String
  | sm5a => "sm5a"
  | kb1013vk12 => "kb1013vk12"
  | sm510 => "sm510"
  | sm511 => "sm511"
  | sm512 => "sm512"
  | sm530 => "sm530"
  | sm510Tiger => "sm510_tiger"
  | sm511Tiger1Bit => "sm511_tiger1bit"
  | sm511Tiger2Bit => "sm511_tiger2bit"

def all : List Cpu :=
  [sm5a, kb1013vk12, sm510, sm511, sm512, sm530, sm510Tiger, sm511Tiger1Bit, sm511Tiger2Bit]

def ofName? (text : String) : Option Cpu :=
  all.find? fun c => c.name = text

theorem ofName?_name (c : Cpu) : ofName? c.name = some c := by
  cases c <;> decide

end Cpu

structure Size where
  width : Binary64
  height : Binary64
  deriving DecidableEq, Repr

/-- One panel, or two of them above or beside each other. -/
inductive Screen where
  | single (size : Size)
  | dualVertical (top bottom : Size)
  | dualHorizontal (left right : Size)
  deriving DecidableEq, Repr

structure Hardware where
  cpu : Cpu
  screen : Screen
  deriving DecidableEq, Repr

end LcdHandhelds
