import LcdHandhelds.Wiring.Action

/-!
The input lines of a handheld. A scan row reads four switches at once; the three auxiliary lines
read one each. `Port.slot?` is the view of a port, `setSlot` and `fillFrom` change it slot by slot.
-/
namespace LcdHandhelds

/-- One switch: what it does, and how its line reads. -/
structure Switch where
  action : Action
  /-- Pressed when the line is at logic 0. -/
  activeLow : Bool
  name : Option String := none
  deriving DecidableEq, Repr

/-- The auxiliary lines, in the order of a port list. -/
inductive Line where
  | b | ba | acl
  deriving DecidableEq, Repr

namespace Line

def rank : Line → Nat
  | b => 0
  | ba => 1
  | acl => 2

theorem rank_injective {l m : Line} (h : l.rank = m.rank) : l = m := by
  cases l <;> cases m <;> simp_all [rank]

/-- The spelling in a manifest. -/
def name : Line → String
  | b => "b"
  | ba => "ba"
  | acl => "acl"

end Line

/-- What a port is within its device: a row by its index, or an auxiliary line. -/
inductive PortKey where
  | row (index : UInt64)
  | line (line : Line)
  deriving DecidableEq, Repr

namespace PortKey

/-- Rows come first, by index, then the lines. -/
def compare : PortKey → PortKey → Ordering
  | row i, row j => Ord.compare i j
  | row _, line _ => .lt
  | line _, row _ => .gt
  | line l, line m => Ord.compare l.rank m.rank

instance : Ord PortKey := ⟨PortKey.compare⟩

instance : Std.OrientedOrd PortKey where
  eq_swap {a b} := by
    change compare a b = (compare b a).swap
    cases a with
    | row i =>
      cases b with
      | row j => exact Std.OrientedOrd.eq_swap (a := i) (b := j)
      | line m => rfl
    | line l =>
      cases b with
      | row j => rfl
      | line m => exact Std.OrientedOrd.eq_swap (a := l.rank) (b := m.rank)

instance : Std.TransOrd PortKey where
  isLE_trans {a b c} hab hbc := by
    change (compare a c).isLE
    change (compare a b).isLE at hab
    change (compare b c).isLE at hbc
    cases a <;> cases b <;> cases c <;> simp only [compare] at hab hbc ⊢
    case row.row.row => exact Std.TransCmp.isLE_trans hab hbc
    case line.line.line => exact Std.TransCmp.isLE_trans hab hbc
    all_goals simp_all

instance : Std.LawfulEqOrd PortKey where
  eq_of_compare {a b} h := by
    change compare a b = .eq at h
    cases a <;> cases b <;> simp only [compare] at h
    · rw [Std.LawfulEqCmp.eq_of_compare h]
    · cases h
    · cases h
    · rw [Line.rank_injective (Std.LawfulEqCmp.eq_of_compare h)]

end PortKey

/-- A port: a scan row with four slots, or an auxiliary line with one. -/
inductive Port where
  | row (index : UInt64) (slots : Vector (Option Switch) 4)
  | line (line : Line) (switch : Option Switch)
  deriving DecidableEq, Repr

namespace Port

def key : Port → PortKey
  | row index _ => .row index
  | line l _ => .line l

/-- The port of a key with nothing wired to it. -/
def empty : PortKey → Port
  | .row index => row index (.replicate 4 none)
  | .line l => line l none

/-- The switch at a slot. A line has one slot, whatever number it is asked by. -/
def slot? : Port → Nat → Option Switch
  | row _ slots, i => slots[i]?.join
  | line _ switch, _ => switch

/-- Wires a switch. A row has no slot from the fourth on. -/
def setSlot : Port → Nat → Switch → Port
  | row index slots, i, s => row index (slots.setIfInBounds i (some s))
  | line l _, _, s => line l (some s)

/-- A row with nothing wired to it. Lines are never vacuous. -/
def isVacuous : Port → Bool
  | row _ slots => slots.all (·.isNone)
  | line _ _ => false

/-- Fills the free slots from a port of the same kind. Any two rows are of one kind. -/
def fillFrom : Port → Port → Port
  | row index slots, row _ others => row index (Vector.zipWith Option.or slots others)
  | line l switch, line m other => line l (if l = m then switch.or other else switch)
  | p, _ => p

def rowIndex? : Port → Option UInt64
  | row index _ => some index
  | line _ _ => none

@[simp] theorem key_empty (k : PortKey) : (empty k).key = k := by
  cases k <;> rfl

@[simp] theorem key_setSlot (p : Port) (i : Nat) (s : Switch) : (p.setSlot i s).key = p.key := by
  cases p <;> rfl

@[simp] theorem key_fillFrom (p q : Port) : (p.fillFrom q).key = p.key := by
  cases p <;> cases q <;> rfl

@[simp] theorem slot?_empty (k : PortKey) (i : Nat) : (empty k).slot? i = none := by
  cases k with
  | row index => by_cases h : i < 4 <;> simp [empty, slot?, h]
  | line l => rfl

@[simp] theorem slot?_line (l : Line) (switch : Option Switch) (i : Nat) :
    (line l switch).slot? i = switch := rfl

theorem slot?_setSlot_row (index : UInt64) (slots : Vector (Option Switch) 4) (i j : Nat)
    (s : Switch) :
    ((row index slots).setSlot i s).slot? j =
      if i = j ∧ i < 4 then some s else (row index slots).slot? j := by
  by_cases hi : i < 4
  · by_cases hij : i = j
    · subst hij; simp [setSlot, slot?, hi]
    · simp [setSlot, slot?, hij]
  · by_cases hij : i = j
    · subst hij; simp [setSlot, slot?, hi]
    · simp [setSlot, slot?, hij]

/-- The slots that are wired stay as they are; the free ones are those of the other row. -/
theorem slot?_fillFrom_row (i j : UInt64) (slots others : Vector (Option Switch) 4) (k : Nat) :
    ((row i slots).fillFrom (row j others)).slot? k =
      ((row i slots).slot? k).or ((row j others).slot? k) := by
  by_cases hk : k < 4
  · simp [fillFrom, slot?, hk]
  · simp [fillFrom, slot?, hk]

end Port

end LcdHandhelds
