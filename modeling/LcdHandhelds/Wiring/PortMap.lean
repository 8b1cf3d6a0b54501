import LcdHandhelds.Table
import LcdHandhelds.Wiring.Port

/-!
The wiring of a device: its ports, the device whose wiring lies underneath, and the grounded row.
`layer` puts one port list over another; a port list in key order is the normal form.
-/
namespace LcdHandhelds

structure PortMap where
  ports : List Port
  /-- The device whose wiring is layered underneath. -/
  inherits : Option String := none
  /-- The row whose last wired switch is tied to ground. -/
  groundedRow : Option UInt64 := none
  deriving DecidableEq, Repr

namespace PortMap

instance : Inhabited PortMap := ⟨⟨[], none, none⟩⟩

/-- Puts the ports into key order; ports of one key keep their order. -/
def sort (m : PortMap) : PortMap :=
  { m with ports := m.ports.mergeSort fun p q => (compare p.key q.key).isLE }

/-- Drops the vacuous rows and sorts. -/
def finalize (m : PortMap) : PortMap :=
  sort { m with ports := m.ports.filter (!·.isVacuous) }

/-- The index of the last row in the list. -/
def lastRow? (m : PortMap) : Option UInt64 :=
  m.ports.reverse.findSome? Port.rowIndex?

/-- Marks the last row as grounded, if the marker was seen and there is a row. -/
def ground (observed : Bool) (m : PortMap) : PortMap :=
  if observed then { m with groundedRow := m.lastRow?.or m.groundedRow } else m

@[simp] theorem ports_ground (observed : Bool) (m : PortMap) :
    (m.ground observed).ports = m.ports := by
  cases observed <;> rfl

@[simp] theorem inherits_ground (observed : Bool) (m : PortMap) :
    (m.ground observed).inherits = m.inherits := by
  cases observed <;> rfl

end PortMap

/-- The ports by key; a later port replaces an earlier one. -/
def portTable (ports : List Port) : Table PortKey Port :=
  Table.ofList (ports.map fun p => (p.key, p))

/-- Adds a port underneath those of a table: it fills the free slots of its own key. -/
def underlay (t : Table PortKey Port) (p : Port) : Table PortKey Port :=
  t.alter p.key fun
    | none => some p
    | some q => some (q.fillFrom p)

/-- Layers the ports `own` over the ports `inherited`, slot by slot, in key order. -/
def layer (own inherited : List Port) : List Port :=
  (inherited.foldl underlay (portTable own)).values

end LcdHandhelds
