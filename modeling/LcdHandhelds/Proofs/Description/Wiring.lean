import LcdHandhelds.Proofs.Description.Blocks
import LcdHandhelds.Proofs.Wiring.Described
import LcdHandhelds.Proofs.Wiring.LayerAlgebra
import LcdHandhelds.Proofs.Wiring.Locality

/-!
The wiring of a described device. Its own ports are those that its statements describe; they lie
over those of the device that it includes, and where the marker is written the last row of all is
grounded. `Wires` says this of a wiring without reading any text, and `wires_resolve` proves it of
the wiring that the written input blocks are resolved to.
-/
namespace LcdHandhelds

open Text

namespace Description

/-- The name of the device. -/
def device (d : Description) : String := String.ofList d.id

/-- The device that is included: the last one, if there are several. -/
def included? (d : Description) : Option String :=
  (d.entries.filterMap Entry.inherited?).getLast?

/-- The described ports of a device: its own, over those of the device that it includes. -/
structure Layers (ds : List Description) (d : Description) (ports : List Port) : Prop where
  layered : ∀ base ∈ ds, d.included? = some base.device →
    ∃ own below, PortsOf d.entries own ∧ PortsOf base.entries below ∧ IsLayered own below ports
  /-- Without a described device underneath there are the own ports only. -/
  alone : (∀ base ∈ ds, d.included? ≠ some base.device) → PortsOf d.entries ports

/-- The described wiring of a device. -/
structure Wires (ds : List Description) (d : Description) (m : PortMap) : Prop where
  inherits : m.inherits = d.included?
  ports : Layers ds d m.ports
  grounded : ∀ index, m.groundedRow = some index ↔
    d.grounded ∧ IsGreatest {i | PortKey.row i ∈ m.ports.map Port.key} index

/-- What is wrong with the inclusion of a described device. -/
inductive Misincludes (ds : List Description) (d : Description) : Anomaly → Prop
  | missing {target : String} : d.included? = some target → (∀ base ∈ ds, base.device ≠ target) →
    Misincludes ds d (.missingInclude target)
  | nested {base : Description} : base ∈ ds → d.included? = some base.device →
    base.included? ≠ none → Misincludes ds d (.nestedInclude base.device)

/-- The reports on all inclusions, in the order of the device names. -/
structure ReportsInclusions (ds : List Description) (reports : List Diagnostic) : Prop where
  reported : ∀ r, r ∈ reports ↔ ∃ d ∈ ds, d.device = r.device ∧ d.Misincludes ds r.anomaly
  sorted : reports.Pairwise fun r r' => compare r.device r'.device = .lt

namespace Layers

variable {ds : List Description} {d : Description} {ports others : List Port}

theorem keySorted (h : Layers ds d ports) : KeySorted ports := by
  by_cases hbase : ∃ base ∈ ds, d.included? = some base.device
  · obtain ⟨base, hmem, hincluded⟩ := hbase
    obtain ⟨own, below, -, -, hlayered⟩ := h.layered base hmem hincluded
    exact hlayered.sorted
  · exact (h.alone (by simpa using hbase)).sorted

theorem unique (h : Layers ds d ports) (h' : Layers ds d others) : ports = others := by
  by_cases hbase : ∃ base ∈ ds, d.included? = some base.device
  · obtain ⟨base, hmem, hincluded⟩ := hbase
    obtain ⟨own, below, hown, hbelow, hlayered⟩ := h.layered base hmem hincluded
    obtain ⟨own', below', hown', hbelow', hlayered'⟩ := h'.layered base hmem hincluded
    rw [← hown.unique hown', ← hbelow.unique hbelow'] at hlayered'
    exact hlayered.unique hlayered'
  · have hnone : ∀ base ∈ ds, d.included? ≠ some base.device := by simpa using hbase
    exact (h.alone hnone).unique (h'.alone hnone)

end Layers

/-- A description leaves one wiring. -/
theorem Wires.unique {ds : List Description} {d : Description} {m m' : PortMap}
    (h : Wires ds d m) (h' : Wires ds d m') : m = m' := by
  have hports : m.ports = m'.ports := h.ports.unique h'.ports
  have hinherits : m.inherits = m'.inherits := h.inherits.trans h'.inherits.symm
  have hgrounded : m.groundedRow = m'.groundedRow :=
    Option.ext fun index => by rw [h.grounded, h'.grounded, hports]
  cases m
  cases m'
  simp_all

/-! ### Reading the written wirings -/

/-- The wiring of the input block, which the statements describe by themselves. -/
def wiring (d : Description) : PortMap := d.block.toPortMap

variable {d : Description}

theorem readAs (h : d.Valid) : Entry.ReadAs d.entries d.block :=
  readAs_entriesText h.entries

/-- A table of the written wirings. -/
def Fills (ds : List Description) (raw : InputTable) : Prop :=
  ∀ name m, raw.get? name = some m ↔ ∃ d ∈ ds, d.device = name ∧ d.wiring = m

namespace Fills

variable {ds : List Description} {raw : InputTable} {m : PortMap} (hraw : Fills ds raw)

include hraw

theorem get?_device (hd : d ∈ ds) : raw.get? d.device = some d.wiring :=
  (hraw _ _).2 ⟨d, hd, rfl, rfl⟩

theorem base?_eq_some_iff (h : d.Valid) :
    raw.base? d.wiring = some m ↔
      ∃ base ∈ ds, d.included? = some base.device ∧ base.wiring = m := by
  have hinherits : d.wiring.inherits = d.included? := (readAs h).inherits
  rw [InputTable.base?, hinherits, Option.bind_eq_some_iff]
  constructor
  · rintro ⟨target, htarget, hget⟩
    obtain ⟨base, hbase, rfl, hwiring⟩ := (hraw _ _).1 hget
    exact ⟨base, hbase, htarget, hwiring⟩
  · rintro ⟨base, hbase, htarget, rfl⟩
    exact ⟨_, htarget, hraw.get?_device hbase⟩

/-- A table of the described wirings resolves an inclusion as the descriptions do. -/
theorem layers_resolve (h : d.Valid) (hvalid : ∀ base ∈ ds, base.Valid) :
    Layers ds d (raw.resolve d.wiring).ports where
  layered base hbase hincluded := by
    have hget := (hraw.base?_eq_some_iff h).2 ⟨base, hbase, hincluded, rfl⟩
    rw [InputTable.resolve_of_base?_eq_some hget]
    exact ⟨_, _, (readAs h).ports, (readAs (hvalid base hbase)).ports, isLayered_layer _ _⟩
  alone hnone := by
    have hget : raw.base? d.wiring = none := by
      refine Option.eq_none_iff_forall_ne_some.2 fun m hm => ?_
      obtain ⟨base, hbase, hincluded, -⟩ := (hraw.base?_eq_some_iff h).1 hm
      exact hnone base hbase hincluded
    rw [InputTable.resolve_of_base?_eq_none hget]
    exact (readAs h).ports

theorem wires_resolve (h : d.Valid) (hvalid : ∀ base ∈ ds, base.Valid) :
    Wires ds d ((raw.resolve d.wiring).ground d.grounded) where
  inherits := by
    rw [PortMap.inherits_ground, InputTable.inherits_resolve]
    exact (readAs h).inherits
  ports := by
    rw [PortMap.ports_ground]
    exact hraw.layers_resolve h hvalid
  grounded index := by
    have hnone : (raw.resolve d.wiring).groundedRow = none := by
      rw [InputTable.groundedRow_resolve]
      rfl
    rw [PortMap.ports_ground]
    exact PortMap.groundedRow_ground_eq_some_iff (hraw.layers_resolve h hvalid).keySorted hnone

/-- The inclusions of the table are those of the descriptions. -/
theorem misincludes_iff (hvalid : ∀ d ∈ ds, d.Valid) {device : String} {a : Anomaly} :
    raw.Misincludes device a ↔ ∃ d ∈ ds, d.device = device ∧ d.Misincludes ds a := by
  have hinherits : ∀ d ∈ ds, d.wiring.inherits = d.included? := fun d hd =>
    (readAs (hvalid d hd)).inherits
  constructor
  · rintro (@⟨m, target, hget, htarget, hnone⟩ |
      @⟨m, below, target, hget, htarget, hbelow, hnested⟩)
    · obtain ⟨d, hd, rfl, rfl⟩ := (hraw _ _).1 hget
      rw [hinherits d hd] at htarget
      refine ⟨d, hd, rfl, .missing htarget fun base hbase hname => ?_⟩
      rw [← hname, hraw.get?_device hbase] at hnone
      cases hnone
    · obtain ⟨d, hd, rfl, rfl⟩ := (hraw _ _).1 hget
      obtain ⟨base, hbase, rfl, rfl⟩ := (hraw _ _).1 hbelow
      rw [hinherits d hd] at htarget
      rw [hinherits base hbase] at hnested
      exact ⟨d, hd, rfl, .nested hbase htarget hnested⟩
  · rintro ⟨d, hd, rfl, h⟩
    have hget := hraw.get?_device hd
    cases h with
    | missing htarget hnone =>
      rw [← hinherits d hd] at htarget
      refine .missing hget htarget (Option.eq_none_iff_forall_ne_some.2 fun m hm => ?_)
      obtain ⟨base, hbase, hname, -⟩ := (hraw _ _).1 hm
      exact hnone base hbase hname
    | @nested base hbase htarget hnested =>
      rw [← hinherits d hd] at htarget
      rw [← hinherits base hbase] at hnested
      exact .nested hget htarget (hraw.get?_device hbase) hnested

theorem reportsInclusions (hvalid : ∀ d ∈ ds, d.Valid) :
    ReportsInclusions ds raw.inclusionDiagnostics where
  reported _ := InputTable.mem_inclusionDiagnostics_iff.trans (hraw.misincludes_iff hvalid)
  sorted := InputTable.pairwise_inclusionDiagnostics raw

end Fills

end Description

end LcdHandhelds
