import Mathlib.Data.List.ReduceOption
import LcdHandhelds.Proofs.Wiring.Entry
import LcdHandhelds.Proofs.Wiring.Faults

/-!
What a row of statements describes, whatever lines they are written on. Bits and settings belong to
the port of the last header before them (`Entry.inSections`), and `PortsOf` says which ports there
are and what is wired to their slots. A block of written statements has the described ports and
reports the described faults: `readAs_entriesText`.
-/
namespace LcdHandhelds

open Text

namespace Entry

/-- What a header opens: a port, or none if its name is fake or unknown. -/
def opening? : Entry → Option (Option PortKey)
  | header _ name => some (PortName.ofText (String.ofList name)).key?
  | _ => none

def inherited? : Entry → Option String
  | inherit device => some (String.ofList device)
  | _ => none

/-- The port in whose section a statement stands that comes after these: that of the last header. -/
def sectionAfter (entries : List Entry) : Option PortKey :=
  (entries.filterMap opening?).getLast?.join

/-- The statements, each with the port in whose section it stands. -/
def inSections (entries : List Entry) : List (Option PortKey × Entry) :=
  entries.zipIdx.map fun (e, n) => (sectionAfter (entries.take n), e)

/-- The switch at a slot: that of its last bit, else the placeholder of its first setting. -/
def wired? (entries : List Entry) (key : PortKey) (slot : Nat) : Option Switch :=
  ((inSections entries).filterMap fun (k, e) => Block.bitAt? key slot (k, e.statement)).getLast?.or
    ((inSections entries).filterMap fun (k, e) => Block.settingAt? key slot (k, e.statement)).head?

/-- What is wrong with a statement in the section of a port, or outside of all sections. -/
def fault? (key : Option PortKey) (e : Entry) : Option Anomaly :=
  match e with
  | header _ name =>
    if PortName.ofText (String.ofList name) = .unknown then
      some (.unknownPort (String.ofList name))
    else none
  | bit _ _ action _ =>
    if Action.ofToken? (String.ofList action) = none then
      some (.unknownAction (String.ofList action))
    else if key = none then some (.bitWithoutPort (String.ofList e.text))
    else none
  | _ => none

/-- The faults of a row of statements, in order. -/
def faults (entries : List Entry) : List Anomaly :=
  (inSections entries).filterMap fun (key, e) => e.fault? key

/-- An auxiliary line is there once it is opened, a row only if something is wired to it. -/
def HasPort (entries : List Entry) : PortKey → Prop
  | .row index => ∃ slot, (wired? entries (.row index) slot).isSome
  | .line line => some (PortKey.line line) ∈ entries.filterMap opening?

end Entry

/-- The ports that statements describe. -/
structure PortsOf (entries : List Entry) (ports : List Port) : Prop where
  sorted : KeySorted ports
  keys : ∀ key, key ∈ ports.map Port.key ↔ Entry.HasPort entries key
  slots : ∀ p ∈ ports, ∀ slot, p.slot? slot = Entry.wired? entries p.key slot

namespace PortsOf

variable {entries : List Entry} {ports others : List Port}

theorem subset (h : PortsOf entries ports) (h' : PortsOf entries others) : ports ⊆ others := by
  intro p hp
  have hkey : p.key ∈ others.map Port.key := by
    rw [h'.keys, ← h.keys]
    exact List.mem_map_of_mem hp
  obtain ⟨q, hq, hqp⟩ := List.mem_map.1 hkey
  have hslots : ∀ slot, q.slot? slot = p.slot? slot := by
    intro slot
    rw [h'.slots q hq, h.slots p hp, hqp]
  exact Port.ext_slot? hqp hslots ▸ hq

/-- Statements describe one list of ports. -/
theorem unique (h : PortsOf entries ports) (h' : PortsOf entries others) : ports = others :=
  h.sorted.eq_of_mem_iff h'.sorted fun _ => ⟨fun hp => h.subset h' hp, fun hp => h'.subset h hp⟩

end PortsOf

/-! ### Checking a list of ports -/

namespace Entry

variable {entries : List Entry} {key : PortKey} {slot : Nat}

theorem wired?_eq_none_of_forall
    (h : ∀ e ∈ inSections entries, Block.bitAt? key slot (e.1, e.2.statement) = none ∧
      Block.settingAt? key slot (e.1, e.2.statement) = none) :
    wired? entries key slot = none := by
  have hbits : (inSections entries).filterMap
      (fun (k, e) => Block.bitAt? key slot (k, e.statement)) = [] :=
    List.filterMap_eq_nil_iff.2 fun e he => (h e he).1
  have hsettings : (inSections entries).filterMap
      (fun (k, e) => Block.settingAt? key slot (k, e.statement)) = [] :=
    List.filterMap_eq_nil_iff.2 fun e he => (h e he).2
  rw [wired?, hbits, hsettings]
  rfl

/-- A row has four slots. -/
theorem wired?_row_of_le (entries : List Entry) (index : UInt64) (h : 4 ≤ slot) :
    wired? entries (.row index) slot = none := by
  have hfar : ∀ mask, (PortKey.row index).reaches mask slot = false := by
    intro mask
    have hlt := slotOfMask_lt mask
    simp only [PortKey.reaches, beq_eq_false_iff_ne]
    omega
  refine wired?_eq_none_of_forall ?_
  rintro ⟨k, e⟩ -
  cases k <;> cases e <;> simp [statement, Block.bitAt?, Block.settingAt?, hfar]

/-- A slot is wired in the section of its port only. -/
theorem opening_of_isSome_wired? (h : (wired? entries key slot).isSome) :
    some key ∈ entries.filterMap opening? := by
  by_contra hnone
  rw [wired?_eq_none_of_forall] at h
  · cases h
  rintro ⟨k, e⟩ he
  have hk : k ≠ some key := by
    rintro rfl
    obtain ⟨⟨e', n⟩, -, hpair⟩ := List.mem_map.1 he
    have hlast : sectionAfter (entries.take n) = some key := congrArg Prod.fst hpair
    have hmem := List.mem_of_getLast? (Option.join_eq_some_iff.1 hlast)
    exact hnone ((List.take_sublist n entries).filterMap _ |>.subset hmem)
  cases k <;> cases e <;> simp_all [statement, Block.bitAt?, Block.settingAt?]

theorem hasPort_row_iff {index : UInt64} :
    HasPort entries (.row index) ↔ ∃ slot < 4, (wired? entries (.row index) slot).isSome := by
  constructor
  · rintro ⟨slot, h⟩
    refine ⟨slot, Nat.lt_of_not_le fun hle => ?_, h⟩
    rw [wired?_row_of_le entries index hle] at h
    cases h
  · rintro ⟨slot, -, h⟩
    exact ⟨slot, h⟩

instance (entries : List Entry) (key : PortKey) : Decidable (HasPort entries key) :=
  match key with
  | .row _ => decidable_of_iff _ hasPort_row_iff.symm
  | .line line =>
    inferInstanceAs (Decidable (some (PortKey.line line) ∈ entries.filterMap opening?))

/-- Only a port that is opened can be there. -/
theorem HasPort.opening (h : HasPort entries key) : some key ∈ entries.filterMap opening? := by
  cases key with
  | row index =>
    obtain ⟨slot, hs⟩ := h
    exact opening_of_isSome_wired? hs
  | line line => exact h

end Entry

/-- The keys and the slots that have to be compared are those of the list and of the headers. -/
theorem portsOf_iff {entries : List Entry} {ports : List Port} :
    PortsOf entries ports ↔ KeySorted ports ∧
      (∀ key ∈ ports.map Port.key, Entry.HasPort entries key) ∧
      (∀ key ∈ (entries.filterMap Entry.opening?).reduceOption, Entry.HasPort entries key →
        key ∈ ports.map Port.key) ∧
      ∀ p ∈ ports, ∀ slot < 4, p.slot? slot = Entry.wired? entries p.key slot := by
  constructor
  · intro h
    exact ⟨h.sorted, fun key => (h.keys key).1, fun key _ => (h.keys key).2,
      fun p hp slot _ => h.slots p hp slot⟩
  · rintro ⟨hsorted, hthere, hall, hslots⟩
    refine ⟨hsorted, fun key => ⟨hthere key, fun h => hall key ?_ h⟩, fun p hp slot => ?_⟩
    · exact List.reduceOption_mem_iff.2 h.opening
    · rcases Nat.lt_or_ge slot 4 with hlt | hge
      · exact hslots p hp slot hlt
      · cases p with
        | row index slots =>
          rw [Port.key, Entry.wired?_row_of_le entries index hge]
          simp [Port.slot?, hge]
        | line l switch => exact hslots _ hp 0 (by decide)

instance (entries : List Entry) (ports : List Port) : Decidable (PortsOf entries ports) :=
  decidable_of_iff _ portsOf_iff.symm

/-! ### Written statements -/

namespace EntryLine

variable (ls : List EntryLine)

theorem opening?_text (l : EntryLine) : Block.opening? l.text = l.entry.opening? := by
  rw [Block.opening?, l.ofLine?_text]
  cases l.entry <;> rfl

theorem inheriting?_text (l : EntryLine) : Block.inheriting? l.text = l.entry.inherited? := by
  rw [Block.inheriting?, l.ofLine?_text]
  cases l.entry <;> rfl

theorem fault?_text (key : Option PortKey) (l : EntryLine) :
    Block.fault? key l.text = l.entry.fault? key := by
  rw [Block.fault?, l.ofLine?_text, l.trim_text]
  cases l.entry <;> rfl

theorem filterMap_opening?_text :
    (ls.map text).filterMap Block.opening? = (ls.map entry).filterMap Entry.opening? := by
  rw [List.filterMap_map, List.filterMap_map]
  exact List.filterMap_congr fun l _ => l.opening?_text

theorem filterMap_inheriting?_text :
    (ls.map text).filterMap Block.inheriting? = (ls.map entry).filterMap Entry.inherited? := by
  rw [List.filterMap_map, List.filterMap_map]
  exact List.filterMap_congr fun l _ => l.inheriting?_text

/-- The lines of statements, each with the port in whose section it stands. -/
def inSections : List (Option PortKey × EntryLine) :=
  ls.zipIdx.map fun (l, n) => (Entry.sectionAfter ((ls.take n).map entry), l)

theorem inSections_text :
    Block.inSections (ls.map text) = (inSections ls).map (Prod.map id text) := by
  rw [Block.inSections, List.zipIdx_map, List.map_map, inSections, List.map_map]
  refine List.map_congr_left ?_
  rintro ⟨l, n⟩ -
  have hsection := congrArg (·.getLast?.join) (filterMap_opening?_text (ls.take n))
  rw [List.map_take] at hsection
  exact congrArg (·, l.text) hsection

theorem inSections_entry :
    Entry.inSections (ls.map entry) = (inSections ls).map (Prod.map id entry) := by
  rw [Entry.inSections, List.zipIdx_map, List.map_map, inSections, List.map_map]
  refine List.map_congr_left ?_
  rintro ⟨l, n⟩ -
  simp only [Function.comp_apply, Prod.map_apply, id, List.map_take]

theorem wired?_text (key : PortKey) (slot : Nat) :
    Block.wired? (ls.map text) key slot = Entry.wired? (ls.map entry) key slot := by
  have hplaced : Block.placed (ls.map text) =
      (Entry.inSections (ls.map entry)).map fun (k, e) => (k, e.statement) := by
    rw [Block.placed_eq, inSections_text, inSections_entry, List.filterMap_map, List.map_map,
      ← List.filterMap_eq_map]
    refine List.filterMap_congr ?_
    rintro ⟨k, l⟩ -
    simp only [Function.comp_apply, Prod.map_apply, id, l.ofLine?_text, Option.map_some]
  rw [Block.wired?, hplaced, List.filterMap_map, List.filterMap_map]
  rfl

theorem faults_text : Block.faults (ls.map text) = Entry.faults (ls.map entry) := by
  rw [Block.faults, Entry.faults, inSections_text, inSections_entry, List.filterMap_map,
    List.filterMap_map]
  exact List.filterMap_congr fun line _ => line.2.fault?_text line.1

end EntryLine

/-- What the lines of statements mean is what the statements describe. -/
theorem Block.Meaning.portsOf {ls : List EntryLine} {m : PortMap}
    (h : Meaning (ls.map EntryLine.text) m) : PortsOf (ls.map EntryLine.entry) m.ports where
  sorted := h.sorted
  keys key := by
    cases key with
    | row index =>
      rw [h.rows]
      simp only [EntryLine.wired?_text]
      rfl
    | line line =>
      rw [h.auxiliary, EntryLine.filterMap_opening?_text]
      rfl
  slots p hp slot := by rw [h.slots p hp, EntryLine.wired?_text]

/-- A block that is read from written statements. -/
structure Entry.ReadAs (entries : List Entry) (b : Block) : Prop where
  ports : PortsOf entries b.toPortMap.ports
  inherits : b.toPortMap.inherits = (entries.filterMap Entry.inherited?).getLast?
  groundedRow : b.toPortMap.groundedRow = none
  anomalies : b.anomalies = Entry.faults entries

/-- A block of written statements is what they describe. -/
theorem readAs_entriesText {entries : List Entry} (h : ∀ e ∈ entries, e.Valid) :
    Entry.ReadAs entries (Block.ofBody (entriesText entries)) := by
  obtain ⟨ls, rfl, hread⟩ := Block.exists_ofBody_entriesText h
  have hmeaning := (Block.tracks_ofLines (ls.map EntryLine.text)).meaning
  rw [hread]
  exact ⟨hmeaning.portsOf, hmeaning.inherits.trans
    (congrArg List.getLast? (EntryLine.filterMap_inheriting?_text ls)), hmeaning.groundedRow,
    (Block.anomalies_ofLines _).trans (EntryLine.faults_text ls)⟩

end LcdHandhelds
