import Mathlib.Data.List.Induction
import LcdHandhelds.Proofs.Wiring.PortList
import LcdHandhelds.Wiring.Block

/-!
What an input block means, said of its lines as a whole. A line stands in the section of the last
header before it. The last bit of a slot wires it, and where there is none its first setting does
(`wired?`). Main statement: the wiring read line by line is the one with this meaning
(`eq_toPortMap_iff_meaning`), however often a section is left and taken up again.
-/
namespace LcdHandhelds

open Text

def PortName.key? : PortName → Option PortKey
  | .known key => some key
  | .fake => none
  | .unknown => none

namespace PortKey

/-- Whether a mask reaches a slot. A line has only one slot, so every mask reaches it. -/
def reaches (key : PortKey) (mask : UInt32) (slot : Nat) : Bool :=
  match key with
  | .row _ => slotOfMask mask == slot
  | .line _ => true

theorem addresses_slotOfMask (key : PortKey) (mask : UInt32) (slot : Nat) :
    key.addresses (slotOfMask mask) slot = key.reaches mask slot := by
  cases key <;> simp [addresses, reaches, slotOfMask_lt]

/-- What a setting stands for: a switch nobody uses, active low on a line when it is its bit. -/
def placeholder (key : PortKey) (mask : UInt32) : Switch :=
  match key with
  | .row _ => ⟨.unused, false, none⟩
  | .line _ => ⟨.unused, mask == 1, none⟩

end PortKey

namespace Port

theorem slot?_setSlot (p : Port) (mask : UInt32) (s : Switch) (slot : Nat) :
    (p.setSlot (slotOfMask mask) s).slot? slot =
      if p.key.reaches mask slot then some s else p.slot? slot := by
  rw [slot?_setSlot_eq, PortKey.addresses_slotOfMask]

/-- All slots that a mask reaches are the one it decodes to. -/
theorem slot?_of_reaches {p : Port} {mask : UInt32} {slot : Nat} (h : p.key.reaches mask slot) :
    p.slot? slot = p.slot? (slotOfMask mask) := by
  cases p with
  | row index slots =>
    obtain rfl : slotOfMask mask = slot := by simpa [PortKey.reaches, key] using h
    rfl
  | line l switch => rfl

end Port

namespace Block

/-! ### The declarative meaning -/

/-- What a header opens: a port, or none if its name is fake or unknown. -/
def opening? (line : List Char) : Option (Option PortKey) :=
  match Statement.ofLine? line with
  | some (.header name) => some (PortName.ofText name).key?
  | _ => none

def inheriting? (line : List Char) : Option String :=
  match Statement.ofLine? line with
  | some (.inherit device) => some device
  | _ => none

/-- The port in whose section a line stands that comes after these: that of the last header. -/
def sectionAfter (lines : List (List Char)) : Option PortKey :=
  (lines.filterMap opening?).getLast?.join

/-- The lines of a block, each with the port in whose section it stands. -/
def inSections (lines : List (List Char)) : List (Option PortKey × List Char) :=
  lines.zipIdx.map fun (line, n) => (sectionAfter (lines.take n), line)

/-- The statements of a block, each with the port in whose section it stands. -/
def placed (lines : List (List Char)) : List (Option PortKey × Statement) :=
  lines.zipIdx.filterMap fun (line, n) =>
    (Statement.ofLine? line).map (sectionAfter (lines.take n), ·)

/-- The switch that a bit with a known token gives to a slot. -/
def bitAt? (key : PortKey) (slot : Nat) : Option PortKey × Statement → Option Switch
  | (some k, .bit mask activeHigh token name) =>
    if k = key ∧ key.reaches mask slot then
      (Action.ofToken? token).map (⟨·, !activeHigh, name⟩)
    else none
  | _ => none

/-- The placeholder that a setting offers to a slot. -/
def settingAt? (key : PortKey) (slot : Nat) : Option PortKey × Statement → Option Switch
  | (some k, .setting mask) =>
    if k = key ∧ key.reaches mask slot then some (key.placeholder mask) else none
  | _ => none

/-- The switch at a slot: that of its last bit, else the placeholder of its first setting. -/
def wired? (lines : List (List Char)) (key : PortKey) (slot : Nat) : Option Switch :=
  ((placed lines).filterMap (bitAt? key slot)).getLast?.or
    ((placed lines).filterMap (settingAt? key slot)).head?

/-- The wiring that a block describes. -/
structure Meaning (lines : List (List Char)) (m : PortMap) : Prop where
  sorted : KeySorted m.ports
  rows : ∀ index, PortKey.row index ∈ m.ports.map Port.key ↔
    ∃ slot, (wired? lines (.row index) slot).isSome
  auxiliary : ∀ line, PortKey.line line ∈ m.ports.map Port.key ↔
    some (PortKey.line line) ∈ lines.filterMap opening?
  slots : ∀ p ∈ m.ports, ∀ slot, p.slot? slot = wired? lines p.key slot
  inherits : m.inherits = (lines.filterMap inheriting?).getLast?
  groundedRow : m.groundedRow = none

/-! ### One more line -/

theorem sectionAfter_snoc (lines : List (List Char)) (line : List Char) :
    sectionAfter (lines ++ [line]) = ((opening? line).getD (sectionAfter lines)) := by
  rw [sectionAfter, List.filterMap_append]
  cases h : opening? line with
  | none => simp [h, sectionAfter]
  | some k => simp [h]

theorem inSections_snoc (lines : List (List Char)) (line : List Char) :
    inSections (lines ++ [line]) = inSections lines ++ [(sectionAfter lines, line)] := by
  rw [inSections, List.zipIdx_append, List.map_append]
  congr 1
  · refine List.map_congr_left fun ⟨l, n⟩ he => ?_
    have hn : n ≤ lines.length := by
      have := List.snd_lt_of_mem_zipIdx he
      omega
    simp only [List.take_append_of_le_length hn]
  · simp

theorem placed_eq (lines : List (List Char)) :
    placed lines = (inSections lines).filterMap fun (key, line) =>
      (Statement.ofLine? line).map (key, ·) := by
  rw [placed, inSections, List.filterMap_map]
  rfl

theorem placed_snoc (lines : List (List Char)) (line : List Char) :
    placed (lines ++ [line]) =
      placed lines ++ ((Statement.ofLine? line).map (sectionAfter lines, ·)).toList := by
  rw [placed_eq, inSections_snoc, List.filterMap_append, ← placed_eq]
  cases h : Statement.ofLine? line <;> simp [h]

/-- A new bit comes before all that was there, a new setting after it. -/
theorem wired?_snoc (lines : List (List Char)) (line : List Char) (key : PortKey) (slot : Nat) :
    wired? (lines ++ [line]) key slot =
      ((Statement.ofLine? line).bind fun s => bitAt? key slot (sectionAfter lines, s)).or
        ((wired? lines key slot).or
          ((Statement.ofLine? line).bind fun s => settingAt? key slot (sectionAfter lines, s))) := by
  rw [wired?, placed_snoc, List.filterMap_append, List.filterMap_append]
  cases h : Statement.ofLine? line with
  | none => simp [wired?]
  | some s =>
    simp only [Option.map_some, Option.toList_some, List.getLast?_append, List.head?_append,
      Option.bind_some, wired?]
    cases hb : bitAt? key slot (sectionAfter lines, s) <;>
      cases hs : settingAt? key slot (sectionAfter lines, s) <;> simp [hb, hs]

/-! ### The invariant -/

/-- The ports read so far, the open one last. -/
def ports (b : Block) : List Port :=
  b.closed ++ b.opened.toList

def port? (b : Block) (key : PortKey) : Option Port :=
  b.ports.find? (·.key = key)

/-- What a block that is read holds: its ports have different keys, and they mean what was said. -/
structure Tracks (lines : List (List Char)) (b : Block) : Prop where
  opened : b.opened.map Port.key = sectionAfter lines
  distinct : (b.ports.map Port.key).Nodup
  keys : ∀ key, key ∈ b.ports.map Port.key ↔ some key ∈ lines.filterMap opening?
  slots : ∀ key slot, (b.port? key).bind (·.slot? slot) = wired? lines key slot
  inherits : b.inherits = (lines.filterMap inheriting?).getLast?

theorem port?_eq_some_iff {b : Block} (h : (b.ports.map Port.key).Nodup) {key : PortKey}
    {p : Port} : b.port? key = some p ↔ p ∈ b.ports ∧ p.key = key :=
  Port.find?_key_eq_some_iff h

/-- Changing the slots of the open port changes no other port. -/
theorem port?_opened {b : Block} {p q : Port} (h : (b.ports.map Port.key).Nodup)
    (ho : b.opened = some p) (hk : q.key = p.key) (key : PortKey) :
    ({ b with opened := some q } : Block).port? key =
      if key = p.key then some q else b.port? key := by
  have hp : ∀ r ∈ b.closed, r.key ≠ p.key := by
    intro r hr he
    rw [ports, ho, List.map_append, List.nodup_append] at h
    exact h.2.2 _ (List.mem_map.2 ⟨r, hr, rfl⟩) p.key (by simp) he
  by_cases hkey : key = p.key
  · subst hkey
    have hn : b.closed.find? (·.key = p.key) = none := by simpa using hp
    simp [port?, ports, hn, hk]
  · have hqk : ¬ p.key = key := fun e => hkey e.symm
    simp [port?, ports, ho, hk, hkey, hqk]

theorem key_getD_port? (b : Block) (key : PortKey) :
    ((b.port? key).getD (Port.empty key)).key = key := by
  cases h : b.port? key with
  | none => simp
  | some p => simpa using List.find?_some h

theorem ports_reopen (b : Block) (key : PortKey) :
    (b.close.reopen key).ports =
      b.ports.eraseP (·.key = key) ++ [(b.port? key).getD (Port.empty key)] := by
  simp [reopen, close, ports, port?]

theorem keys_reopen (b : Block) (key : PortKey) :
    (b.close.reopen key).ports.map Port.key = (b.ports.map Port.key).erase key ++ [key] := by
  rw [ports_reopen, List.map_append, List.erase_eq_eraseP', List.eraseP_map, List.map_singleton,
    key_getD_port?]
  rfl

theorem distinct_reopen {b : Block} (h : (b.ports.map Port.key).Nodup) (key : PortKey) :
    ((b.close.reopen key).ports.map Port.key).Nodup := by
  rw [keys_reopen, List.nodup_append]
  refine ⟨h.erase key, by simp, fun k hk k' hk' => ?_⟩
  rw [List.mem_singleton] at hk'
  rintro rfl
  exact h.not_mem_erase (hk' ▸ hk)

theorem port?_reopen {b : Block} (h : (b.ports.map Port.key).Nodup) (key k : PortKey) :
    (b.close.reopen key).port? k =
      if k = key then some ((b.port? key).getD (Port.empty key)) else b.port? k := by
  have hd := distinct_reopen h key
  by_cases hk : k = key
  · subst hk
    rw [if_pos rfl, port?_eq_some_iff hd, ports_reopen]
    exact ⟨by simp, key_getD_port? b k⟩
  · rw [if_neg hk]
    apply Option.ext
    intro p
    rw [port?_eq_some_iff hd, port?_eq_some_iff h, ports_reopen]
    refine and_congr_left fun hp => ?_
    have hne : ¬ p.key = key := fun e => hk (hp ▸ e)
    have hlast : p ≠ (b.port? key).getD (Port.empty key) := by
      rintro rfl
      exact hne (key_getD_port? b key)
    rw [List.mem_append, List.mem_singleton, or_iff_left hlast]
    exact List.mem_eraseP_of_neg (by simpa using hne)

/-! ### What one line preserves -/

namespace Tracks

variable {lines : List (List Char)} {line : List Char} {b : Block}

theorem report (h : Tracks lines b) (a : Anomaly) : Tracks lines (b.report a) :=
  ⟨h.opened, h.distinct, h.keys, h.slots, h.inherits⟩

/-- The open port is wired as the lines before say. -/
theorem slot?_opened (h : Tracks lines b) {p : Port} (ho : b.opened = some p) (slot : Nat) :
    p.slot? slot = wired? lines p.key slot := by
  have hp : b.port? p.key = some p := (port?_eq_some_iff h.distinct).2 ⟨by simp [ports, ho], rfl⟩
  rw [← h.slots, hp]
  rfl

theorem sectionAfter_eq (h : Tracks lines b) {p : Port} (ho : b.opened = some p) :
    sectionAfter lines = some p.key := by
  rw [← h.opened, ho]
  rfl

/-- A line that wires nothing leaves the block as it is. -/
theorem keep (h : Tracks lines b) (ho : opening? line = none) (hi : inheriting? line = none)
    (hw : ∀ key slot, wired? (lines ++ [line]) key slot = wired? lines key slot) :
    Tracks (lines ++ [line]) b where
  opened := by
    rw [sectionAfter_snoc, ho]
    exact h.opened
  distinct := h.distinct
  keys key := by
    rw [List.filterMap_append]
    simpa [ho] using h.keys key
  slots key slot := (h.slots key slot).trans (hw key slot).symm
  inherits := by
    rw [List.filterMap_append]
    simpa [hi] using h.inherits

/-- A line that wires a slot of the open port changes that port alone. -/
theorem rewire (h : Tracks lines b) (ho : opening? line = none) (hi : inheriting? line = none)
    {p q : Port} (hp : b.opened = some p) (hk : q.key = p.key)
    (hq : ∀ slot, q.slot? slot = wired? (lines ++ [line]) p.key slot)
    (hw : ∀ key slot, key ≠ p.key →
      wired? (lines ++ [line]) key slot = wired? lines key slot) :
    Tracks (lines ++ [line]) { b with opened := some q } where
  opened := by
    rw [sectionAfter_snoc, ho, Option.getD_none, h.sectionAfter_eq hp]
    exact congrArg some hk
  distinct := by
    have hd := h.distinct
    rw [ports, hp] at hd
    simpa [ports, hk] using hd
  keys key := by
    rw [List.filterMap_append]
    have hkey := h.keys key
    rw [ports, hp] at hkey
    simpa [ports, hk, ho] using hkey
  slots key slot := by
    rw [port?_opened h.distinct hp hk]
    by_cases hkey : key = p.key
    · subst hkey
      rw [if_pos rfl]
      exact hq slot
    · rw [if_neg hkey, hw key slot hkey]
      exact h.slots key slot
  inherits := by
    rw [List.filterMap_append]
    simpa [hi] using h.inherits

theorem header (h : Tracks lines b) {name : String}
    (hl : Statement.ofLine? line = some (.header name)) :
    Tracks (lines ++ [line]) (b.header name) := by
  have ho : opening? line = some (PortName.ofText name).key? := by simp [opening?, hl]
  have hi : inheriting? line = none := by simp [inheriting?, hl]
  have hs : sectionAfter (lines ++ [line]) = (PortName.ofText name).key? := by
    rw [sectionAfter_snoc, ho, Option.getD_some]
  have hw : ∀ key slot, wired? (lines ++ [line]) key slot = wired? lines key slot := by
    intro key slot
    simp [wired?_snoc, hl, bitAt?, settingAt?]
  have hinh : b.inherits = ((lines ++ [line]).filterMap inheriting?).getLast? := by
    rw [List.filterMap_append]
    simpa [hi] using h.inherits
  have hclosed : b.close.ports = b.ports := by simp [close, ports]
  -- A name that opens no port leaves all ports as they are.
  have hclose : (PortName.ofText name).key? = none → Tracks (lines ++ [line]) b.close := by
    intro hk
    refine ⟨by rw [hs, hk]; rfl, hclosed ▸ h.distinct, fun key => ?_, fun key slot => ?_, hinh⟩
    · rw [hclosed, List.filterMap_append]
      simpa [ho, hk] using h.keys key
    · rw [port?, hclosed, hw]
      exact h.slots key slot
  rw [Block.header]
  cases hname : PortName.ofText name with
  | fake => exact hclose (by rw [hname]; rfl)
  | unknown => exact (hclose (by rw [hname]; rfl)).report _
  | known key =>
    rw [hname] at ho hs
    refine ⟨?_, distinct_reopen h.distinct key, fun k => ?_, fun k slot => ?_, hinh⟩
    · rw [hs]
      exact congrArg some (key_getD_port? b key)
    · rw [keys_reopen, List.mem_append, h.distinct.mem_erase_iff, h.keys, List.filterMap_append]
      by_cases hk : k = key
      · simp [ho, PortName.key?, hk]
      · simp [ho, PortName.key?, hk]
    · rw [port?_reopen h.distinct, hw, ← h.slots]
      split
      · rename_i hk
        subst hk
        cases b.port? k with
        | none => simp
        | some p => rfl
      · rfl

theorem bit (h : Tracks lines b) {mask : UInt32} {activeHigh : Bool} {token : String}
    {name : Option String} (hl : Statement.ofLine? line = some (.bit mask activeHigh token name)) :
    Tracks (lines ++ [line]) (b.bit mask activeHigh token name line) := by
  have ho : opening? line = none := by simp [opening?, hl]
  have hi : inheriting? line = none := by simp [inheriting?, hl]
  rw [Block.bit]
  cases ha : Action.ofToken? token with
  | none =>
    refine (h.keep ho hi fun key slot => ?_).report _
    rw [wired?_snoc, hl]
    cases hs : sectionAfter lines <;> simp [bitAt?, settingAt?, ha]
  | some action =>
    cases hp : b.opened with
    | none =>
      refine (h.keep ho hi fun key slot => ?_).report _
      have hs : sectionAfter lines = none := by rw [← h.opened, hp]; rfl
      simp [wired?_snoc, hl, hs, bitAt?, settingAt?]
    | some p =>
      have hs := h.sectionAfter_eq hp
      refine h.rewire ho hi hp (Port.key_setSlot ..) (fun slot => ?_) fun key slot hk => ?_
      · rw [Port.slot?_setSlot, wired?_snoc, hl, h.slot?_opened hp]
        by_cases hr : p.key.reaches mask slot
        · simp [hs, bitAt?, ha, hr]
        · simp [hs, bitAt?, settingAt?, hr]
      · have hne : ¬ p.key = key := fun e => hk e.symm
        simp [wired?_snoc, hl, hs, bitAt?, settingAt?, hne]

theorem setting (h : Tracks lines b) {mask : UInt32}
    (hl : Statement.ofLine? line = some (.setting mask)) :
    Tracks (lines ++ [line]) (b.setting mask) := by
  have ho : opening? line = none := by simp [opening?, hl]
  have hi : inheriting? line = none := by simp [inheriting?, hl]
  cases hp : b.opened with
  | none =>
    rw [Block.setting, hp]
    refine h.keep ho hi fun key slot => ?_
    have hs : sectionAfter lines = none := by rw [← h.opened, hp]; rfl
    simp [wired?_snoc, hl, hs, bitAt?, settingAt?]
  | some p =>
    have hs := h.sectionAfter_eq hp
    have hne : ∀ key slot, key ≠ p.key →
        wired? (lines ++ [line]) key slot = wired? lines key slot := by
      intro key slot hk
      have hne : ¬ p.key = key := fun e => hk e.symm
      simp [wired?_snoc, hl, hs, bitAt?, settingAt?, hne]
    have heq : ∀ slot, wired? (lines ++ [line]) p.key slot =
        if p.key.reaches mask slot then (p.slot? (slotOfMask mask)).or (p.key.placeholder mask)
        else p.slot? slot := by
      intro slot
      rw [wired?_snoc, hl, ← h.slot?_opened hp]
      by_cases hr : p.key.reaches mask slot
      · simp [hs, bitAt?, settingAt?, hr, Port.slot?_of_reaches hr]
      · simp [hs, bitAt?, settingAt?, hr]
    cases hw : p.slot? (slotOfMask mask) with
    | some s =>
      simp only [Block.setting, hp, hw]
      -- The slot is filled, and the new setting comes after what fills it.
      refine h.keep ho hi fun key slot => ?_
      by_cases hk : key = p.key
      · subst hk
        rw [heq, ← h.slot?_opened hp]
        split
        · rename_i hr
          rw [hw, Port.slot?_of_reaches hr, hw]
          rfl
        · rfl
      · exact hne key slot hk
    | none =>
      simp only [Block.setting, hp, hw]
      refine h.rewire ho hi hp (Port.key_setSlot ..) (fun slot => ?_) hne
      have hlow : (⟨.unused, settingLow p.key mask, none⟩ : Switch) = p.key.placeholder mask := by
        cases p <;> rfl
      rw [Port.slot?_setSlot, heq, hw, hlow]
      rfl

theorem inherit (h : Tracks lines b) {device : String}
    (hl : Statement.ofLine? line = some (.inherit device)) :
    Tracks (lines ++ [line]) { b with inherits := some device } := by
  have ho : opening? line = none := by simp [opening?, hl]
  have hi : inheriting? line = some device := by simp [inheriting?, hl]
  refine ⟨?_, h.distinct, fun key => ?_, fun key slot => ?_, ?_⟩
  · rw [sectionAfter_snoc, ho]
    exact h.opened
  · change key ∈ b.ports.map Port.key ↔ _
    rw [List.filterMap_append]
    simpa [ho] using h.keys key
  · change (b.port? key).bind _ = _
    rw [wired?_snoc, hl]
    cases sectionAfter lines <;> simpa [bitAt?, settingAt?] using h.slots key slot
  · rw [List.filterMap_append]
    simp [hi]

theorem feed (h : Tracks lines b) (line : List Char) : Tracks (lines ++ [line]) (b.feed line) := by
  rw [Block.feed]
  cases hl : Statement.ofLine? line with
  | none =>
    refine h.keep (by simp [opening?, hl]) (by simp [inheriting?, hl]) fun key slot => ?_
    simp [wired?_snoc, hl]
  | some s =>
    cases s with
    | header name => exact h.header hl
    | bit mask activeHigh token name => exact h.bit hl
    | setting mask => exact h.setting hl
    | inherit device => exact h.inherit hl

end Tracks

/-- Every block that is read holds what its lines mean. -/
theorem tracks_ofLines (lines : List (List Char)) : Tracks lines (ofLines lines) := by
  induction lines using List.reverseRecOn with
  | nil => exact ⟨rfl, List.nodup_nil, by simp [ofLines, empty, ports], fun _ _ => rfl, rfl⟩
  | append_singleton lines line ih =>
    rw [ofLines, List.foldl_append]
    exact ih.feed line

/-! ### The finished wiring -/

namespace Tracks

variable {lines : List (List Char)} {b : Block}

theorem mem_toPortMap (b : Block) {p : Port} :
    p ∈ b.toPortMap.ports ↔ p ∈ b.ports ∧ p.isVacuous = false :=
  PortMap.mem_finalize

theorem slot?_of_mem (h : Tracks lines b) {p : Port} (hp : p ∈ b.ports) (slot : Nat) :
    p.slot? slot = wired? lines p.key slot := by
  rw [← h.slots, (port?_eq_some_iff h.distinct).2 ⟨hp, rfl⟩]
  rfl

/-- A row is kept when one of its slots is wired. -/
theorem row_mem_iff (h : Tracks lines b) (index : UInt64) :
    PortKey.row index ∈ b.toPortMap.ports.map Port.key ↔
      ∃ slot, (wired? lines (.row index) slot).isSome := by
  constructor
  · intro hm
    obtain ⟨p, hp, hk⟩ := List.mem_map.1 hm
    obtain ⟨hb, hv⟩ := (mem_toPortMap b).1 hp
    have hn : ¬ ∀ slot, p.slot? slot = none := fun hn =>
      Bool.eq_false_iff.1 hv ((Port.isVacuous_iff p).2 ⟨⟨index, hk⟩, hn⟩)
    obtain ⟨slot, hs⟩ := not_forall.1 hn
    refine ⟨slot, ?_⟩
    rw [← hk, ← h.slot?_of_mem hb]
    exact Option.isSome_iff_ne_none.2 hs
  · rintro ⟨slot, hs⟩
    rw [← h.slots] at hs
    cases hp : b.port? (.row index) with
    | none => simp [hp] at hs
    | some p =>
      obtain ⟨hb, hk⟩ := (port?_eq_some_iff h.distinct).1 hp
      have hv : p.isVacuous = false := by
        refine Bool.eq_false_iff.2 fun hv => ?_
        have hn := ((Port.isVacuous_iff p).1 hv).2 slot
        simp [hp, hn] at hs
      exact List.mem_map.2 ⟨p, (mem_toPortMap b).2 ⟨hb, hv⟩, hk⟩

/-- A line is kept whether it is wired or not. -/
theorem line_mem_iff (h : Tracks lines b) (line : Line) :
    PortKey.line line ∈ b.toPortMap.ports.map Port.key ↔
      some (PortKey.line line) ∈ lines.filterMap opening? := by
  rw [← h.keys]
  constructor
  · intro hm
    obtain ⟨p, hp, hk⟩ := List.mem_map.1 hm
    exact List.mem_map.2 ⟨p, ((mem_toPortMap b).1 hp).1, hk⟩
  · intro hm
    obtain ⟨p, hp, hk⟩ := List.mem_map.1 hm
    have hv : p.isVacuous = false := by
      refine Bool.eq_false_iff.2 fun hv => ?_
      obtain ⟨index, hi⟩ := ((Port.isVacuous_iff p).1 hv).1
      rw [hi] at hk
      cases hk
    exact List.mem_map.2 ⟨p, (mem_toPortMap b).2 ⟨hp, hv⟩, hk⟩

theorem meaning (h : Tracks lines b) : Meaning lines b.toPortMap where
  sorted := PortMap.keySorted_finalize h.distinct
  rows := h.row_mem_iff
  auxiliary := h.line_mem_iff
  slots _ hp slot := h.slot?_of_mem ((mem_toPortMap b).1 hp).1 slot
  inherits := h.inherits
  groundedRow := rfl

end Tracks

namespace Meaning

variable {lines : List (List Char)} {m m' : PortMap}

theorem mem_keys_iff (h : Meaning lines m) (h' : Meaning lines m') (key : PortKey) :
    key ∈ m.ports.map Port.key ↔ key ∈ m'.ports.map Port.key := by
  cases key with
  | row index => rw [h.rows, h'.rows]
  | line line => rw [h.auxiliary, h'.auxiliary]

theorem ports_subset (h : Meaning lines m) (h' : Meaning lines m') : m.ports ⊆ m'.ports := by
  intro p hp
  have hk : p.key ∈ m'.ports.map Port.key := (h.mem_keys_iff h' p.key).1 (List.mem_map_of_mem hp)
  obtain ⟨q, hq, hqk⟩ := List.mem_map.1 hk
  have hpq : p = q := Port.ext_slot? hqk.symm fun slot => by
    rw [h.slots p hp, h'.slots q hq, hqk]
  rw [hpq]
  exact hq

/-- Keys and slots leave no choice: a list in key order has one port for each of its keys. -/
theorem unique (h : Meaning lines m) (h' : Meaning lines m') : m = m' := by
  have hports : m.ports = m'.ports := h.sorted.eq_of_mem_iff h'.sorted fun _ =>
    ⟨fun hp => h.ports_subset h' hp, fun hp => h'.ports_subset h hp⟩
  cases m
  cases m'
  have hi := h.inherits.trans h'.inherits.symm
  have hg := h.groundedRow.trans h'.groundedRow.symm
  simp_all

end Meaning

/-- The wiring read line by line is exactly the one that the lines describe. -/
theorem eq_toPortMap_iff_meaning (lines : List (List Char)) (m : PortMap) :
    m = (ofLines lines).toPortMap ↔ Meaning lines m := by
  have h : Meaning lines (ofLines lines).toPortMap := (tracks_ofLines lines).meaning
  constructor
  · rintro rfl
    exact h
  · intro hm
    exact hm.unique h

end Block

end LcdHandhelds
