import Mathlib.Data.List.Sort
import Mathlib.Order.Bounds.Defs
import LcdHandhelds.Wiring.PortMap

/-!
Ports slot by slot, and port lists in key order. A port is its key and its slots (`Port.ext_slot?`),
and a list in strict key order is its members (`KeySorted.eq_of_mem_iff`). Finishing a port map puts
ports of different keys into this order, and the last row of an ordered list is its greatest.
-/
namespace LcdHandhelds

namespace PortKey

/-- Whether a switch that is wired at a number goes to a slot. A row has four, a line has one. -/
def addresses (key : PortKey) (number slot : Nat) : Bool :=
  match key with
  | row _ => number == slot && number < 4
  | line _ => true

/-- Whether a port of one key is filled from a port of another: a row is from every row. -/
def filledBy : PortKey → PortKey → Bool
  | row _, row _ => true
  | line l, line m => l = m
  | row _, line _ => false
  | line _, row _ => false

theorem filledBy_iff {key other : PortKey} :
    key.filledBy other ↔ other = key ∨ (∃ i, key = row i) ∧ ∃ j, other = row j := by
  cases key <;> cases other <;> simp [filledBy, eq_comm]

end PortKey

namespace Port

theorem ext_slot? {p q : Port} (hk : p.key = q.key) (hs : ∀ i, p.slot? i = q.slot? i) : p = q := by
  cases p with
  | row i slots =>
    cases q with
    | row j others =>
      obtain rfl : i = j := by simpa [key] using hk
      have h : slots = others := by
        apply Vector.ext
        intro n hn
        simpa [slot?, hn] using hs n
      rw [h]
    | line m other => simp [key] at hk
  | line l switch =>
    cases q with
    | row j others => simp [key] at hk
    | line m other =>
      obtain rfl : l = m := by simpa [key] using hk
      have h : switch = other := hs 0
      rw [h]

/-- A switch goes to the slots that its number addresses. -/
theorem slot?_setSlot_eq (p : Port) (number : Nat) (switch : Switch) (slot : Nat) :
    (p.setSlot number switch).slot? slot =
      if p.key.addresses number slot then some switch else p.slot? slot := by
  cases p with
  | row index slots => simp [slot?_setSlot_row, PortKey.addresses, key]
  | line l own => simp [setSlot, PortKey.addresses, key]

/-- A slot that is free is filled from a port that may fill it. -/
theorem slot?_fillFrom_eq (p other : Port) (slot : Nat) :
    (p.fillFrom other).slot? slot =
      (p.slot? slot).or (if p.key.filledBy other.key then other.slot? slot else none) := by
  cases p with
  | row index slots =>
    cases other with
    | row j others => exact slot?_fillFrom_row index j slots others slot
    | line m offered => simp [fillFrom, PortKey.filledBy, key]
  | line l own =>
    cases other with
    | row j others => simp [fillFrom, PortKey.filledBy, key]
    | line m offered => by_cases h : l = m <;> simp [fillFrom, PortKey.filledBy, key, h]

/-- A row is vacuous when all its slots are free, whatever number they are asked by. -/
theorem isVacuous_iff (p : Port) :
    p.isVacuous ↔ (∃ index, p.key = .row index) ∧ ∀ i, p.slot? i = none := by
  cases p with
  | row index slots =>
    simp only [isVacuous, key, slot?, PortKey.row.injEq, exists_eq', true_and,
      Vector.all_eq_true, Option.isNone_iff_eq_none]
    constructor
    · intro h i
      by_cases hi : i < 4
      · simp [hi, h i hi]
      · simp [hi]
    · intro h i hi
      simpa [hi] using h i
  | line l switch => simp [isVacuous, key]

/-- Where keys differ, the port of a key is the one that is found. -/
theorem find?_key_eq_some_iff {ports : List Port} (h : (ports.map key).Nodup) {k : PortKey}
    {p : Port} : ports.find? (·.key = k) = some p ↔ p ∈ ports ∧ p.key = k := by
  constructor
  · intro hp
    exact ⟨List.mem_of_find?_eq_some hp, by simpa using List.find?_some hp⟩
  · rintro ⟨hp, rfl⟩
    cases hq : ports.find? (·.key = p.key) with
    | none =>
      have hne := List.find?_eq_none.1 hq p hp
      simp at hne
    | some q =>
      have hk : q.key = p.key := by simpa using List.find?_some hq
      rw [List.inj_on_of_nodup_map h (List.mem_of_find?_eq_some hq) hp hk]

/-- The order of a port list. -/
def Before (p q : Port) : Prop := compare p.key q.key = .lt

instance : DecidableRel Before := fun p q => decEq (compare p.key q.key) .lt

instance : Std.Irrefl Before where
  irrefl p h := by simp [Before] at h

instance : IsTrans Port Before where
  trans _ _ _ := Std.TransCmp.lt_trans

instance : Std.Antisymm Before where
  antisymm p q hpq hqp := by
    have hgt : compare p.key q.key = .gt := Std.OrientedCmp.gt_of_lt hqp
    rw [Before, hgt] at hpq
    cases hpq

theorem Before.key_ne {p q : Port} (h : p.Before q) : p.key ≠ q.key := by
  intro he
  rw [Before, he] at h
  simp at h

end Port

/-- Strictly increasing in key order: every key occurs once, rows before the lines. -/
def KeySorted (ports : List Port) : Prop := ports.Pairwise Port.Before

instance (ports : List Port) : Decidable (KeySorted ports) :=
  inferInstanceAs (Decidable (ports.Pairwise Port.Before))

namespace KeySorted

variable {ports others : List Port}

theorem nodup_keys (h : KeySorted ports) : (ports.map Port.key).Nodup :=
  List.pairwise_map.2 (h.imp Port.Before.key_ne)

theorem eq_of_mem_iff (h : KeySorted ports) (h' : KeySorted others)
    (hm : ∀ p, p ∈ ports ↔ p ∈ others) : ports = others :=
  List.Pairwise.eq_of_mem_iff h h' hm

/-- The last row of a list in key order is the greatest. -/
theorem isGreatest_lastRow? {m : PortMap} (h : KeySorted m.ports) {index : UInt64}
    (hl : m.lastRow? = some index) :
    IsGreatest {i | PortKey.row i ∈ m.ports.map Port.key} index := by
  obtain ⟨after, p, before, hports, hp, hafter⟩ :=
    List.findSome?_eq_some_iff.1
      (show m.ports.reverse.findSome? Port.rowIndex? = some index from hl)
  have hsplit : m.ports = before.reverse ++ p :: after.reverse := by
    have := congrArg List.reverse hports
    simpa using this
  have hkey : p.key = .row index := by
    cases p with
    | row i slots => simpa [Port.rowIndex?, Port.key] using hp
    | line l s => simp [Port.rowIndex?] at hp
  refine ⟨List.mem_map.2 ⟨p, by simp [hsplit], hkey⟩, fun other ho => ?_⟩
  obtain ⟨q, hq, hqk⟩ := List.mem_map.1 ho
  rw [hsplit, List.mem_append, List.mem_cons] at hq
  rcases hq with hq | rfl | hq
  · rw [KeySorted, hsplit] at h
    have hb : q.Before p := (List.pairwise_append.1 h).2.2 q hq p List.mem_cons_self
    rw [Port.Before, hqk, hkey] at hb
    have hlt : compare other index = .lt := hb
    exact UInt64.le_of_lt (Std.compare_eq_lt.1 hlt)
  · rw [hqk] at hkey
    exact UInt64.le_of_eq (by simpa using hkey)
  · have hn := hafter q (List.mem_reverse.1 hq)
    cases q with
    | row i slots => simp [Port.rowIndex?] at hn
    | line l s => simp [Port.key] at hqk

/-- Where there is a row, the last one is found. -/
theorem lastRow?_eq_some_iff {m : PortMap} (h : KeySorted m.ports) {index : UInt64} :
    m.lastRow? = some index ↔ IsGreatest {i | PortKey.row i ∈ m.ports.map Port.key} index := by
  refine ⟨h.isGreatest_lastRow?, fun hgreatest => ?_⟩
  obtain ⟨p, hp, hkey⟩ := List.mem_map.1 hgreatest.1
  cases hl : m.lastRow? with
  | none =>
    have hrow := List.findSome?_eq_none_iff.1 hl p (List.mem_reverse.2 hp)
    cases p with
    | row i slots => cases hrow
    | line l s => cases hkey
  | some last =>
    have hlast := h.isGreatest_lastRow? hl
    rw [UInt64.le_antisymm (hgreatest.2 hlast.1) (hlast.2 hgreatest.1)]

end KeySorted

namespace PortMap

/-- A wiring that is not grounded yet is grounded at its greatest row. -/
theorem groundedRow_ground_eq_some_iff {m : PortMap} (h : KeySorted m.ports)
    (hnone : m.groundedRow = none) {observed : Bool} {index : UInt64} :
    (m.ground observed).groundedRow = some index ↔
      observed ∧ IsGreatest {i | PortKey.row i ∈ m.ports.map Port.key} index := by
  rw [← h.lastRow?_eq_some_iff]
  cases observed with
  | false => simp [ground, hnone]
  | true => simp [ground, hnone]

theorem mem_finalize {m : PortMap} {p : Port} :
    p ∈ m.finalize.ports ↔ p ∈ m.ports ∧ p.isVacuous = false := by
  simp [finalize, sort]

theorem isLE_total (p q : Port) :
    (compare p.key q.key).isLE || (compare q.key p.key).isLE := by
  rw [Std.OrientedOrd.eq_swap (a := q.key) (b := p.key)]
  cases compare p.key q.key <;> rfl

/-- Ports of different keys are finished into strict key order. -/
theorem keySorted_finalize {m : PortMap} (h : (m.ports.map Port.key).Nodup) :
    KeySorted m.finalize.ports := by
  have hle : m.finalize.ports.Pairwise fun p q => (compare p.key q.key).isLE :=
    List.pairwise_mergeSort (fun _ _ _ => Std.TransCmp.isLE_trans) isLE_total _
  have hne : m.finalize.ports.Pairwise fun p q => p.key ≠ q.key := by
    have hf : (m.ports.filter (!·.isVacuous)).Pairwise fun p q => p.key ≠ q.key :=
      (List.pairwise_map.1 h).filter _
    exact (List.mergeSort_perm _ _).symm.pairwise hf (fun hpq => hpq.symm)
  refine (hle.and hne).imp fun {p q} hpq => ?_
  cases hc : compare p.key q.key with
  | lt => exact hc
  | eq => exact absurd (Std.LawfulEqCmp.eq_of_compare hc) hpq.2
  | gt => simp [hc] at hpq

end PortMap

end LcdHandhelds
