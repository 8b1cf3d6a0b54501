import LcdHandhelds.Proofs.Except
import LcdHandhelds.Proofs.Wiring.Layering
import LcdHandhelds.Proofs.Wiring.Sections
import LcdHandhelds.Wiring.InputTable

/-!
Well-formed wirings: ports in strict key order, no vacuous row, and a grounded row that is the last
one there is. Blocks are read into such wirings, a base laid underneath keeps them so, and
grounding marks the right row.
-/
namespace LcdHandhelds

structure PortMap.WellFormed (m : PortMap) : Prop where
  sorted : KeySorted m.ports
  wired : ∀ p ∈ m.ports, p.isVacuous = false
  grounded : ∀ index, m.groundedRow = some index →
    IsGreatest {i | PortKey.row i ∈ m.ports.map Port.key} index

theorem Port.isVacuous_fillFrom {p : Port} (h : p.isVacuous = false) (q : Port) :
    (p.fillFrom q).isVacuous = false := by
  refine Bool.eq_false_iff.2 fun hv => Bool.eq_false_iff.1 h ?_
  obtain ⟨hk, hs⟩ := (isVacuous_iff _).1 hv
  rw [key_fillFrom] at hk
  refine (isVacuous_iff p).2 ⟨hk, fun i => ?_⟩
  have hi := hs i
  rw [slot?_fillFrom_eq, Option.or_eq_none_iff] at hi
  exact hi.1

section Filling

variable {P : Port → Prop}

theorem forall_get?_underlay (hfill : ∀ p q, P p → P (p.fillFrom q)) {t : Table PortKey Port}
    (ht : ∀ key p, t.get? key = some p → P p) {q : Port} (hq : P q) :
    ∀ key p, (underlay t q).get? key = some p → P p := by
  intro key p hp
  rw [get?_underlay] at hp
  split at hp
  · cases hr : t.get? key with
    | none =>
      obtain rfl : q = p := by simpa [hr] using hp
      exact hq
    | some r =>
      obtain rfl : r.fillFrom q = p := by simpa [hr] using hp
      exact hfill r q (ht key r hr)
  · exact ht key p hp

theorem forall_get?_foldl_underlay (hfill : ∀ p q, P p → P (p.fillFrom q))
    {t : Table PortKey Port} (ht : ∀ key p, t.get? key = some p → P p) {ports : List Port}
    (hp : ∀ p ∈ ports, P p) : ∀ key p, (ports.foldl underlay t).get? key = some p → P p := by
  induction ports generalizing t with
  | nil => exact ht
  | cons q ports ih =>
    have hq : P q := hp q List.mem_cons_self
    exact ih (forall_get?_underlay hfill ht hq) fun p h => hp p (List.mem_cons_of_mem _ h)

/-- What all ports of two layers have in common, and filling keeps, the merged ports have. -/
theorem forall_mem_layer (hfill : ∀ p q, P p → P (p.fillFrom q)) {own inherited : List Port}
    (ho : ∀ p ∈ own, P p) (hi : ∀ p ∈ inherited, P p) : ∀ p ∈ layer own inherited, P p := by
  intro p hp
  obtain ⟨key, hk⟩ := Table.mem_values_iff.1 hp
  have hown : ∀ k q, (portTable own).get? k = some q → P q := by
    intro k q hq
    rw [get?_portTable] at hq
    exact ho q (List.mem_reverse.1 (List.mem_of_find?_eq_some hq))
  exact forall_get?_foldl_underlay hfill hown hi key p hk

end Filling

namespace PortMap.WellFormed

variable {m : PortMap}

theorem default : (default : PortMap).WellFormed :=
  ⟨List.Pairwise.nil, fun _ h => absurd h List.not_mem_nil, fun _ h => nomatch h⟩

theorem ground (h : m.WellFormed) (observed : Bool) : (m.ground observed).WellFormed := by
  cases observed with
  | false => exact h
  | true =>
    refine ⟨h.sorted, h.wired, fun index hi => ?_⟩
    have hor : m.lastRow?.or m.groundedRow = some index := hi
    cases hl : m.lastRow? with
    | none =>
      rw [hl, Option.none_or] at hor
      exact h.grounded index hor
    | some last =>
      rw [hl, Option.some_or, Option.some.injEq] at hor
      exact h.sorted.isGreatest_lastRow? (hor ▸ hl)

/-- A base keeps the order and the switches. The grounded row is found anew afterwards. -/
theorem layered (h : m.WellFormed) (hg : m.groundedRow = none) {base : PortMap}
    (hb : base.WellFormed) : ({ m with ports := layer m.ports base.ports } : PortMap).WellFormed where
  sorted := keySorted_layer _ _
  wired := forall_mem_layer (fun _ q hp => Port.isVacuous_fillFrom hp q) h.wired hb.wired
  grounded index hi := by simp [hg] at hi

end PortMap.WellFormed

theorem Block.wellFormed_toPortMap (lines : List (List Char)) :
    (ofLines lines).toPortMap.WellFormed where
  sorted := ((tracks_ofLines lines).meaning).sorted
  wired _ hp := (Tracks.mem_toPortMap _).1 hp |>.2
  grounded _ hi := nomatch hi

namespace InputTable

/-- The tables before grounding. -/
def WellFormed (t : InputTable) : Prop :=
  ∀ m ∈ t.values, m.WellFormed ∧ m.groundedRow = none

theorem WellFormed.addBlock {read next : InputTable × List Diagnostic} {block : InputBlock}
    (h : read.1.WellFormed) (hn : addBlock read block = .ok next) : next.1.WellFormed := by
  rw [InputTable.addBlock] at hn
  split at hn
  · cases hn
  · cases hn
    intro m hm
    obtain ⟨device, hd⟩ := Table.mem_values_iff.1 hm
    rw [Table.get?_insert] at hd
    split at hd
    · cases hd
      exact ⟨Block.wellFormed_toPortMap _, rfl⟩
    · exact h m (Table.mem_values_iff.2 ⟨device, hd⟩)

theorem WellFormed.foldlM_addBlock {read result : InputTable × List Diagnostic}
    {blocks : List InputBlock} (h : read.1.WellFormed)
    (hr : blocks.foldlM InputTable.addBlock read = .ok result) : result.1.WellFormed := by
  induction blocks generalizing read with
  | nil =>
    cases hr
    exact h
  | cons block blocks ih =>
    rw [List.foldlM_cons, bind_eq_ok_iff] at hr
    obtain ⟨next, hn, hr⟩ := hr
    exact ih (h.addBlock hn) hr

theorem wellFormed_ofSource {source : List Char} {raw : InputTable} {reported : List Diagnostic}
    (h : ofSource source = .ok (raw, reported)) : raw.WellFormed :=
  WellFormed.foldlM_addBlock (fun _ hm => absurd hm List.not_mem_nil) h

theorem WellFormed.collapse {raw : InputTable} (h : raw.WellFormed) : raw.collapse.WellFormed := by
  intro m hm
  obtain ⟨device, hd⟩ := Table.mem_values_iff.1 hm
  rw [InputTable.collapse, Table.get?_mapValues] at hd
  obtain ⟨own, ho, rfl⟩ := Option.map_eq_some_iff.1 hd
  obtain ⟨hwf, hg⟩ := h own (Table.mem_values_iff.2 ⟨device, ho⟩)
  rw [resolve]
  cases hb : own.inherits.bind raw.get? with
  | none => exact ⟨hwf, hg⟩
  | some base =>
    obtain ⟨name, -, hbase⟩ := Option.bind_eq_some_iff.1 hb
    exact ⟨hwf.layered hg (h base (Table.mem_values_iff.2 ⟨name, hbase⟩)).1, hg⟩

end InputTable

end LcdHandhelds
