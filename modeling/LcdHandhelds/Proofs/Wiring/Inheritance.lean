import Mathlib.Data.Finset.Card
import Mathlib.Logic.Function.Iterate
import LcdHandhelds.Proofs.Wiring.Layering
import LcdHandhelds.Wiring.InputTable

/-!
Collapsing a table more than once. Each pass reads wirings that the pass before has merged already,
and still `t` passes are `t` levels of inheritance: a wiring over those of its first `t` ancestors
in the uncollapsed table. An ancestor met twice adds nothing, so a table is at rest after as many
passes as it has devices. Main statement: `iterate_collapse`.
-/
namespace LcdHandhelds

namespace InputTable

/-- The wiring that another includes, if the table has it. -/
def base? (raw : InputTable) (m : PortMap) : Option PortMap :=
  m.inherits.bind raw.get?

/-- The wirings met along the inclusions of `m`: at most `t`, fewer where the chain ends. -/
def ancestors (raw : InputTable) : (t : Nat) → PortMap → List PortMap
  | 0, _ => []
  | t + 1, m =>
    match raw.base? m with
    | none => []
    | some base => base :: raw.ancestors t base

/-- The ports of a wiring over those of its first `t` ancestors. -/
def stacked (raw : InputTable) (t : Nat) (m : PortMap) : List Port :=
  ((raw.ancestors t m).map (·.ports)).foldl layer m.ports

/-- All wirings of a table are in key order, as blocks give them. -/
def Ordered (raw : InputTable) : Prop :=
  ∀ m ∈ raw.values, KeySorted m.ports

instance (raw : InputTable) : Decidable raw.Ordered :=
  inferInstanceAs (Decidable (∀ m ∈ raw.values, KeySorted m.ports))

variable {raw : InputTable} {m : PortMap}

theorem ancestors_succ_of_none (h : raw.base? m = none) (t : Nat) :
    raw.ancestors (t + 1) m = [] := by
  simp [ancestors, h]

theorem ancestors_succ_of_some {base : PortMap} (h : raw.base? m = some base) (t : Nat) :
    raw.ancestors (t + 1) m = base :: raw.ancestors t base := by
  simp [ancestors, h]

theorem stacked_of_base?_eq_none (h : raw.base? m = none) (t : Nat) :
    raw.stacked t m = m.ports := by
  cases t with
  | zero => rfl
  | succ t => rw [stacked, ancestors_succ_of_none h]; rfl

/-- One level more is added at the far end. -/
theorem ancestors_prefix (raw : InputTable) (t : Nat) (m : PortMap) :
    raw.ancestors t m <+: raw.ancestors (t + 1) m := by
  induction t generalizing m with
  | zero => exact List.nil_prefix
  | succ t ih =>
    cases hb : raw.base? m with
    | none => simp [ancestors_succ_of_none hb]
    | some base =>
      rw [ancestors_succ_of_some hb, ancestors_succ_of_some hb]
      exact (List.prefix_cons_inj base).2 (ih base)

theorem base?_mem_values {base : PortMap} (h : raw.base? m = some base) : base ∈ raw.values := by
  obtain ⟨device, -, hd⟩ := Option.bind_eq_some_iff.1 h
  exact Table.mem_values_iff.2 ⟨device, hd⟩

theorem ancestors_subset_values (raw : InputTable) (t : Nat) (m : PortMap) :
    raw.ancestors t m ⊆ raw.values := by
  induction t generalizing m with
  | zero => exact List.nil_subset _
  | succ t ih =>
    cases hb : raw.base? m with
    | none => simp [ancestors_succ_of_none hb]
    | some base =>
      rw [ancestors_succ_of_some hb]
      exact List.cons_subset.2 ⟨base?_mem_values hb, ih base⟩

/-- The ancestors are what is included by the wiring itself or by an ancestor one level nearer. -/
theorem mem_ancestors_succ {x : PortMap} (t : Nat) :
    x ∈ raw.ancestors (t + 1) m ↔ ∃ y ∈ m :: raw.ancestors t m, raw.base? y = some x := by
  induction t generalizing m with
  | zero => cases hb : raw.base? m <;> simp [ancestors, hb, eq_comm]
  | succ t ih =>
    cases hb : raw.base? m with
    | none => simp [ancestors_succ_of_none hb, hb]
    | some base =>
      rw [ancestors_succ_of_some hb, List.mem_cons, ih, ancestors_succ_of_some hb,
        List.exists_mem_cons_iff (a := m), hb, Option.some.injEq, eq_comm]

/-! ### Passes and levels -/

namespace Ordered

theorem keySorted_ancestors (h : raw.Ordered) (t : Nat) (m : PortMap) :
    ∀ ports ∈ (raw.ancestors t m).map (·.ports), KeySorted ports := by
  intro ports hp
  obtain ⟨x, hx, rfl⟩ := List.mem_map.1 hp
  exact h x (raw.ancestors_subset_values t m hx)

theorem keySorted_stacked (hm : KeySorted m.ports) (t : Nat) : KeySorted (raw.stacked t m) :=
  keySorted_foldl_layer hm _

theorem wires_stacked (h : raw.Ordered) (t : Nat) (m : PortMap) (key : PortKey) :
    wires (raw.stacked t m) key =
      ((raw.ancestors t m).map (wires ·.ports key)).foldl atop (wires m.ports key) := by
  rw [stacked, wires_foldl_layer _ (h.keySorted_ancestors t m), List.map_map]
  rfl

/-- A wiring stacked over its base stacked as high is stacked one level higher. -/
theorem layer_stacked (h : raw.Ordered) (hm : KeySorted m.ports) {base : PortMap}
    (hb : raw.base? m = some base) (t : Nat) :
    layer (raw.stacked t m) (raw.stacked t base) = raw.stacked (t + 1) m := by
  have hbase : KeySorted base.ports := h base (base?_mem_values hb)
  refine (keySorted_layer _ _).eq_of_wires (keySorted_stacked hm (t + 1)) fun key => ?_
  rw [wires_layer _ (keySorted_stacked hbase t), h.wires_stacked, h.wires_stacked,
    h.wires_stacked]
  obtain ⟨rest, hrest⟩ := raw.ancestors_prefix t m
  rw [ancestors_succ_of_some hb] at hrest ⊢
  have hbelow : ((raw.ancestors t base).map (wires ·.ports key)).foldl atop (wires base.ports key) =
      ((base :: raw.ancestors t base).map (wires ·.ports key)).foldl atop none := rfl
  rw [hbelow, ← hrest, List.map_append]
  exact foldl_atop_foldl_atop _ _ _

/-- Each pass is one more level of inheritance. -/
theorem get?_iterate_collapse (h : raw.Ordered) (t : Nat) (device : String) :
    (collapse^[t] raw).get? device =
      (raw.get? device).map fun m => { m with ports := raw.stacked t m } := by
  induction t generalizing device with
  | zero =>
    change raw.get? device = (raw.get? device).map id
    rw [Option.map_id_fun, id]
  | succ t ih =>
    rw [Function.iterate_succ_apply', collapse, Table.get?_mapValues, ih, Option.map_map]
    refine Option.map_congr fun m hm => ?_
    have hbase : m.inherits.bind (collapse^[t] raw).get? =
        (raw.base? m).map fun base => { base with ports := raw.stacked t base } := by
      rw [base?, Option.map_bind]
      exact congrArg m.inherits.bind (funext ih)
    rw [Function.comp_apply, resolve, hbase]
    cases hb : raw.base? m with
    | none => rw [Option.map_none, stacked_of_base?_eq_none hb, stacked_of_base?_eq_none hb]
    | some base =>
      rw [Option.map_some, ← h.layer_stacked (h m (Table.mem_values_iff.2 ⟨device, hm⟩)) hb]

end Ordered

/-! ### Coming to rest -/

/-- A wiring and its first `t` ancestors, each counted once. -/
def lineage (raw : InputTable) (t : Nat) (m : PortMap) : Finset PortMap :=
  (m :: raw.ancestors t m).toFinset

theorem mem_lineage {t : Nat} {x : PortMap} :
    x ∈ raw.lineage t m ↔ x = m ∨ x ∈ raw.ancestors t m := by
  rw [lineage, List.mem_toFinset, List.mem_cons]

theorem lineage_subset_succ (raw : InputTable) (t : Nat) (m : PortMap) :
    raw.lineage t m ⊆ raw.lineage (t + 1) m := by
  intro x hx
  rw [mem_lineage] at hx ⊢
  exact hx.imp id fun hx => (raw.ancestors_prefix t m).subset hx

/-- A level that brings no new ancestor is the last to bring any. -/
theorem lineage_succ_succ {t : Nat} (h : raw.lineage (t + 1) m = raw.lineage t m) :
    raw.lineage (t + 2) m = raw.lineage (t + 1) m := by
  have hmem : ∀ y, y ∈ m :: raw.ancestors (t + 1) m ↔ y ∈ m :: raw.ancestors t m := by
    intro y
    rw [List.mem_cons, List.mem_cons, ← mem_lineage, ← mem_lineage, h]
  ext x
  rw [mem_lineage, mem_lineage, mem_ancestors_succ, mem_ancestors_succ]
  simp only [hmem]

/-- As long as there are new ancestors, each level brings one. -/
theorem lineage_grows (raw : InputTable) (t : Nat) (m : PortMap) :
    raw.lineage (t + 1) m = raw.lineage t m ∨ t + 1 ≤ (raw.lineage t m).card := by
  induction t with
  | zero =>
    right
    exact Finset.card_pos.2 ⟨m, mem_lineage.2 (.inl rfl)⟩
  | succ t ih =>
    by_cases hs : raw.lineage (t + 1) m = raw.lineage t m
    · exact .inl (lineage_succ_succ hs)
    · right
      have hc := ih.resolve_left hs
      have hlt := Finset.card_lt_card ((raw.lineage_subset_succ t m).ssubset_of_ne (Ne.symm hs))
      omega

/-- A chain of inclusions has gone round, or ended, within the number of devices. -/
theorem ancestors_succ_subset (hm : m ∈ raw.values) {t : Nat} (ht : raw.size ≤ t) :
    ∀ x ∈ raw.ancestors (t + 1) m, x ∈ m :: raw.ancestors t m := by
  have hcard : (raw.lineage t m).card ≤ raw.size := by
    have hsub : raw.lineage t m ⊆ raw.values.toFinset := by
      intro x hx
      rw [List.mem_toFinset]
      rcases mem_lineage.1 hx with rfl | hx
      · exact hm
      · exact raw.ancestors_subset_values t m hx
    calc (raw.lineage t m).card ≤ raw.values.toFinset.card := Finset.card_le_card hsub
      _ ≤ raw.values.length := List.toFinset_card_le _
      _ = raw.size := by simp [Table.values, Table.size]
  rcases raw.lineage_grows t m with hs | hc
  · intro x hx
    rw [List.mem_cons, ← mem_lineage, ← hs]
    exact mem_lineage.2 (.inr hx)
  · omega

theorem Ordered.stacked_succ (h : raw.Ordered) (hm : m ∈ raw.values) {t : Nat}
    (ht : raw.size ≤ t) : raw.stacked (t + 1) m = raw.stacked t m := by
  have hs := h m hm
  refine (keySorted_stacked hs _).eq_of_wires (keySorted_stacked hs _) fun key => ?_
  rw [h.wires_stacked, h.wires_stacked]
  obtain ⟨rest, hrest⟩ := raw.ancestors_prefix t m
  rw [← hrest, List.map_append, List.foldl_append]
  refine foldl_atop_of_subset _ _ _ fun w hw => ?_
  obtain ⟨x, hx, rfl⟩ := List.mem_map.1 hw
  have hmem := ancestors_succ_subset hm ht x (by simp [← hrest, hx])
  exact List.mem_map_of_mem (f := fun x : PortMap => wires x.ports key) hmem

/-! ### What the first pass reports -/

theorem mem_inclusionDiagnostics {device : String} (hm : raw.get? device = some m) {a : Anomaly}
    (ha : raw.inclusionAnomaly? m = some a) : ⟨device, a⟩ ∈ raw.inclusionDiagnostics := by
  refine List.mem_filterMap.2 ⟨(device, m), Table.get?_eq_some_iff.1 hm, ?_⟩
  rw [ha]
  rfl

/-- Where the base includes nothing itself, one level is all there is. -/
theorem stacked_succ_of_base {base : PortMap} (hb : raw.base? m = some base)
    (hn : base.inherits = none) (t : Nat) : raw.stacked (t + 1) m = raw.stacked 1 m := by
  have hbase : raw.base? base = none := by rw [base?, hn]; rfl
  have hnil : raw.ancestors t base = [] := by
    cases t with
    | zero => rfl
    | succ t => exact ancestors_succ_of_none hbase t
  rw [stacked, stacked, ancestors_succ_of_some hb, ancestors_succ_of_some hb, hnil]
  rfl

theorem nestedInclude_of_stacked_ne {device : String} (hm : raw.get? device = some m) {t : Nat}
    (hne : raw.stacked 1 m ≠ raw.stacked (t + 1) m) :
    ∃ base, m.inherits = some base ∧ ⟨device, .nestedInclude base⟩ ∈ raw.inclusionDiagnostics := by
  cases hb : raw.base? m with
  | none =>
    rw [stacked_of_base?_eq_none hb, stacked_of_base?_eq_none hb] at hne
    exact absurd rfl hne
  | some base =>
    obtain ⟨name, hname, hget⟩ := Option.bind_eq_some_iff.1 hb
    have hnested : base.inherits ≠ none := fun hn => hne (stacked_succ_of_base hb hn t).symm
    refine ⟨name, hname, mem_inclusionDiagnostics hm ?_⟩
    simp [inclusionAnomaly?, hname, hget, Option.isSome_iff_ne_none.2 hnested]

/--
Passes are levels of inheritance: after `t` of them a wiring lies over its first `t` ancestors in
the uncollapsed table. As many passes as there are devices exhaust every chain, also one that goes
round, and a device that then has more than after the first pass was reported by that pass.
-/
theorem iterate_collapse (raw : InputTable) (h : raw.Ordered) :
    (∀ t device m, raw.get? device = some m →
      (collapse^[t] raw).get? device =
        some { m with ports := ((raw.ancestors t m).map (·.ports)).foldl layer m.ports }) ∧
    (∀ t, raw.size ≤ t → collapse^[t + 1] raw = collapse^[t] raw) ∧
    (∀ t device m, raw.size ≤ t → raw.get? device = some m →
      raw.collapse.get? device ≠ (collapse^[t] raw).get? device →
      ∃ base, m.inherits = some base ∧
        ⟨device, .nestedInclude base⟩ ∈ raw.inclusionDiagnostics) := by
  refine ⟨fun t device m hm => ?_, fun t ht => ?_, fun t device m ht hm hne => ?_⟩
  · rw [h.get?_iterate_collapse, hm]
    rfl
  · refine Table.ext_get? fun device => ?_
    rw [h.get?_iterate_collapse, h.get?_iterate_collapse]
    refine Option.map_congr fun m hm => ?_
    rw [h.stacked_succ (Table.mem_values_iff.2 ⟨device, hm⟩) ht]
  · have hpos : 0 < t := by
      have hmem := Table.get?_eq_some_iff.1 hm
      have : 0 < raw.size := List.length_pos_of_mem hmem
      omega
    obtain ⟨n, rfl⟩ := Nat.exists_eq_succ_of_ne_zero hpos.ne'
    refine nestedInclude_of_stacked_ne hm (t := n) fun heq => hne ?_
    have hone := h.get?_iterate_collapse 1 device
    rw [Function.iterate_one] at hone
    rw [hone, h.get?_iterate_collapse, hm, Option.map_some, Option.map_some, heq]

/-- Three wirings that include each other in a ring. -/
def ring : InputTable :=
  Table.ofList [("a", ⟨[.line .b none], some "b", none⟩), ("b", ⟨[.line .acl none], some "c", none⟩),
    ("c", ⟨[.line .ba none], some "a", none⟩)]

theorem iterate_collapse_ring :
    ring.Ordered ∧
      (collapse^[3] ring).get? "a" =
        some ⟨[.line .b none, .line .ba none, .line .acl none], some "b", none⟩ ∧
      collapse^[4] ring = collapse^[3] ring ∧
      ring.collapse.get? "a" ≠ (collapse^[3] ring).get? "a" ∧
      ⟨"a", .nestedInclude "b"⟩ ∈ ring.inclusionDiagnostics := by
  have ho : ring.Ordered := by decide
  obtain ⟨hlevels, hrest, hreported⟩ := iterate_collapse ring ho
  have hthree := hlevels 3 "a" ⟨[.line .b none], some "b", none⟩ (by decide)
  have hne : ring.collapse.get? "a" ≠ (collapse^[3] ring).get? "a" := by decide
  obtain ⟨base, hbase, hd⟩ :=
    hreported 3 "a" ⟨[.line .b none], some "b", none⟩ (by decide) (by decide) hne
  cases hbase
  exact ⟨ho, hthree.trans (by decide), hrest 3 (by decide), hne, hd⟩

end InputTable

end LcdHandhelds
