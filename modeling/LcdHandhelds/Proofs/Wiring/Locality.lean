import LcdHandhelds.Proofs.Wiring.Inheritance

/-!
What one collapse of a table reads and reports. A wiring is resolved against the uncollapsed ports
of its base and nothing else, so the devices may be resolved in any order, and what the others hold
is never seen. Main statement: `locality_of_collapse`.
-/
namespace LcdHandhelds.InputTable

/-- Two tables that hold the same for a device, and the same ports for what it includes. -/
structure AgreeAt (raw other : InputTable) (device : String) : Prop where
  own : raw.get? device = other.get? device
  base : ∀ m, raw.get? device = some m →
    (raw.base? m).map (·.ports) = (other.base? m).map (·.ports)

/-- What is wrong with the inclusion of a device. -/
inductive Misincludes (raw : InputTable) (device : String) : Anomaly → Prop
  | missing {m : PortMap} {target : String} : raw.get? device = some m →
    m.inherits = some target → raw.get? target = none →
    Misincludes raw device (.missingInclude target)
  | nested {m base : PortMap} {target : String} : raw.get? device = some m →
    m.inherits = some target → raw.get? target = some base → base.inherits ≠ none →
    Misincludes raw device (.nestedInclude target)

/-- Resolves one more device, and reports on it. -/
def resolveNext (raw : InputTable) (done : InputTable × List Diagnostic) (device : String) :
    InputTable × List Diagnostic :=
  match raw.get? device with
  | none => done
  | some m => (done.1.insert device (raw.resolve m),
      done.2 ++ ((raw.inclusionAnomaly? m).map (⟨device, ·⟩)).toList)

/-- What a collapse does with each device. -/
structure CollapsesLocally (raw : InputTable) : Prop where
  keys : raw.collapse.keys = raw.keys
  /-- Without a base a wiring stays as it is, whether it includes nothing or a missing device. -/
  alone : ∀ device m, raw.get? device = some m → raw.base? m = none →
    raw.collapse.get? device = some m
  merged : ∀ device m base, raw.get? device = some m → raw.base? m = some base →
    raw.collapse.get? device = some { m with ports := layer m.ports base.ports }
  onlyBase : ∀ other device, raw.AgreeAt other device →
    raw.collapse.get? device = other.collapse.get? device
  anyOrder : ∀ order : List String, (∀ device, device ∈ order ↔ device ∈ raw.keys) →
    (order.foldl raw.resolveNext (∅, [])).1 = raw.collapse
  byName : raw.keys.foldl raw.resolveNext (∅, []) = (raw.collapse, raw.inclusionDiagnostics)
  reported : ∀ d, d ∈ raw.inclusionDiagnostics ↔ raw.Misincludes d.device d.anomaly
  /-- At most one report for each device, in the order of the names. -/
  reportsSorted : raw.inclusionDiagnostics.Pairwise fun d e => compare d.device e.device = .lt

variable {raw other : InputTable} {device : String} {m : PortMap}

/-! ### One device -/

theorem get?_collapse (raw : InputTable) (device : String) :
    raw.collapse.get? device = (raw.get? device).map raw.resolve :=
  Table.get?_mapValues ..

theorem resolve_of_base?_eq_none (h : raw.base? m = none) : raw.resolve m = m := by
  rw [base?] at h
  rw [resolve, h]

theorem resolve_of_base?_eq_some {base : PortMap} (h : raw.base? m = some base) :
    raw.resolve m = { m with ports := layer m.ports base.ports } := by
  rw [base?] at h
  rw [resolve, h]

theorem inherits_resolve (raw : InputTable) (m : PortMap) :
    (raw.resolve m).inherits = m.inherits := by
  rw [resolve]
  split <;> rfl

theorem groundedRow_resolve (raw : InputTable) (m : PortMap) :
    (raw.resolve m).groundedRow = m.groundedRow := by
  rw [resolve]
  split <;> rfl

/-- Of its base, a wiring takes the ports only. -/
theorem resolve_congr (h : (raw.base? m).map (·.ports) = (other.base? m).map (·.ports)) :
    raw.resolve m = other.resolve m := by
  cases hb : raw.base? m with
  | none =>
    rw [hb, Option.map_none, eq_comm, Option.map_eq_none_iff] at h
    rw [resolve_of_base?_eq_none hb, resolve_of_base?_eq_none h]
  | some base =>
    rw [hb, Option.map_some, eq_comm, Option.map_eq_some_iff] at h
    obtain ⟨base', hb', hports⟩ := h
    rw [resolve_of_base?_eq_some hb, resolve_of_base?_eq_some hb', hports]

theorem AgreeAt.get?_collapse (h : raw.AgreeAt other device) :
    raw.collapse.get? device = other.collapse.get? device := by
  rw [InputTable.get?_collapse, InputTable.get?_collapse, ← h.own]
  exact Option.map_congr fun m hm => resolve_congr (h.base m hm)

/-! ### One device after the other -/

theorem resolveNext_of_get? (hm : raw.get? device = some m) (done : InputTable × List Diagnostic) :
    raw.resolveNext done device = (done.1.insert device (raw.resolve m),
      done.2 ++ ((raw.inclusionAnomaly? m).map (⟨device, ·⟩)).toList) := by
  rw [resolveNext, hm]

theorem get?_resolveNext (raw : InputTable) (done : InputTable × List Diagnostic)
    (next device : String) :
    (raw.resolveNext done next).1.get? device =
      if device = next then (raw.collapse.get? device).or (done.1.get? device)
      else done.1.get? device := by
  rw [get?_collapse]
  cases hm : raw.get? next with
  | none =>
    have hsame : raw.resolveNext done next = done := by rw [resolveNext, hm]
    rw [hsame]
    split
    next h =>
      rw [h, hm]
      rfl
    · rfl
  | some m =>
    rw [resolveNext_of_get? hm, Table.get?_insert]
    split
    next h =>
      rw [h, hm]
      rfl
    · rfl

/-- However often and in whatever order, each device that is visited gets its own collapsed wiring. -/
theorem get?_foldl_resolveNext (raw : InputTable) (order : List String)
    (done : InputTable × List Diagnostic) (device : String) :
    (order.foldl raw.resolveNext done).1.get? device =
      if device ∈ order then (raw.collapse.get? device).or (done.1.get? device)
      else done.1.get? device := by
  induction order generalizing done with
  | nil => simp
  | cons next order ih =>
    rw [List.foldl_cons, ih, get?_resolveNext]
    by_cases hnext : device = next
    · subst hnext
      cases raw.collapse.get? device <;> simp
    · simp [hnext]

theorem foldl_resolveNext_fst {order : List String}
    (h : ∀ device, device ∈ order ↔ device ∈ raw.keys) :
    (order.foldl raw.resolveNext (∅, [])).1 = raw.collapse := by
  refine Table.ext_get? fun device => ?_
  rw [get?_foldl_resolveNext, Table.get?_empty, Option.or_none]
  split
  · rfl
  next hn =>
    rw [get?_collapse, eq_comm, Option.map_eq_none_iff]
    cases hm : raw.get? device with
    | none => rfl
    | some m => exact absurd ((h device).2 (Table.mem_keys_iff.2 ⟨m, hm⟩)) hn

/-- Reports are added behind those there are, device by device. -/
theorem foldl_resolveNext_snd {entries : List (String × PortMap)}
    (h : ∀ e ∈ entries, raw.get? e.1 = some e.2) (done : InputTable × List Diagnostic) :
    ((entries.map (·.1)).foldl raw.resolveNext done).2 =
      done.2 ++ entries.filterMap fun e => (raw.inclusionAnomaly? e.2).map (⟨e.1, ·⟩) := by
  induction entries generalizing done with
  | nil => simp
  | cons e entries ih =>
    rw [List.forall_mem_cons] at h
    rw [List.map_cons, List.foldl_cons, ih h.2, resolveNext_of_get? h.1, List.filterMap_cons]
    cases ha : raw.inclusionAnomaly? e.2 <;> simp

theorem foldl_resolveNext_keys (raw : InputTable) :
    raw.keys.foldl raw.resolveNext (∅, []) = (raw.collapse, raw.inclusionDiagnostics) := by
  refine Prod.ext (foldl_resolveNext_fst fun _ => Iff.rfl) ?_
  exact foldl_resolveNext_snd (fun e he => Table.get?_eq_some_iff.2 he) _

/-! ### Reports -/

theorem inclusionAnomaly?_eq_some_iff (hm : raw.get? device = some m) {a : Anomaly} :
    raw.inclusionAnomaly? m = some a ↔ raw.Misincludes device a := by
  rw [inclusionAnomaly?, Option.bind_eq_some_iff]
  constructor
  · rintro ⟨target, ht, ha⟩
    split at ha
    next hnone =>
      cases ha
      exact .missing hm ht hnone
    next base hbase =>
      split at ha
      next hnested =>
        cases ha
        exact .nested hm ht hbase (Option.isSome_iff_ne_none.1 hnested)
      · cases ha
  · intro h
    cases h with
    | @missing m' target hm' ht hnone =>
      obtain rfl : m = m' := Option.some.inj (hm.symm.trans hm')
      exact ⟨target, ht, by rw [hnone]⟩
    | @nested m' base target hm' ht hbase hnested =>
      obtain rfl : m = m' := Option.some.inj (hm.symm.trans hm')
      refine ⟨target, ht, ?_⟩
      rw [hbase]
      exact if_pos (Option.isSome_iff_ne_none.2 hnested)

theorem Misincludes.exists_get? {a : Anomaly} (h : raw.Misincludes device a) :
    ∃ m, raw.get? device = some m := by
  cases h with
  | missing hm _ _ => exact ⟨_, hm⟩
  | nested hm _ _ _ => exact ⟨_, hm⟩

theorem mem_inclusionDiagnostics_iff {d : Diagnostic} :
    d ∈ raw.inclusionDiagnostics ↔ raw.Misincludes d.device d.anomaly := by
  constructor
  · intro h
    obtain ⟨e, he, ha⟩ := List.mem_filterMap.1 h
    obtain ⟨a, hanomaly, rfl⟩ := Option.map_eq_some_iff.1 ha
    exact (inclusionAnomaly?_eq_some_iff (Table.get?_eq_some_iff.2 he)).1 hanomaly
  · intro h
    obtain ⟨m, hm⟩ := h.exists_get?
    exact mem_inclusionDiagnostics hm ((inclusionAnomaly?_eq_some_iff hm).2 h)

theorem pairwise_inclusionDiagnostics (raw : InputTable) :
    raw.inclusionDiagnostics.Pairwise fun d e => compare d.device e.device = .lt := by
  refine List.pairwise_filterMap.2 (raw.sorted.imp fun h d hd e he => ?_)
  obtain ⟨a, -, rfl⟩ := Option.map_eq_some_iff.1 hd
  obtain ⟨b, -, rfl⟩ := Option.map_eq_some_iff.1 he
  exact h

/--
A collapse is local: each wiring is the one before over the uncollapsed ports of its base. What is
reported of a device is one missing or one nested inclusion, and nothing where neither is there.
-/
theorem locality_of_collapse (raw : InputTable) : CollapsesLocally raw where
  keys := Table.keys_mapValues ..
  alone device m hm hb := by
    rw [get?_collapse, hm, Option.map_some, resolve_of_base?_eq_none hb]
  merged device m base hm hb := by
    rw [get?_collapse, hm, Option.map_some, resolve_of_base?_eq_some hb]
  onlyBase _ _ h := h.get?_collapse
  anyOrder _ h := foldl_resolveNext_fst h
  byName := foldl_resolveNext_keys raw
  reported _ := mem_inclusionDiagnostics_iff
  reportsSorted := pairwise_inclusionDiagnostics raw

example : InputTable.inclusionDiagnostics
    (Table.ofList [("b", ⟨[], some "c", none⟩), ("a", ⟨[], some "a", none⟩)]) =
      [⟨"a", .nestedInclude "a"⟩, ⟨"b", .missingInclude "c"⟩] := by
  decide

end LcdHandhelds.InputTable
