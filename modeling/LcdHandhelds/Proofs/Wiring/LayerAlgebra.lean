import LcdHandhelds.Proofs.Wiring.Layering

/-!
What a layered list holds, and how layers combine. For any two lists, in any order and with keys
repeated, the result is in key order, has the keys of both, and at each slot the switch of the last
own port of the key, else the first one that is inherited (`eq_layer_iff_isLayered`). On lists in
key order layers form a monoid in which a list that lies on top already adds nothing underneath
(`layerLaws_of_keySorted`).
-/
namespace LcdHandhelds

/-! ### Slots of a stack -/

/-- The switch at one slot; a key that is missing has none. -/
def slotAt (v : Option Slots) (slot : Nat) : Option Switch :=
  v.bind (· slot)

theorem slotAt_atop (u v : Option Slots) (slot : Nat) :
    slotAt (atop u v) slot = (slotAt u slot).or (slotAt v slot) := by
  cases u with
  | none => rfl
  | some u =>
    cases v with
    | none => simp [atop, slotAt]
    | some v => rfl

theorem isSome_atop (u v : Option Slots) : (atop u v).isSome = (u.isSome || v.isSome) := by
  cases u <;> cases v <;> rfl

/-- Of several layers, the first one that sets a slot shows. -/
theorem slotAt_foldl_atop (v : Option Slots) (ports : List Port) (slot : Nat) :
    slotAt ((ports.map fun p => some p.slot?).foldl atop v) slot =
      (slotAt v slot).or (ports.findSome? (·.slot? slot)) := by
  induction ports generalizing v with
  | nil => simp
  | cons p ports ih =>
    rw [List.map_cons, List.foldl_cons, ih, slotAt_atop, Option.or_assoc, List.findSome?_cons]
    congr 1
    cases hp : p.slot? slot <;> simp [slotAt, hp]

theorem isSome_foldl_atop (v : Option Slots) (ports : List Port) :
    ((ports.map fun p => some p.slot?).foldl atop v).isSome = (v.isSome || !ports.isEmpty) := by
  induction ports generalizing v with
  | nil => simp
  | cons p ports ih =>
    rw [List.map_cons, List.foldl_cons, ih, isSome_atop]
    simp

/-! ### The meaning of a list -/

theorem wires_eq_map (ports : List Port) (key : PortKey) :
    wires ports key = (ports.reverse.find? (·.key = key)).map Port.slot? := by
  rw [wires, wiresOf, get?_portTable]

/-- A list wires the keys of its ports. -/
theorem isSome_wires_iff {ports : List Port} {key : PortKey} :
    (wires ports key).isSome ↔ key ∈ ports.map Port.key := by
  rw [wires_eq_map, Option.isSome_map, List.find?_isSome, List.mem_map]
  simp only [List.mem_reverse, decide_eq_true_eq]

theorem KeySorted.wires_of_mem {ports : List Port} (h : KeySorted ports) {p : Port}
    (hp : p ∈ ports) : wires ports p.key = some p.slot? := by
  rw [wires, wiresOf, h.get?_portTable_eq_some_iff.2 ⟨hp, rfl⟩, Option.map_some]

/-- The slot of the last own port of a key, else the first one set among those inherited. -/
def layeredSlot (own inherited : List Port) (key : PortKey) (slot : Nat) : Option Switch :=
  ((own.reverse.find? (·.key = key)).bind (·.slot? slot)).or
    ((inherited.filter (·.key = key)).findSome? (·.slot? slot))

theorem slotAt_wires_layer (own inherited : List Port) (key : PortKey) (slot : Nat) :
    slotAt (wires (layer own inherited) key) slot = layeredSlot own inherited key slot := by
  rw [wires_layer_eq_foldl, slotAt_foldl_atop, wires_eq_map, slotAt, Option.bind_map]
  rfl

theorem mem_keys_layer {own inherited : List Port} {key : PortKey} :
    key ∈ (layer own inherited).map Port.key ↔
      key ∈ own.map Port.key ∨ key ∈ inherited.map Port.key := by
  rw [← isSome_wires_iff, wires_layer_eq_foldl, isSome_foldl_atop, Bool.or_eq_true,
    isSome_wires_iff]
  simp [List.filter_eq_nil_iff]

/-- What it is to be `own` laid over `inherited`, whatever their order. -/
structure IsLayered (own inherited result : List Port) : Prop where
  /-- Every key is there once, in its place. -/
  sorted : KeySorted result
  /-- A key of either list stays, whether anything is wired to it or not. -/
  keys : ∀ key, key ∈ result.map Port.key ↔ key ∈ own.map Port.key ∨ key ∈ inherited.map Port.key
  slots : ∀ p ∈ result, ∀ slot, p.slot? slot = layeredSlot own inherited p.key slot

theorem isLayered_layer (own inherited : List Port) :
    IsLayered own inherited (layer own inherited) where
  sorted := keySorted_layer own inherited
  keys _ := mem_keys_layer
  slots p hp slot := by
    rw [← slotAt_wires_layer, (keySorted_layer own inherited).wires_of_mem hp]
    rfl

/-- The keys and slots leave one list only. -/
theorem IsLayered.subset {own inherited result other : List Port}
    (h : IsLayered own inherited result) (h' : IsLayered own inherited other) :
    result ⊆ other := by
  intro p hp
  have hkey : p.key ∈ other.map Port.key := by
    rw [h'.keys, ← h.keys]
    exact List.mem_map_of_mem hp
  obtain ⟨q, hq, hqp⟩ := List.mem_map.1 hkey
  have hslots : ∀ slot, q.slot? slot = p.slot? slot := by
    intro slot
    rw [h'.slots q hq, h.slots p hp, hqp]
  exact Port.ext_slot? hqp hslots ▸ hq

theorem IsLayered.unique {own inherited result other : List Port}
    (h : IsLayered own inherited result) (h' : IsLayered own inherited other) : result = other :=
  h.sorted.eq_of_mem_iff h'.sorted fun _ => ⟨fun hp => h.subset h' hp, fun hp => h'.subset h hp⟩

/-- Layering is what it means, for lists in any order. -/
theorem eq_layer_iff_isLayered {own inherited result : List Port} :
    result = layer own inherited ↔ IsLayered own inherited result := by
  constructor
  · rintro rfl
    exact isLayered_layer own inherited
  · exact fun h => h.unique (isLayered_layer own inherited)

/-! ### The algebra of lists in key order -/

theorem atop_atop (u v : Option Slots) : atop u (atop u v) = atop u v := by
  rw [← atop_assoc, atop_self]

theorem wires_nil (key : PortKey) : wires [] key = none := rfl

/-- Layers combine as a monoid, and nothing is gained by a layer that lies on top. -/
structure LayerLaws (a b c : List Port) : Prop where
  sorted : KeySorted (layer a b)
  assoc : layer a (layer b c) = layer (layer a b) c
  below : layer (layer a b) a = layer a b
  above : layer a (layer a b) = layer a b
  self : layer a a = a
  nil_left : layer [] a = a
  nil_right : layer a [] = a

theorem layerLaws_of_keySorted {a b c : List Port} (ha : KeySorted a) (hb : KeySorted b)
    (hc : KeySorted c) : LayerLaws a b c where
  sorted := keySorted_layer a b
  assoc := by
    refine (keySorted_layer _ _).eq_of_wires (keySorted_layer _ _) fun key => ?_
    rw [wires_layer a (keySorted_layer b c), wires_layer b hc, wires_layer _ hc, wires_layer a hb,
      atop_assoc]
  below := by
    refine (keySorted_layer _ _).eq_of_wires (keySorted_layer _ _) fun key => ?_
    rw [wires_layer _ ha, wires_layer a hb, atop_atop_self]
  above := by
    refine (keySorted_layer _ _).eq_of_wires (keySorted_layer _ _) fun key => ?_
    rw [wires_layer a (keySorted_layer a b), wires_layer a hb, atop_atop]
  self := by
    refine (keySorted_layer _ _).eq_of_wires ha fun key => ?_
    rw [wires_layer a ha, atop_self]
  nil_left := by
    refine (keySorted_layer _ _).eq_of_wires ha fun key => ?_
    rw [wires_layer [] ha, wires_nil, none_atop]
  nil_right := by
    refine (keySorted_layer _ _).eq_of_wires ha fun key => ?_
    rw [wires_layer a .nil, wires_nil, atop_none]

/-- One switch on a row, and a line with nothing wired to it. -/
def upperBoard : List Port :=
  [.row 0 #v[some ⟨.joyUp, false, none⟩, none, none, none], .line .acl none]

/-- The same row and line with other switches, and a row more. -/
def lowerBoard : List Port :=
  [.row 0 #v[some ⟨.joyDown, false, none⟩, some ⟨.joyLeft, false, none⟩, none, none],
    .row 2 #v[none, none, none, some ⟨.select, true, none⟩],
    .line .acl (some ⟨.service1, true, none⟩)]

/-- The first switch of the row is the upper one, the second shows through, the line is filled. -/
theorem layerLaws_boards :
    KeySorted upperBoard ∧ KeySorted lowerBoard ∧
      layer upperBoard lowerBoard =
        [.row 0 #v[some ⟨.joyUp, false, none⟩, some ⟨.joyLeft, false, none⟩, none, none],
          .row 2 #v[none, none, none, some ⟨.select, true, none⟩],
          .line .acl (some ⟨.service1, true, none⟩)] ∧
      layer lowerBoard upperBoard ≠ layer upperBoard lowerBoard ∧
      LayerLaws upperBoard lowerBoard [.line .b none] := by
  have hupper : KeySorted upperBoard := by decide
  have hlower : KeySorted lowerBoard := by decide
  exact ⟨hupper, hlower, by decide +kernel, by decide +kernel,
    layerLaws_of_keySorted hupper hlower (by decide)⟩

end LcdHandhelds
