import LcdHandhelds.Proofs.Table
import LcdHandhelds.Proofs.Wiring.PortList

/-!
Layers of port lists, seen slot by slot. `wires` reads a list as the slots under each key; there
`layer` is `atop`, by which a set slot hides the one below. `atop` is associative, and a layer that
was put underneath before adds nothing (`atop_atop_self`), and lists in key order are determined by
what they wire (`KeySorted.eq_of_wires`).
-/
namespace LcdHandhelds

/-- The switch at each slot of a port. -/
abbrev Slots : Type := Nat → Option Switch

/-- The slots of one key, laid over others of that key; either may be missing. -/
def atop : Option Slots → Option Slots → Option Slots
  | none, below => below
  | some above, none => some above
  | some above, some below => some fun slot => (above slot).or (below slot)

@[simp] theorem none_atop (v : Option Slots) : atop none v = v := rfl

@[simp] theorem atop_none (v : Option Slots) : atop v none = v := by
  cases v <;> rfl

theorem atop_assoc (u v w : Option Slots) : atop (atop u v) w = atop u (atop v w) := by
  cases u with
  | none => rfl
  | some u =>
    cases v with
    | none => rfl
    | some v =>
      cases w with
      | none => rfl
      | some w => simp [atop, Option.or_assoc]

/-- What lies on top shows through nowhere when it is put underneath again. -/
theorem atop_atop_self (u v : Option Slots) : atop (atop u v) u = atop u v := by
  cases u with
  | none => cases v <;> rfl
  | some u =>
    cases v with
    | none =>
      simp only [atop, Option.some.injEq]
      funext slot
      cases u slot <;> rfl
    | some v =>
      simp only [atop, Option.some.injEq]
      funext slot
      cases u slot <;> cases v slot <;> rfl

theorem atop_self (v : Option Slots) : atop v v = v := by
  simpa using atop_atop_self v none

theorem foldl_atop (v : Option Slots) (l : List (Option Slots)) :
    l.foldl atop v = atop v (l.foldl atop none) := by
  induction l generalizing v with
  | nil => simp
  | cons w l ih => rw [List.foldl_cons, ih, List.foldl_cons, ih (atop none w), none_atop, atop_assoc]

/-- Layers that lie above already add nothing. -/
theorem foldl_atop_of_subset (v : Option Slots) (l r : List (Option Slots))
    (h : ∀ w ∈ r, w ∈ v :: l) : r.foldl atop (l.foldl atop v) = l.foldl atop v := by
  have habsorb : ∀ w ∈ v :: l, atop (l.foldl atop v) w = l.foldl atop v := by
    intro w hw
    rcases List.mem_cons.1 hw with rfl | hw
    · rw [foldl_atop, atop_atop_self]
    · obtain ⟨s, t, rfl⟩ := List.append_of_mem hw
      have hsplit : (s ++ w :: t).foldl atop v =
          atop (s.foldl atop v) (atop w (t.foldl atop none)) := by
        rw [List.foldl_append, List.foldl_cons, foldl_atop, atop_assoc]
      rw [hsplit, atop_assoc, atop_atop_self]
  induction r with
  | nil => rfl
  | cons w r ih =>
    rw [List.foldl_cons, habsorb w (h w List.mem_cons_self)]
    exact ih fun x hx => h x (List.mem_cons_of_mem _ hx)

/-- A stack over a longer stack that starts with its layers is the longer one. -/
theorem foldl_atop_foldl_atop (v : Option Slots) (l r : List (Option Slots)) :
    atop (l.foldl atop v) ((l ++ r).foldl atop none) = (l ++ r).foldl atop v := by
  rw [List.foldl_append, List.foldl_append, foldl_atop (l.foldl atop none), foldl_atop v,
    foldl_atop (atop v _), atop_assoc, ← atop_assoc (l.foldl atop none), atop_self, ← atop_assoc]

/-! ### Ports by key -/

theorem Port.slot?_fillFrom {p q : Port} (h : p.key = q.key) (slot : Nat) :
    (p.fillFrom q).slot? slot = (p.slot? slot).or (q.slot? slot) := by
  rw [Port.slot?_fillFrom_eq, if_pos (PortKey.filledBy_iff.2 (.inl h.symm))]

/-- Of ports with one key, the last counts. -/
theorem get?_portTable (ports : List Port) (key : PortKey) :
    (portTable ports).get? key = ports.reverse.find? (·.key = key) := by
  rw [portTable, Table.get?_ofList, ← List.map_reverse, List.find?_map, Option.map_map]
  simp [Function.comp_def]

/-- Every port stands under its own key. -/
def Keyed (t : Table PortKey Port) : Prop :=
  ∀ key p, t.get? key = some p → p.key = key

theorem keyed_portTable (ports : List Port) : Keyed (portTable ports) := by
  intro key p h
  rw [get?_portTable] at h
  simpa using List.find?_some h

theorem get?_underlay (t : Table PortKey Port) (p : Port) (key : PortKey) :
    (underlay t p).get? key =
      if key = p.key then some (((t.get? key).map (·.fillFrom p)).getD p) else t.get? key := by
  rw [underlay, Table.get?_alter]
  by_cases hk : key = p.key
  · subst hk
    cases t.get? p.key <;> simp
  · simp [hk]

theorem Keyed.underlay {t : Table PortKey Port} (h : Keyed t) (p : Port) :
    Keyed (underlay t p) := by
  intro key q hq
  rw [get?_underlay] at hq
  split at hq
  · rename_i hk
    cases ht : t.get? key with
    | none =>
      obtain rfl : p = q := by simpa [ht] using hq
      exact hk.symm
    | some r =>
      obtain rfl : r.fillFrom p = q := by simpa [ht] using hq
      rw [Port.key_fillFrom, h key r ht]
  · exact h key q hq

theorem keyed_foldl_underlay {t : Table PortKey Port} (h : Keyed t) (ports : List Port) :
    Keyed (ports.foldl underlay t) := by
  induction ports generalizing t with
  | nil => exact h
  | cons p ports ih => exact ih (h.underlay p)

namespace Keyed

variable {t : Table PortKey Port}

theorem mem_values_iff (h : Keyed t) {p : Port} : p ∈ t.values ↔ t.get? p.key = some p := by
  rw [Table.mem_values_iff]
  constructor
  · rintro ⟨key, hk⟩
    rw [h key p hk]
    exact hk
  · intro hp
    exact ⟨p.key, hp⟩

theorem keySorted_values (h : Keyed t) : KeySorted t.values := by
  refine List.pairwise_map.2 (t.sorted.imp_of_mem fun {a b} ha hb hab => ?_)
  have hkey : ∀ e ∈ t.entries, e.2.key = e.1 := fun e he =>
    h e.1 e.2 (Table.get?_eq_some_iff.2 he)
  rw [Port.Before, hkey a ha, hkey b hb]
  exact hab

end Keyed

namespace KeySorted

variable {ports : List Port}

theorem get?_portTable_eq_some_iff (h : KeySorted ports) {key : PortKey} {p : Port} :
    (portTable ports).get? key = some p ↔ p ∈ ports ∧ p.key = key := by
  have hn : (ports.reverse.map Port.key).Nodup := by
    rw [List.map_reverse, List.nodup_reverse]
    exact h.nodup_keys
  rw [get?_portTable, Port.find?_key_eq_some_iff hn, List.mem_reverse]

/-- A list in key order has at most one port of a key. -/
theorem filter_key (h : KeySorted ports) (key : PortKey) :
    ports.filter (·.key = key) = ((portTable ports).get? key).toList := by
  refine KeySorted.eq_of_mem_iff (List.Pairwise.filter _ h) ?_ fun p => ?_
  · cases (portTable ports).get? key <;> simp [KeySorted]
  · rw [Option.mem_toList, h.get?_portTable_eq_some_iff, List.mem_filter, decide_eq_true_eq]

end KeySorted

/-! ### What a list wires -/

/-- The slots under a key of a table of ports. -/
def wiresOf (t : Table PortKey Port) (key : PortKey) : Option Slots :=
  (t.get? key).map Port.slot?

/-- The slots under a key of a port list. -/
def wires (ports : List Port) (key : PortKey) : Option Slots :=
  wiresOf (portTable ports) key

theorem wiresOf_underlay {t : Table PortKey Port} (h : Keyed t) (p : Port) (key : PortKey) :
    wiresOf (underlay t p) key =
      if key = p.key then atop (wiresOf t key) (some p.slot?) else wiresOf t key := by
  rw [wiresOf, get?_underlay]
  by_cases hk : key = p.key
  · rw [if_pos hk, if_pos hk, wiresOf]
    cases ht : t.get? key with
    | none => rfl
    | some q =>
      have hq : q.key = p.key := (h key q ht).trans hk
      simp only [Option.map_some, Option.getD_some, atop, Option.some.injEq]
      funext slot
      exact Port.slot?_fillFrom hq slot
  · rw [if_neg hk, if_neg hk, wiresOf]

/-- The ports of a key are put underneath in their order. -/
theorem wiresOf_foldl_underlay {t : Table PortKey Port} (h : Keyed t) (ports : List Port)
    (key : PortKey) :
    wiresOf (ports.foldl underlay t) key =
      ((ports.filter (·.key = key)).map fun p => some p.slot?).foldl atop (wiresOf t key) := by
  induction ports generalizing t with
  | nil => rfl
  | cons p ports ih =>
    rw [List.foldl_cons, ih (h.underlay p), wiresOf_underlay h]
    by_cases hk : key = p.key
    · simp [hk]
    · have hne : ¬ p.key = key := fun e => hk e.symm
      simp [hk, hne]

theorem portTable_values {t : Table PortKey Port} (h : Keyed t) : portTable t.values = t := by
  refine Table.ext_get? fun key => Option.ext fun p => ?_
  rw [h.keySorted_values.get?_portTable_eq_some_iff, h.mem_values_iff]
  constructor
  · rintro ⟨hp, rfl⟩
    exact hp
  · intro hp
    obtain rfl := h key p hp
    exact ⟨hp, rfl⟩

theorem keySorted_layer (own inherited : List Port) : KeySorted (layer own inherited) :=
  (keyed_foldl_underlay (keyed_portTable own) inherited).keySorted_values

/-- Slot by slot, the inherited ports of a key lie under the last own one in their order. -/
theorem wires_layer_eq_foldl (own inherited : List Port) (key : PortKey) :
    wires (layer own inherited) key =
      ((inherited.filter (·.key = key)).map fun p => some p.slot?).foldl atop (wires own key) := by
  rw [wires, layer, portTable_values (keyed_foldl_underlay (keyed_portTable own) inherited),
    wiresOf_foldl_underlay (keyed_portTable own)]
  rfl

theorem wires_layer {inherited : List Port} (own : List Port) (h : KeySorted inherited)
    (key : PortKey) :
    wires (layer own inherited) key = atop (wires own key) (wires inherited key) := by
  rw [wires_layer_eq_foldl, h.filter_key, wires, wires, wiresOf, wiresOf]
  cases (portTable inherited).get? key <;> simp

namespace KeySorted

variable {ports others : List Port}

theorem subset_of_wires (h : KeySorted ports) (h' : KeySorted others)
    (hw : ∀ key, wires ports key = wires others key) : ports ⊆ others := by
  intro p hp
  have hown : (portTable ports).get? p.key = some p := h.get?_portTable_eq_some_iff.2 ⟨hp, rfl⟩
  have hmap := hw p.key
  rw [wires, wiresOf, hown, wires, wiresOf] at hmap
  obtain ⟨q, hq, hs⟩ := Option.map_eq_some_iff.1 hmap.symm
  obtain ⟨hqm, hk⟩ := h'.get?_portTable_eq_some_iff.1 hq
  have hqp : q = p := Port.ext_slot? hk fun i => congrFun hs i
  rw [← hqp]
  exact hqm

/-- Lists in key order that wire the same are the same. -/
theorem eq_of_wires (h : KeySorted ports) (h' : KeySorted others)
    (hw : ∀ key, wires ports key = wires others key) : ports = others :=
  h.eq_of_mem_iff h' fun _ =>
    ⟨fun hp => h.subset_of_wires h' hw hp,
      fun hp => h'.subset_of_wires h (fun key => (hw key).symm) hp⟩

end KeySorted

/-! ### Stacks of lists -/

theorem keySorted_foldl_layer {own : List Port} (h : KeySorted own) (stack : List (List Port)) :
    KeySorted (stack.foldl layer own) := by
  induction stack generalizing own with
  | nil => exact h
  | cons ports stack ih => exact ih (keySorted_layer own ports)

theorem wires_foldl_layer (own : List Port) {stack : List (List Port)}
    (h : ∀ ports ∈ stack, KeySorted ports) (key : PortKey) :
    wires (stack.foldl layer own) key = (stack.map (wires · key)).foldl atop (wires own key) := by
  induction stack generalizing own with
  | nil => rfl
  | cons ports stack ih =>
    rw [List.foldl_cons, ih _ fun l hl => h l (List.mem_cons_of_mem _ hl),
      wires_layer own (h ports List.mem_cons_self)]
    rfl

end LcdHandhelds
