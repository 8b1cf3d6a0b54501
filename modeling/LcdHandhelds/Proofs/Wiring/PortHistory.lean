import LcdHandhelds.Proofs.Wiring.PortList

/-!
What becomes of a port while switches are wired to it and its free slots are filled, in any order.
A change acts on each slot by itself (`PortChange.slot?_apply`), and after any number of them a slot
has the last switch that was wired to it, or else the first that it had or was offered
(`Port.slot?_after`). A row takes what it is offered from rows of any index:
`not_forall_fillFrom_of_key_ne`.
-/
namespace LcdHandhelds

/-- A change to a port. -/
inductive PortChange where
  | wire (number : Nat) (switch : Switch)
  | fill (other : Port)
  deriving DecidableEq, Repr

namespace PortChange

def apply (p : Port) : PortChange → Port
  | wire number switch => p.setSlot number switch
  | fill other => p.fillFrom other

/-- The switch that goes to a slot, whatever is there. -/
def wired? (key : PortKey) (slot : Nat) : PortChange → Option Switch
  | wire number switch => if key.addresses number slot then some switch else none
  | fill _ => none

/-- The switch that goes to a slot if it is free. -/
def offered? (key : PortKey) (slot : Nat) : PortChange → Option Switch
  | wire _ _ => none
  | fill other => if key.filledBy other.key then other.slot? slot else none

@[simp] theorem key_apply (p : Port) (c : PortChange) : (c.apply p).key = p.key := by
  cases c with
  | wire number switch => exact Port.key_setSlot p number switch
  | fill other => exact Port.key_fillFrom p other

/-- A change acts on each slot by itself. -/
theorem slot?_apply (p : Port) (c : PortChange) (slot : Nat) :
    (c.apply p).slot? slot =
      (c.wired? p.key slot).or ((p.slot? slot).or (c.offered? p.key slot)) := by
  cases c with
  | wire number switch =>
    rw [apply, Port.slot?_setSlot_eq, wired?, offered?, Option.or_none]
    split <;> rfl
  | fill other => exact Port.slot?_fillFrom_eq p other slot

theorem wired?_eq_none_iff {key : PortKey} {slot : Nat} {c : PortChange} :
    c.wired? key slot = none ↔ ∀ number switch, c = wire number switch →
      ¬ key.addresses number slot := by
  cases c <;> simp [wired?]

end PortChange

namespace Port

/-- A port after changes, in their order. -/
def after (p : Port) (changes : List PortChange) : Port :=
  changes.foldl PortChange.apply p

@[simp] theorem key_after (p : Port) (changes : List PortChange) :
    (p.after changes).key = p.key := by
  induction changes generalizing p with
  | nil => rfl
  | cons c changes ih => exact (ih (c.apply p)).trans (PortChange.key_apply p c)

/-- A slot has the last switch that was wired to it, or else the first it had or was offered. -/
theorem slot?_after (p : Port) (changes : List PortChange) (slot : Nat) :
    (p.after changes).slot? slot =
      (changes.reverse.findSome? (·.wired? p.key slot)).or
        ((p.slot? slot).or (changes.findSome? (·.offered? p.key slot))) := by
  induction changes generalizing p with
  | nil => simp [after]
  | cons c changes ih =>
    have hfirst : p.after (c :: changes) = (c.apply p).after changes := rfl
    rw [hfirst, ih, PortChange.key_apply, PortChange.slot?_apply, List.reverse_cons,
      List.findSome?_append, List.findSome?_cons, List.findSome?_nil, List.findSome?_cons]
    cases c.wired? p.key slot <;> cases c.offered? p.key slot <;> simp

/-- A port stays as it is if it takes nothing from the other one, or that has nothing for it. -/
theorem fillFrom_eq_self_iff {p other : Port} :
    p.fillFrom other = p ↔
      (p.key.filledBy other.key → ∀ slot, p.slot? slot = none → other.slot? slot = none) := by
  have hslots : p.fillFrom other = p ↔ ∀ slot, (p.fillFrom other).slot? slot = p.slot? slot :=
    ⟨fun h slot => by rw [h], Port.ext_slot? (Port.key_fillFrom p other)⟩
  simp only [hslots, Port.slot?_fillFrom_eq]
  by_cases hkey : p.key.filledBy other.key
  · simp only [hkey, if_true, forall_const]
    refine forall_congr' fun slot => ?_
    cases p.slot? slot <;> simp
  · simp [hkey]

end Port

/-- What becomes of a port by changes, and by one change more. -/
structure PortHistory (p : Port) (changes : List PortChange) : Prop where
  key : (p.after changes).key = p.key
  slot : ∀ slot, (p.after changes).slot? slot =
    (changes.reverse.findSome? (·.wired? p.key slot)).or
      ((p.slot? slot).or (changes.findSome? (·.offered? p.key slot)))
  /-- A slot that is set is changed only by a switch that is wired to it. -/
  kept : ∀ slot switch, p.slot? slot = some switch →
    (∀ number other, .wire number other ∈ changes → ¬ p.key.addresses number slot) →
      (p.after changes).slot? slot = some switch
  wired : ∀ number switch slot, ((p.after changes).setSlot number switch).slot? slot =
    if p.key.addresses number slot then some switch else (p.after changes).slot? slot
  /-- A row has no slot from the fourth on. -/
  beyond : ∀ index, p.key = .row index → ∀ number switch, 4 ≤ number →
    (p.after changes).setSlot number switch = p.after changes
  /-- The free slots, and no others, are filled from a port of the same key. -/
  filled : ∀ other, other.key = p.key → ∀ slot, ((p.after changes).fillFrom other).slot? slot =
    ((p.after changes).slot? slot).or (other.slot? slot)
  /-- The index of a row does not count: a row is filled from each row in the same way. -/
  filledByRow : ∀ i j others, p.key = .row i →
    (p.after changes).fillFrom (.row j others) = (p.after changes).fillFrom (.row i others)
  /-- A port of another key changes nothing, unless both are rows and a free slot is wired there. -/
  unfilled : ∀ other, other.key ≠ p.key →
    ((p.after changes).fillFrom other = p.after changes ↔
      ∀ i j, p.key = .row i → other.key = .row j → ∀ slot, (p.after changes).slot? slot = none →
        other.slot? slot = none)

/-- Free slots are filled and set ones are kept, whatever is wired and filled in any order. -/
theorem portHistory_after (p : Port) (changes : List PortChange) : PortHistory p changes where
  key := p.key_after changes
  slot := p.slot?_after changes
  kept slot switch hslot hother := by
    have hwired : changes.reverse.findSome? (·.wired? p.key slot) = none := by
      rw [List.findSome?_eq_none_iff]
      intro c hc
      refine PortChange.wired?_eq_none_iff.2 fun number other hchange => ?_
      exact hother number other (hchange ▸ List.mem_reverse.1 hc)
    rw [Port.slot?_after, hwired, hslot]
    rfl
  wired number switch slot := by rw [Port.slot?_setSlot_eq, Port.key_after]
  beyond index hkey number switch hnumber := by
    refine Port.ext_slot? (Port.key_setSlot _ _ _) fun slot => ?_
    rw [Port.slot?_setSlot_eq, Port.key_after, hkey]
    simp [PortKey.addresses, Nat.not_lt.2 hnumber]
  filled other hkey slot := by
    rw [Port.slot?_fillFrom_eq, Port.key_after, if_pos (PortKey.filledBy_iff.2 (.inl hkey))]
  filledByRow i j others hkey := by
    refine Port.ext_slot? (by simp) fun slot => ?_
    rw [Port.slot?_fillFrom_eq, Port.slot?_fillFrom_eq, Port.key_after, hkey]
    rfl
  unfilled other hkey := by
    rw [Port.fillFrom_eq_self_iff, Port.key_after, PortKey.filledBy_iff, or_iff_right hkey]
    constructor
    · exact fun h i j hi hj => h ⟨⟨i, hi⟩, j, hj⟩
    · rintro h ⟨⟨i, hi⟩, j, hj⟩
      exact h i j hi hj

/-- A row is filled from another row. -/
theorem not_forall_fillFrom_of_key_ne :
    ¬ ∀ (p other : Port), other.key ≠ p.key → p.fillFrom other = p := by
  intro h
  exact absurd (h (.empty (.row 0)) (.row 1 #v[some ⟨.button1, false, none⟩, none, none, none])
    (by decide)) (by decide +kernel)

end LcdHandhelds
