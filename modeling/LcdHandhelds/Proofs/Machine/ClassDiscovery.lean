import Mathlib.Data.List.Pairwise
import LcdHandhelds.Proofs.Machine.Declaration

/-!
Which driver classes are found, and which declarations count as theirs. A scan gives the classes that
stand in a source and do not begin inside of one that it gives, in order and apart from each other,
and each class has the devices of the declarations that lie in its body: `found_scan`. Whether a word
is whole makes no difference between a body and its source, since a colon stands in front of the body
and a brace behind it.
-/
namespace LcdHandhelds

open Text

/-! ### Classes and declarations in a source -/

namespace DriverClass

/--
The class stands in the source behind `before`. Its name comes after the word `class`, a colon after
that, and then its body, which the first `};` ends.
-/
structure Placed (source before head rest : List Char) (c : DriverClass) : Prop where
  text_eq : source = before ++ ("class".toList ++ head ++ c.body) ++ ("\x7d;".toList ++ rest)
  start_eq : c.start = before.length
  stop_eq : c.stop = (before ++ ("class".toList ++ head ++ c.body)).length
  ended : Ended before
  head : IsHead c.name.toList head
  free : ¬ "\x7d;".toList <:+: c.body

/-- The class stands somewhere in the source. -/
def StandsIn (source : List Char) (c : DriverClass) : Prop :=
  ∃ before head rest, c.Placed source before head rest

/-- The place where the body begins, behind the colon. -/
def opening (c : DriverClass) : Nat :=
  c.stop - c.body.length

/--
At the place, where no identifier is open in the source, begins a declaration for the device, and all
of it lies in the body of the class.
-/
def DeclaresAt (source : List Char) (c : DriverClass) (place : Nat) (device : String) : Prop :=
  ∃ before declaration rest, source = before ++ (declaration ++ rest) ∧ before.length = place ∧
    Ended before ∧ Declares device declaration ∧
      c.opening ≤ place ∧ place + declaration.length ≤ c.stop

/-- What a scan finds of a source. -/
structure Found (source : List Char) : Prop where
  /-- A class is missed only if it begins inside of an earlier one that is found. -/
  mem_iff : ∀ c, c ∈ scan source ↔
    c.StandsIn source ∧ ∀ d ∈ scan source, d.start < c.start → d.stop ≤ c.start
  /-- A class begins behind the `};` of the one before it. -/
  apart : (scan source).Pairwise fun c d => c.stop + "\x7d;".toList.length ≤ d.start
  /-- The devices are those of the declarations in the body, one for each, in their order. -/
  devices : ∀ c ∈ scan source, ∃ found : List (Nat × String),
    c.devices = found.map Prod.snd ∧ found.Pairwise (fun p q => p.1 < q.1) ∧
      ∀ place device, (place, device) ∈ found ↔ c.DeclaresAt source place device
  /-- No declaration counts twice. -/
  once : ∀ c ∈ scan source, ∀ d ∈ scan source, ∀ place device device',
    c.DeclaresAt source place device → d.DeclaresAt source place device' →
      c = d ∧ device = device'

/-! ### The class at an occurrence -/

section Placed

variable {source before head rest : List Char} {c : DriverClass}

theorem Placed.start_lt_stop (h : c.Placed source before head rest) : c.start < c.stop := by
  rw [h.start_eq, h.stop_eq, List.length_append]
  have hclass : "class".toList.length = 5 := rfl
  simp only [List.length_append, hclass]
  omega

theorem ofOccurrence?_eq_some_iff {o : Occurrence}
    (htext : source = before ++ ("class".toList ++ o.after)) (hplace : o.place = before.length)
    (hended : Ended before) :
    ofOccurrence? source.length o = some c ↔ ∃ head rest, c.Placed source before head rest := by
  have hmark : "\x7d;".toList = ['\x7d', ';'] := rfl
  have hcut (text body rest : List Char) :=
    @splitBefore?_eq_some_iff '\x7d' [';'] text body rest (by decide)
  rw [ofOccurrence?_eq, Option.bind_eq_some_iff]
  simp only [Option.map_eq_some_iff, Prod.exists, className?_eq_some_iff, hcut]
  constructor
  · rintro ⟨name, text, ⟨head, hhead, hafter⟩, body, rest, ⟨rfl, ⟨rest, rfl⟩, hfree⟩, rfl⟩
    refine ⟨head, rest, ?_, hplace, ?_, hended, ?_, hfree⟩
    · rw [htext, hafter, hmark]
      simp only [List.append_assoc]
    · rw [htext, hafter]
      simp only [List.length_append]
      omega
    · rwa [String.toList_ofList]
  · rintro ⟨head, rest, hc⟩
    have hafter : o.after = head ++ (c.body ++ (['\x7d', ';'] ++ rest)) := by
      have h := htext.symm.trans hc.text_eq
      simp only [List.append_assoc, List.append_cancel_left_eq] at h
      exact h
    refine ⟨c.name.toList, _, ⟨head, hc.head, hafter⟩, c.body, _, ⟨rfl, ⟨rest, rfl⟩, hc.free⟩, ?_⟩
    have hsize : source.length - (['\x7d', ';'] ++ rest).length = c.stop := by
      rw [hc.stop_eq, hc.text_eq, hmark, List.length_append, Nat.add_sub_cancel]
    rw [hsize, hplace, ← hc.start_eq, String.ofList_toList]

/-- The classes that stand in a source are those at the occurrences of `class`. -/
theorem exists_occurrence_iff :
    (∃ o ∈ occurrences "class" source, ofOccurrence? source.length o = some c) ↔
      c.StandsIn source := by
  have hclass : ∀ {o : Occurrence}, o ∈ occurrences "class" source ↔ _ :=
    mem_occurrences_iff (by decide) (by decide)
  constructor
  · rintro ⟨o, ho, hc⟩
    obtain ⟨before, htext, hplace, hended, -⟩ := hclass.1 ho
    exact ⟨before, (ofOccurrence?_eq_some_iff htext hplace hended).1 hc⟩
  · rintro ⟨before, head, rest, hc⟩
    obtain ⟨gap, gap', hhead, ⟨hne, hgap⟩, -⟩ := hc.head.spaced
    let o : Occurrence := ⟨before.length, head ++ (c.body ++ ("\x7d;".toList ++ rest))⟩
    have htext : source = before ++ ("class".toList ++ o.after) := by
      rw [hc.text_eq]
      simp only [o, List.append_assoc]
    have hends : endsWord o.after := by
      simp only [o, hhead, List.append_assoc]
      exact endsWord_gap hne hgap _
    exact ⟨o, hclass.2 ⟨before, htext, rfl, hc.ended, hends⟩,
      (ofOccurrence?_eq_some_iff htext rfl hc.ended).2 ⟨head, rest, hc⟩⟩

theorem start_of_ofOccurrence? {size : Nat} {o : Occurrence} (h : ofOccurrence? size o = some c) :
    c.start = o.place := by
  rw [ofOccurrence?_eq] at h
  obtain ⟨p, -, h⟩ := Option.bind_eq_some_iff.1 h
  obtain ⟨q, -, rfl⟩ := Option.map_eq_some_iff.1 h
  rfl

end Placed

/-! ### The scan -/

section Scan

variable {size resume : Nat} {found : List Occurrence} {c : DriverClass}

/-- The class at an occurrence ends behind the place of the occurrence. -/
def Forward (size : Nat) (found : List Occurrence) : Prop :=
  ∀ o ∈ found, ∀ c, ofOccurrence? size o = some c → c.start < c.stop

theorem resume_le_of_mem_scanFrom (hforward : Forward size found)
    (h : c ∈ scanFrom size resume found) : resume ≤ c.start := by
  induction found generalizing resume with
  | nil => exact absurd h List.not_mem_nil
  | cons o found ih =>
    obtain ⟨hfirst, hrest⟩ := List.forall_mem_cons.1 hforward
    rw [scanFrom] at h
    split at h
    · exact ih hrest h
    next hresume =>
      split at h
      next d hd =>
        have hstart := start_of_ofOccurrence? hd
        rcases List.mem_cons.1 h with rfl | h
        · omega
        · have hlt := hfirst d hd
          have hle := ih hrest h
          omega
      · exact ih hrest h

/-- A class does not begin before the one before it has ended. -/
theorem pairwise_scanFrom (hforward : Forward size found) (resume : Nat) :
    (scanFrom size resume found).Pairwise fun c d => c.stop ≤ d.start := by
  induction found generalizing resume with
  | nil => exact .nil
  | cons o found ih =>
    obtain ⟨-, hrest⟩ := List.forall_mem_cons.1 hforward
    rw [scanFrom]
    split
    · exact ih hrest resume
    · split
      next d hd =>
        exact List.pairwise_cons.2 ⟨fun e he => resume_le_of_mem_scanFrom hrest he, ih hrest d.stop⟩
      · exact ih hrest resume

/-- The class at an occurrence is found, or a class that is found reaches over its start. -/
theorem mem_scanFrom_or (hforward : Forward size found)
    (hsorted : found.Pairwise fun o o' => o.place < o'.place) {o : Occurrence} (ho : o ∈ found)
    (hresume : resume ≤ o.place) (hc : ofOccurrence? size o = some c) :
    c ∈ scanFrom size resume found ∨
      ∃ d ∈ scanFrom size resume found, d.start < c.start ∧ c.start < d.stop := by
  induction found generalizing resume with
  | nil => exact absurd ho List.not_mem_nil
  | cons o' found ih =>
    obtain ⟨-, hrest⟩ := List.forall_mem_cons.1 hforward
    obtain ⟨hfirst, hsorted⟩ := List.pairwise_cons.1 hsorted
    rw [scanFrom]
    split
    next hlt =>
      rcases List.mem_cons.1 ho with rfl | ho
      · omega
      · exact ih hrest hsorted ho hresume
    · split
      next d hd =>
        rcases List.mem_cons.1 ho with rfl | ho
        · obtain rfl := Option.some.inj (hd.symm.trans hc)
          exact .inl List.mem_cons_self
        · rcases Nat.lt_or_ge o.place d.stop with hover | hbehind
          · have hstart := start_of_ofOccurrence? hc
            have hstart' := start_of_ofOccurrence? hd
            have hplace := hfirst o ho
            exact .inr ⟨d, List.mem_cons_self, by omega, by omega⟩
          · refine (ih hrest hsorted ho hbehind).imp (List.mem_cons_of_mem _) ?_
            rintro ⟨e, he, hover⟩
            exact ⟨e, List.mem_cons_of_mem _ he, hover⟩
      next hnone =>
        rcases List.mem_cons.1 ho with rfl | ho
        · exact absurd (hnone.symm.trans hc) (Option.some_ne_none c).symm
        · exact ih hrest hsorted ho hresume

end Scan

section Source

variable {source : List Char} {c d : DriverClass}

theorem standsIn_of_mem_scan (h : c ∈ scan source) : c.StandsIn source :=
  exists_occurrence_iff.1 (of_mem_scanFrom h)

theorem forward_occurrences (source : List Char) :
    Forward source.length (occurrences "class" source) := fun o ho _ hc =>
  let ⟨_, _, _, h⟩ := exists_occurrence_iff.1 ⟨o, ho, hc⟩
  h.start_lt_stop

theorem start_lt_stop_of_mem_scan (h : c ∈ scan source) : c.start < c.stop :=
  let ⟨_, _, _, hc⟩ := standsIn_of_mem_scan h
  hc.start_lt_stop

theorem pairwise_scan (source : List Char) :
    (scan source).Pairwise fun c d => c.stop ≤ d.start :=
  pairwise_scanFrom (forward_occurrences source) 0

/-- Of two classes that are found, one ends before the other begins. -/
theorem apart_of_mem_scan (hc : c ∈ scan source) (hd : d ∈ scan source) (hne : c ≠ d) :
    c.stop ≤ d.start ∨ d.stop ≤ c.start := by
  have : Std.Symm fun c d : DriverClass => c.stop ≤ d.start ∨ d.stop ≤ c.start :=
    ⟨fun _ _ h => h.symm⟩
  have hpairs : (scan source).Pairwise fun c d => c.stop ≤ d.start ∨ d.stop ≤ c.start :=
    (pairwise_scan source).imp .inl
  exact hpairs.forall hc hd hne

theorem mem_scan_iff :
    c ∈ scan source ↔
      c.StandsIn source ∧ ∀ d ∈ scan source, d.start < c.start → d.stop ≤ c.start := by
  constructor
  · intro hc
    refine ⟨standsIn_of_mem_scan hc, fun d hd hlt => ?_⟩
    have hc' := start_lt_stop_of_mem_scan hc
    rcases apart_of_mem_scan hd hc (fun h => by rw [h] at hlt; omega) with h | h
    · exact h
    · omega
  · rintro ⟨hstands, hfree⟩
    obtain ⟨o, ho, hc⟩ := exists_occurrence_iff.2 hstands
    rcases mem_scanFrom_or (forward_occurrences source) (pairwise_occurrences (by decide) source)
      ho (Nat.zero_le _) hc with hmem | ⟨d, hd, hlt, hover⟩
    · exact hmem
    · have hle := hfree d hd hlt
      omega

/-- A class does not begin within the mark that ends another one. -/
theorem stop_add_le (hc : c.StandsIn source) (hd : d.StandsIn source) (h : c.stop ≤ d.start) :
    c.stop + "\x7d;".toList.length ≤ d.start := by
  obtain ⟨before, head, rest, hc⟩ := hc
  obtain ⟨before', head', rest', hd⟩ := hd
  have htext := hc.text_eq.symm.trans hd.text_eq
  rw [List.append_assoc before'] at htext
  rw [hc.stop_eq, hd.start_eq] at h ⊢
  generalize before ++ ("class".toList ++ head ++ c.body) = front at htext h ⊢
  obtain ⟨middle, rfl, hmiddle⟩ := exists_middle_of_append_eq htext h
  rw [List.length_append, Nat.add_le_add_iff_left]
  match middle, hmiddle with
  | [], hmiddle => exact absurd (List.cons.inj hmiddle).1 (by decide)
  | [_], hmiddle => exact absurd (List.cons.inj (List.cons.inj hmiddle).2).1 (by decide)
  | _ :: _ :: middle, _ =>
    have hmark : "\x7d;".toList.length = 2 := rfl
    simp only [hmark, List.length_cons]
    omega

end Source

/-! ### Devices -/

section Devices

variable {source before head rest : List Char} {c : DriverClass}

/-- The declarations of the body, with their places in the source. -/
def declared (c : DriverClass) : List (Nat × String) :=
  (occurrences "void" c.body).filterMap fun o =>
    (declaredDevice? o.after).map (c.opening + o.place, ·)

theorem devices_eq_map (c : DriverClass) : c.devices = c.declared.map Prod.snd := by
  rw [devices, declared, List.map_filterMap]
  simp only [Option.map_map, Function.comp_def, Option.map_id']

theorem pairwise_declared (c : DriverClass) : c.declared.Pairwise fun p q => p.1 < q.1 := by
  rw [declared, List.pairwise_filterMap]
  refine (pairwise_occurrences (by decide) c.body).imp fun hlt p hp q hq => ?_
  obtain ⟨_, -, rfl⟩ := Option.map_eq_some_iff.1 hp
  obtain ⟨_, -, rfl⟩ := Option.map_eq_some_iff.1 hq
  exact Nat.add_lt_add_left hlt _

/-- A declaration begins with a whole word, and may be followed by anything. -/
theorem mem_declared_iff {place : Nat} {device : String} :
    (place, device) ∈ c.declared ↔ ∃ front declaration back,
      c.body = front ++ (declaration ++ back) ∧ place = c.opening + front.length ∧ Ended front ∧
        Declares device declaration := by
  have hvoid : ∀ {o : Occurrence}, o ∈ occurrences "void" c.body ↔ _ :=
    mem_occurrences_iff (by decide) (by decide)
  simp only [declared, List.mem_filterMap, Option.map_eq_some_iff, declaredDevice?_eq_some_iff]
  constructor
  · rintro ⟨o, ho, _, ⟨declaration, back, hdeclares, htext⟩, heq⟩
    obtain ⟨rfl, rfl⟩ := Prod.mk.inj heq
    obtain ⟨front, hbody, hplace, hended, -⟩ := hvoid.1 ho
    exact ⟨front, declaration, back, hbody.trans (by rw [htext]), by rw [hplace], hended, hdeclares⟩
  · rintro ⟨front, declaration, back, hbody, rfl, hended, hdeclares⟩
    obtain ⟨gap, parameter, rfl, ⟨hne, hgap⟩, hrest⟩ := hdeclares
    let o : Occurrence := ⟨front.length, gap ++ device.toList ++ parameter ++ back⟩
    have hafter : "void".toList ++ o.after =
        "void".toList ++ gap ++ device.toList ++ parameter ++ back := by
      simp only [o, List.append_assoc]
    have hends : endsWord o.after := by
      simp only [o, List.append_assoc]
      exact endsWord_gap hne hgap _
    exact ⟨o, hvoid.2 ⟨front, by rw [hafter, hbody], rfl, hended, hends⟩, device,
      ⟨_, back, ⟨gap, parameter, rfl, ⟨hne, hgap⟩, hrest⟩, hafter⟩, rfl⟩

/-- The part of a source in front of a body, which ends with a colon. -/
theorem Placed.exists_front (h : c.Placed source before head rest) :
    ∃ front, source = front ++ (c.body ++ ("\x7d;".toList ++ rest)) ∧ Ended front ∧
      c.opening = front.length ∧ c.stop = front.length + c.body.length := by
  obtain ⟨gap, gap', hhead, -⟩ := h.head.spaced
  have hstop : c.stop = (before ++ ("class".toList ++ head)).length + c.body.length := by
    rw [h.stop_eq]
    simp only [List.length_append]
    omega
  refine ⟨before ++ ("class".toList ++ head), ?_, ?_, ?_, hstop⟩
  · rw [h.text_eq]
    simp only [List.append_assoc]
  · rw [hhead, ← List.append_assoc, ← List.append_assoc]
    exact ended_append_singleton (by decide) _
  · rw [opening, hstop, Nat.add_sub_cancel]

/-- What is declared in a body is declared in the source, within the body. -/
theorem mem_declared_iff_declaresAt (hc : c.StandsIn source) {place : Nat} {device : String} :
    (place, device) ∈ c.declared ↔ c.DeclaresAt source place device := by
  obtain ⟨before, head, rest, hc⟩ := hc
  obtain ⟨front, htext, hended, hopening, hstop⟩ := hc.exists_front
  rw [mem_declared_iff, DeclaresAt, hopening, hstop]
  constructor
  · rintro ⟨inner, declaration, back, hbody, rfl, hinner, hdeclares⟩
    refine ⟨front ++ inner, declaration, back ++ ("\x7d;".toList ++ rest), ?_,
      List.length_append, hended.append hinner, hdeclares, Nat.le_add_right _ _, ?_⟩
    · rw [htext, hbody]
      simp only [List.append_assoc]
    · rw [hbody]
      simp only [List.length_append]
      omega
  · rintro ⟨before, declaration, back, htext', rfl, hbefore, hdeclares, hle, hlast⟩
    obtain ⟨inner, rfl, hinner⟩ := exists_middle_of_append_eq (htext.symm.trans htext') hle
    rw [← List.append_assoc inner] at hinner
    obtain ⟨tail, hbody, -⟩ := exists_middle_of_append_eq hinner.symm (by
      rw [List.length_append] at hlast ⊢
      omega)
    exact ⟨inner, declaration, tail, by rw [hbody, List.append_assoc], List.length_append,
      (ended_append_iff hended).1 hbefore, hdeclares⟩

theorem DeclaresAt.mem_extent {place : Nat} {device : String} (hc : c.StandsIn source)
    (h : c.DeclaresAt source place device) : c.start ≤ place ∧ place < c.stop := by
  obtain ⟨before, head, rest, hc⟩ := hc
  obtain ⟨-, declaration, -, -, -, -, ⟨gap, parameter, rfl, -⟩, hle, hlast⟩ := h
  have hstart : c.start ≤ c.opening := by
    rw [opening, hc.start_eq, hc.stop_eq]
    simp only [List.length_append]
    omega
  have hvoid : "void".toList.length = 4 := rfl
  simp only [List.length_append, hvoid] at hlast
  omega

theorem eq_of_mem_declared {place : Nat} {device device' : String}
    (h : (place, device) ∈ c.declared) (h' : (place, device') ∈ c.declared) : device = device' := by
  by_contra hne
  have : Std.Symm fun p q : Nat × String => p.1 ≠ q.1 := ⟨fun _ _ h => h.symm⟩
  have hplaces := ((pairwise_declared c).imp Nat.ne_of_lt).forall h h' fun heq =>
    hne (Prod.mk.inj heq).2
  exact hplaces rfl

/-- A place lies in one body at most, and one device is declared there. -/
theorem eq_of_declaresAt {d : DriverClass} (hc : c ∈ scan source) (hd : d ∈ scan source)
    {place : Nat} {device device' : String} (h : c.DeclaresAt source place device)
    (h' : d.DeclaresAt source place device') : c = d ∧ device = device' := by
  have hstands := standsIn_of_mem_scan hc
  obtain rfl : c = d := by
    by_contra hne
    have hplace := h.mem_extent hstands
    have hplace' := h'.mem_extent (standsIn_of_mem_scan hd)
    rcases apart_of_mem_scan hc hd hne with hle | hle
    · omega
    · omega
  exact ⟨rfl, eq_of_mem_declared ((mem_declared_iff_declaresAt hstands).2 h)
    ((mem_declared_iff_declaresAt hstands).2 h')⟩

end Devices

/-- A scan finds the classes of a source, and their devices. -/
theorem found_scan (source : List Char) : Found source where
  mem_iff _ := mem_scan_iff
  apart := (pairwise_scan source).imp_of_mem fun hc hd h =>
    stop_add_le (standsIn_of_mem_scan hc) (standsIn_of_mem_scan hd) h
  devices c hc := ⟨c.declared, devices_eq_map c, pairwise_declared c,
    fun _ _ => mem_declared_iff_declaresAt (standsIn_of_mem_scan hc)⟩
  once _ hc _ hd _ _ _ := eq_of_declaresAt hc hd

/-- A class inside of another one is part of its body, and one whose body has no end is none. -/
example :
    (scan "class a_state : class b_state : void x( machine_config &config); \x7d; class c_state :".toList
      ).map (fun c => (c.name, c.devices)) = [("a_state", ["x"])] := by
  decide +kernel

end DriverClass

end LcdHandhelds
