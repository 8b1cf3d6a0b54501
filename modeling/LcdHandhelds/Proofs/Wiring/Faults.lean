import LcdHandhelds.Proofs.Wiring.Sections

/-!
Faulty lines of an input block. A line has at most one fault, which its own text and the section it
stands in decide, and a bit with a fault wires nothing. Main statement: `faults_of_lines`.
-/
namespace LcdHandhelds

open Text

/-- The anomalies of a bit that is not wired. -/
def Anomaly.ofBit : Anomaly → Bool
  | unknownAction _ | bitWithoutPort _ => true
  | _ => false

namespace Block

/-- What is wrong with a line in the section of a port, or outside of all sections. -/
def fault? (key : Option PortKey) (line : List Char) : Option Anomaly :=
  match Statement.ofLine? line with
  | some (.header name) =>
    if PortName.ofText name = .unknown then some (.unknownPort name) else none
  | some (.bit _ _ token _) =>
    if Action.ofToken? token = none then some (.unknownAction token)
    else if key = none then some (.bitWithoutPort (String.ofList (trim line)))
    else none
  | _ => none

/-- The faults of a block, line by line. -/
def faults (lines : List (List Char)) : List Anomaly :=
  (inSections lines).filterMap fun (key, line) => fault? key line

/-- The lines that are left when those of faulty bits are deleted. -/
def withoutFaultyBits (lines : List (List Char)) : List (List Char) :=
  ((inSections lines).filter fun (key, line) => !(fault? key line).any Anomaly.ofBit).map (·.2)

/-- A block of which only the reports are forgotten. -/
def silent (b : Block) : Block := { b with anomalies := [] }

@[simp] theorem opened_silent (b : Block) : b.silent.opened = b.opened := rfl

@[simp] theorem toPortMap_silent (b : Block) : b.silent.toPortMap = b.toPortMap := rfl

/-! ### One more line -/

theorem faults_snoc (lines : List (List Char)) (line : List Char) :
    faults (lines ++ [line]) = faults lines ++ (fault? (sectionAfter lines) line).toList := by
  rw [faults, inSections_snoc, List.filterMap_append, ← faults]
  cases h : fault? (sectionAfter lines) line <;> simp [h]

theorem withoutFaultyBits_snoc (lines : List (List Char)) (line : List Char) :
    withoutFaultyBits (lines ++ [line]) =
      if (fault? (sectionAfter lines) line).any Anomaly.ofBit then withoutFaultyBits lines
      else withoutFaultyBits lines ++ [line] := by
  rw [withoutFaultyBits, inSections_snoc, List.filter_append, List.map_append]
  cases h : (fault? (sectionAfter lines) line).any Anomaly.ofBit <;> simp [h, withoutFaultyBits]

/-! ### What a line does to a block -/

/-- A line reports its fault, which depends on nothing of the block but the open port. -/
theorem anomalies_feed (b : Block) (line : List Char) :
    (b.feed line).anomalies =
      b.anomalies ++ (fault? (b.opened.map Port.key) line).toList := by
  rw [feed, fault?]
  cases Statement.ofLine? line with
  | none => simp
  | some s =>
    cases s with
    | header name =>
      simp only [header]
      cases PortName.ofText name <;> simp [close, reopen, report]
    | bit mask activeHigh token name =>
      simp only [bit]
      cases Action.ofToken? token with
      | none => simp [report]
      | some action => cases b.opened <;> simp [report]
    | setting mask =>
      simp only [setting]
      cases b.opened with
      | none => simp
      | some port =>
        dsimp only
        cases port.slot? (slotOfMask mask) <;> simp
    | inherit device => simp

/-- What was reported before has no effect on how a line is read. -/
theorem silent_feed (b : Block) (line : List Char) :
    (b.feed line).silent = (b.silent.feed line).silent := by
  rw [feed, feed]
  cases Statement.ofLine? line with
  | none => rfl
  | some s =>
    cases s with
    | header name =>
      simp only [header]
      cases PortName.ofText name <;> rfl
    | bit mask activeHigh token name =>
      simp only [bit]
      cases Action.ofToken? token with
      | none => rfl
      | some action =>
        rw [opened_silent]
        cases b.opened <;> rfl
    | setting mask =>
      simp only [setting, opened_silent]
      cases b.opened with
      | none => rfl
      | some port =>
        dsimp only
        cases port.slot? (slotOfMask mask) <;> rfl
    | inherit device => rfl

theorem silent_feed_congr {b b' : Block} (h : b.silent = b'.silent) (line : List Char) :
    (b.feed line).silent = (b'.feed line).silent := by
  rw [silent_feed b, silent_feed b', h]

/-- A faulty bit changes nothing but the reports. -/
theorem silent_feed_of_faultyBit {b : Block} {line : List Char}
    (h : (fault? (b.opened.map Port.key) line).any Anomaly.ofBit) :
    (b.feed line).silent = b.silent := by
  rw [fault?] at h
  rw [feed]
  cases hs : Statement.ofLine? line with
  | none => rfl
  | some s =>
    rw [hs] at h
    cases s with
    | header name =>
      simp only at h
      split at h <;> cases h
    | bit mask activeHigh token name =>
      simp only [bit]
      cases ha : Action.ofToken? token with
      | none => rfl
      | some action =>
        cases ho : b.opened with
        | none => rfl
        | some port => simp [ha, ho] at h
    | setting mask => cases h
    | inherit device => cases h

/-! ### What all lines do -/

theorem ofLines_snoc (lines : List (List Char)) (line : List Char) :
    ofLines (lines ++ [line]) = (ofLines lines).feed line := by
  rw [ofLines, List.foldl_append]
  rfl

theorem anomalies_ofLines (lines : List (List Char)) :
    (ofLines lines).anomalies = faults lines := by
  induction lines using List.reverseRecOn with
  | nil => rfl
  | append_singleton lines line ih =>
    rw [ofLines_snoc, anomalies_feed, ih, (tracks_ofLines lines).opened, faults_snoc]

theorem silent_ofLines_withoutFaultyBits (lines : List (List Char)) :
    (ofLines (withoutFaultyBits lines)).silent = (ofLines lines).silent := by
  induction lines using List.reverseRecOn with
  | nil => rfl
  | append_singleton lines line ih =>
    rw [withoutFaultyBits_snoc, ofLines_snoc]
    split
    next h =>
      rw [← (tracks_ofLines lines).opened] at h
      rw [silent_feed_of_faultyBit h, ih]
    next =>
      rw [ofLines_snoc]
      exact silent_feed_congr ih line

/-- The lines that are left stand in the sections they stood in. -/
theorem sectionAfter_withoutFaultyBits (lines : List (List Char)) :
    sectionAfter (withoutFaultyBits lines) = sectionAfter lines := by
  have hopened := congrArg Block.opened (silent_ofLines_withoutFaultyBits lines)
  rw [opened_silent, opened_silent] at hopened
  rw [← (tracks_ofLines lines).opened, ← (tracks_ofLines _).opened, hopened]

theorem faults_withoutFaultyBits (lines : List (List Char)) :
    faults (withoutFaultyBits lines) = (faults lines).filter (!·.ofBit) := by
  induction lines using List.reverseRecOn with
  | nil => rfl
  | append_singleton lines line ih =>
    rw [withoutFaultyBits_snoc, faults_snoc, List.filter_append]
    cases hf : fault? (sectionAfter lines) line with
    | none => simp [faults_snoc, sectionAfter_withoutFaultyBits, hf, ih]
    | some a =>
      cases ha : a.ofBit with
      | true => simp [ha, ih]
      | false => simp [faults_snoc, sectionAfter_withoutFaultyBits, hf, ha, ih]

/--
A block reports the fault of each line in order and nothing else. Without its faulty bits it is wired
the same, and the reports on its other lines stay.
-/
theorem faults_of_lines (device : String) (lines : List (List Char)) :
    (ofLines lines).diagnostics device = (faults lines).map (⟨device, ·⟩) ∧
      (ofLines (withoutFaultyBits lines)).toPortMap = (ofLines lines).toPortMap ∧
      (ofLines (withoutFaultyBits lines)).diagnostics device =
        ((ofLines lines).diagnostics device).filter (!·.anomaly.ofBit) := by
  refine ⟨?_, ?_, ?_⟩
  · rw [diagnostics, anomalies_ofLines]
  · rw [← toPortMap_silent, silent_ofLines_withoutFaultyBits, toPortMap_silent]
  · rw [diagnostics, diagnostics, anomalies_ofLines, anomalies_ofLines, faults_withoutFaultyBits,
      List.filter_map]
    rfl

end Block

end LcdHandhelds
