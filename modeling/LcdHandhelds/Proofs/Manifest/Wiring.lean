import LcdHandhelds.Manifest.Homebrew
import LcdHandhelds.Proofs.Manifest.Candidates
import LcdHandhelds.Proofs.Wiring.WellFormed

/-!
Every wiring in a manifest is well-formed: each is a collapsed wiring of the source, or the empty
one, after grounding, and titles borrow theirs from a profile that is there.
-/
namespace LcdHandhelds

namespace Survey

variable {marker : String} {source : List Char} {raw : InputTable}

theorem wellFormed_portMap? (h : raw.WellFormed) (d : Declaration) :
    (((ofSource marker source raw).portMap? d).getD default).WellFormed := by
  have hget : ∀ name m, (ofSource marker source raw).inputs.get? name = some m → m.WellFormed :=
    fun name m hm => (h.collapse m (Table.mem_values_iff.2 ⟨name, hm⟩)).1
  cases hp : (ofSource marker source raw).portMap? d with
  | none => exact PortMap.WellFormed.default
  | some m =>
    rw [portMap?, Option.or_eq_some_iff] at hp
    rcases hp with hp | ⟨-, hp⟩
    · exact hget d.device m hp
    · exact hget d.stem m hp

theorem wellFormed_of_mem_candidates (h : raw.WellFormed) {c : Candidate}
    (hc : c ∈ (ofSource marker source raw).candidates) : c.portMap.WellFormed := by
  obtain ⟨d, -, ho⟩ := mem_candidates_iff.1 hc
  obtain ⟨body, -, hb⟩ := outcome_visit_eq_ok_iff.1 ho
  obtain ⟨hardware, block, identity, -, -, rfl⟩ := candidate_eq_ok_iff.1 hb
  exact (wellFormed_portMap? h d).ground _

end Survey

namespace Manifest

def WellFormed (m : Manifest) : Prop :=
  ∀ device profile, m.get? device = some profile → profile.portMap.WellFormed

theorem wellFormed_of_extract {marker : String} {source : List Char} {e : Extraction}
    (h : extract marker source = .ok e) : e.manifest.WellFormed := by
  obtain ⟨raw, reported, hr, rfl⟩ := extract_eq_ok_iff.1 h
  intro device profile hp
  obtain ⟨c, hc, -, rfl⟩ := exists_of_get?_ofCandidates hp
  exact Survey.wellFormed_of_mem_candidates (InputTable.wellFormed_ofSource hr) hc

theorem WellFormed.addTitle {e : Extraction} (h : e.manifest.WellFormed) (t : Title) :
    (e.addTitle t).manifest.WellFormed := by
  rw [Extraction.addTitle]
  split
  next base hb =>
    intro device profile hp
    rw [Table.get?_insert] at hp
    split at hp
    · cases hp
      exact h t.base base hb
    · exact h device profile hp
  · exact h

theorem WellFormed.overlay {e : Extraction} (h : e.manifest.WellFormed) (titles : List Title) :
    (e.overlay titles).manifest.WellFormed := by
  induction titles generalizing e with
  | nil => exact h
  | cons t titles ih => exact ih (h.addTitle t)

/-- Every wiring that is shipped is in order, holds no empty row, and grounds its last row. -/
theorem wellFormed_overlay_of_extract {marker : String} {source : List Char} {e : Extraction}
    (titles : List Title) (h : extract marker source = .ok e) :
    (e.overlay titles).manifest.WellFormed :=
  (wellFormed_of_extract h).overlay titles

/-- A device over its family's rows, with its last row grounded. -/
def groundedBoard : List Char :=
  "INPUT_PORTS_START( f )\nPORT_START( \"IN.2\" )\n".toList ++
    "PORT_BIT( 1, IP_ACTIVE_HIGH, IPT_BUTTON1 )\nINPUT_PORTS_END\n".toList ++
    "INPUT_PORTS_START( d )\nPORT_INCLUDE( f )\nPORT_START( \"IN.0\" )\n".toList ++
    "PORT_BIT( 1, IP_ACTIVE_HIGH, IPT_BUTTON2 )\nINPUT_PORTS_END\n".toList ++
    classText ['d'] ++ constructorText " inp_fixed_last();\n".toList 'd' ++ romText 'd'

set_option maxRecDepth 4000 in
/-- A title for the board gets both rows, the included one last and grounded. -/
theorem wellFormed_overlay_groundedBoard :
    ∃ e profile, extract defaultMarker groundedBoard = .ok e ∧
      (e.overlay [⟨"t", "d", "", "", "", "", ""⟩]).manifest.get? "t" = some profile ∧
      profile.portMap.ports.map Port.key = [.row 0, .row 2] ∧
      profile.portMap.groundedRow = some 2 ∧ profile.portMap.WellFormed := by
  have h : ((extract defaultMarker groundedBoard).toOption.map fun e =>
      ((e.overlay [⟨"t", "d", "", "", "", "", ""⟩]).manifest.get? "t").map fun profile =>
        (profile.portMap.ports.map Port.key, profile.portMap.groundedRow)) =
      some (some ([.row 0, .row 2], some 2)) := by
    unfold groundedBoard classText constructorText romText
    repeat rw [String.toList_ofList]
    decide +kernel
  obtain ⟨e, he, ht⟩ := Option.map_eq_some_iff.1 h
  obtain ⟨profile, hp, hpair⟩ := Option.map_eq_some_iff.1 ht
  have he := toOption_eq_some_iff.1 he
  obtain ⟨hports, hrow⟩ := Prod.mk.inj hpair
  exact ⟨e, profile, he, hp, hports, hrow, wellFormed_overlay_of_extract _ he "t" profile hp⟩

end Manifest

end LcdHandhelds
