import Mathlib.Data.List.Nodup
import LcdHandhelds.Proofs.Manifest.Candidates

/-!
Input blocks of one name. A reading of the blocks stops at the first block whose name was there
before, with the reports of the blocks in front of it; nothing else stops an extraction. Where all
names differ, the table holds each block's own wiring. Main statement: `decided_of_extract`.
-/
namespace LcdHandhelds

open scoped List

namespace InputBlock

/-- The wiring that a block describes by itself. -/
def wiring (b : InputBlock) : PortMap := (Block.ofBody b.body).toPortMap

/-- The reports on the lines of a block. -/
def diagnostics (b : InputBlock) : List Diagnostic := (Block.ofBody b.body).diagnostics b.name

end InputBlock

/-- The first block that repeats a name, and the blocks before it. -/
structure FirstRepeat (blocks before : List InputBlock) (block : InputBlock) : Prop where
  located : ∃ after, blocks = before ++ block :: after
  distinct : (before.map (·.name)).Nodup
  repeated : block.name ∈ before.map (·.name)

theorem exists_firstRepeat {blocks : List InputBlock} (h : ¬ (blocks.map (·.name)).Nodup) :
    ∃ before block, FirstRepeat blocks before block := by
  induction blocks using List.reverseRecOn with
  | nil => exact absurd List.nodup_nil h
  | append_singleton blocks block ih =>
    by_cases hd : (blocks.map (·.name)).Nodup
    · refine ⟨blocks, block, ⟨[], rfl⟩, hd, ?_⟩
      by_contra hnew
      refine h ?_
      rw [List.map_append, List.map_singleton]
      exact List.nodup_append.2 ⟨hd, List.nodup_singleton _, fun a ha b hb hab =>
        hnew (List.mem_singleton.1 hb ▸ hab ▸ ha)⟩
    · obtain ⟨before, first, ⟨after, rfl⟩, hbefore, hfirst⟩ := ih hd
      exact ⟨before, first, ⟨after ++ [block], by simp⟩, hbefore, hfirst⟩

/-- Names differ unless two blocks share one. -/
theorem not_nodup_names_iff {blocks : List InputBlock} :
    ¬ (blocks.map (·.name)).Nodup ↔ ∃ b b', [b, b'] <+ blocks ∧ b.name = b'.name := by
  rw [List.nodup_iff_pairwise_ne, List.pairwise_map, List.pairwise_iff_forall_sublist]
  simp

namespace InputTable

/-- What is held after blocks of different names have been read. -/
structure Holds (blocks : List InputBlock) (read : InputTable × List Diagnostic) : Prop where
  wirings : ∀ name m, read.1.get? name = some m ↔ ∃ b ∈ blocks, b.name = name ∧ b.wiring = m
  reported : read.2 = blocks.flatMap InputBlock.diagnostics

variable {blocks : List InputBlock} {block : InputBlock} {read : InputTable × List Diagnostic}

theorem holds_nil : Holds [] (∅, []) := ⟨by simp, rfl⟩

theorem Holds.contains_iff (h : Holds blocks read) (name : String) :
    read.1.contains name ↔ name ∈ blocks.map (·.name) := by
  simp only [Table.contains, Option.isSome_iff_exists, h.wirings, List.mem_map]
  constructor
  · rintro ⟨m, b, hb, hn, -⟩
    exact ⟨b, hb, hn⟩
  · rintro ⟨b, hb, hn⟩
    exact ⟨b.wiring, b, hb, hn, rfl⟩

/-- A block of a new name is added. -/
theorem Holds.addBlock (h : Holds blocks read) (hnew : block.name ∉ blocks.map (·.name)) :
    ∃ next, addBlock read block = .ok next ∧ Holds (blocks ++ [block]) next := by
  rw [InputTable.addBlock, if_neg fun hc => hnew ((h.contains_iff _).1 hc)]
  refine ⟨_, rfl, fun name m => ?_, ?_⟩
  · rw [Table.get?_insert]
    simp only [List.mem_append, List.mem_singleton]
    split
    next hname =>
      subst hname
      constructor
      · rintro hm
        exact ⟨block, .inr rfl, rfl, Option.some.inj hm⟩
      · rintro ⟨b, hb | rfl, hn, rfl⟩
        · exact absurd (List.mem_map.2 ⟨b, hb, hn⟩) hnew
        · rfl
    next hname =>
      rw [h.wirings]
      constructor
      · rintro ⟨b, hb, hm⟩
        exact ⟨b, .inl hb, hm⟩
      · rintro ⟨b, hb | rfl, hn, hm⟩
        · exact ⟨b, hb, hn, hm⟩
        · exact absurd hn.symm hname
  · simp only [h.reported, List.flatMap_append, List.flatMap_singleton]
    rfl

/-- A block of a name that is held stops the reading. -/
theorem Holds.addBlock_of_mem (h : Holds blocks read) (hold : block.name ∈ blocks.map (·.name)) :
    InputTable.addBlock read block =
      .error ⟨block.name, blocks.flatMap InputBlock.diagnostics⟩ := by
  rw [InputTable.addBlock, if_pos ((h.contains_iff _).2 hold), h.reported]

theorem holds_ofBlocks (h : (blocks.map (·.name)).Nodup) :
    ∃ read, ofBlocks blocks = .ok read ∧ Holds blocks read := by
  induction blocks using List.reverseRecOn with
  | nil => exact ⟨_, rfl, holds_nil⟩
  | append_singleton blocks block ih =>
    rw [List.map_append, List.map_singleton, List.nodup_append] at h
    obtain ⟨hd, -, hne⟩ := h
    obtain ⟨read, hr, hread⟩ := ih hd
    obtain ⟨next, hn, hnext⟩ := hread.addBlock fun hm => hne _ hm _ (List.mem_singleton_self _) rfl
    refine ⟨next, ?_, hnext⟩
    rw [ofBlocks, List.foldlM_append, bind_eq_ok_iff]
    exact ⟨read, hr, bind_eq_ok_iff.2 ⟨next, hn, rfl⟩⟩

theorem ofBlocks_eq_error {before : List InputBlock} (h : FirstRepeat blocks before block) :
    ofBlocks blocks = .error ⟨block.name, before.flatMap InputBlock.diagnostics⟩ := by
  obtain ⟨after, rfl⟩ := h.located
  obtain ⟨read, hr, hread⟩ := holds_ofBlocks h.distinct
  rw [ofBlocks, List.foldlM_append, bind_eq_error_iff]
  refine .inr ⟨read, hr, ?_⟩
  rw [List.foldlM_cons, bind_eq_error_iff]
  exact .inl (hread.addBlock_of_mem h.repeated)

theorem nodup_of_ofBlocks (h : ofBlocks blocks = .ok read) : (blocks.map (·.name)).Nodup := by
  by_contra hd
  obtain ⟨before, block, hfirst⟩ := exists_firstRepeat hd
  rw [ofBlocks_eq_error hfirst] at h
  cases h

theorem Holds.of_ofBlocks (h : ofBlocks blocks = .ok read) : Holds blocks read := by
  obtain ⟨read', hr, hread⟩ := holds_ofBlocks (nodup_of_ofBlocks h)
  rw [h] at hr
  cases hr
  exact hread

end InputTable

theorem extract_eq_error_iff {marker : String} {source : List Char} {d : DuplicateInput} :
    extract marker source = .error d ↔ InputTable.ofSource source = .error d := by
  rw [extract, bind_eq_error_iff]
  constructor
  · rintro (h | ⟨a, -, h⟩)
    · exact h
    · cases h
  · exact .inl

theorem exists_extract_iff {marker : String} {source : List Char} :
    (∃ e, extract marker source = .ok e) ↔ ((inputBlocks source).map (·.name)).Nodup := by
  constructor
  · rintro ⟨e, he⟩
    obtain ⟨raw, reported, hr, -⟩ := extract_eq_ok_iff.1 he
    exact InputTable.nodup_of_ofBlocks hr
  · intro hd
    obtain ⟨⟨raw, reported⟩, hr, -⟩ := InputTable.holds_ofBlocks hd
    exact ⟨_, extract_eq_ok_iff.2 ⟨raw, reported, hr, rfl⟩⟩

/-- How the names of the input blocks decide whether a source is extracted. -/
structure DecidedByNames (marker : String) (source : List Char) : Prop where
  fails_iff : (∃ d, extract marker source = .error d) ↔
    ∃ b b', [b, b'] <+ inputBlocks source ∧ b.name = b'.name
  /-- The first repeat is named, and only the blocks before it have reported. -/
  error_iff : ∀ d, extract marker source = .error d ↔
    ∃ before block, FirstRepeat (inputBlocks source) before block ∧
      d = ⟨block.name, before.flatMap InputBlock.diagnostics⟩
  /-- Else the table has one entry for each block, made of its own body. -/
  read : (¬ ∃ b b', [b, b'] <+ inputBlocks source ∧ b.name = b'.name) →
    ∃ raw, InputTable.ofSource source =
        .ok (raw, (inputBlocks source).flatMap InputBlock.diagnostics) ∧
      (∀ name m, raw.get? name = some m ↔
        ∃ b ∈ inputBlocks source, b.name = name ∧ b.wiring = m) ∧
      extract marker source =
        .ok ⟨Manifest.ofCandidates (Survey.ofSource marker source raw).candidates,
          (inputBlocks source).flatMap InputBlock.diagnostics ++ raw.inclusionDiagnostics ++
            (Survey.ofSource marker source raw).diagnostics⟩

/-- A repeated name stops an extraction, and nothing else does. -/
theorem decided_of_extract (marker : String) (source : List Char) :
    DecidedByNames marker source := by
  have herror : ∀ {before block}, FirstRepeat (inputBlocks source) before block →
      extract marker source = .error ⟨block.name, before.flatMap InputBlock.diagnostics⟩ :=
    fun h => extract_eq_error_iff.2 (InputTable.ofBlocks_eq_error h)
  have hfails : ∀ d, extract marker source = .error d →
      ¬ ((inputBlocks source).map (·.name)).Nodup := by
    intro d hd hn
    obtain ⟨e, he⟩ := exists_extract_iff.2 hn
    rw [hd] at he
    cases he
  refine ⟨?_, fun d => ?_, fun h => ?_⟩
  · rw [← not_nodup_names_iff]
    constructor
    · rintro ⟨d, hd⟩
      exact hfails d hd
    · intro hn
      obtain ⟨before, block, hfirst⟩ := exists_firstRepeat hn
      exact ⟨_, herror hfirst⟩
  · constructor
    · intro hd
      obtain ⟨before, block, hfirst⟩ := exists_firstRepeat (hfails d hd)
      refine ⟨before, block, hfirst, ?_⟩
      rw [herror hfirst] at hd
      exact (Except.error.inj hd).symm
    · rintro ⟨before, block, hfirst, rfl⟩
      exact herror hfirst
  · rw [← not_nodup_names_iff, not_not] at h
    obtain ⟨⟨raw, reported⟩, hr, hread⟩ := InputTable.holds_ofBlocks h
    obtain rfl : reported = _ := hread.reported
    exact ⟨raw, hr, hread.wirings, extract_eq_ok_iff.2 ⟨raw, _, hr, rfl⟩⟩

end LcdHandhelds
