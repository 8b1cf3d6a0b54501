import LcdHandhelds.Proofs.Manifest.Duplicates
import LcdHandhelds.Proofs.Text.Reading

/-!
Input blocks with any text between them. Neither mark of a block has its first character a second
time, so no mark runs over the start of another one, and a scan goes from block to block whatever
their bodies leave open. Main statement: `blocksRecovered_of_spaced`. A block that is written
directly behind the end of another one is lost, since the two marks make up one identifier.
-/
namespace LcdHandhelds

open Text

/-! ### Blocks as they are written -/

namespace InputBlock

/-- The start with the name, the body, and the end. -/
def text (b : InputBlock) : List Char :=
  callText "INPUT_PORTS_START".toList [' '] [' '] [b.name.toList] ++
    (b.body ++ "INPUT_PORTS_END".toList)

example : text ⟨"a", "x".toList⟩ = "INPUT_PORTS_START( a )xINPUT_PORTS_END".toList := by
  decide +kernel

/-- A block of an identifier, whose body holds neither of the marks and may be anything else. -/
structure Plain (b : InputBlock) : Prop where
  word : b.name.toList.all isWordChar
  ne_nil : b.name.toList ≠ []
  noStart : ¬ "INPUT_PORTS_START".toList <:+: b.body
  noEnd : ¬ "INPUT_PORTS_END".toList <:+: b.body

instance (b : InputBlock) : Decidable b.Plain :=
  decidable_of_iff ((b.name.toList.all isWordChar = true ∧ b.name.toList ≠ []) ∧
      ¬ "INPUT_PORTS_START".toList <:+: b.body ∧ ¬ "INPUT_PORTS_END".toList <:+: b.body)
    ⟨fun h => ⟨h.1.1, h.1.2, h.2.1, h.2.2⟩, fun h => ⟨⟨h.word, h.ne_nil⟩, h.noStart, h.noEnd⟩⟩

variable {b : InputBlock}

theorem Plain.ofCall?_eq (h : b.Plain) (rest : List Char) :
    ofCall? ⟨0, [' '] ++ separated [b.name.toList] ++ [' '],
      b.body ++ ("INPUT_PORTS_END".toList ++ rest)⟩ = some b := by
  have hbody : before? "INPUT_PORTS_END" (b.body ++ ("INPUT_PORTS_END".toList ++ rest)) =
      some b.body :=
    before?_append_of_notInfix rfl (by decide) h.noEnd rest
  have htrim : trim ([' '] ++ separated [b.name.toList] ++ [' ']) = b.name.toList :=
    (trim_append_blank (by decide) (by decide) _).trans (trim_of_word h.word)
  obtain ⟨c, more, hcons⟩ := List.exists_cons_of_ne_nil h.ne_nil
  rw [hcons] at htrim ⊢
  simp only [ofCall?, htrim, hbody, Option.bind_eq_bind, Option.bind_some]
  rw [← hcons, String.ofList_toList]
  rfl

/-- A block is read behind a text that holds no start, and the scan goes on with its body. -/
theorem Plain.inputBlocks_append (h : b.Plain) {front : List Char} (hend : Ended front)
    (hfree : ¬ "INPUT_PORTS_START".toList <:+: front) (rest : List Char) :
    inputBlocks (front ++ (b.text ++ rest)) =
      b :: inputBlocks (b.body ++ "INPUT_PORTS_END".toList ++ rest) := by
  have hwords : "INPUT_PORTS_START".toList ∉ words front := fun hm => hfree (of_mem_words hm).2.2
  have hclosed : ∀ a ∈ [b.name.toList], Closed a := fun a ha =>
    List.mem_singleton.1 ha ▸ closed_of_word h.word
  rw [inputBlocks, filterMap_calls_append (fun _ _ => rfl) (by decide) hend hwords, text,
    List.append_assoc, filterMap_calls_callText (fun _ _ => rfl) (by decide) (by decide) hclosed,
    List.append_assoc b.body, h.ofCall?_eq]
  rfl

end InputBlock

/-- A block, and the text between it and the block before it. -/
structure PlacedBlock where
  gap : List Char
  block : InputBlock

/-- The blocks with the text in front of each, and the text behind the last. -/
def blocksText (placed : List PlacedBlock) (rest : List Char) : List Char :=
  placed.flatMap (fun p => p.gap ++ p.block.text) ++ rest

/-- Blocks of different names, with no start and no open identifier in front of one. -/
structure PlainBlocks (placed : List PlacedBlock) (rest : List Char) : Prop where
  block : ∀ p ∈ placed, p.block.Plain
  noStart : ∀ p ∈ placed, ¬ "INPUT_PORTS_START".toList <:+: p.gap
  ended : ∀ p ∈ placed, Ended p.gap
  distinct : (placed.map (·.block.name)).Nodup
  noStart_rest : ¬ "INPUT_PORTS_START".toList <:+: rest

/-- There is some text in front of every block but the first. -/
def Spaced (placed : List PlacedBlock) : Prop :=
  ∀ p ∈ placed.tail, p.gap ≠ []

instance (placed : List PlacedBlock) : Decidable (Spaced placed) :=
  inferInstanceAs (Decidable (∀ p ∈ placed.tail, p.gap ≠ []))

theorem blocksText_cons (p : PlacedBlock) (placed : List PlacedBlock) (rest : List Char) :
    blocksText (p :: placed) rest = p.gap ++ (p.block.text ++ blocksText placed rest) := by
  simp only [blocksText, List.flatMap_cons, List.append_assoc]

/-- A text that no start begins in. -/
def Startless (front : List Char) : Prop :=
  ∀ text, "INPUT_PORTS_START".toList <:+: front ++ text → "INPUT_PORTS_START".toList <:+: text

theorem startless_nil : Startless [] :=
  fun _ h => h

/-- The next start after a body and its end stands behind them. -/
theorem InputBlock.Plain.startless {b : InputBlock} (h : b.Plain) :
    Startless (b.body ++ "INPUT_PORTS_END".toList) := by
  have hend : ∀ text, ¬ "INPUT_PORTS_START".toList <+: "INPUT_PORTS_END".toList ++ text := by
    intro text hp
    rcases List.prefix_or_prefix_of_prefix hp (List.prefix_append _ _) with hp | hp
    · exact absurd hp (by decide)
    · exact absurd hp (by decide)
  intro text hpart
  rw [List.append_assoc] at hpart
  rcases infix_append_cons (by decide) hpart with hbody | hpart
  · exact absurd hbody h.noStart
  · rcases List.infix_cons_iff.1 hpart with hp | hpart
    · exact absurd hp (hend text)
    · exact infix_of_notMem (by decide) hpart

theorem PlainBlocks.of_cons {p : PlacedBlock} {placed : List PlacedBlock} {rest : List Char}
    (h : PlainBlocks (p :: placed) rest) : PlainBlocks placed rest where
  block q hq := h.block q (List.mem_cons_of_mem p hq)
  noStart q hq := h.noStart q (List.mem_cons_of_mem p hq)
  ended q hq := h.ended q (List.mem_cons_of_mem p hq)
  distinct := (List.nodup_cons.1 h.distinct).2
  noStart_rest := h.noStart_rest

/-- The scan goes from block to block. -/
theorem inputBlocks_blocksText {front rest : List Char} (hfront : Startless front)
    {placed : List PlacedBlock} (h : PlainBlocks placed rest)
    (hfirst : ∀ p ∈ placed.head?, Ended (front ++ p.gap)) (hspaced : Spaced placed) :
    inputBlocks (front ++ blocksText placed rest) = placed.map (·.block) := by
  induction placed generalizing front with
  | nil =>
    have hfree : "INPUT_PORTS_START".toList ∉ words (front ++ rest) := fun hm =>
      h.noStart_rest (hfront _ (of_mem_words hm).2.2)
    rw [blocksText, List.flatMap_nil, List.nil_append, inputBlocks, calls_eq_nil (by decide) hfree]
    rfl
  | cons p placed ih =>
    have hblock := h.block p List.mem_cons_self
    have hfree : ¬ "INPUT_PORTS_START".toList <:+: front ++ p.gap := fun hpart =>
      h.noStart p List.mem_cons_self (hfront _ hpart)
    have hnext : ∀ q ∈ placed.head?, Ended (p.block.body ++ "INPUT_PORTS_END".toList ++ q.gap) := by
      intro q hq
      have hmem : q ∈ placed := List.mem_of_head? hq
      exact ended_append (h.ended q (List.mem_cons_of_mem p hmem)) (hspaced q hmem) _
    rw [blocksText_cons, ← List.append_assoc, hblock.inputBlocks_append (hfirst p rfl) hfree,
      ih hblock.startless h.of_cons hnext fun q hq => hspaced q (List.mem_of_mem_tail hq),
      List.map_cons]

/-! ### The tables that are read -/

/-- What is read of blocks with other text between them. -/
structure BlocksRecovered (placed : List PlacedBlock) (rest : List Char) : Prop where
  blocks : inputBlocks (blocksText placed rest) = placed.map (·.block)
  /-- Every name has the wiring of its own body. -/
  table : ∃ raw, InputTable.ofSource (blocksText placed rest) =
      .ok (raw, placed.flatMap (·.block.diagnostics)) ∧
    ∀ name m, raw.get? name = some m ↔ ∃ p ∈ placed, p.block.name = name ∧ p.block.wiring = m
  /-- The order of the blocks makes no difference, nor does the text between them. -/
  reordered : ∀ placed' rest', PlainBlocks placed' rest' → Spaced placed' →
    (placed'.map (·.block)).Perm (placed.map (·.block)) →
      ∃ raw raw' reported reported',
        InputTable.ofSource (blocksText placed rest) = .ok (raw, reported) ∧
          InputTable.ofSource (blocksText placed' rest') = .ok (raw', reported') ∧
          raw' = raw ∧ raw'.collapse = raw.collapse

theorem PlainBlocks.inputBlocks_eq {placed : List PlacedBlock} {rest : List Char}
    (h : PlainBlocks placed rest) (hspaced : Spaced placed) :
    inputBlocks (blocksText placed rest) = placed.map (·.block) :=
  inputBlocks_blocksText startless_nil h (fun p hp => h.ended p (List.mem_of_head? hp)) hspaced

theorem PlainBlocks.holds {placed : List PlacedBlock} {rest : List Char}
    (h : PlainBlocks placed rest) (hspaced : Spaced placed) :
    ∃ read, InputTable.ofSource (blocksText placed rest) = .ok read ∧
      InputTable.Holds (placed.map (·.block)) read := by
  rw [InputTable.ofSource, h.inputBlocks_eq hspaced]
  exact InputTable.holds_ofBlocks (by rw [List.map_map]; exact h.distinct)

/-- Blocks of the same names and bodies make up the same table. -/
theorem InputTable.Holds.eq_of_perm {blocks blocks' : List InputBlock}
    {read read' : InputTable × List Diagnostic} (h : Holds blocks read) (h' : Holds blocks' read')
    (hperm : blocks'.Perm blocks) : read'.1 = read.1 := by
  refine Table.ext_get? fun name => Option.ext fun m => ?_
  rw [h.wirings, h'.wirings]
  simp only [hperm.mem_iff]

/-- Blocks with text between them are recovered, whatever their bodies hold, in any order. -/
theorem blocksRecovered_of_spaced {placed : List PlacedBlock} {rest : List Char}
    (h : PlainBlocks placed rest) (hspaced : Spaced placed) : BlocksRecovered placed rest where
  blocks := h.inputBlocks_eq hspaced
  table := by
    obtain ⟨⟨raw, reported⟩, hread, hholds⟩ := h.holds hspaced
    refine ⟨raw, ?_, fun name m => ?_⟩
    · rw [hread, ← List.flatMap_map, ← hholds.reported]
    · rw [hholds.wirings]
      simp only [List.mem_map, exists_exists_and_eq_and]
  reordered placed' rest' h' hspaced' hperm := by
    obtain ⟨⟨raw, reported⟩, hread, hholds⟩ := h.holds hspaced
    obtain ⟨⟨raw', reported'⟩, hread', hholds'⟩ := h'.holds hspaced'
    have heq : raw' = raw := hholds.eq_of_perm hholds' hperm
    exact ⟨raw, raw', reported, reported', hread, hread', heq, congrArg _ heq⟩

/-- Blocks whose bodies leave groups and literals open, with an end that ends nothing before one. -/
def openBodies : List PlacedBlock :=
  [⟨"static ".toList, ⟨"a", " PORT_BIT( PORT_NAME(\"\n".toList⟩⟩,
    ⟨" ) INPUT_PORTS_END\n".toList, ⟨"b", "))\" PORT_INCLUDE( a )\n".toList⟩⟩]

set_option maxRecDepth 4000 in
theorem blocksRecovered_openBodies :
    PlainBlocks openBodies ['('] ∧ Spaced openBodies ∧ BlocksRecovered openBodies ['('] := by
  have hplain : PlainBlocks openBodies ['('] := by
    unfold openBodies
    repeat rw [String.toList_ofList]
    constructor <;> decide +kernel
  have hspaced : Spaced openBodies := by
    unfold openBodies
    repeat rw [String.toList_ofList]
    decide
  exact ⟨hplain, hspaced, blocksRecovered_of_spaced hplain hspaced⟩

/-- A block that is written directly behind the end of another. -/
def gluedBlocks : List PlacedBlock :=
  [⟨[], ⟨"a", []⟩⟩, ⟨[], ⟨"b", []⟩⟩]

/-- With no text between two blocks the second is not read. -/
theorem not_forall_blocks_recovered :
    ¬ ∀ placed rest, PlainBlocks placed rest →
      inputBlocks (blocksText placed rest) = placed.map (·.block) := by
  intro hall
  have hplain : PlainBlocks gluedBlocks [] := by constructor <;> decide +kernel
  have hblocks := hall gluedBlocks [] hplain
  revert hblocks
  decide +kernel

end LcdHandhelds
