import LcdHandhelds.Machine.RomBlock
import LcdHandhelds.Proofs.Table
import LcdHandhelds.Proofs.Text.Delimited
import LcdHandhelds.Wiring.InputTable

/-!
The bodies of input blocks and ROM blocks. A block runs from its start to the next end there is, so a
block without an end of its own runs on over the blocks behind it, up to the end of one of them:
`bodies_of_blocks`. Where every block has its end, no body holds another start.
-/
namespace LcdHandhelds

open Text

theorem exists_call_of_mem_inputBlocks {source : List Char} {block : InputBlock}
    (h : block ∈ inputBlocks source) :
    ∃ c ∈ calls "INPUT_PORTS_START" source, InputBlock.ofCall? c = some block ∧
      before? "INPUT_PORTS_END" c.after = some block.body := by
  obtain ⟨c, hc, hb⟩ := List.mem_filterMap.1 h
  refine ⟨c, hc, hb, ?_⟩
  obtain ⟨body, hbody, hname⟩ := Option.bind_eq_some_iff.1 hb
  split at hname
  · cases hname
  · cases hname
    exact hbody

theorem RomBlock.exists_call_of_get?_index {source : List Char} {device : String}
    {block : RomBlock} (h : (index source).get? device = some block) :
    ∃ c ∈ calls "ROM_START" source, ofCall? source c = some (device, block) ∧
      before? "ROM_END" c.after = some block.body := by
  rw [index, Table.get?_foldl_insertIfNew, Table.get?_empty, Option.none_or,
    Option.map_eq_some_iff] at h
  obtain ⟨⟨name, _⟩, hf, rfl⟩ := h
  have hname := List.find?_some hf
  obtain rfl : name = device := of_decide_eq_true hname
  obtain ⟨c, hc, hb⟩ := List.mem_filterMap.1 (List.mem_of_find?_eq_some hf)
  refine ⟨c, hc, hb, ?_⟩
  obtain ⟨body, hbody, hentry⟩ := Option.map_eq_some_iff.1 hb
  cases hentry
  exact hbody

/-- Blocks run to the next end, over all starts that stand before it. -/
theorem bodies_of_blocks (source : List Char) :
    Bodies "INPUT_PORTS_START" "INPUT_PORTS_END" source ∧ Bodies "ROM_START" "ROM_END" source ∧
      (∀ block ∈ inputBlocks source, ∃ c ∈ calls "INPUT_PORTS_START" source,
        InputBlock.ofCall? c = some block ∧
          before? "INPUT_PORTS_END" c.after = some block.body) ∧
      ∀ device block, (RomBlock.index source).get? device = some block →
        ∃ c ∈ calls "ROM_START" source, RomBlock.ofCall? source c = some (device, block) ∧
          before? "ROM_END" c.after = some block.body :=
  ⟨bodies (by decide) (by decide) source, bodies (by decide) (by decide) source,
    fun _ => exists_call_of_mem_inputBlocks, fun _ _ => RomBlock.exists_call_of_get?_index⟩

/-- An input block without an end, and one with an end behind it. -/
def openInputBlock : List Char :=
  "INPUT_PORTS_START( a )\nINPUT_PORTS_START( b )\n PORT_START(\"IN.0\")\n".toList ++
    "INPUT_PORTS_END\n".toList

def openRomBlock : List Char :=
  "ROM_START( a )\nROM_START( b )\n ROM_REGION( 1, \"maincpu\", 0 )\nROM_END\n".toList

set_option maxRecDepth 4000 in
/-- A block without an end takes in the next block of its kind. -/
theorem not_forall_bodies_hold_no_start :
    (¬ ∀ source, ∀ block ∈ inputBlocks source, calls "INPUT_PORTS_START" block.body = []) ∧
      ¬ ∀ source device block, (RomBlock.index source).get? device = some block →
        calls "ROM_START" block.body = [] := by
  constructor
  · intro hall
    have h := hall openInputBlock
    revert h
    unfold openInputBlock
    repeat rw [String.toList_ofList]
    decide +kernel
  · intro hall
    have h : ((RomBlock.index openRomBlock).get? "a").map
        (fun block => (calls "ROM_START" block.body).length) = some 1 := by
      unfold openRomBlock
      repeat rw [String.toList_ofList]
      decide +kernel
    obtain ⟨block, hb, hlen⟩ := Option.map_eq_some_iff.1 h
    rw [hall openRomBlock "a" block hb] at hlen
    cases hlen

end LcdHandhelds
