import LcdHandhelds.Machine.DriverClass
import LcdHandhelds.Proofs.Bytewise.Scan

/-!
Readers, calls and argument lists by byte offsets. The search for calls starts again behind each
name that it finds; a name that is not empty brings it forward, so it comes to the end of the text.
-/
namespace LcdHandhelds.Bytewise

open Text

/-! ### Readers -/

/-- A text, and the offset up to which it is read. -/
structure Reader where
  text : List Char
  position : Nat

namespace Reader

/-- What is left to read. -/
def rest (r : Reader) : Checked (List Char) :=
  sliceFrom r.text r.position

/-- Skips blanks, and says how many bytes they took. -/
def skipBlank (r : Reader) : Checked (Nat × Reader) := do
  let rest ← r.rest
  let skipped ← minus (byteLength rest) (byteLength (Text.skipBlank rest))
  return (skipped, ⟨r.text, r.position + skipped⟩)

/-- Skips blanks, of which there has to be one. -/
def space (r : Reader) : Attempt Reader := do
  let (skipped, r) ← r.skipBlank
  if skipped = 0 then failure else return r

/-- Steps over a token. -/
def eat (token : List Char) (r : Reader) : Attempt Reader := do
  let rest ← r.rest
  if token.isPrefixOf rest then return ⟨r.text, r.position + byteLength token⟩ else failure

/-- Steps over a token, and over blanks before it. -/
def eatNext (token : String) (r : Reader) : Attempt Reader := do
  let (_, r) ← r.skipBlank
  r.eat token.toList

/-- Steps over an identifier. -/
def identifier (r : Reader) : Attempt (List Char × Reader) := do
  let rest ← r.rest
  let length := ((bytes rest).takeWhile isWordByte).length
  if length = 0 then failure
  else
    let name ← slice rest 0 length
    return (name, ⟨r.text, r.position + length⟩)

/-- The reader is in `text`, and `rest` is left to read. -/
structure On (text : List Char) (r : Reader) (rest : List Char) : Prop where
  same : r.text = text
  ahead : Ahead text r.position rest

variable {text left : List Char} {r : Reader}

theorem rest_eq (h : On text r left) : r.rest = .ok left := by
  rw [rest, h.same, h.ahead.sliceFrom_eq]

theorem On.forward {read : List Char} (h : On text r (read ++ left)) :
    On text ⟨r.text, r.position + byteLength read⟩ left :=
  ⟨h.same, h.ahead.forward⟩

theorem skipBlank_eq (h : On text r left) :
    r.skipBlank = .ok (byteLength (left.takeWhile isBlank),
      ⟨r.text, r.position + byteLength (left.takeWhile isBlank)⟩) := by
  have hlength : byteLength left =
      byteLength (left.takeWhile isBlank) + byteLength (Text.skipBlank left) := by
    rw [← byteLength_append, takeWhile_append_skipBlank]
  rw [skipBlank, rest_eq h, ok_bind, hlength, minus_add]
  rfl

theorem on_skipBlank (h : On text r left) :
    On text ⟨r.text, r.position + byteLength (left.takeWhile isBlank)⟩ (Text.skipBlank left) :=
  On.forward (by rwa [takeWhile_append_skipBlank])

theorem finds_space (h : On text r left) : Finds (On text) r.space (space? left) := by
  refine .ok_bind (skipBlank_eq h) ?_
  have hon := on_skipBlank h
  cases left with
  | nil => exact .failure
  | cons c left =>
    rw [space?]
    rw [skipBlank_cons] at hon
    by_cases hc : isBlank c
    · have hpos := c.utf8Size_pos
      rw [if_pos hc] at hon ⊢
      dsimp only
      rw [List.takeWhile_cons, if_pos hc, if_neg (by rw [byteLength_cons]; omega)]
      rw [List.takeWhile_cons, if_pos hc] at hon
      exact .pure hon
    · rw [if_neg hc]
      dsimp only
      rw [List.takeWhile_cons, if_neg hc]
      exact .failure

theorem finds_eat (token : List Char) (h : On text r left) :
    Finds (On text) (r.eat token) (token.isPrefixOf? left) := by
  refine .ok_bind (rest_eq h) ?_
  cases htoken : token.isPrefixOf? left with
  | none =>
    rw [isPrefixOf_eq_false htoken]
    exact .failure
  | some after =>
    obtain rfl := List.isPrefixOf?_eq_some_iff_append_eq.1 htoken
    rw [if_pos (List.isPrefixOf_iff_prefix.2 ⟨after, rfl⟩)]
    exact .pure h.forward

theorem finds_eatNext (token : String) (h : On text r left) :
    Finds (On text) (r.eatNext token) (token? token left) := by
  refine .ok_bind (skipBlank_eq h) ?_
  exact finds_eat token.toList (on_skipBlank h)

theorem finds_identifier (h : On text r left) :
    Finds (fun a b => a.1 = b.1 ∧ On text a.2 b.2) r.identifier (identifier? left) := by
  refine .ok_bind (rest_eq h) ?_
  have hrun : ((bytes left).takeWhile isWordByte).length =
      byteLength (left.takeWhile isWordChar) := by
    rw [← length_bytes, ← takeWhile_bytes onAscii_isWordChar]
    rfl
  have hcut := slice_append (left.takeWhile isWordChar) (left.dropWhile isWordChar)
  have hon : On text r (left.takeWhile isWordChar ++ left.dropWhile isWordChar) := by
    rwa [List.takeWhile_append_dropWhile]
  rw [List.takeWhile_append_dropWhile] at hcut
  rw [hrun, identifier?]
  cases hname : left.takeWhile isWordChar with
  | nil => exact .failure
  | cons c name =>
    rw [hname] at hon hcut
    rw [if_neg (byteLength_ne_zero (List.cons_ne_nil c name))]
    exact .ok_bind hcut (.pure ⟨rfl, hon.forward⟩)

end Reader

/-! ### Calls -/

/-- The offset of a call's name, the text between its parentheses, and the offset past them. -/
structure Call where
  start : Nat
  args : List Char
  stop : Nat

/-- The call whose name stands at an offset. -/
def callAt (text name : List Char) (start : Nat) : Attempt Call := do
  if ← startsWord text start then
    let (_, r) ← Reader.skipBlank ⟨text, start + byteLength name⟩
    let closing ← OptionT.mk (matchingParen text r.position)
    let args ← slice text (r.position + 1) closing
    return ⟨start, args, closing + 1⟩
  else failure

/-- The calls of a name from `resume` on, in at most `turns` searches. -/
def callsFrom (text name : List Char) : (turns resume : Nat) → Checked (List Call)
  | 0, _ => throw .endless
  | turns + 1, resume => do
    match find? name (← sliceFrom text resume) with
    | none => return []
    | some found =>
      let start := resume + found
      match ← (callAt text name start).run with
      | some call => return call :: (← callsFrom text name turns call.stop)
      | none => callsFrom text name turns (start + byteLength name)

/-- The calls of a name. Each search gets on by a byte at least. -/
def calls (name : String) (text : List Char) : Checked (List Call) :=
  callsFrom text name.toList (byteLength text + 1) 0

/-- A call by offsets stands for a call: it starts and ends where that does, and holds its text. -/
structure Call.Stands (text : List Char) (b : Call) (c : Text.Call) : Prop where
  place : c.place ≤ text.length
  start : b.start = byteOffset text c.place
  args : b.args = c.args
  ahead : Ahead text b.stop c.after

/-! ### The scan for calls -/

/-- Characters that belong to what was found are passed over. -/
theorem callsFrom_read (name : List Char) (place : Nat) (glued : Bool) (read rest : List Char) :
    Text.callsFrom name place glued read.length (read ++ rest) =
      Text.callsFrom name (place + read.length) (lastIs isWordChar glued read) 0 rest := by
  induction read generalizing place glued with
  | nil => rfl
  | cons c read ih =>
    rw [List.length_cons, List.cons_append, Text.callsFrom, ih, Nat.add_assoc, Nat.add_comm 1]
    rfl

/-- Where the name does not stand, the scan goes on with the next character. -/
theorem callsFrom_cons_of_noName {name text : List Char} {c : Char} (h : ¬ name <+: c :: text)
    (place : Nat) (glued : Bool) : Text.callsFrom name place glued 0 (c :: text) =
      Text.callsFrom name (place + 1) (isWordChar c) 0 text := by
  have hnone : groupAt? name glued (c :: text) = none := by
    rw [groupAt?, Option.bind_eq_none_iff]
    intro rest hrest
    exact absurd ⟨rest, List.isPrefixOf?_eq_some_iff_append_eq.1 hrest⟩ h
  rw [callsFrom_cons, hnone, stride, if_neg h]

/-- Up to the first occurrence of its name, a text holds no call. -/
theorem callsFrom_of_splitBefore? {name text before rest : List Char} (hne : name ≠ [])
    (h : splitBefore? name [] text = some (before, rest)) (place : Nat) (glued : Bool) :
    text = before ++ rest ∧ name <+: rest ∧ Text.callsFrom name place glued 0 text =
      Text.callsFrom name (place + before.length) (lastIs isWordChar glued before) 0 rest := by
  induction text generalizing before place glued with
  | nil => simp [splitBefore?, hne] at h
  | cons c text ih =>
    rw [splitBefore?] at h
    split at h
    next hprefix =>
      obtain ⟨rfl, rfl⟩ := Prod.mk.inj (Option.some.inj h)
      exact ⟨rfl, List.isPrefixOf_iff_prefix.1 hprefix, rfl⟩
    next hprefix =>
      rw [splitBefore?_eq] at h
      obtain ⟨p, hp, h⟩ := Option.map_eq_some_iff.1 h
      obtain ⟨rfl, rfl⟩ := Prod.mk.inj h
      obtain ⟨htext, hname, hcalls⟩ := ih hp (place + 1) (isWordChar c)
      have hnot : ¬ name <+: c :: text := fun hn => hprefix (List.isPrefixOf_iff_prefix.2 hn)
      refine ⟨congrArg (c :: ·) htext, hname, ?_⟩
      rw [callsFrom_cons_of_noName hnot, hcalls, Nat.add_assoc, Nat.add_comm 1]
      rfl

theorem callsFrom_eq_nil {name text : List Char} (h : splitBefore? name [] text = none)
    (place : Nat) (glued : Bool) : Text.callsFrom name place glued 0 text = [] := by
  induction text generalizing place glued with
  | nil => rfl
  | cons c text ih =>
    rw [splitBefore?] at h
    split at h
    · cases h
    next hprefix =>
      rw [splitBefore?_eq, Option.map_eq_none_iff] at h
      have hnot : ¬ name <+: c :: text := fun hn => hprefix (List.isPrefixOf_iff_prefix.2 hn)
      rw [callsFrom_cons_of_noName hnot, ih h]

theorem groupAt?_name (name rest : List Char) (glued : Bool) :
    groupAt? name glued (name ++ rest) =
      if glued then none else Group.ofText? (skipBlank rest) := by
  rw [groupAt?, List.isPrefixOf?_eq_some_iff_append_eq.2 rfl, Option.bind_some]

/-- After a name without a group, the scan goes on behind the name. -/
theorem callsFrom_of_groupAt?_none {name rest : List Char} (hne : name ≠ []) {glued : Bool}
    (h : groupAt? name glued (name ++ rest) = none) (place : Nat) :
    Text.callsFrom name place glued 0 (name ++ rest) =
      Text.callsFrom name (place + name.length) (lastIs isWordChar glued name) 0 rest := by
  obtain ⟨c, tail, rfl⟩ := List.exists_cons_of_ne_nil hne
  have hstride : stride (c :: tail) (c :: (tail ++ rest)) = tail.length := by
    rw [stride, if_pos ⟨rest, rfl⟩, List.length_cons, Nat.add_sub_cancel]
  rw [List.cons_append] at h ⊢
  rw [callsFrom_cons, h, hstride, List.length_cons, Nat.add_comm tail.length, ← Nat.add_assoc]
  exact callsFrom_read (c :: tail) (place + 1) (isWordChar c) tail rest

/-- After a call, the scan goes on behind what was read of it. -/
theorem callsFrom_of_groupAt?_some {name read : List Char} (hne : read ≠ []) {glued : Bool}
    {g : Group} (h : groupAt? name glued (read ++ g.after) = some g) (place : Nat) :
    Text.callsFrom name place glued 0 (read ++ g.after) = ⟨place, g.inner, g.after⟩ ::
      Text.callsFrom name (place + read.length) (lastIs isWordChar glued read) 0 g.after := by
  obtain ⟨c, tail, rfl⟩ := List.exists_cons_of_ne_nil hne
  rw [List.cons_append] at h ⊢
  rw [callsFrom_cons, h]
  dsimp only
  rw [List.length_append, Nat.add_sub_cancel, List.length_cons, Nat.add_comm tail.length,
    ← Nat.add_assoc]
  exact congrArg _ (callsFrom_read name (place + 1) (isWordChar c) tail g.after)

/-- The call at a name is the group behind it. -/
theorem finds_callAt (front name after : List Char) :
    Finds (fun b g => b.start = byteLength front ∧ b.args = g.inner ∧
        Ahead (front ++ (name ++ after)) b.stop g.after)
      (callAt (front ++ (name ++ after)) name (byteLength front))
      (groupAt? name (lastIs isWordChar false front) (name ++ after)) := by
  rw [groupAt?_name]
  refine .ok_bind (startsWord_append front _) ?_
  cases lastIs isWordChar false front with
  | true => exact .failure
  | false =>
    have hon : Reader.On (front ++ (name ++ after))
        ⟨front ++ (name ++ after), byteLength front + byteLength name⟩ after :=
      ⟨rfl, (Ahead.of_append front (name ++ after)).forward⟩
    refine .ok_bind (Reader.skipBlank_eq hon) ?_
    rw [if_neg Bool.false_ne_true, ← Option.bind_fun_some (Group.ofText? _)]
    refine (Finds.mk (gives_matchingParen (Reader.on_skipBlank hon).ahead)).bind ?_
    intro closing g h
    exact .ok_bind h.inner (.pure ⟨rfl, rfl, h.ahead⟩)

/-- From every place of the text, the searches find the calls that are left. -/
def FindsRest (text name : List Char) (turns : Nat) : Prop :=
  ∀ front rest, text = front ++ rest → byteLength rest < turns →
    Gives (List.Forall₂ (Call.Stands text)) (callsFrom text name turns (byteLength front))
      (Text.callsFrom name front.length (lastIs isWordChar false front) 0 rest)

namespace FindsRest

variable {text name front rest : List Char} {turns : Nat}

theorem behind (h : FindsRest text name turns) {read : List Char} {offset : Nat}
    (htext : text = front ++ (read ++ rest)) (hturns : byteLength rest < turns)
    (hoffset : Ahead text offset rest) :
    Gives (List.Forall₂ (Call.Stands text)) (callsFrom text name turns offset)
      (Text.callsFrom name (front.length + read.length)
        (lastIs isWordChar (lastIs isWordChar false front) read) 0 rest) := by
  rw [← List.append_assoc] at htext
  have hrest := h (front ++ read) rest htext hturns
  rw [List.length_append, lastIs_append] at hrest
  rwa [hoffset.unique ⟨front ++ read, htext, rfl⟩]

/-- A call that is found comes before those that are left behind it. -/
theorem cons (h : FindsRest text name turns) {call : Call} {g : Group}
    (htext : text = front ++ rest) (hturns : byteLength rest ≤ turns)
    (hgroup : groupAt? name (lastIs isWordChar false front) rest = some g)
    (hstart : call.start = byteLength front) (hargs : call.args = g.inner)
    (hstop : Ahead text call.stop g.after) :
    Gives (List.Forall₂ (Call.Stands text))
      (do return call :: (← callsFrom text name turns call.stop))
      (Text.callsFrom name front.length (lastIs isWordChar false front) 0 rest) := by
  obtain ⟨c, read, hread⟩ := exists_read_of_groupAt? hgroup
  obtain rfl : rest = (c :: (read ++ [')'])) ++ g.after := by simpa using hread
  have hpos := byteLength_ne_zero (List.cons_ne_nil c (read ++ [')']))
  rw [byteLength_append] at hturns
  obtain ⟨later, hlater, hall⟩ := h.behind htext (by omega) hstop
  rw [callsFrom_of_groupAt?_some (List.cons_ne_nil c _) hgroup, hlater]
  exact gives_ok (.cons ⟨by simp [htext], by simp [htext, byteOffset, hstart], hargs, hstop⟩ hall)

end FindsRest

/-- Every search finds what the scan finds next, and none starts behind the end of the text. -/
theorem findsRest {name : List Char} (hne : name ≠ []) (text : List Char) (turns : Nat) :
    FindsRest text name turns := by
  induction turns with
  | zero => exact fun _ _ _ h => absurd h (Nat.not_lt_zero _)
  | succ turns ih =>
    intro front rest htext hturns
    rw [callsFrom, Ahead.sliceFrom_eq ⟨front, htext, rfl⟩, ok_bind, find?]
    cases hsplit : splitBefore? name [] rest with
    | none =>
      rw [callsFrom_eq_nil hsplit]
      exact gives_ok .nil
    | some p =>
      obtain ⟨before, tail⟩ := p
      obtain ⟨rfl, ⟨after, rfl⟩, hcalls⟩ :=
        callsFrom_of_splitBefore? hne hsplit front.length (lastIs isWordChar false front)
      have hpos := byteLength_ne_zero hne
      rw [byteLength_append, byteLength_append] at hturns
      rw [hcalls, ← lastIs_append, ← List.length_append, Option.map_some]
      dsimp only
      rw [← byteLength_append]
      rw [← List.append_assoc] at htext
      generalize front ++ before = front at htext
      subst htext
      obtain ⟨found, hfound, hrel⟩ := finds_callAt front name after
      rw [hfound, ok_bind]
      generalize hgroup : groupAt? name (lastIs isWordChar false front) (name ++ after) = group
        at hrel
      cases hrel with
      | none =>
        rw [callsFrom_of_groupAt?_none hne hgroup]
        exact ih.behind rfl (by omega) (Ahead.of_append front (name ++ after)).forward
      | some h =>
        obtain ⟨hstart, hargs, hstop⟩ := h
        exact ih.cons rfl (by rw [byteLength_append]; omega) hgroup hstart hargs hstop

theorem gives_calls {name : String} (hne : name ≠ "") (text : List Char) :
    Gives (List.Forall₂ (Call.Stands text)) (calls name text) (Text.calls name text) :=
  findsRest (by simpa using hne) text (byteLength text + 1) [] text rfl (Nat.lt_succ_self _)

/--
A search for the empty name never ends, however many turns it has: it stays where it is, unless there
is a call, and behind a call it is a search again.
-/
theorem callsFrom_empty {text rest : List Char} (turns : Nat) (front : List Char)
    (htext : text = front ++ rest) :
    callsFrom text [] turns (byteLength front) = .error .endless := by
  induction turns generalizing front rest with
  | zero => rfl
  | succ turns ih =>
    have hfind : find? [] rest = some 0 := by cases rest <;> rfl
    rw [callsFrom, Ahead.sliceFrom_eq ⟨front, htext, rfl⟩, ok_bind, hfind]
    obtain ⟨found, hfound, hrel⟩ := finds_callAt front [] rest
    rw [List.nil_append, ← htext] at hfound hrel
    dsimp only
    rw [Nat.add_zero, hfound, ok_bind]
    generalize groupAt? [] (lastIs isWordChar false front) rest = group at hrel
    cases hrel with
    | none => exact ih front htext
    | some h =>
      obtain ⟨-, -, front', htext', hoffset⟩ := h
      dsimp only
      rw [hoffset, ih front' htext']
      rfl

theorem calls_empty (text : List Char) : calls "" text = .error .endless :=
  callsFrom_empty _ [] rfl

/-! ### Arguments -/

/-- The trimmed pieces of a text: the bytes start at `offset`, the open piece at `start`. -/
def piecesFrom (text : List Char) :
    (start offset depth : Nat) → Quoting → List UInt8 → Checked (List (List Char))
  | start, _, _, _, [] => return [trim (← sliceFrom text start)]
  | start, offset, depth, quoting, b :: rest =>
    if depth = 0 ∧ quoting = .plain ∧ Char.ofUInt8 b = ',' then do
      let piece ← slice text start offset
      return trim piece :: (← piecesFrom text (offset + 1) (offset + 1) 0 .plain rest)
    else
      piecesFrom text start (offset + 1) (depthAfter quoting depth (Char.ofUInt8 b))
        (quoting.next (Char.ofUInt8 b)) rest

/-- The trimmed arguments of a list. -/
def arguments (text : List Char) : Checked (List (List Char)) :=
  if (trim text).isEmpty then return [] else piecesFrom text 0 0 0 .plain (bytes text)

theorem depthAfter_of_le {c : Char} (hc : 128 ≤ c.toNat) (quoting : Quoting) (depth : Nat) :
    depthAfter quoting depth c = depth := by
  have hother : ∀ d : Char, d.toNat < 128 → ¬ (quoting = .plain ∧ c = d) :=
    fun d hd h => ne_of_le hc hd h.2
  rw [depthAfter, if_neg (hother _ (by decide)), if_neg (hother _ (by decide))]

theorem piecesFrom_character (text : List Char) (start offset depth : Nat) (quoting : Quoting)
    (c : Char) (rest : List UInt8) :
    piecesFrom text start offset depth quoting (String.utf8EncodeChar c ++ rest) =
      if depth = 0 ∧ quoting = .plain ∧ c = ',' then do
        let piece ← slice text start offset
        return trim piece :: (← piecesFrom text (offset + 1) (offset + 1) 0 .plain rest)
      else
        piecesFrom text start (offset + c.utf8Size) (depthAfter quoting depth c) (quoting.next c)
          rest := by
  by_cases hc : c.toNat < 128
  · rw [utf8EncodeChar_of_lt hc, List.singleton_append, piecesFrom, ofUInt8_ofNat hc,
      utf8Size_of_lt hc]
  · have hhigh : 128 ≤ c.toNat := Nat.le_of_not_lt hc
    rw [if_neg (fun h => ne_of_le hhigh (by decide) h.2.2), depthAfter_of_le hhigh]
    refine pass_character (piecesFrom text start · depth) (fun offset quoting b rest hb => ?_)
      hhigh offset quoting rest
    have hother : ¬ (depth = 0 ∧ quoting = .plain ∧ Char.ofUInt8 b = ',') :=
      fun h => ne_of_le (c := Char.ofUInt8 b) hb (by decide) h.2.2
    rw [piecesFrom, if_neg hother, depthAfter_of_le (c := Char.ofUInt8 b) hb]

theorem piecesFrom_eq {text : List Char} (depth : Nat) (quoting : Quoting) (piece rest : List Char)
    {start : Nat} (h : Ahead text start (piece.reverse ++ rest)) :
    piecesFrom text start (start + byteLength piece.reverse) depth quoting (bytes rest) =
      .ok ((Text.piecesFrom depth quoting piece rest).map trim) := by
  induction rest generalizing depth quoting piece start with
  | nil =>
    rw [List.append_nil] at h
    rw [bytes_nil, piecesFrom, h.sliceFrom_eq]
    rfl
  | cons c rest ih =>
    rw [bytes_cons, piecesFrom_character, piecesFrom_cons]
    split
    next hcomma =>
      obtain ⟨rfl, rfl, rfl⟩ := hcomma
      have hnext := ih 0 .plain [] (h.forward.forward_ascii (by decide))
      rw [h.slice_eq, ok_bind]
      rw [List.reverse_nil, byteLength_nil, Nat.add_zero] at hnext
      rw [hnext]
      rfl
    · have hnext := ih (depthAfter quoting depth c) (quoting.next c) (c :: piece) (by simpa using h)
      simpa [Nat.add_assoc] using hnext

theorem isEmpty_trim (text : List Char) : (trim text).isEmpty = text.all isBlank := by
  have hskip : ∀ s : List Char, Text.skipBlank s = [] ↔ ∀ c ∈ s, isBlank c = true :=
    fun s => List.dropWhile_eq_nil_iff
  rw [Bool.eq_iff_iff, List.isEmpty_iff, List.all_eq_true, trim, List.reverse_eq_nil_iff, hskip]
  constructor
  · intro h c hc
    rw [← takeWhile_append_skipBlank text, List.mem_append] at hc
    rcases hc with hc | hc
    · exact List.mem_takeWhile_imp hc
    · exact h c (List.mem_reverse.2 hc)
  · intro h c hc
    exact h c ((List.dropWhile_suffix _).subset (List.mem_reverse.1 hc))

theorem arguments_eq (text : List Char) : arguments text = .ok (Text.arguments text) := by
  rw [arguments, Text.arguments, isEmpty_trim]
  split
  · rfl
  · exact piecesFrom_eq 0 .plain [] text (Ahead.start text)

end LcdHandhelds.Bytewise
