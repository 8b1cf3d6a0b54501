import LcdHandhelds.Proofs.Bytewise.Call
import LcdHandhelds.Proofs.Text.Printed

/-!
Where the calls of a name stand in a text. A scan gives nothing but calls of the name, in order and
with disjoint extents, and it misses a call only inside of one that it gives: `allFound_of_calls`.
The induction behind it follows the resumptions of the scan: a name without a group leaves it where
it was but for identifier characters, and a call leaves it behind its parenthesis.
-/
namespace LcdHandhelds.Text

open Bytewise (lastIs lastIs_append lastIs_append_singleton placeOf?_append byteOffset_lt_iff
  callsFrom_of_groupAt?_some groupAt?_name)

/-! ### What stands at a call -/

/--
The call stands in the text behind `before`, with `blanks` between its name and its parenthesis. It
ends just past the parenthesis that closes this one.
-/
structure Call.Placed (name text before blanks : List Char) (c : Call) : Prop where
  text_eq : text = before ++ name ++ blanks ++ '(' :: c.args ++ ')' :: c.after
  place_eq : c.place = before.length
  ended : Ended before
  blank : blanks.all isBlank
  closes : ∃ closing, closingOffset? text (byteLength (before ++ name ++ blanks)) = some closing ∧
    byteOffset text (c.stop text) = closing + 1

/-- Behind `before`, where no identifier is open, the name stands with a group that is closed. -/
def Begun (name text before : List Char) : Prop :=
  Ended before ∧ ∃ blanks rest, blanks.all isBlank ∧ text = before ++ name ++ blanks ++ rest ∧
    (closingOffset? text (byteLength (before ++ name ++ blanks))).isSome

/-- The name behind `before` lies in the extent of the call, behind its start. -/
def Call.Covers (name text before : List Char) (c : Call) : Prop :=
  byteOffset text c.place < byteLength before ∧
    byteLength (before ++ name) < byteOffset text (c.stop text)

theorem lastIs_eq_false_iff {text : List Char} :
    lastIs isWordChar false text = false ↔ Ended text := by
  rcases List.eq_nil_or_concat' text with rfl | ⟨front, d, rfl⟩
  · exact ⟨fun _ => ended_nil, fun _ => rfl⟩
  · rw [lastIs_append_singleton]
    exact ⟨fun h => ended_append_singleton h front, fun h => h d (by simp)⟩

theorem groupAt?_glued (name text : List Char) : groupAt? name true text = none := by
  rw [groupAt?]
  cases name.isPrefixOf? text <;> rfl

theorem closingOffset?_append (front rest : List Char) :
    closingOffset? (front ++ rest) (byteLength front) =
      (Group.ofText? rest).map fun g => byteLength front + 1 + byteLength g.inner := by
  rw [closingOffset?, placeOf?_append]
  simp only [Option.bind_eq_bind, Option.bind_some, List.drop_left]
  cases Group.ofText? rest <;> rfl

theorem byteOffset_append (front rest : List Char) :
    byteOffset (front ++ rest) front.length = byteLength front := by
  rw [byteOffset, List.take_left]

theorem byteOffset_stop (front : List Char) (c : Call) :
    byteOffset (front ++ c.after) (c.stop (front ++ c.after)) = byteLength front := by
  rw [Call.stop, List.length_append, Nat.add_sub_cancel, byteOffset_append]

/-- What stands in front of a group is the name with blanks. -/
theorem groupAt?_blanks {name blanks : List Char} (hblank : blanks.all isBlank) {rest : List Char}
    {g : Group} (hg : Group.ofText? rest = some g) :
    groupAt? name false (name ++ (blanks ++ rest)) = some g := by
  have hskip : skipBlank rest = rest := by
    rw [Group.eq_of_ofText? hg]
    exact skipBlank_eq_self fun c hc => Option.some.inj hc ▸ (by decide)
  rw [groupAt?_name, if_neg Bool.false_ne_true,
    skipBlank_append_of_blank (skipBlank_of_all hblank), hskip, hg]

theorem Begun.exists_groupAt? {name text before : List Char} (h : Begun name text before) :
    ∃ rest g, text = before ++ rest ∧ groupAt? name false rest = some g := by
  obtain ⟨-, blanks, rest, hblank, rfl, hsome⟩ := h
  rw [closingOffset?_append, Option.isSome_map] at hsome
  obtain ⟨g, hg⟩ := Option.isSome_iff_exists.1 hsome
  exact ⟨name ++ (blanks ++ rest), g, by simp only [List.append_assoc], groupAt?_blanks hblank hg⟩

theorem exists_placed_of_groupAt? {name before rest : List Char} {c : Call}
    (hended : Ended before) (hplace : c.place = before.length)
    (hg : groupAt? name false rest = some ⟨c.args, c.after⟩) :
    ∃ blanks, c.Placed name (before ++ rest) before blanks := by
  obtain ⟨tail, htail, hif⟩ := Option.bind_eq_some_iff.1 hg
  obtain rfl := List.isPrefixOf?_eq_some_iff_append_eq.1 htail
  rw [if_neg Bool.false_ne_true] at hif
  have hcut := Group.eq_of_ofText? hif
  have htext : before ++ (name ++ tail) =
      before ++ name ++ tail.takeWhile isBlank ++ skipBlank tail := by
    rw [List.append_assoc _ _ (skipBlank tail), takeWhile_append_skipBlank, List.append_assoc]
  refine ⟨tail.takeWhile isBlank, ?_, hplace, hended, List.all_takeWhile,
    byteLength (before ++ name ++ tail.takeWhile isBlank) + 1 + byteLength c.args, ?_, ?_⟩
  · rw [htext, hcut]
    simp only [List.append_assoc, List.cons_append]
  · rw [htext, closingOffset?_append, hif]
    rfl
  · have hfront : before ++ (name ++ tail) =
        (before ++ name ++ tail.takeWhile isBlank ++ '(' :: c.args ++ [')']) ++ c.after := by
      rw [htext, hcut]
      simp only [List.append_assoc, List.cons_append, List.nil_append]
    have hparen : '('.utf8Size = 1 ∧ ')'.utf8Size = 1 := by decide
    rw [hfront, byteOffset_stop]
    simp only [byteLength_append, byteLength_cons, byteLength_nil, hparen]
    omega

/-! ### What a scan gives -/

/-- A call is found where no identifier is open, and not among the characters passed over. -/
theorem exists_groupAt?_of_mem {name text : List Char} {place skip : Nat} {glued : Bool} {c : Call}
    (h : c ∈ callsFrom name place glued skip text) :
    ∃ before rest, text = before ++ rest ∧ skip ≤ before.length ∧
      c.place = place + before.length ∧ lastIs isWordChar glued before = false ∧
      groupAt? name false rest = some ⟨c.args, c.after⟩ := by
  induction text generalizing place glued skip with
  | nil => simp [callsFrom] at h
  | cons d text ih =>
    have hlater : ∀ {s}, c ∈ callsFrom name (place + 1) (isWordChar d) s text →
        ∃ before rest, d :: text = before ++ rest ∧ s + 1 ≤ before.length ∧
          c.place = place + before.length ∧ lastIs isWordChar glued before = false ∧
          groupAt? name false rest = some ⟨c.args, c.after⟩ := by
      intro s hc
      obtain ⟨before, rest, rfl, hskip, hplace, hopen, hg⟩ := ih hc
      exact ⟨d :: before, rest, rfl, by simpa using hskip, by simp [hplace]; omega, hopen, hg⟩
    cases skip with
    | succ skip => exact hlater h
    | zero =>
      rw [callsFrom_cons] at h
      cases hg : groupAt? name glued (d :: text) with
      | none =>
        rw [hg] at h
        obtain ⟨before, rest, hrest, -, hfound⟩ := hlater h
        exact ⟨before, rest, hrest, Nat.zero_le _, hfound⟩
      | some g =>
        rw [hg] at h
        rcases List.mem_cons.1 h with rfl | h
        · cases glued with
          | true => rw [groupAt?_glued] at hg; cases hg
          | false => exact ⟨[], d :: text, rfl, Nat.le_refl 0, rfl, rfl, hg⟩
        · obtain ⟨before, rest, hrest, -, hfound⟩ := hlater h
          exact ⟨before, rest, hrest, Nat.zero_le _, hfound⟩

/-- A call does not start before the one before it has ended. -/
theorem pairwise_callsFrom (name : List Char) (place : Nat) (glued : Bool) (skip : Nat)
    (text : List Char) :
    (callsFrom name place glued skip text).Pairwise fun c d =>
      place + text.length ≤ d.place + c.after.length := by
  induction text generalizing place glued skip with
  | nil => simp [callsFrom]
  | cons e text ih =>
    have hlater : ∀ s, (callsFrom name (place + 1) (isWordChar e) s text).Pairwise fun c d =>
        place + (e :: text).length ≤ d.place + c.after.length := fun s =>
      (ih (place + 1) (isWordChar e) s).imp fun h => by rw [List.length_cons]; omega
    cases skip with
    | succ skip => exact hlater skip
    | zero =>
      rw [callsFrom_cons]
      cases groupAt? name glued (e :: text) with
      | none => exact hlater _
      | some g =>
        refine List.pairwise_cons.2 ⟨fun d hd => ?_, hlater _⟩
        obtain ⟨before, rest, -, hskip, hplace, -⟩ := exists_groupAt?_of_mem hd
        rw [hplace, List.length_cons]
        dsimp only
        omega

/-- Where no call stands, the scan goes on with the next character. -/
theorem callsFrom_cons_of_none {name : List Char} (hword : name.all isWordChar) {glued : Bool}
    {c : Char} {text : List Char} (h : groupAt? name glued (c :: text) = none) (place : Nat) :
    callsFrom name place glued 0 (c :: text) =
      callsFrom name (place + 1) (isWordChar c) 0 text := by
  have hlook : (lookCall name glued (c :: text)).1 = none := by rw [lookCall, h]
  rw [callsFrom_eq_sweep, callsFrom_eq_sweep, sweep_cons_of_none (inWords_lookCall hword) hlook]

/-- A call that stands in a text is found, or a call that is found ends behind its start. -/
theorem mem_or_exists_over {name : List Char} (hword : name.all isWordChar) {before rest : List Char}
    {g : Group} (hg : groupAt? name false rest = some g) {glued : Bool} (place : Nat)
    (hopen : lastIs isWordChar glued before = false) :
    ⟨place + before.length, g.inner, g.after⟩ ∈ callsFrom name place glued 0 (before ++ rest) ∨
      ∃ d ∈ callsFrom name place glued 0 (before ++ rest),
        d.place < place + before.length ∧ d.after.length < rest.length := by
  induction hn : before.length using Nat.strong_induction_on generalizing before glued place with
  | _ n ih =>
    subst hn
    cases before with
    | nil =>
      obtain rfl : glued = false := hopen
      obtain ⟨c, read, hrest⟩ := exists_read_of_groupAt? hg
      rw [List.nil_append, hrest, callsFrom_cons, ← hrest, hg]
      exact .inl List.mem_cons_self
    | cons b before =>
      rw [List.cons_append]
      cases hb : groupAt? name glued (b :: (before ++ rest)) with
      | none =>
        have hplace : place + (b :: before).length = place + 1 + before.length := by
          rw [List.length_cons]
          omega
        have hopen : lastIs isWordChar (isWordChar b) before = false := hopen
        rw [callsFrom_cons_of_none hword hb, hplace]
        exact ih _ (Nat.lt_succ_self _) (place + 1) hopen rfl
      | some h =>
        obtain ⟨c, read, hread⟩ := exists_read_of_groupAt? hb
        have hcut : b :: before ++ rest = (c :: read ++ [')']) ++ h.after := by
          simpa using hread
        rw [← List.cons_append, hcut] at hb ⊢
        rw [callsFrom_of_groupAt?_some (by simp) hb]
        rcases length_lt_or_append hcut with hover | ⟨middle, hbefore, hafter⟩
        · exact .inr ⟨_, List.mem_cons_self, by simp, hover⟩
        · -- the call ends before the one looked for, and the scan goes on behind it
          have hlen := congrArg List.length hbefore
          rw [List.length_append] at hlen
          have hplace : place + (b :: before).length =
              place + (c :: read ++ [')']).length + middle.length := by
            omega
          have hshort : middle.length < (b :: before).length := by
            rw [hlen]
            simp
          rw [hbefore, lastIs_append] at hopen
          rw [hplace, hafter]
          rcases ih _ hshort (place + (c :: read ++ [')']).length) hopen rfl with
            hmem | ⟨d, hd, hlt, hover⟩
          · exact .inl (List.mem_cons_of_mem _ hmem)
          · exact .inr ⟨d, List.mem_cons_of_mem _ hd, hlt, hover⟩

/-- A call that ends behind the start of the name ends behind the name. -/
theorem length_add_lt_of_over {name before rest front after : List Char} (hword : name.all isWordChar)
    (hname : name <+: rest) (htext : before ++ rest = front ++ ')' :: after)
    (hover : after.length < rest.length) : after.length + name.length < rest.length := by
  obtain ⟨middle, rfl⟩ : ')' :: after <:+ rest :=
    List.suffix_of_suffix_length_le ⟨front, htext.symm⟩ ⟨before, rfl⟩ hover
  have hmiddle : name.length ≤ middle.length := by
    by_contra hlong
    have hparen : middle ++ [')'] <+: name :=
      List.prefix_of_prefix_length_le ⟨after, by simp⟩ hname (by simp; omega)
    have hmem : isWordChar ')' = true :=
      List.all_eq_true.1 hword ')' (hparen.subset (by simp))
    exact absurd hmem (by decide)
  simp only [List.length_append, List.length_cons]
  omega

/-! ### All calls -/

/-- How the calls that a scan gives stand to those that a text has. -/
structure AllFound (name : String) (text : List Char) : Prop where
  sound : ∀ c ∈ calls name text, ∃ before blanks, c.Placed name.toList text before blanks
  /-- The extents lie one behind the other, and none is empty. -/
  apart : (calls name text).Pairwise fun c d =>
    byteOffset text c.place < byteOffset text (c.stop text) ∧
      byteOffset text (c.stop text) ≤ byteOffset text d.place
  complete : ∀ before, Begun name.toList text before →
    (∃ c ∈ calls name text, c.place = before.length) ∨
      ∃ c ∈ calls name text, c.Covers name.toList text before
  /-- A name without a group hides no call behind it: only a call at another place may do so. -/
  unhidden : ∀ before rest, text = before ++ (name.toList ++ rest) →
    Group.ofText? (skipBlank rest) = none →
      ∀ later, Begun name.toList text later → before.length < later.length →
        (∃ c ∈ calls name text, c.place = later.length) ∨
          ∃ c ∈ calls name text, c.place ≠ before.length ∧ c.Covers name.toList text later

section Calls

variable {name : String} {text : List Char} {c : Call}

theorem exists_groupAt?_of_mem_calls (h : c ∈ calls name text) :
    ∃ before rest, text = before ++ rest ∧ c.place = before.length ∧ Ended before ∧
      groupAt? name.toList false rest = some ⟨c.args, c.after⟩ := by
  obtain ⟨before, rest, htext, -, hplace, hopen, hg⟩ := exists_groupAt?_of_mem h
  rw [Nat.zero_add] at hplace
  exact ⟨before, rest, htext, hplace, lastIs_eq_false_iff.1 hopen, hg⟩

theorem exists_placed_of_mem_calls (h : c ∈ calls name text) :
    ∃ before blanks, c.Placed name.toList text before blanks := by
  obtain ⟨before, rest, rfl, hplace, hended, hg⟩ := exists_groupAt?_of_mem_calls h
  exact ⟨before, exists_placed_of_groupAt? hended hplace hg⟩

theorem place_lt_stop_of_mem_calls (h : c ∈ calls name text) :
    c.place < c.stop text ∧ c.stop text ≤ text.length := by
  obtain ⟨before, blanks, rfl, hplace, -⟩ := exists_placed_of_mem_calls h
  simp only [Call.stop, List.length_append, List.length_cons]
  omega

/-- A call over the start of another one has all of its name inside. -/
theorem covers_of_over (hword : name.toList.all isWordChar) {before rest : List Char}
    (hname : name.toList <+: rest) (hc : c ∈ calls name (before ++ rest))
    (hlt : c.place < before.length) (hover : c.after.length < rest.length) :
    c.Covers name.toList (before ++ rest) before := by
  obtain ⟨hstart, hstop⟩ := place_lt_stop_of_mem_calls hc
  have hlen : c.after.length + name.toList.length < rest.length := by
    obtain ⟨before', blanks, htext, -⟩ := exists_placed_of_mem_calls hc
    exact length_add_lt_of_over hword hname htext hover
  have hend : byteOffset (before ++ rest) (before ++ name.toList).length =
      byteLength (before ++ name.toList) := by
    obtain ⟨tail, rfl⟩ := hname
    rw [← List.append_assoc, byteOffset_append]
  have hsize : (before ++ rest).length = before.length + rest.length := List.length_append
  have hbehind : (before ++ name.toList).length < c.stop (before ++ rest) := by
    rw [Call.stop, List.length_append]
    omega
  rw [Call.Covers, ← hend, ← byteOffset_append before rest]
  exact ⟨(byteOffset_lt_iff (by omega) (by omega)).2 hlt,
    (byteOffset_lt_iff (by omega) hstop).2 hbehind⟩

theorem exists_mem_calls_of_begun (hword : name.toList.all isWordChar) {before : List Char}
    (h : Begun name.toList text before) :
    (∃ c ∈ calls name text, c.place = before.length) ∨
      ∃ c ∈ calls name text, c.Covers name.toList text before := by
  obtain ⟨rest, g, rfl, hg⟩ := h.exists_groupAt?
  have hname : name.toList <+: rest := by
    obtain ⟨tail, htail, -⟩ := Option.bind_eq_some_iff.1 hg
    exact ⟨tail, List.isPrefixOf?_eq_some_iff_append_eq.1 htail⟩
  rcases mem_or_exists_over hword hg 0 (lastIs_eq_false_iff.2 h.1) with
    hmem | ⟨c, hc, hlt, hover⟩
  · exact .inl ⟨_, hmem, Nat.zero_add _⟩
  · rw [Nat.zero_add] at hlt
    exact .inr ⟨c, hc, covers_of_over hword hname hc hlt hover⟩

/-- A place where the name has no group is the place of no call. -/
theorem place_ne_of_ofText?_eq_none {before rest : List Char}
    (htext : text = before ++ (name.toList ++ rest))
    (hnone : Group.ofText? (skipBlank rest) = none) (hc : c ∈ calls name text) :
    c.place ≠ before.length := by
  intro hplace
  obtain ⟨before', rest', htext', hplace', -, hg⟩ := exists_groupAt?_of_mem_calls hc
  obtain ⟨rfl, rfl⟩ := List.append_inj (htext.symm.trans htext') (hplace.symm.trans hplace')
  rw [groupAt?_name, if_neg Bool.false_ne_true, hnone] at hg
  cases hg

/-- A scan finds calls only, and every call whose name lies in no other call that it finds. -/
theorem allFound_of_calls (hword : name.toList.all isWordChar) (text : List Char) :
    AllFound name text where
  sound _ := exists_placed_of_mem_calls
  apart := by
    refine (pairwise_callsFrom name.toList 0 false 0 text).imp_of_mem fun {c d} hc hd h => ?_
    obtain ⟨hstart, hstop⟩ := place_lt_stop_of_mem_calls hc
    have hnext := place_lt_stop_of_mem_calls hd
    refine ⟨(byteOffset_lt_iff (by omega) hstop).2 hstart, ?_⟩
    rw [← Nat.not_lt, byteOffset_lt_iff (by omega) hstop, Call.stop]
    omega
  complete _ := exists_mem_calls_of_begun hword
  unhidden before rest htext hnone later hlater hlt := by
    refine (exists_mem_calls_of_begun hword hlater).imp_right ?_
    rintro ⟨c, hc, hcovers⟩
    exact ⟨c, hc, place_ne_of_ofText?_eq_none htext hnone hc, hcovers⟩

end Calls

/-- Names inside of another word, without a group, with blanks before it, and in another call. -/
def nestedCalls : List Char :=
  "af(0) f( f (1) \"(\" f(f(2))".toList

/-- The name without a group does not hide the calls behind it, and one call is inside another. -/
theorem allFound_nestedCalls :
    "f".toList.all isWordChar ∧ AllFound "f" nestedCalls ∧
      (calls "f" nestedCalls).map (fun c => (c.place, String.ofList c.args)) =
        [(9, "1"), (19, "f(2)")] := by
  refine ⟨by decide, allFound_of_calls (by decide) nestedCalls, ?_⟩
  unfold nestedCalls
  rw [String.toList_ofList]
  decide +kernel

end LcdHandhelds.Text
