import Mathlib.Data.List.Basic
import LcdHandhelds.Text.Call

/-!
Calls in a part of a text. A group that closes within the front of a text is the same group there
(`Group.close?_append`, `Group.close?_cut`), so a call that ends before a cut is still found when the
text is cut off, and a call that is found then was begun before the cut.
-/
namespace LcdHandhelds.Text

namespace Group

theorem close?_cons (depth : Nat) (quoting : Quoting) (inner : List Char) (c : Char)
    (text : List Char) :
    close? depth quoting inner (c :: text) =
      if quoting = .plain ∧ c = ')' then
        match depth with
        | 0 => some ⟨inner.reverse, text⟩
        | depth + 1 => close? depth .plain (')' :: inner) text
      else if quoting = .plain ∧ c = '(' then close? (depth + 1) .plain ('(' :: inner) text
      else close? depth (quoting.next c) (c :: inner) text := by
  by_cases hclose : quoting = .plain ∧ c = ')'
  · obtain ⟨rfl, rfl⟩ := hclose
    cases depth <;> simp [close?]
  · by_cases hopen : quoting = .plain ∧ c = '('
    · obtain ⟨rfl, rfl⟩ := hopen
      simp [close?]
    · rw [if_neg hclose, if_neg hopen, close?]
      · exact fun hq hc => hopen ⟨hq, hc⟩
      · exact fun _ hq hc => hclose ⟨hq, hc⟩
      · exact fun _ _ hq hc => hclose ⟨hq, hc⟩

/-- A group ends with its parenthesis. -/
theorem exists_append_of_close? {depth : Nat} {quoting : Quoting} {inner text : List Char}
    {g : Group} (h : close? depth quoting inner text = some g) :
    ∃ read, text = read ++ ')' :: g.after := by
  induction text generalizing depth quoting inner with
  | nil => simp [close?] at h
  | cons c text ih =>
    rw [close?_cons] at h
    have hstep : ∀ {d q i}, close? d q i text = some g → ∃ read, c :: text = read ++ ')' :: g.after :=
      fun h => let ⟨read, hr⟩ := ih h; ⟨c :: read, by rw [hr, List.cons_append]⟩
    split at h
    next hclose =>
      cases depth with
      | zero =>
        cases h
        exact ⟨[], by rw [hclose.2, List.nil_append]⟩
      | succ depth => exact hstep h
    · split at h
      · exact hstep h
      · exact hstep h

theorem close?_append {depth : Nat} {quoting : Quoting} {inner text : List Char} {g : Group}
    (h : close? depth quoting inner text = some g) (tail : List Char) :
    close? depth quoting inner (text ++ tail) = some ⟨g.inner, g.after ++ tail⟩ := by
  induction text generalizing depth quoting inner with
  | nil => simp [close?] at h
  | cons c text ih =>
    rw [List.cons_append, close?_cons]
    rw [close?_cons] at h
    split at h
    next hclose =>
      rw [if_pos hclose]
      cases depth with
      | zero => cases h; rfl
      | succ depth => exact ih h
    next hclose =>
      rw [if_neg hclose]
      split at h
      next hopen =>
        rw [if_pos hopen]
        exact ih h
      next hopen =>
        rw [if_neg hopen]
        exact ih h

/-- A group that closes before the tail of a text does not need the tail. -/
theorem close?_cut {depth : Nat} {quoting : Quoting} {inner text tail : List Char} {g : Group}
    (h : close? depth quoting inner (text ++ tail) = some g)
    (hlen : tail.length ≤ g.after.length) :
    ∃ after, close? depth quoting inner text = some ⟨g.inner, after⟩ ∧ g.after = after ++ tail := by
  induction text generalizing depth quoting inner with
  | nil =>
    obtain ⟨read, hr⟩ := exists_append_of_close? h
    have hl := congrArg List.length hr
    simp only [List.nil_append, List.length_append, List.length_cons] at hl
    omega
  | cons c text ih =>
    rw [List.cons_append, close?_cons] at h
    rw [close?_cons]
    split at h
    next hclose =>
      rw [if_pos hclose]
      cases depth with
      | zero =>
        cases h
        exact ⟨text, rfl, rfl⟩
      | succ depth => exact ih h
    next hclose =>
      rw [if_neg hclose]
      split at h
      next hopen =>
        rw [if_pos hopen]
        exact ih h
      next hopen =>
        rw [if_neg hopen]
        exact ih h

end Group

/-! ### One call -/

/-- The group of the call that stands at the front of a text, if one does. -/
def groupAt? (name : List Char) (glued : Bool) (text : List Char) : Option Group :=
  (name.isPrefixOf? text).bind fun rest =>
    if glued then none else Group.ofText? (skipBlank rest)

/-- How many characters a scan passes over after one where no call stands. -/
def stride (name text : List Char) : Nat :=
  if name <+: text then name.length - 1 else 0

theorem skipBlank_append {text : List Char} (h : skipBlank text ≠ []) (tail : List Char) :
    skipBlank (text ++ tail) = skipBlank text ++ tail := by
  induction text with
  | nil => exact absurd rfl h
  | cons c text ih =>
    rw [List.cons_append, skipBlank_cons, skipBlank_cons]
    rw [skipBlank_cons] at h
    split
    next hc =>
      rw [if_pos hc] at h
      exact ih h
    · rfl

theorem skipBlank_append_of_blank {text : List Char} (h : skipBlank text = [])
    (tail : List Char) : skipBlank (text ++ tail) = skipBlank tail := by
  induction text with
  | nil => rfl
  | cons c text ih =>
    rw [skipBlank_cons] at h
    split at h
    next hc =>
      rw [List.cons_append, skipBlank_cons, if_pos hc]
      exact ih h
    · cases h

theorem eq_of_ofText?_skipBlank {text : List Char} {g : Group}
    (h : Group.ofText? (skipBlank text) = some g) :
    text = text.takeWhile isBlank ++ '(' :: g.inner ++ ')' :: g.after := by
  conv_lhs => rw [← takeWhile_append_skipBlank text, Group.eq_of_ofText? h]
  simp only [List.cons_append, List.append_assoc]

/-- The text of a call: its name, blanks, and the group. -/
theorem eq_of_groupAt? {name text : List Char} {glued : Bool} {g : Group}
    (h : groupAt? name glued text = some g) :
    ∃ blanks, blanks.all isBlank ∧
      text = name ++ blanks ++ '(' :: g.inner ++ ')' :: g.after := by
  obtain ⟨rest, hr, hg⟩ := Option.bind_eq_some_iff.1 h
  rw [List.isPrefixOf?_eq_some_iff_append_eq] at hr
  split at hg
  · cases hg
  · refine ⟨rest.takeWhile isBlank, List.all_takeWhile, ?_⟩
    rw [← hr]
    conv_lhs => rw [eq_of_ofText?_skipBlank hg]
    simp only [List.append_assoc]

/-- A call takes at least one character before the parenthesis that closes it. -/
theorem exists_read_of_groupAt? {name text : List Char} {glued : Bool} {g : Group}
    (h : groupAt? name glued text = some g) :
    ∃ c read, text = c :: (read ++ ')' :: g.after) := by
  obtain ⟨blanks, -, rfl⟩ := eq_of_groupAt? h
  cases name ++ blanks with
  | nil => exact ⟨'(', g.inner, rfl⟩
  | cons c front => exact ⟨c, front ++ '(' :: g.inner, rfl⟩

theorem groupAt?_append {name text : List Char} {glued : Bool} {g : Group}
    (h : groupAt? name glued text = some g) (tail : List Char) :
    groupAt? name glued (text ++ tail) = some ⟨g.inner, g.after ++ tail⟩ := by
  obtain ⟨rest, hr, hg⟩ := Option.bind_eq_some_iff.1 h
  rw [List.isPrefixOf?_eq_some_iff_append_eq] at hr
  split at hg
  · cases hg
  next hglued =>
    have hname : name.isPrefixOf? (text ++ tail) = some (rest ++ tail) := by
      rw [List.isPrefixOf?_eq_some_iff_append_eq, ← hr, List.append_assoc]
    rw [groupAt?, hname, Option.bind_some, if_neg hglued]
    unfold Group.ofText? at hg
    split at hg
    next inner hb =>
      have hne : skipBlank rest ≠ [] := by rw [hb]; exact List.cons_ne_nil _ _
      rw [skipBlank_append hne, hb]
      exact Group.close?_append hg tail
    · cases hg

/-- A group that ends before the tail of a text does not need the tail. -/
theorem Group.ofText?_cut {text tail : List Char} {g : Group}
    (h : Group.ofText? (skipBlank (text ++ tail)) = some g) (hlen : tail.length ≤ g.after.length) :
    ∃ after, Group.ofText? (skipBlank text) = some ⟨g.inner, after⟩ ∧ g.after = after ++ tail := by
  by_cases hblank : skipBlank text = []
  · -- the group would begin in the tail
    rw [skipBlank_append_of_blank hblank] at h
    have hl := congrArg List.length (Group.eq_of_ofText? h)
    have hle := length_skipBlank_le tail
    simp only [List.length_append, List.length_cons] at hl
    omega
  · rw [skipBlank_append hblank] at h
    obtain ⟨c, inner, hs⟩ := List.exists_cons_of_ne_nil hblank
    rw [hs, List.cons_append] at h
    rw [hs]
    unfold Group.ofText? at h ⊢
    split at h
    next text hc =>
      obtain ⟨rfl, rfl⟩ := List.cons.inj hc
      exact Group.close?_cut h hlen
    · cases h

/-- A call that ends before the tail of a text does not need the tail. -/
theorem groupAt?_cut {name text tail : List Char} {glued : Bool} {g : Group}
    (h : groupAt? name glued (text ++ tail) = some g) (hlen : tail.length ≤ g.after.length) :
    ∃ after, groupAt? name glued text = some ⟨g.inner, after⟩ ∧ g.after = after ++ tail := by
  obtain ⟨rest, hr, hg⟩ := Option.bind_eq_some_iff.1 h
  rw [List.isPrefixOf?_eq_some_iff_append_eq] at hr
  split at hg
  · cases hg
  next hglued =>
    -- the name ends in the text, since the rest of the call is longer than the tail
    obtain ⟨own, rfl⟩ : ∃ own, rest = own ++ tail := by
      have hsuffix : tail <:+ rest := by
        refine List.suffix_of_suffix_length_le ⟨text, rfl⟩ ⟨name, hr⟩ ?_
        have hl := congrArg List.length (eq_of_ofText?_skipBlank hg)
        simp only [List.length_append, List.length_cons] at hl
        omega
      exact ⟨_, hsuffix.choose_spec.symm⟩
    rw [← List.append_assoc] at hr
    have hname : name.isPrefixOf? text = some own := by
      rw [List.isPrefixOf?_eq_some_iff_append_eq]
      exact List.append_cancel_right hr
    rw [groupAt?, hname, Option.bind_some, if_neg hglued]
    exact Group.ofText?_cut hg hlen

/-! ### All calls -/

theorem callsFrom_cons (name : List Char) (place : Nat) (glued : Bool) (c : Char)
    (text : List Char) :
    callsFrom name place glued 0 (c :: text) =
      match groupAt? name glued (c :: text) with
      | some g =>
        ⟨place, g.inner, g.after⟩ ::
          callsFrom name (place + 1) (isWordChar c) (text.length - g.after.length) text
      | none => callsFrom name (place + 1) (isWordChar c) (stride name (c :: text)) text := by
  rw [callsFrom, groupAt?, stride]
  cases hr : name.isPrefixOf? (c :: text) with
  | none =>
    have hn : ¬ name <+: c :: text := by
      rintro ⟨rest, h⟩
      rw [List.isPrefixOf?_eq_some_iff_append_eq.2 h] at hr
      cases hr
    rw [Option.bind_none, if_neg hn]
  | some rest =>
    have hn : name <+: c :: text := ⟨rest, List.isPrefixOf?_eq_some_iff_append_eq.1 hr⟩
    rw [Option.bind_some, if_pos hn]
    dsimp only
    cases (if glued then none else Group.ofText? (skipBlank rest)) <;> rfl

/-- Past the characters that are skipped, a scan goes on as from the start. -/
theorem callsFrom_skip (name : List Char) (place : Nat) (glued : Bool) (read : List Char)
    (d : Char) (text : List Char) :
    callsFrom name place glued (read.length + 1) (read ++ d :: text) =
      callsFrom name (place + read.length + 1) (isWordChar d) 0 text := by
  induction read generalizing place glued with
  | nil => rfl
  | cons c read ih =>
    rw [List.length_cons, List.cons_append, callsFrom, ih]
    congr 1
    omega

/-- After a call, a scan goes on behind its parenthesis. -/
theorem callsFrom_of_groupAt? {name : List Char} {glued : Bool} {c : Char} {text : List Char}
    {g : Group} (h : groupAt? name glued (c :: text) = some g) (place : Nat) :
    ∃ next, callsFrom name place glued 0 (c :: text) =
        ⟨place, g.inner, g.after⟩ :: callsFrom name next false 0 g.after ∧
      callsFrom name (place + 1) (isWordChar c) (text.length - g.after.length) text =
        callsFrom name next false 0 g.after := by
  obtain ⟨d, read, htext⟩ := exists_read_of_groupAt? h
  obtain ⟨rfl, rfl⟩ := List.cons.inj htext
  have hskip : (read ++ ')' :: g.after).length - g.after.length = read.length + 1 := by
    simp only [List.length_append, List.length_cons]
    omega
  refine ⟨place + 1 + read.length + 1, ?_, ?_⟩
  · rw [callsFrom_cons, h]
    simp only
    rw [hskip, callsFrom_skip]
    rfl
  · rw [hskip, callsFrom_skip]
    rfl

/-- A call that starts after `before`: its name, blanks and group follow. -/
def Call.StartsAfter (name before text : List Char) (c : Call) : Prop :=
  ∃ blanks, blanks.all isBlank ∧
    text = before ++ name ++ blanks ++ '(' :: c.args ++ ')' :: c.after

namespace Call.StartsAfter

variable {name before text : List Char} {c : Call}

theorem cons (h : c.StartsAfter name before text) (d : Char) :
    c.StartsAfter name (d :: before) (d :: text) := by
  obtain ⟨blanks, hb, rfl⟩ := h
  exact ⟨blanks, hb, rfl⟩

theorem length_lt (h : c.StartsAfter name before text) :
    before.length + name.length + c.after.length < text.length := by
  obtain ⟨blanks, -, rfl⟩ := h
  simp only [List.length_append, List.length_cons]
  omega

theorem of_groupAt? {glued : Bool} {g : Group} (h : groupAt? name glued text = some g)
    (place : Nat) : (⟨place, g.inner, g.after⟩ : Call).StartsAfter name [] text :=
  eq_of_groupAt? h

end Call.StartsAfter

theorem startsAfter_of_mem {name text : List Char} {place skip : Nat} {glued : Bool} {c : Call}
    (h : c ∈ callsFrom name place glued skip text) :
    ∃ before, c.StartsAfter name before text ∧ skip ≤ before.length := by
  induction text generalizing place glued skip with
  | nil => simp [callsFrom] at h
  | cons d text ih =>
    have hlater : ∀ {p g s}, c ∈ callsFrom name p g s text →
        ∃ before, c.StartsAfter name before (d :: text) ∧ s + 1 ≤ before.length := by
      intro p g s hc
      obtain ⟨before, hs, hle⟩ := ih hc
      exact ⟨d :: before, hs.cons d, by simpa using hle⟩
    cases skip with
    | succ skip => exact hlater h
    | zero =>
      rw [callsFrom_cons] at h
      cases hg : groupAt? name glued (d :: text) with
      | none =>
        rw [hg] at h
        obtain ⟨before, hs, -⟩ := hlater h
        exact ⟨before, hs, Nat.zero_le _⟩
      | some g =>
        rw [hg] at h
        rcases List.mem_cons.1 h with rfl | h
        · exact ⟨[], .of_groupAt? hg place, Nat.le_refl 0⟩
        · obtain ⟨before, hs, -⟩ := hlater h
          exact ⟨before, hs, Nat.zero_le _⟩

/-- The calls after one are those of the text behind it. -/
theorem exists_callsFrom_after {name text : List Char} {place skip : Nat} {glued : Bool}
    {earlier later : List Call} {c : Call}
    (h : callsFrom name place glued skip text = earlier ++ c :: later) :
    ∃ next, later = callsFrom name next false 0 c.after := by
  induction text generalizing place glued skip earlier with
  | nil => simp [callsFrom] at h
  | cons d text ih =>
    cases skip with
    | succ skip => exact ih h
    | zero =>
      cases hg : groupAt? name glued (d :: text) with
      | none =>
        rw [callsFrom_cons, hg] at h
        exact ih h
      | some g =>
        obtain ⟨next, hcalls, hrest⟩ := callsFrom_of_groupAt? hg place
        cases earlier with
        | nil =>
          rw [hcalls] at h
          obtain ⟨rfl, rfl⟩ := List.cons.inj h
          exact ⟨next, rfl⟩
        | cons e earlier =>
          rw [hcalls, List.cons_append] at h
          exact ih (hrest.trans (List.cons.inj h).2)

/-- A cut changes nothing for a name that does not reach over it. -/
theorem stride_append {name front tail : List Char} {d : Char}
    (h : name <+: d :: (front ++ tail) → name.length ≤ front.length + 1) :
    stride name (d :: front) = stride name (d :: (front ++ tail)) := by
  have hiff : name <+: d :: front ↔ name <+: d :: (front ++ tail) :=
    ⟨fun hn => hn.trans (List.prefix_append (d :: front) tail),
      fun hn => List.prefix_of_prefix_length_le hn (List.prefix_append (d :: front) tail) (h hn)⟩
  simp only [stride, hiff]

/-- A call that a cut-off text holds was begun there in the whole text. -/
theorem exists_begun {name front : List Char} (tail : List Char) (place : Nat) {place' skip : Nat}
    {glued : Bool} (h : callsFrom name place' glued skip front ≠ []) :
    ∃ c ∈ callsFrom name place glued skip (front ++ tail),
      ∃ before, c.StartsAfter name before (front ++ tail) ∧ before.length < front.length := by
  induction front generalizing place place' glued skip with
  | nil => simp [callsFrom] at h
  | cons d front ih =>
    have hlater : ∀ {p p' g s}, callsFrom name p' g s front ≠ [] →
        ∃ c ∈ callsFrom name p g s (front ++ tail), ∃ before,
          c.StartsAfter name before (d :: (front ++ tail)) ∧ before.length < front.length + 1 := by
      intro p p' g s hne
      obtain ⟨c, hc, before, hs, hlt⟩ := ih p hne
      exact ⟨c, hc, d :: before, hs.cons d, by simpa using hlt⟩
    rw [List.cons_append]
    cases skip with
    | succ skip => exact hlater h
    | zero =>
      rw [callsFrom_cons] at h ⊢
      cases hlong : groupAt? name glued (d :: (front ++ tail)) with
      | some g => exact ⟨_, List.mem_cons_self, [], .of_groupAt? hlong place, Nat.zero_lt_succ _⟩
      | none =>
        have hshort : groupAt? name glued (d :: front) = none := by
          cases hs : groupAt? name glued (d :: front) with
          | none => rfl
          | some g =>
            have happ := groupAt?_append hs tail
            rw [List.cons_append, hlong] at happ
            cases happ
        rw [hshort] at h
        -- a name across the cut would leave too little of the text for another one
        have hstride : stride name (d :: front) = stride name (d :: (front ++ tail)) := by
          obtain ⟨c, hc⟩ := List.exists_mem_of_ne_nil _ h
          obtain ⟨before, hs, -⟩ := startsAfter_of_mem hc
          have hlt := hs.length_lt
          exact stride_append fun _ => by omega
        rw [hstride] at h
        exact hlater h

/-- The first call leaves the most text after it. -/
theorem length_after_le_of_groupAt? {name text : List Char} {place : Nat} {glued : Bool} {d : Char}
    {g : Group} {c : Call} (h : c ∈ callsFrom name place glued 0 (d :: text))
    (hg : groupAt? name glued (d :: text) = some g) : c.after.length ≤ g.after.length := by
  obtain ⟨next, hcalls, -⟩ := callsFrom_of_groupAt? hg place
  rw [hcalls] at h
  rcases List.mem_cons.1 h with rfl | h
  · exact Nat.le_refl _
  · obtain ⟨before, hs, -⟩ := startsAfter_of_mem h
    have hlt := hs.length_lt
    omega

/-- A call that ends before a cut is still there when the text is cut off. -/
theorem callsFrom_ne_nil_of_ended {name front tail : List Char} {place place' skip : Nat}
    {glued : Bool} {c : Call} (h : c ∈ callsFrom name place glued skip (front ++ tail))
    (hlen : tail.length ≤ c.after.length) : callsFrom name place' glued skip front ≠ [] := by
  induction front generalizing place place' glued skip with
  | nil =>
    obtain ⟨before, hs, -⟩ := startsAfter_of_mem h
    have hlt := hs.length_lt
    rw [List.nil_append] at hlt
    omega
  | cons d front ih =>
    rw [List.cons_append] at h
    cases skip with
    | succ skip => exact ih h
    | zero =>
      rw [callsFrom_cons]
      cases hshort : groupAt? name glued (d :: front) with
      | some g => exact List.cons_ne_nil _ _
      | none =>
        cases hlong : groupAt? name glued (d :: (front ++ tail)) with
        | some g =>
          have hle := Nat.le_trans hlen (length_after_le_of_groupAt? h hlong)
          rw [← List.cons_append] at hlong
          obtain ⟨after, ha, -⟩ := groupAt?_cut hlong hle
          rw [hshort] at ha
          cases ha
        | none =>
          rw [callsFrom_cons, hlong] at h
          -- a name across the cut would end the call behind it
          have hstride : stride name (d :: front) = stride name (d :: (front ++ tail)) := by
            obtain ⟨before, hs, hskip⟩ := startsAfter_of_mem h
            have hlt := hs.length_lt
            rw [List.length_append] at hlt
            refine stride_append fun hn => ?_
            rw [stride, if_pos hn] at hskip
            omega
          rw [hstride]
          exact ih h

end LcdHandhelds.Text
