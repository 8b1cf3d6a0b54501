import LcdHandhelds.Proofs.Text.Call
import LcdHandhelds.Text.Argument

/-!
Texts that run from a call to the next mark. Where no mark stands between two calls, the text of the
first runs on over the second, and both end at one mark: `bodies`.
-/
namespace LcdHandhelds.Text

open scoped List

/-! ### The text before a mark -/

theorem splitBefore?_eq (mark before text : List Char) :
    splitBefore? mark before text =
      (splitBefore? mark [] text).map fun p => (before.reverse ++ p.1, p.2) := by
  induction text generalizing before with
  | nil => cases hm : mark.isEmpty <;> simp [splitBefore?, hm]
  | cons c text ih =>
    rw [splitBefore?, splitBefore?]
    split
    · simp
    · rw [ih (c :: before), ih [c], Option.map_map]
      simp [Function.comp_def]

theorem before?_nil {mark : String} (h : mark.toList ≠ []) : before? mark [] = none := by
  simp [before?, splitBefore?, h]

theorem before?_cons (mark : String) (c : Char) (text : List Char) :
    before? mark (c :: text) =
      if mark.toList <+: c :: text then some [] else (before? mark text).map (c :: ·) := by
  rw [before?, splitBefore?]
  simp only [List.isPrefixOf_iff_prefix]
  split
  · rfl
  · rw [splitBefore?_eq, before?, Option.map_map, Option.map_map]
    rfl

/-- What stands before a mark is a part of the text in front of it. -/
theorem exists_append_of_before? {mark : String} {text body : List Char}
    (h : before? mark text = some body) : ∃ tail, text = body ++ mark.toList ++ tail := by
  induction text generalizing body with
  | nil =>
    by_cases hm : mark.toList = []
    · obtain rfl : [] = body := by simpa [before?, splitBefore?, hm] using h
      exact ⟨[], by simp [hm]⟩
    · rw [before?_nil hm] at h
      cases h
  | cons c text ih =>
    rw [before?_cons] at h
    split at h
    next hp =>
      obtain rfl := Option.some.inj h
      exact ⟨_, hp.choose_spec.symm⟩
    · obtain ⟨body, hb, rfl⟩ := Option.map_eq_some_iff.1 h
      obtain ⟨tail, rfl⟩ := ih hb
      exact ⟨tail, rfl⟩

/-- The first mark in the front of a text is the first one in the text. -/
theorem before?_append_of_some {mark : String} {front body : List Char}
    (h : before? mark front = some body) (text : List Char) :
    before? mark (front ++ text) = some body := by
  induction front generalizing body with
  | nil =>
    by_cases hm : mark.toList = []
    · obtain rfl : [] = body := by simpa [before?, splitBefore?, hm] using h
      cases text <;> simp [before?, splitBefore?, hm]
    · rw [before?_nil hm] at h
      cases h
  | cons c front ih =>
    have hlen : mark.toList.length ≤ (c :: front).length := by
      obtain ⟨tail, ht⟩ := exists_append_of_before? h
      rw [ht, List.length_append, List.length_append]
      omega
    rw [List.cons_append, before?_cons]
    rw [before?_cons] at h
    split at h
    next hp =>
      have hlong : mark.toList <+: c :: (front ++ text) :=
        hp.trans (List.prefix_append (c :: front) text)
      rw [if_pos hlong, h]
    next hp =>
      have hlong : ¬ mark.toList <+: c :: (front ++ text) := fun hl =>
        hp (List.prefix_of_prefix_length_le hl (List.prefix_append (c :: front) text) hlen)
      obtain ⟨body, hb, rfl⟩ := Option.map_eq_some_iff.1 h
      rw [if_neg hlong, ih hb, Option.map_some]

/-- A mark is looked for in the front of a text first. None reaches over a sign it does not hold. -/
theorem before?_append {mark : String} (hmark : mark.toList ≠ []) {sign : Char}
    (hsign : sign ∉ mark.toList) (front text : List Char) :
    before? mark (front ++ sign :: text) =
      (before? mark (front ++ [sign])).or
        ((before? mark text).map (front ++ [sign] ++ ·)) := by
  have hnot : ∀ rest, ¬ mark.toList <+: sign :: rest := by
    intro rest hp
    cases hm : mark.toList with
    | nil => exact hmark hm
    | cons d ds =>
      rw [hm, List.cons_prefix_cons] at hp
      exact hsign (by rw [hm, hp.1]; exact List.mem_cons_self)
  induction front with
  | nil =>
    rw [List.nil_append, List.nil_append, before?_cons, before?_cons, if_neg (hnot _),
      if_neg (hnot _), before?_nil hmark]
    rfl
  | cons c front ih =>
    have hiff : mark.toList <+: c :: (front ++ sign :: text) ↔
        mark.toList <+: c :: (front ++ [sign]) := by
      have hshort : c :: (front ++ [sign]) <+: c :: (front ++ sign :: text) := ⟨text, by simp⟩
      refine ⟨fun hp => ?_, fun hp => hp.trans hshort⟩
      rcases List.prefix_or_prefix_of_prefix hp hshort with h | h
      · exact h
      · exact absurd (h.subset (by simp)) hsign
    rw [List.cons_append, List.cons_append, before?_cons, before?_cons]
    simp only [hiff, ih]
    split
    · rfl
    · cases before? mark (front ++ [sign]) with
      | some body => rfl
      | none => simp [Option.map_map, Function.comp_def]

/-! ### Marks that do not overlap -/

section Marks

variable {c : Char} {mark s t : List Char}

theorem prefix_append_cons (hc : c ∉ mark) (h : c :: mark <+: s ++ c :: t) :
    s = [] ∨ c :: mark <+: s := by
  rcases List.prefix_or_prefix_of_prefix h (List.prefix_append s (c :: t)) with hs | ⟨more, hmore⟩
  · exact .inr hs
  cases s with
  | nil => exact .inl rfl
  | cons b s =>
    cases more with
    | nil => exact .inr ⟨[], by rw [← hmore, List.append_nil, List.append_nil]⟩
    | cons d more =>
      -- the mark would go on with its first character
      rw [← hmore, List.prefix_append_right_inj, List.cons_prefix_cons] at h
      obtain ⟨rfl, -⟩ := h
      exact absurd ((List.cons.inj hmore).2 ▸ by simp) hc

/-- A mark that reaches to its first character lies on one side of it. -/
theorem infix_append_cons (hc : c ∉ mark) (h : c :: mark <:+: s ++ c :: t) :
    c :: mark <:+: s ∨ c :: mark <:+: c :: t := by
  induction s with
  | nil => exact .inr h
  | cons b s ih =>
    rw [List.cons_append, List.infix_cons_iff, ← List.cons_append] at h
    rcases h with h | h
    · rcases prefix_append_cons hc h with hnil | hs
      · cases hnil
      · exact .inl hs.isInfix
    · exact (ih h).imp_left fun hs => hs.trans (List.suffix_cons b s).isInfix

theorem infix_of_notMem (hs : c ∉ s) (h : c :: mark <:+: s ++ t) : c :: mark <:+: t := by
  induction s with
  | nil => exact h
  | cons b s ih =>
    rw [List.mem_cons, not_or] at hs
    rw [List.cons_append, List.infix_cons_iff, List.cons_prefix_cons] at h
    exact h.elim (fun hp => absurd hp.1 hs.1) (ih hs.2)

/-- A mark behind a text without it is the first one. -/
theorem splitBefore?_append_of_notInfix (hc : c ∉ mark) (hs : ¬ c :: mark <:+: s)
    (before t : List Char) :
    splitBefore? (c :: mark) before (s ++ c :: (mark ++ t)) =
      some (before.reverse ++ s, c :: (mark ++ t)) := by
  induction s generalizing before with
  | nil =>
    have hp : (c :: mark).isPrefixOf (c :: (mark ++ t)) = true :=
      List.isPrefixOf_iff_prefix.2 (List.prefix_append (c :: mark) t)
    rw [List.nil_append, splitBefore?, if_pos hp, List.append_nil]
  | cons b s ih =>
    have hnot : ¬ (c :: mark).isPrefixOf (b :: (s ++ c :: (mark ++ t))) = true := by
      intro hp
      rcases prefix_append_cons (s := b :: s) hc (List.isPrefixOf_iff_prefix.1 hp) with hnil | hp
      · cases hnil
      · exact hs hp.isInfix
    rw [List.cons_append, splitBefore?, if_neg hnot,
      ih fun h => hs (h.trans (List.suffix_cons b s).isInfix)]
    simp

/-- What stands before the first mark does not hold the mark. -/
theorem of_splitBefore?_eq_some {text body rest : List Char} (hne : mark ≠ [])
    (h : splitBefore? mark [] text = some (body, rest)) :
    text = body ++ rest ∧ mark <+: rest ∧ ¬ mark <:+: body := by
  induction text generalizing body with
  | nil => simp [splitBefore?, hne] at h
  | cons d text ih =>
    rw [splitBefore?] at h
    split at h
    next hp =>
      cases h
      exact ⟨rfl, List.isPrefixOf_iff_prefix.1 hp, fun hi => hne (List.infix_nil.1 hi)⟩
    next hp =>
      rw [splitBefore?_eq] at h
      obtain ⟨⟨body, rest⟩, hbody, h⟩ := Option.map_eq_some_iff.1 h
      cases h
      obtain ⟨rfl, hrest, hfree⟩ := ih hbody
      refine ⟨rfl, hrest, fun hi => ?_⟩
      rcases List.infix_cons_iff.1 hi with hi | hi
      · exact hp (List.isPrefixOf_iff_prefix.2 (hi.trans (List.prefix_append (d :: body) rest)))
      · exact hfree hi

theorem splitBefore?_eq_some_iff {text body rest : List Char} (hc : c ∉ mark) :
    splitBefore? (c :: mark) [] text = some (body, rest) ↔
      text = body ++ rest ∧ c :: mark <+: rest ∧ ¬ c :: mark <:+: body := by
  refine ⟨of_splitBefore?_eq_some (List.cons_ne_nil c mark), ?_⟩
  rintro ⟨rfl, ⟨t, rfl⟩, hfree⟩
  exact splitBefore?_append_of_notInfix hc hfree [] t

/-- The first mark is the one behind a text without it. -/
theorem before?_append_of_notInfix {name : String} (hname : name.toList = c :: mark)
    (hc : c ∉ mark) (hs : ¬ name.toList <:+: s) (t : List Char) :
    before? name (s ++ (name.toList ++ t)) = some s := by
  rw [hname] at hs
  rw [before?, hname, List.cons_append, splitBefore?_append_of_notInfix hc hs]
  rfl

end Marks

/-! ### The text between a call and the next mark -/

/-- How the texts that calls of `start` begin, each up to the next `stop`, lie in a source. -/
structure Bodies (start stop : String) (source : List Char) : Prop where
  /-- Of two calls, the text of the first ends before the second does, or takes in all of it. -/
  nested : ∀ c c', [c, c'] <+ calls start source → ∃ gap, c.after = gap ++ c'.after ∧
    before? stop c.after = (before? stop gap).or ((before? stop c'.after).map (gap ++ ·))
  /-- What the text of a call takes in holds a call of its own. -/
  absorbed : ∀ c c' gap body, [c, c'] <+ calls start source → c.after = gap ++ c'.after →
    before? stop gap = none → before? stop c.after = some body → calls start body ≠ []
  /-- If a mark stands before the next call, the text of a call holds none. -/
  ended : ∀ c ∈ calls start source,
    (∀ c' before, [c, c'] <+ calls start source → c'.StartsAfter start.toList before c.after →
      (before? stop before).isSome) →
    ∀ body, before? stop c.after = some body → calls start body = []

variable {start stop : String} {source : List Char}

theorem exists_callsFrom_of_mem {c : Call} (h : c ∈ calls start source) :
    ∃ next, ∀ c' ∈ callsFrom start.toList next false 0 c.after, [c, c'] <+ calls start source := by
  obtain ⟨earlier, later, hsplit⟩ := List.append_of_mem h
  obtain ⟨next, rfl⟩ := exists_callsFrom_after hsplit
  refine ⟨next, fun c' hc' => ?_⟩
  rw [hsplit]
  exact (List.cons_sublist_cons.2 (List.singleton_sublist.2 hc')).trans
    (List.sublist_append_right _ _)

theorem mem_callsFrom_of_sublist {c c' : Call} (h : [c, c'] <+ calls start source) :
    ∃ next, c' ∈ callsFrom start.toList next false 0 c.after := by
  obtain ⟨earlier, later, hsplit, hc, hc'⟩ := List.cons_sublist_iff.1 h
  obtain ⟨front, back, rfl⟩ := List.append_of_mem hc
  rw [List.append_assoc, List.cons_append] at hsplit
  obtain ⟨next, hnext⟩ := exists_callsFrom_after hsplit
  exact ⟨next, hnext ▸ List.mem_append_right _ (List.singleton_sublist.1 hc')⟩

theorem nested_of_sublist (hstop : stop.toList ≠ []) (hsign : ')' ∉ stop.toList) {c c' : Call}
    (h : [c, c'] <+ calls start source) :
    ∃ gap, c.after = gap ++ c'.after ∧
      before? stop c.after = (before? stop gap).or ((before? stop c'.after).map (gap ++ ·)) := by
  obtain ⟨next, hc'⟩ := mem_callsFrom_of_sublist h
  obtain ⟨before, ⟨blanks, -, hafter⟩, -⟩ := startsAfter_of_mem hc'
  refine ⟨before ++ start.toList ++ blanks ++ '(' :: c'.args ++ [')'], ?_, ?_⟩
  · rw [hafter, List.append_assoc _ [')'], List.singleton_append]
  · rw [hafter, before?_append hstop hsign]

theorem bodies (hstop : stop.toList ≠ []) (hsign : ')' ∉ stop.toList) (source : List Char) :
    Bodies start stop source where
  nested _ _ h := nested_of_sublist hstop hsign h
  absorbed c c' gap body h hgap hnone hbody := by
    obtain ⟨next, hc'⟩ := mem_callsFrom_of_sublist h
    obtain ⟨tail, htail⟩ := exists_append_of_before? hbody
    obtain ⟨gap', hgap', hlaw⟩ := nested_of_sublist hstop hsign h
    obtain rfl : gap = gap' := List.append_cancel_right (hgap.symm.trans hgap')
    rw [hnone, Option.none_or, hbody] at hlaw
    obtain ⟨inner, -, rfl⟩ := Option.map_eq_some_iff.1 hlaw.symm
    have hafter : c'.after = inner ++ (stop.toList ++ tail) := by
      rw [hgap, List.append_assoc, List.append_assoc] at htail
      exact List.append_cancel_left htail
    rw [htail, List.append_assoc] at hc'
    refine callsFrom_ne_nil_of_ended hc' ?_
    rw [hafter]
    exact (List.suffix_append inner _).length_le
  ended c hc hmark body hbody := by
    by_contra hne
    obtain ⟨tail, htail⟩ := exists_append_of_before? hbody
    obtain ⟨next, hall⟩ := exists_callsFrom_of_mem hc
    obtain ⟨c', hc', before, hs, hlt⟩ := exists_begun (stop.toList ++ tail) next hne
    rw [← List.append_assoc, ← htail] at hc' hs
    -- the body is already what stands before the mark in front of that call
    obtain ⟨body', hb⟩ := Option.isSome_iff_exists.1 (hmark c' before (hall c' hc') hs)
    obtain ⟨blanks, -, hafter⟩ := hs
    have hbody' : body' = body := by
      have happ := before?_append_of_some hb
        (start.toList ++ blanks ++ '(' :: c'.args ++ ')' :: c'.after)
      simp only [← List.append_assoc] at happ hafter
      rw [← hafter, hbody] at happ
      exact (Option.some.inj happ).symm
    obtain ⟨rest, hrest⟩ := exists_append_of_before? hb
    rw [hrest, hbody', List.length_append, List.length_append] at hlt
    omega

end LcdHandhelds.Text
