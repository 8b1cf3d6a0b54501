import Mathlib.Data.List.Forall2
import LcdHandhelds.Proofs.Option
import LcdHandhelds.Proofs.Text.Reading

/-!
Two texts that differ in the spelling of one word. A scan that looks for other names passes over
both spellings alike, so what it finds in the two texts is the same but for a copy of the word:
`Respelled.firstGroup`, `Respelled.arguments`.
-/
namespace LcdHandhelds.Text

/-- One text has the word `s` at one place where the other has `t`. -/
inductive Respelled (s t : List Char) : List Char → List Char → Prop
  | same (text : List Char) : Respelled s t text text
  | here (rest : List Char) : Respelled s t (s ++ rest) (t ++ rest)
  | cons (c : Char) {x y : List Char} : Respelled s t x y → Respelled s t (c :: x) (c :: y)

/-- A word, as it stands where another could. -/
structure IsSpelling (s : List Char) : Prop where
  word : s.all isWordChar
  ne_nil : s ≠ []

instance (s : List Char) : Decidable (IsSpelling s) :=
  decidable_of_iff (s.all isWordChar = true ∧ s ≠ []) ⟨fun h => ⟨h.1, h.2⟩, fun h => ⟨h.1, h.2⟩⟩

/-- No end of `name` can be read where `s` stands. -/
def Unlike (name s : List Char) : Prop :=
  ∀ part ∈ name.tails, part ≠ [] → ¬ part <+: s ∧ ¬ s <+: part

instance (name s : List Char) : Decidable (Unlike name s) :=
  inferInstanceAs (Decidable (∀ part ∈ name.tails, part ≠ [] → ¬ part <+: s ∧ ¬ s <+: part))

theorem IsSpelling.exists_cons {s : List Char} (h : IsSpelling s) :
    ∃ c rest, s = c :: rest ∧ isWordChar c ∧ rest.all isWordChar := by
  obtain ⟨c, rest, rfl⟩ := List.exists_cons_of_ne_nil h.ne_nil
  have hword := h.word
  rw [List.all_cons, Bool.and_eq_true] at hword
  exact ⟨c, rest, rfl, hword⟩

theorem IsSpelling.reverse {s : List Char} (h : IsSpelling s) : IsSpelling s.reverse where
  word := by rw [List.all_reverse, h.word]
  ne_nil := by simpa using h.ne_nil

theorem Unlike.not_prefix {name s : List Char} (h : Unlike name s) (hne : name ≠ [])
    (rest : List Char) : ¬ name <+: s ++ rest := by
  intro hp
  obtain ⟨hshort, hlong⟩ := h name ((List.mem_tails _ _).2 (List.suffix_refl name)) hne
  exact (List.prefix_or_prefix_of_prefix hp (List.prefix_append s rest)).elim hshort hlong

theorem Unlike.of_cons {c : Char} {name s : List Char} (h : Unlike (c :: name) s) :
    Unlike name s := by
  intro part hpart
  rw [List.mem_tails] at hpart
  exact h part ((List.mem_tails _ _).2 (hpart.trans (List.suffix_cons c name)))

/-! ### Texts with a word in two spellings -/

namespace Respelled

variable {s t x y : List Char}

theorem symm (h : Respelled s t x y) : Respelled t s y x := by
  induction h with
  | same text => exact .same text
  | here rest => exact .here rest
  | cons c _ ih => exact .cons c ih

theorem append_left (h : Respelled s t x y) (front : List Char) :
    Respelled s t (front ++ x) (front ++ y) := by
  induction front with
  | nil => exact h
  | cons c front ih => exact .cons c ih

theorem append_right (h : Respelled s t x y) (tail : List Char) :
    Respelled s t (x ++ tail) (y ++ tail) := by
  induction h with
  | same text => exact .same _
  | here rest =>
    rw [List.append_assoc, List.append_assoc]
    exact .here _
  | cons c _ ih => exact .cons c ih

theorem reverse (h : Respelled s t x y) :
    Respelled s.reverse t.reverse x.reverse y.reverse := by
  induction h with
  | same text => exact .same _
  | here rest =>
    have hword : Respelled s.reverse t.reverse s.reverse t.reverse := by
      have h := here (s := s.reverse) (t := t.reverse) []
      rwa [List.append_nil, List.append_nil] at h
    rw [List.reverse_append, List.reverse_append]
    exact hword.append_left _
  | cons c _ ih =>
    rw [List.reverse_cons, List.reverse_cons]
    exact ih.append_right _

/-- The texts are the same unless each holds its spelling. -/
theorem eq_or_infix (h : Respelled s t x y) : x = y ∨ s <:+: x ∧ t <:+: y := by
  induction h with
  | same text => exact .inl rfl
  | here rest =>
    exact .inr ⟨(List.prefix_append s rest).isInfix, (List.prefix_append t rest).isInfix⟩
  | cons c _ ih =>
    rcases ih with rfl | ⟨hx, hy⟩
    · exact .inl rfl
    · exact .inr ⟨hx.trans (List.suffix_cons c _).isInfix, hy.trans (List.suffix_cons c _).isInfix⟩

section Spelling

variable (hs : IsSpelling s) (ht : IsSpelling t)

include hs in
/-- A sign that is part of no word stands in both texts. -/
theorem exists_cons {c : Char} (hc : isWordChar c = false) (h : Respelled s t (c :: x) y) :
    ∃ rest, y = c :: rest ∧ Respelled s t x rest := by
  generalize htext : c :: x = text at h
  cases h with
  | same text => exact ⟨x, htext.symm, .same x⟩
  | here rest =>
    obtain ⟨d, more, rfl, hd, -⟩ := hs.exists_cons
    obtain ⟨rfl, -⟩ := List.cons.inj htext
    rw [hc] at hd
    cases hd
  | cons d h =>
    obtain ⟨rfl, rfl⟩ := List.cons.inj htext
    exact ⟨_, rfl, h⟩

include hs in
theorem exists_concat {c : Char} (hc : isWordChar c = false) (h : Respelled s t (x ++ [c]) y) :
    ∃ front, y = front ++ [c] ∧ Respelled s t x front := by
  have hback := h.reverse
  rw [List.reverse_append, List.reverse_singleton, List.singleton_append] at hback
  obtain ⟨rest, hrest, hback⟩ := exists_cons hs.reverse hc hback
  refine ⟨rest.reverse, ?_, ?_⟩
  · rw [← List.reverse_reverse y, hrest, List.reverse_cons]
  · have hfront := hback.reverse
    rwa [List.reverse_reverse, List.reverse_reverse, List.reverse_reverse] at hfront

include hs ht

theorem all_isBlank (h : Respelled s t x y) : x.all isBlank = y.all isBlank := by
  have hnone : ∀ {s text : List Char}, IsSpelling s → s <:+: text → text.all isBlank = false := by
    intro s text hs hpart
    obtain ⟨c, more, rfl, hc, -⟩ := hs.exists_cons
    rw [List.all_eq_false]
    refine ⟨c, hpart.subset List.mem_cons_self, ?_⟩
    rw [isBlank_of_isWordChar hc]
    exact Bool.false_ne_true
  rcases h.eq_or_infix with rfl | ⟨hx, hy⟩
  · rfl
  · rw [hnone hs hx, hnone ht hy]

theorem skipBlank (h : Respelled s t x y) :
    Respelled s t (Text.skipBlank x) (Text.skipBlank y) := by
  have hword : ∀ {s : List Char}, IsSpelling s → ∀ rest,
      Text.skipBlank (s ++ rest) = s ++ rest := by
    intro s hs rest
    obtain ⟨c, more, rfl, hc, -⟩ := hs.exists_cons
    rw [List.cons_append, skipBlank_cons, isBlank_of_isWordChar hc, if_neg Bool.false_ne_true]
  induction h with
  | same text => exact .same _
  | here rest =>
    rw [hword hs, hword ht]
    exact .here rest
  | cons c h ih =>
    rw [skipBlank_cons, skipBlank_cons]
    split
    · exact ih
    · exact .cons c h

theorem trim (h : Respelled s t x y) : Respelled s t (Text.trim x) (Text.trim y) := by
  have hback := ((h.skipBlank hs ht).reverse.skipBlank hs.reverse ht.reverse).reverse
  rwa [List.reverse_reverse, List.reverse_reverse] at hback

theorem unquote? (h : Respelled s t x y) :
    Option.Rel (Respelled s t) (Text.unquote? x) (Text.unquote? y) := by
  have hsome : ∀ {s t x y inner : List Char}, IsSpelling s → IsSpelling t → Respelled s t x y →
      Text.unquote? x = some inner → ∃ inner', Text.unquote? y = some inner' ∧
        Respelled s t inner inner' := by
    intro s t x y inner hs ht h hx
    rw [unquote?_eq_some_iff] at hx
    have htrim := h.trim hs ht
    rw [hx] at htrim
    obtain ⟨front, hfront, hopen⟩ := exists_concat hs (by decide) htrim
    obtain ⟨inner', rfl, hinner⟩ := exists_cons hs (by decide) hopen
    exact ⟨inner', unquote?_eq_some_iff.2 hfront, hinner⟩
  cases hx : Text.unquote? x with
  | some inner =>
    obtain ⟨inner', hy, h⟩ := hsome hs ht h hx
    rw [hy]
    exact .some h
  | none =>
    cases hy : Text.unquote? y with
    | none => exact .none
    | some inner =>
      obtain ⟨inner', hx', -⟩ := hsome ht hs h.symm hy
      rw [hx] at hx'
      cases hx'

end Spelling

end Respelled

/-! ### Words in groups and arguments -/

/-- Where a scan stands behind a character that is part of a word. -/
def Quoting.settled : Quoting → Quoting
  | .plain => .plain
  | .quoted => .quoted
  | .escaped => .quoted

theorem Quoting.next_of_isWordChar {c : Char} (h : isWordChar c) (q : Quoting) :
    q.next c = q.settled := by
  have hq : c ≠ '"' := by rintro rfl; exact absurd h (by decide)
  have hb : c ≠ '\\' := by rintro rfl; exact absurd h (by decide)
  cases q <;> simp [next, settled]

theorem Quoting.settled_settled (q : Quoting) : q.settled.settled = q.settled := by
  cases q <;> rfl

theorem ne_paren_of_isWordChar {c : Char} (h : isWordChar c) : c ≠ '(' ∧ c ≠ ')' ∧ c ≠ ',' := by
  have hplain := (plain_of_isWordChar h).2
  simp only [List.mem_cons, not_or] at hplain
  exact ⟨hplain.1, hplain.2.1, hplain.2.2.2.1⟩

/-- The group as it is behind more of its text. -/
def Group.behind (front : List Char) (g : Group) : Group :=
  ⟨front ++ g.inner, g.after⟩

theorem Group.close?_eq_map (depth : Nat) (quoting : Quoting) (read text : List Char) :
    close? depth quoting read text =
      (close? depth quoting [] text).map (behind read.reverse) := by
  induction text generalizing depth quoting read with
  | nil => rfl
  | cons c text ih =>
    have hstep : ∀ depth quoting c, close? depth quoting (c :: read) text =
        (close? depth quoting [c] text).map (behind read.reverse) := by
      intro depth quoting c
      rw [ih _ _ (c :: read), ih _ _ [c], Option.map_map]
      refine congrArg (Option.map · _) (funext fun g => ?_)
      simp [behind]
    rw [close?_cons, close?_cons]
    split
    · cases depth with
      | zero => simp [behind]
      | succ depth => exact hstep _ _ _
    · split
      · exact hstep _ _ _
      · exact hstep _ _ _

theorem Group.close?_word {s : List Char} (h : IsSpelling s) (depth : Nat) (quoting : Quoting)
    (rest : List Char) :
    close? depth quoting [] (s ++ rest) =
      (close? depth quoting.settled [] rest).map (behind s) := by
  obtain ⟨hword, hne⟩ := h
  have hread : ∀ read, close? depth quoting read (s ++ rest) =
      close? depth quoting.settled (s.reverse ++ read) rest := by
    induction s generalizing quoting with
    | nil => exact absurd rfl hne
    | cons c s ih =>
      intro read
      rw [List.all_cons, Bool.and_eq_true] at hword
      obtain ⟨hopen, hclose, -⟩ := ne_paren_of_isWordChar hword.1
      rw [List.cons_append, close?_cons, if_neg (by simp [hclose]), if_neg (by simp [hopen]),
        Quoting.next_of_isWordChar hword.1]
      by_cases hs : s = []
      · subst hs
        rfl
      · rw [ih quoting.settled hword.2 hs, Quoting.settled_settled]
        simp
  rw [hread, close?_eq_map, List.append_nil, List.reverse_reverse]

theorem piecesFrom_eq_modifyHead (depth : Nat) (quoting : Quoting) (piece text : List Char) :
    piecesFrom depth quoting piece text =
      (piecesFrom depth quoting [] text).modifyHead (piece.reverse ++ ·) := by
  induction text generalizing depth quoting piece with
  | nil => simp [piecesFrom]
  | cons c text ih =>
    rw [piecesFrom_cons, piecesFrom_cons]
    split
    · simp
    · rw [ih _ _ (c :: piece), ih _ _ [c], List.modifyHead_modifyHead]
      refine congrArg (List.modifyHead · _) (funext fun head => ?_)
      simp

theorem piecesFrom_word {s : List Char} (h : IsSpelling s) (depth : Nat) (quoting : Quoting)
    (rest : List Char) :
    piecesFrom depth quoting [] (s ++ rest) =
      (piecesFrom depth quoting.settled [] rest).modifyHead (s ++ ·) := by
  obtain ⟨hword, hne⟩ := h
  have hread : ∀ piece, piecesFrom depth quoting piece (s ++ rest) =
      piecesFrom depth quoting.settled (s.reverse ++ piece) rest := by
    induction s generalizing quoting with
    | nil => exact absurd rfl hne
    | cons c s ih =>
      intro piece
      rw [List.all_cons, Bool.and_eq_true] at hword
      obtain ⟨hopen, hclose, hcomma⟩ := ne_paren_of_isWordChar hword.1
      have hdepth : depthAfter quoting depth c = depth := by simp [depthAfter, hopen, hclose]
      rw [List.cons_append, piecesFrom_cons, if_neg (by simp [hcomma]), hdepth,
        Quoting.next_of_isWordChar hword.1]
      by_cases hs : s = []
      · subst hs
        rfl
      · rw [ih quoting.settled hword.2 hs, Quoting.settled_settled]
        simp
  rw [hread, piecesFrom_eq_modifyHead, List.append_nil, List.reverse_reverse]

/-! ### What a scan finds -/

/-- Two groups that differ in the spelling of one word. -/
structure Group.Respelled (s t : List Char) (g h : Group) : Prop where
  inner : Text.Respelled s t g.inner h.inner
  after : Text.Respelled s t g.after h.after

/-- The group of the first call in a text. -/
def firstGroup (name : List Char) : (glued : Bool) → List Char → Option Group
  | _, [] => none
  | glued, c :: text => (groupAt? name glued (c :: text)).or (firstGroup name (isWordChar c) text)

theorem head?_sweep_lookCall {name : List Char} (hname : name.all isWordChar) (place : Nat)
    (glued : Bool) (text : List Char) :
    (sweep (lookCall name) place glued 0 text).head?.map (·.2) = firstGroup name glued text := by
  induction text generalizing place glued with
  | nil => rfl
  | cons c text ih =>
    rw [firstGroup]
    cases hg : groupAt? name glued (c :: text) with
    | some g =>
      rw [sweep, lookCall, hg]
      rfl
    | none =>
      have hnone : (lookCall name glued (c :: text)).1 = none := by rw [lookCall, hg]
      rw [sweep_cons_of_none (inWords_lookCall hname) hnone, ih]
      rfl

theorem group_firstCall? {name : String} (hname : name.toList.all isWordChar) (text : List Char) :
    (firstCall? name text).map Call.group = firstGroup name.toList false text := by
  rw [← head?_sweep_lookCall hname 0, firstCall?, calls, callsFrom_eq_sweep, List.head?_map,
    Option.map_map]
  rfl

theorem firstGroup_glued {name s : List Char} (hs : s.all isWordChar) (rest : List Char) :
    firstGroup name true (s ++ rest) = firstGroup name true rest := by
  have hglued : ∀ text, groupAt? name true text = none := by
    intro text
    rw [groupAt?]
    cases name.isPrefixOf? text <;> rfl
  induction s with
  | nil => rfl
  | cons c s ih =>
    rw [List.all_cons, Bool.and_eq_true] at hs
    rw [List.cons_append, firstGroup, hglued, Option.none_or, hs.1, ih hs.2]

/-- No call begins at a word that is unlike its name, nor inside of it. -/
theorem firstGroup_word {name s : List Char} (hs : IsSpelling s) (hunlike : Unlike name s)
    (hne : name ≠ []) (glued : Bool) (rest : List Char) :
    firstGroup name glued (s ++ rest) = firstGroup name true rest := by
  have hnone : groupAt? name glued (s ++ rest) = none := by
    rw [groupAt?]
    cases hp : name.isPrefixOf? (s ++ rest) with
    | none => rfl
    | some tail =>
      exact absurd ⟨tail, List.isPrefixOf?_eq_some_iff_append_eq.1 hp⟩
        (hunlike.not_prefix hne rest)
  obtain ⟨c, more, rfl, hc, hmore⟩ := hs.exists_cons
  rw [List.cons_append] at hnone ⊢
  rw [firstGroup, hnone, Option.none_or, hc, firstGroup_glued hmore]

namespace Respelled

variable {s t x y : List Char}

theorem group_refl (g : Group) : Group.Respelled s t g g :=
  ⟨.same _, .same _⟩

theorem group_cons (c : Char) {o o' : Option Group} (h : Option.Rel (Group.Respelled s t) o o') :
    Option.Rel (Group.Respelled s t) (o.map (Group.behind [c])) (o'.map (Group.behind [c])) :=
  rel_map h fun _ _ h => ⟨.cons c h.inner, h.after⟩

section Spelling

variable (hs : IsSpelling s) (ht : IsSpelling t)

include hs ht

theorem close? (h : Respelled s t x y) (depth : Nat) (quoting : Quoting) :
    Option.Rel (Group.Respelled s t) (Group.close? depth quoting [] x)
      (Group.close? depth quoting [] y) := by
  induction h generalizing depth quoting with
  | same text => exact rel_refl group_refl _
  | here rest =>
    rw [Group.close?_word hs, Group.close?_word ht]
    cases Group.close? depth quoting.settled [] rest with
    | none => exact .none
    | some g => exact .some ⟨.here _, .same _⟩
  | @cons c x y h ih =>
    have hstep : ∀ depth quoting, Option.Rel (Group.Respelled s t)
        (Group.close? depth quoting [c] x) (Group.close? depth quoting [c] y) := by
      intro depth quoting
      rw [Group.close?_eq_map, Group.close?_eq_map depth quoting [c] y]
      exact group_cons c (ih depth quoting)
    rw [Group.close?_cons, Group.close?_cons]
    split
    next hclose =>
      cases depth with
      | zero => exact .some ⟨.same _, h⟩
      | succ depth => exact hclose.2 ▸ hstep depth .plain
    · split
      next hopen => exact hopen.2 ▸ hstep (depth + 1) .plain
      · exact hstep depth (quoting.next c)

theorem ofText? (h : Respelled s t x y) :
    Option.Rel (Group.Respelled s t) (Group.ofText? x) (Group.ofText? y) := by
  have hword : ∀ {s : List Char}, IsSpelling s → ∀ rest, Group.ofText? (s ++ rest) = none := by
    intro s hs rest
    obtain ⟨c, more, rfl, hc, -⟩ := hs.exists_cons
    simp [Group.ofText?, (ne_paren_of_isWordChar hc).1]
  cases h with
  | same text => exact rel_refl group_refl _
  | here rest =>
    rw [hword hs, hword ht]
    exact .none
  | cons c h =>
    by_cases hc : c = '('
    · subst hc
      exact h.close? hs ht 0 .plain
    · simp [Group.ofText?, hc]

theorem piecesFrom (h : Respelled s t x y) (depth : Nat) (quoting : Quoting) :
    List.Forall₂ (Respelled s t) (Text.piecesFrom depth quoting [] x)
      (Text.piecesFrom depth quoting [] y) := by
  have hsame : ∀ pieces : List (List Char), List.Forall₂ (Respelled s t) pieces pieces := fun _ =>
    List.forall₂_same.2 fun piece _ => .same piece
  induction h generalizing depth quoting with
  | same text => exact hsame _
  | here rest =>
    rw [piecesFrom_word hs, piecesFrom_word ht]
    cases Text.piecesFrom depth quoting.settled [] rest with
    | nil => exact .nil
    | cons head pieces => exact .cons (.here head) (hsame pieces)
  | @cons c x y h ih =>
    rw [piecesFrom_cons, piecesFrom_cons]
    split
    · exact .cons (.same _) (ih 0 .plain)
    · rw [piecesFrom_eq_modifyHead, piecesFrom_eq_modifyHead _ _ [c] y]
      have hpieces := ih (depthAfter quoting depth c) (quoting.next c)
      generalize Text.piecesFrom (depthAfter quoting depth c) (quoting.next c) [] x = px at *
      generalize Text.piecesFrom (depthAfter quoting depth c) (quoting.next c) [] y = py at *
      cases hpieces with
      | nil => exact .nil
      | cons hhead hpieces => exact .cons (.cons c hhead) hpieces

/-- The arguments are as many, and the same but for one that holds the word. -/
theorem arguments (h : Respelled s t x y) :
    List.Forall₂ (Respelled s t) (Text.arguments x) (Text.arguments y) := by
  rw [Text.arguments, Text.arguments, h.all_isBlank hs ht]
  split
  · exact .nil
  · rw [List.forall₂_map_left_iff, List.forall₂_map_right_iff]
    exact (h.piecesFrom hs ht 0 .plain).imp fun _ _ hpiece => hpiece.trim hs ht

omit hs ht in
theorem isPrefixOf? {name : List Char} (hus : Unlike name s) (hut : Unlike name t)
    (h : Respelled s t x y) :
    Option.Rel (Respelled s t) (name.isPrefixOf? x) (name.isPrefixOf? y) := by
  induction h generalizing name with
  | same text => exact rel_refl .same _
  | here rest =>
    by_cases hne : name = []
    · subst hne
      exact .some (.here rest)
    · have hnone : ∀ {s}, Unlike name s → name.isPrefixOf? (s ++ rest) = none := by
        intro s hu
        rw [Option.eq_none_iff_forall_ne_some]
        intro tail hp
        exact hu.not_prefix hne rest ⟨tail, List.isPrefixOf?_eq_some_iff_append_eq.1 hp⟩
      rw [hnone hus, hnone hut]
      exact .none
  | cons c h ih =>
    cases name with
    | nil => exact .some (.cons c h)
    | cons d name =>
      rw [List.isPrefixOf?, List.isPrefixOf?]
      split
      · exact ih hus.of_cons hut.of_cons
      · exact .none

variable {name : List Char} (hus : Unlike name s) (hut : Unlike name t)

include hus hut

theorem groupAt? (h : Respelled s t x y) (glued : Bool) :
    Option.Rel (Group.Respelled s t) (Text.groupAt? name glued x) (Text.groupAt? name glued y) := by
  have hname := h.isPrefixOf? hus hut
  rw [Text.groupAt?, Text.groupAt?]
  generalize name.isPrefixOf? x = o at hname
  generalize name.isPrefixOf? y = o' at hname
  cases hname with
  | none => exact .none
  | some h =>
    rw [Option.bind_some, Option.bind_some]
    split
    · exact .none
    · exact (h.skipBlank hs ht).ofText? hs ht

theorem firstGroup (hne : name ≠ []) (h : Respelled s t x y) (glued : Bool) :
    Option.Rel (Group.Respelled s t) (Text.firstGroup name glued x)
      (Text.firstGroup name glued y) := by
  induction h generalizing glued with
  | same text => exact rel_refl group_refl _
  | here rest =>
    rw [firstGroup_word hs hus hne, firstGroup_word ht hut hne]
    exact rel_refl group_refl _
  | cons c h ih =>
    have hgroup := (h.cons c).groupAt? hs ht hus hut glued
    rw [Text.firstGroup, Text.firstGroup]
    generalize Text.groupAt? name glued (c :: _) = o at hgroup ⊢
    generalize Text.groupAt? name glued (c :: _) = o' at hgroup ⊢
    cases hgroup with
    | none => exact ih (isWordChar c)
    | some h => exact .some h

end Spelling

/-- The first calls say the same but for a copy of the word. -/
theorem firstCall? (hs : IsSpelling s) (ht : IsSpelling t) {name : String}
    (hname : name.toList ∈ scannedWords) (hus : Unlike name.toList s) (hut : Unlike name.toList t)
    (h : Respelled s t x y) :
    Option.Rel (Group.Respelled s t) ((Text.firstCall? name x).map Call.group)
      ((Text.firstCall? name y).map Call.group) := by
  obtain ⟨hword, hne⟩ := word_of_mem_scannedWords _ hname
  rw [group_firstCall? hword, group_firstCall? hword]
  exact h.firstGroup hs ht hus hut hne false

end Respelled

end LcdHandhelds.Text
