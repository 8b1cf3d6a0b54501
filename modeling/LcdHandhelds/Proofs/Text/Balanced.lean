import LcdHandhelds.Proofs.Text.Argument
import LcdHandhelds.Proofs.Text.Call

/-!
Texts in which every group and every literal that is opened is closed again. A scan that is outside
of literals passes over such a text and stands as deep as before (`close?_append_balanced`), and an
argument that has its commas in groups and literals is not split (`piecesFrom_append_closed`).
-/
namespace LcdHandhelds.Text

/-- What may stand in a literal: a backslash and the character behind it, or any but a quote. -/
inductive Quotable : List Char → Prop
  | nil : Quotable []
  | cons {c : Char} {text : List Char} :
    c ≠ '"' → c ≠ '\\' → Quotable text → Quotable (c :: text)
  | escape {c : Char} {text : List Char} : Quotable text → Quotable ('\\' :: c :: text)

/-- Texts that leave no literal and no group open. -/
inductive Balanced : List Char → Prop
  | nil : Balanced []
  | cons {c : Char} {text : List Char} :
    c ∉ ['(', ')', '"'] → Balanced text → Balanced (c :: text)
  | literal {inside text : List Char} :
    Quotable inside → Balanced text → Balanced ('"' :: inside ++ '"' :: text)
  | group {inside text : List Char} :
    Balanced inside → Balanced text → Balanced ('(' :: inside ++ ')' :: text)

/-- Balanced texts with no comma outside of their literals and groups. -/
inductive Closed : List Char → Prop
  | nil : Closed []
  | cons {c : Char} {text : List Char} :
    c ∉ ['(', ')', '"', ','] → Closed text → Closed (c :: text)
  | literal {inside text : List Char} :
    Quotable inside → Closed text → Closed ('"' :: inside ++ '"' :: text)
  | group {inside text : List Char} :
    Balanced inside → Closed text → Closed ('(' :: inside ++ ')' :: text)

/-- A text between quotes. -/
def literal (inside : List Char) : List Char :=
  '"' :: inside ++ ['"']

theorem quotable_of_notMem {text : List Char} (hq : '"' ∉ text) (hb : '\\' ∉ text) :
    Quotable text := by
  induction text with
  | nil => exact .nil
  | cons c text ih =>
    rw [List.mem_cons, not_or] at hq hb
    exact .cons (Ne.symm hq.1) (Ne.symm hb.1) (ih hq.2 hb.2)

theorem closed_of_forall {text : List Char} (h : ∀ c ∈ text, c ∉ ['(', ')', '"', ',']) :
    Closed text := by
  induction text with
  | nil => exact .nil
  | cons c text ih =>
    rw [List.forall_mem_cons] at h
    exact .cons h.1 (ih h.2)

theorem notMem_of_comma {c : Char} (h : c ∉ ['(', ')', '"', ',']) : c ∉ ['(', ')', '"'] :=
  fun hm => h (List.mem_append_left [','] hm)

theorem Closed.balanced {text : List Char} (h : Closed text) : Balanced text := by
  induction h with
  | nil => exact .nil
  | cons hc _ ih => exact .cons (notMem_of_comma hc) ih
  | literal hinside _ ih => exact .literal hinside ih
  | group hinside _ ih => exact .group hinside ih

theorem Balanced.append {s t : List Char} (hs : Balanced s) (ht : Balanced t) :
    Balanced (s ++ t) := by
  induction hs with
  | nil => exact ht
  | cons hc _ ih => exact .cons hc ih
  | literal hinside _ ih =>
    rw [List.append_assoc, List.cons_append]
    exact .literal hinside ih
  | group hinside _ _ ih =>
    rw [List.append_assoc, List.cons_append]
    exact .group hinside ih

theorem Closed.append {s t : List Char} (hs : Closed s) (ht : Closed t) : Closed (s ++ t) := by
  induction hs with
  | nil => exact ht
  | cons hc _ ih => exact .cons hc ih
  | literal hinside _ ih =>
    rw [List.append_assoc, List.cons_append]
    exact .literal hinside ih
  | group hinside _ ih =>
    rw [List.append_assoc, List.cons_append]
    exact .group hinside ih

theorem closed_literal {inside : List Char} (h : Quotable inside) : Closed (literal inside) :=
  .literal h .nil

/-! ### Groups -/

/-- A character of no group and no literal changes nothing for a scan. -/
theorem next_plain {c : Char} (h : c ∉ ['(', ')', '"']) : Quoting.plain.next c = .plain := by
  simp only [List.mem_cons, not_or] at h
  simp [Quoting.next, h.2.2.1]

theorem next_quoted {c : Char} (hq : c ≠ '"') (hb : c ≠ '\\') :
    Quoting.quoted.next c = .quoted := by
  simp [Quoting.next]

theorem close?_quoted {inside : List Char} (h : Quotable inside) (depth : Nat)
    (read rest : List Char) :
    Group.close? depth .quoted read (inside ++ '"' :: rest) =
      Group.close? depth .plain ('"' :: (inside.reverse ++ read)) rest := by
  induction h generalizing read with
  | nil => simp [Group.close?_cons, Quoting.next]
  | @cons c inside hq hb _ ih =>
    rw [List.cons_append, Group.close?_cons, if_neg (by simp), if_neg (by simp),
      next_quoted hq hb, ih, List.reverse_cons, List.append_assoc, List.singleton_append]
  | @escape c inside _ ih =>
    have hnext : Quoting.quoted.next '\\' = .escaped := rfl
    have hback : Quoting.escaped.next c = .quoted := rfl
    rw [List.cons_append, List.cons_append, Group.close?_cons, if_neg (by simp),
      if_neg (by simp), hnext, Group.close?_cons, if_neg (by simp), if_neg (by simp), hback, ih]
    simp

/-- A balanced text does not end the group it stands in. -/
theorem close?_append_balanced {text : List Char} (h : Balanced text) (depth : Nat)
    (read rest : List Char) :
    Group.close? depth .plain read (text ++ rest) =
      Group.close? depth .plain (text.reverse ++ read) rest := by
  induction h generalizing depth read rest with
  | nil => rfl
  | @cons c text hc _ ih =>
    have hparen := hc
    simp only [List.mem_cons, not_or] at hparen
    rw [List.cons_append, Group.close?_cons, if_neg (by simp [hparen.2.1]),
      if_neg (by simp [hparen.1]), next_plain hc, ih, List.reverse_cons, List.append_assoc,
      List.singleton_append]
  | @literal inside text hinside _ ih =>
    have hopen : Quoting.plain.next '"' = .quoted := rfl
    rw [List.append_assoc, List.cons_append, List.cons_append, Group.close?_cons,
      if_neg (by simp), if_neg (by simp), hopen, close?_quoted hinside, ih]
    simp
  | @group inside text _ _ ihInside ih =>
    rw [List.append_assoc, List.cons_append, List.cons_append, Group.close?_cons,
      if_neg (by simp), if_pos ⟨rfl, rfl⟩, ihInside, Group.close?_cons, if_pos ⟨rfl, rfl⟩]
    dsimp only
    rw [ih]
    simp

/-- Around a balanced text the parentheses belong together. -/
theorem close?_balanced {text : List Char} (h : Balanced text) (rest : List Char) :
    Group.close? 0 .plain [] (text ++ ')' :: rest) = some ⟨text, rest⟩ := by
  rw [close?_append_balanced h, Group.close?_cons, if_pos ⟨rfl, rfl⟩]
  simp

/-! ### Arguments -/

theorem piecesFrom_quoted {inside : List Char} (h : Quotable inside) (depth : Nat)
    (piece rest : List Char) :
    piecesFrom depth .quoted piece (inside ++ '"' :: rest) =
      piecesFrom depth .plain ('"' :: (inside.reverse ++ piece)) rest := by
  have hdepth : ∀ {q c}, q ≠ .plain → depthAfter q depth c = depth := by
    intro q c hq
    simp [depthAfter, hq]
  induction h generalizing piece with
  | nil => simp [piecesFrom_cons, depthAfter, Quoting.next]
  | @cons c inside hq hb _ ih =>
    rw [List.cons_append, piecesFrom_cons, if_neg (by simp), next_quoted hq hb,
      hdepth (by simp), ih, List.reverse_cons, List.append_assoc, List.singleton_append]
  | @escape c inside _ ih =>
    have hnext : Quoting.quoted.next '\\' = .escaped := rfl
    have hback : Quoting.escaped.next c = .quoted := rfl
    rw [List.cons_append, List.cons_append, piecesFrom_cons, if_neg (by simp), hnext,
      hdepth (by simp), piecesFrom_cons, if_neg (by simp), hback, hdepth (by simp), ih]
    simp

/-- Inside a group, a balanced text belongs to one argument with all its commas. -/
theorem piecesFrom_append_balanced {text : List Char} (h : Balanced text) (depth : Nat)
    (piece rest : List Char) :
    piecesFrom (depth + 1) .plain piece (text ++ rest) =
      piecesFrom (depth + 1) .plain (text.reverse ++ piece) rest := by
  induction h generalizing depth piece rest with
  | nil => rfl
  | @cons c text hc _ ih =>
    have hparen := hc
    simp only [List.mem_cons, not_or] at hparen
    have hdepth : depthAfter .plain (depth + 1) c = depth + 1 := by
      simp [depthAfter, hparen.1, hparen.2.1]
    rw [List.cons_append, piecesFrom_cons, if_neg (by simp), next_plain hc, hdepth, ih,
      List.reverse_cons, List.append_assoc, List.singleton_append]
  | @literal inside text hinside _ ih =>
    have hopen : Quoting.plain.next '"' = .quoted := rfl
    have hdepth : depthAfter .plain (depth + 1) '"' = depth + 1 := by simp [depthAfter]
    rw [List.append_assoc, List.cons_append, List.cons_append, piecesFrom_cons, if_neg (by simp),
      hopen, hdepth, piecesFrom_quoted hinside, ih]
    simp
  | @group inside text _ _ ihInside ih =>
    have hopen : depthAfter .plain (depth + 1) '(' = depth + 1 + 1 := by simp [depthAfter]
    have hclose : depthAfter .plain (depth + 1 + 1) ')' = depth + 1 := by simp [depthAfter]
    have hplain : Quoting.plain.next '(' = .plain ∧ Quoting.plain.next ')' = .plain := ⟨rfl, rfl⟩
    rw [List.append_assoc, List.cons_append, List.cons_append, piecesFrom_cons, if_neg (by simp),
      hopen, hplain.1, ihInside, piecesFrom_cons, if_neg (by simp), hclose, hplain.2, ih]
    simp

/-- A closed text belongs to one argument. -/
theorem piecesFrom_append_closed {text : List Char} (h : Closed text) (depth : Nat)
    (piece rest : List Char) :
    piecesFrom depth .plain piece (text ++ rest) =
      piecesFrom depth .plain (text.reverse ++ piece) rest := by
  induction h generalizing depth piece rest with
  | nil => rfl
  | @cons c text hc _ ih =>
    have hspecial := hc
    simp only [List.mem_cons, not_or] at hspecial
    have hdepth : depthAfter .plain depth c = depth := by
      simp [depthAfter, hspecial.1, hspecial.2.1]
    rw [List.cons_append, piecesFrom_cons, if_neg (by simp [hspecial.2.2.2.1]),
      next_plain (notMem_of_comma hc), hdepth, ih, List.reverse_cons, List.append_assoc,
      List.singleton_append]
  | @literal inside text hinside _ ih =>
    have hopen : Quoting.plain.next '"' = .quoted := rfl
    have hdepth : depthAfter .plain depth '"' = depth := by simp [depthAfter]
    rw [List.append_assoc, List.cons_append, List.cons_append, piecesFrom_cons, if_neg (by simp),
      hopen, hdepth, piecesFrom_quoted hinside, ih]
    simp
  | @group inside text hinside _ ih =>
    have hopen : depthAfter .plain depth '(' = depth + 1 := by simp [depthAfter]
    have hclose : depthAfter .plain (depth + 1) ')' = depth := by simp [depthAfter]
    have hplain : Quoting.plain.next '(' = .plain ∧ Quoting.plain.next ')' = .plain := ⟨rfl, rfl⟩
    rw [List.append_assoc, List.cons_append, List.cons_append, piecesFrom_cons, if_neg (by simp),
      hopen, hplain.1, piecesFrom_append_balanced hinside, piecesFrom_cons, if_neg (by simp),
      hclose, hplain.2, ih]
    simp

end LcdHandhelds.Text
