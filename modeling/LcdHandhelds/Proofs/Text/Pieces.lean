import LcdHandhelds.Proofs.Text.Balanced

/-!
What a scan accepts as a group, and what an argument list is split into. Groups are balanced texts
between parentheses (`Group.ofText?_eq_some_iff`), and every balanced text is a list of closed pieces
with commas between them, at which it is split (`arguments_eq_map_trim`).
-/
namespace LcdHandhelds.Text

/-! ### Groups -/

/-- A literal whose scan comes to the end of a group is closed. -/
theorem exists_quotable_of_close? {depth : Nat} {read text : List Char} {g : Group}
    (h : Group.close? depth .quoted read text = some g) :
    ∃ inside rest, Quotable inside ∧ text = inside ++ '"' :: rest := by
  -- an escape takes two characters at once
  induction hn : text.length using Nat.strongRecOn generalizing text read with
  | _ n ih =>
    subst hn
    cases text with
    | nil => simp [Group.close?] at h
    | cons c text =>
      rw [Group.close?_cons, if_neg (by simp), if_neg (by simp)] at h
      by_cases hquote : c = '"'
      · exact ⟨[], text, .nil, by rw [hquote, List.nil_append]⟩
      · by_cases hback : c = '\\'
        · subst hback
          cases text with
          | nil => simp [Group.close?] at h
          | cons d text =>
            rw [Group.close?_cons, if_neg (by simp [Quoting.next]),
              if_neg (by simp [Quoting.next])] at h
            have hshort : text.length < ('\\' :: d :: text).length := by
              simp only [List.length_cons]
              omega
            obtain ⟨inside, rest, hinside, rfl⟩ := ih text.length hshort h rfl
            exact ⟨'\\' :: d :: inside, rest, .escape hinside, rfl⟩
        · rw [next_quoted hquote hback] at h
          obtain ⟨inside, rest, hinside, rfl⟩ := ih text.length (by simp) h rfl
          exact ⟨c :: inside, rest, .cons hquote hback hinside, rfl⟩

/-- Before the parenthesis that closes a group, the text is balanced. -/
theorem exists_balanced_of_close? {depth : Nat} {read text : List Char} {g : Group}
    (h : Group.close? depth .plain read text = some g) :
    ∃ inside rest, Balanced inside ∧ text = inside ++ ')' :: rest := by
  induction hn : text.length using Nat.strongRecOn generalizing text read depth with
  | _ n ih =>
    subst hn
    cases text with
    | nil => simp [Group.close?] at h
    | cons c text =>
      by_cases hplain : c ∉ ['(', ')', '"']
      · have hparens := hplain
        simp only [List.mem_cons, not_or] at hparens
        rw [Group.close?_cons, if_neg (by simp [hparens]), if_neg (by simp [hparens]),
          next_plain hplain] at h
        obtain ⟨inside, rest, hinside, rfl⟩ := ih text.length (by simp) h rfl
        exact ⟨c :: inside, rest, .cons hplain hinside, rfl⟩
      · simp only [List.mem_cons, List.not_mem_nil, or_false, not_not] at hplain
        rcases hplain with rfl | rfl | rfl
        case inl =>
          -- the group that is opened here, and what stands behind it
          rw [Group.close?_cons, if_neg (by simp), if_pos ⟨rfl, rfl⟩] at h
          obtain ⟨inside, rest, hinside, rfl⟩ := ih text.length (by simp) h rfl
          rw [close?_append_balanced hinside, Group.close?_cons, if_pos ⟨rfl, rfl⟩] at h
          obtain ⟨more, rest, hmore, rfl⟩ := ih rest.length
            (by simp only [List.length_cons, List.length_append]; omega) h rfl
          exact ⟨'(' :: inside ++ ')' :: more, rest, .group hinside hmore, by simp⟩
        case inr.inl => exact ⟨[], text, .nil, rfl⟩
        case inr.inr =>
          have hopen : Quoting.plain.next '"' = .quoted := rfl
          rw [Group.close?_cons, if_neg (by simp), if_neg (by simp), hopen] at h
          obtain ⟨inside, rest, hinside, rfl⟩ := exists_quotable_of_close? h
          rw [close?_quoted hinside] at h
          obtain ⟨more, rest, hmore, rfl⟩ := ih rest.length
            (by simp only [List.length_cons, List.length_append]; omega) h rfl
          exact ⟨'"' :: inside ++ '"' :: more, rest, .literal hinside hmore, by simp⟩

/-- A group is a balanced text between parentheses. -/
theorem Group.ofText?_eq_some_iff {text : List Char} {g : Group} :
    ofText? text = some g ↔ text = '(' :: g.inner ++ ')' :: g.after ∧ Balanced g.inner := by
  constructor
  · intro h
    refine ⟨Group.eq_of_ofText? h, ?_⟩
    unfold ofText? at h
    split at h
    next text =>
      obtain ⟨inside, rest, hinside, rfl⟩ := exists_balanced_of_close? h
      rw [close?_balanced hinside] at h
      exact Option.some.inj h ▸ hinside
    · cases h
  · rintro ⟨rfl, hinside⟩
    exact close?_balanced hinside g.after

/-! ### Pieces -/

/-- What is put in front of a list belongs to its first piece. -/
theorem intercalate_append_cons (mark front piece : List Char) (pieces : List (List Char)) :
    mark.intercalate ((front ++ piece) :: pieces) = front ++ mark.intercalate (piece :: pieces) := by
  cases pieces with
  | nil => simp
  | cons next pieces => simp [List.intercalate_cons_cons]

/-- Commas outside of groups and literals part a balanced text. -/
theorem Balanced.exists_pieces {text : List Char} (h : Balanced text) :
    ∃ piece pieces, (∀ p ∈ piece :: pieces, Closed p) ∧
      text = [','].intercalate (piece :: pieces) := by
  induction h with
  | nil => exact ⟨[], [], by simpa using Closed.nil, rfl⟩
  | @cons c text hc _ ih =>
    obtain ⟨piece, pieces, hpieces, rfl⟩ := ih
    by_cases hcomma : c = ','
    · subst hcomma
      exact ⟨[], piece :: pieces, List.forall_mem_cons.2 ⟨.nil, hpieces⟩, by
        simp [List.intercalate_cons_cons]⟩
    · rw [List.forall_mem_cons] at hpieces
      have hplain : c ∉ ['(', ')', '"', ','] := by
        simp only [List.mem_cons, not_or] at hc ⊢
        exact ⟨hc.1, hc.2.1, hc.2.2.1, hcomma, List.not_mem_nil⟩
      exact ⟨c :: piece, pieces, List.forall_mem_cons.2 ⟨.cons hplain hpieces.1, hpieces.2⟩,
        (intercalate_append_cons [','] [c] piece pieces).symm⟩
  | @literal inside text hinside _ ih =>
    obtain ⟨piece, pieces, hpieces, rfl⟩ := ih
    rw [List.forall_mem_cons] at hpieces
    refine ⟨'"' :: inside ++ '"' :: piece, pieces,
      List.forall_mem_cons.2 ⟨.literal hinside hpieces.1, hpieces.2⟩, ?_⟩
    have hfront := intercalate_append_cons [','] ('"' :: inside ++ ['"']) piece pieces
    rw [List.append_assoc, List.append_assoc] at hfront
    exact hfront.symm
  | @group inside text hinside _ _ ih =>
    obtain ⟨piece, pieces, hpieces, rfl⟩ := ih
    rw [List.forall_mem_cons] at hpieces
    refine ⟨'(' :: inside ++ ')' :: piece, pieces,
      List.forall_mem_cons.2 ⟨.group hinside hpieces.1, hpieces.2⟩, ?_⟩
    have hfront := intercalate_append_cons [','] ('(' :: inside ++ [')']) piece pieces
    rw [List.append_assoc, List.append_assoc] at hfront
    exact hfront.symm

theorem balanced_intercalate {pieces : List (List Char)} (h : ∀ p ∈ pieces, Closed p) :
    Balanced ([','].intercalate pieces) := by
  induction pieces with
  | nil => exact .nil
  | cons piece pieces ih =>
    rw [List.forall_mem_cons] at h
    cases pieces with
    | nil => simpa using h.1.balanced
    | cons next pieces =>
      rw [List.intercalate_cons_cons, List.append_assoc]
      exact h.1.balanced.append (.cons (by decide) (ih h.2))

/-- An argument list is split at the commas between its pieces. -/
theorem piecesFrom_intercalate {piece : List Char} {pieces : List (List Char)}
    (h : ∀ p ∈ piece :: pieces, Closed p) :
    piecesFrom 0 .plain [] ([','].intercalate (piece :: pieces)) = piece :: pieces := by
  induction pieces generalizing piece with
  | nil =>
    rw [List.forall_mem_singleton] at h
    have hend := piecesFrom_append_closed h 0 [] []
    rw [List.append_nil, List.append_nil, piecesFrom, List.reverse_reverse] at hend
    simpa using hend
  | cons next pieces ih =>
    rw [List.forall_mem_cons] at h
    rw [List.intercalate_cons_cons, List.append_assoc, piecesFrom_append_closed h.1,
      List.singleton_append, piecesFrom_cons, if_pos ⟨rfl, rfl, rfl⟩, ih h.2, List.append_nil,
      List.reverse_reverse]

/-- The arguments of a list that is not blank are its pieces without the blanks around them. -/
theorem arguments_eq_map_trim {piece : List Char} {pieces : List (List Char)}
    (h : ∀ p ∈ piece :: pieces, Closed p)
    (hblank : ¬ ([','].intercalate (piece :: pieces)).all isBlank) :
    arguments ([','].intercalate (piece :: pieces)) = (piece :: pieces).map trim := by
  rw [arguments, if_neg hblank, piecesFrom_intercalate h]

end LcdHandhelds.Text
