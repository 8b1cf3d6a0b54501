import Mathlib.Data.List.Basic
import LcdHandhelds.Text.Argument

/-!
Argument lists character by character, and literals as texts between two quotes.
-/
namespace LcdHandhelds.Text

/-- How many groups are open after one more character. A surplus parenthesis closes none. -/
def depthAfter (quoting : Quoting) (depth : Nat) (c : Char) : Nat :=
  if quoting = .plain ∧ c = '(' then depth + 1
  else if quoting = .plain ∧ c = ')' then depth - 1
  else depth

/-- A comma ends an argument outside groups and literals; any other character belongs to it. -/
theorem piecesFrom_cons (depth : Nat) (quoting : Quoting) (piece : List Char) (c : Char)
    (text : List Char) :
    piecesFrom depth quoting piece (c :: text) =
      if depth = 0 ∧ quoting = .plain ∧ c = ',' then piece.reverse :: piecesFrom 0 .plain [] text
      else piecesFrom (depthAfter quoting depth c) (quoting.next c) (c :: piece) text := by
  by_cases hcomma : depth = 0 ∧ quoting = .plain ∧ c = ','
  · obtain ⟨rfl, rfl, rfl⟩ := hcomma
    rw [if_pos ⟨rfl, rfl, rfl⟩, piecesFrom]
  · rw [if_neg hcomma, depthAfter]
    by_cases hopen : quoting = .plain ∧ c = '('
    · obtain ⟨rfl, rfl⟩ := hopen
      rw [if_pos ⟨rfl, rfl⟩, piecesFrom]
      rfl
    · rw [if_neg hopen]
      by_cases hclose : quoting = .plain ∧ c = ')'
      · obtain ⟨rfl, rfl⟩ := hclose
        rw [if_pos ⟨rfl, rfl⟩, piecesFrom]
        rfl
      · rw [if_neg hclose, piecesFrom]
        · exact fun hq hc => hopen ⟨hq, hc⟩
        · exact fun hq hc => hclose ⟨hq, hc⟩
        · exact fun hd hq hc => hcomma ⟨hd, hq, hc⟩

/-- A literal is its text between two quotes. -/
theorem unquote?_eq_some_iff {text inner : List Char} :
    unquote? text = some inner ↔ trim text = '"' :: inner ++ ['"'] := by
  rw [unquote?]
  split
  next rest htrim =>
    rw [htrim, List.cons_append, List.cons.injEq]
    split
    next back hback =>
      have hrest : rest = back.reverse ++ ['"'] := by
        rw [← List.reverse_reverse rest, hback, List.reverse_cons]
      rw [hrest, List.append_left_inj]
      simp
    next hback =>
      constructor
      · exact fun h => nomatch h
      · rintro ⟨-, rfl⟩
        exact absurd (by simp) (hback inner.reverse)
  next htrim =>
    constructor
    · exact fun h => nomatch h
    · intro h
      exact absurd h (htrim _)

end LcdHandhelds.Text
