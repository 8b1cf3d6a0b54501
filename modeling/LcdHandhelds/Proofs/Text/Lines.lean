import Mathlib.Data.List.Basic
import LcdHandhelds.Text.Blank

/-!
Lines of a text: one line feed ends one line, no line holds a line feed, and a text without carriage
returns is its lines with line feeds between them.
-/
namespace LcdHandhelds.Text

theorem linesFrom_cons_of_ne {c : Char} (h : c ≠ '\n') (line text : List Char) :
    linesFrom line (c :: text) = linesFrom (c :: line) text := by
  rw [linesFrom]
  · exact h
  · exact fun _ _ hc => h hc

/-- The end of the text closes the line that is open, if it has a character. -/
theorem linesFrom_nil {line : List Char} (h : line ≠ []) : linesFrom line [] = [line.reverse] := by
  rw [linesFrom]
  exact h

theorem linesFrom_feed {line : List Char} (h : line.head? ≠ some '\r') (text : List Char) :
    linesFrom line ('\n' :: text) = line.reverse :: linesFrom [] text := by
  rw [linesFrom]
  rintro rest rfl
  exact h rfl

theorem linesFrom_return (line text : List Char) :
    linesFrom ('\r' :: line) ('\n' :: text) = line.reverse :: linesFrom [] text := rfl

theorem linesFrom_newline {line : List Char} (h : '\r' ∉ line) (text : List Char) :
    linesFrom line ('\n' :: text) = line.reverse :: linesFrom [] text :=
  linesFrom_feed (fun hr => h (List.mem_of_head? hr)) text

theorem linesFrom_append {front : List Char} (h : '\n' ∉ front) (line text : List Char) :
    linesFrom line (front ++ text) = linesFrom (front.reverse ++ line) text := by
  induction front generalizing line with
  | nil => rfl
  | cons c front ih =>
    rw [List.mem_cons, not_or] at h
    rw [List.cons_append, linesFrom_cons_of_ne (Ne.symm h.1), ih h.2, List.reverse_cons,
      List.append_assoc, List.singleton_append]

/-- The first line of a text is what stands before its first line feed. -/
theorem lines_append_newline {line : List Char} (hr : '\r' ∉ line) (hn : '\n' ∉ line)
    (text : List Char) : lines (line ++ '\n' :: text) = line :: lines text := by
  rw [lines, linesFrom_append hn, List.append_nil, linesFrom_newline (by simpa using hr),
    List.reverse_reverse, lines]

/-- A text without line feed is one line, if it is any. -/
theorem lines_of_noFeed {line : List Char} (hn : '\n' ∉ line) (hne : line ≠ []) :
    lines line = [line] := by
  have h := linesFrom_append hn [] []
  rw [List.append_nil, List.append_nil] at h
  rw [lines, h]
  rw [linesFrom_nil (mt List.reverse_eq_nil_iff.1 hne), List.reverse_reverse]

/-- A line feed closes the line that is open, with or without a carriage return at its end. -/
theorem exists_linesFrom_feed (line text : List Char) : ∃ closed, closed <:+ line ∧
    linesFrom line ('\n' :: text) = closed.reverse :: linesFrom [] text := by
  by_cases hr : line.head? = some '\r'
  · obtain ⟨rest, rfl⟩ := List.head?_eq_some_iff.1 hr
    exact ⟨rest, List.suffix_cons _ _, linesFrom_return rest text⟩
  · exact ⟨line, List.suffix_rfl, linesFrom_feed hr text⟩

theorem noFeed_of_mem_linesFrom {text line : List Char} (hopen : '\n' ∉ line) {l : List Char}
    (h : l ∈ linesFrom line text) : '\n' ∉ l := by
  induction text generalizing line with
  | nil =>
    cases line with
    | nil => exact absurd h List.not_mem_nil
    | cons c line =>
      rw [linesFrom_nil (List.cons_ne_nil c line), List.mem_singleton] at h
      rw [h, List.mem_reverse]
      exact hopen
  | cons c text ih =>
    by_cases hc : c = '\n'
    · subst hc
      obtain ⟨closed, hclosed, heq⟩ := exists_linesFrom_feed line text
      rw [heq] at h
      rcases List.mem_cons.1 h with rfl | h
      · exact fun hm => hopen (hclosed.subset (List.mem_reverse.1 hm))
      · exact ih List.not_mem_nil h
    · rw [linesFrom_cons_of_ne hc] at h
      refine ih ?_ h
      rw [List.mem_cons, not_or]
      exact ⟨Ne.symm hc, hopen⟩

theorem noFeed_of_mem_lines {text l : List Char} (h : l ∈ lines text) : '\n' ∉ l :=
  noFeed_of_mem_linesFrom List.not_mem_nil h

theorem headD_linesFrom_prefix (line text : List Char) :
    (linesFrom line text).headD [] <+: line.reverse ++ text := by
  induction text generalizing line with
  | nil =>
    cases line with
    | nil => exact List.nil_prefix
    | cons c line =>
      rw [linesFrom_nil (List.cons_ne_nil c line)]
      exact List.prefix_append _ _
  | cons c text ih =>
    by_cases hc : c = '\n'
    · subst hc
      obtain ⟨closed, hclosed, heq⟩ := exists_linesFrom_feed line text
      rw [heq, List.headD_cons]
      exact (List.reverse_prefix.2 hclosed).trans (List.prefix_append _ _)
    · rw [linesFrom_cons_of_ne hc]
      simpa using ih (c :: line)

/-- A text starts with its first line. -/
theorem headD_lines_isPrefix (text : List Char) : (lines text).headD [] <+: text :=
  headD_linesFrom_prefix [] text

end LcdHandhelds.Text
