/-!
White space and lines of a text. Texts are lists of characters, taken apart from the front. A blank
is any character with the Unicode property `White_Space`; a line ends at a line feed only.
-/
namespace LcdHandhelds.Text

/-- The code points of the Unicode property `White_Space`, as inclusive ranges. -/
def blankRanges : List (Nat × Nat) :=
  [(0x09, 0x0D), (0x20, 0x20), (0x85, 0x85), (0xA0, 0xA0), (0x1680, 0x1680), (0x2000, 0x200A),
    (0x2028, 0x2029), (0x202F, 0x202F), (0x205F, 0x205F), (0x3000, 0x3000)]

def isBlank (c : Char) : Bool :=
  blankRanges.any fun r => r.1 ≤ c.toNat && c.toNat ≤ r.2

/-- The blanks of ASCII. The vertical tab is not one of them. -/
def isAsciiBlank (c : Char) : Bool :=
  c == '\t' || c == '\n' || c == '\x0c' || c == '\r' || c == ' '

def skipBlank (text : List Char) : List Char :=
  text.dropWhile isBlank

/-- Without the blanks at both ends. -/
def trim (text : List Char) : List Char :=
  (skipBlank (skipBlank text).reverse).reverse

@[simp] theorem skipBlank_nil : skipBlank [] = [] := rfl

theorem skipBlank_cons (c : Char) (text : List Char) :
    skipBlank (c :: text) = if isBlank c then skipBlank text else c :: text := by
  simp [skipBlank, List.dropWhile_cons]

/-- Only blanks are skipped. -/
theorem takeWhile_append_skipBlank (text : List Char) :
    text.takeWhile isBlank ++ skipBlank text = text :=
  List.takeWhile_append_dropWhile

theorem length_skipBlank_le (text : List Char) : (skipBlank text).length ≤ text.length := by
  have h := congrArg List.length (takeWhile_append_skipBlank text)
  simp only [List.length_append] at h
  omega

/-- The lines read so far are closed; `line` is the open one, nearest character first. -/
def linesFrom : (line : List Char) → List Char → List (List Char)
  | [], [] => []
  | line, [] => [line.reverse]
  | '\r' :: line, '\n' :: text => line.reverse :: linesFrom [] text
  | line, '\n' :: text => line.reverse :: linesFrom [] text
  | line, c :: text => linesFrom (c :: line) text

/--
The lines of a text. A carriage return directly before the line feed belongs to the line's end, a
last line that is empty is none, and one that no line feed ends keeps all its characters.
-/
def lines (text : List Char) : List (List Char) :=
  linesFrom [] text

end LcdHandhelds.Text
