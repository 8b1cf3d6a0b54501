import LcdHandhelds.Text.Offset

/-!
Balanced groups `( ... )`. Parentheses inside a string literal do not count; a backslash inside one
keeps the next character from ending it.
-/
namespace LcdHandhelds.Text

/-- Where a scan stands with respect to string literals. -/
inductive Quoting where
  | plain | quoted | escaped
  deriving DecidableEq, Repr

def Quoting.next : Quoting → Char → Quoting
  | .plain, '"' => .quoted
  | .plain, _ => .plain
  | .quoted, '\\' => .escaped
  | .quoted, '"' => .plain
  | .quoted, _ => .quoted
  | .escaped, _ => .quoted

/-- What stands between a pair of parentheses, and what follows the pair. -/
structure Group where
  inner : List Char
  after : List Char
  deriving DecidableEq, Repr

/--
Looks for the parenthesis that closes a group: `depth` counts the groups open inside it, and
`inner` holds what was read so far, nearest character first.
-/
def Group.close? : (depth : Nat) → Quoting → (inner : List Char) → List Char → Option Group
  | _, _, _, [] => none
  | 0, .plain, inner, ')' :: text => some ⟨inner.reverse, text⟩
  | depth + 1, .plain, inner, ')' :: text => close? depth .plain (')' :: inner) text
  | depth, .plain, inner, '(' :: text => close? (depth + 1) .plain ('(' :: inner) text
  | depth, quoting, inner, c :: text => close? depth (quoting.next c) (c :: inner) text

/-- The group at the front of a text, if its parentheses balance. -/
def Group.ofText? : List Char → Option Group
  | '(' :: text => close? 0 .plain [] text
  | _ => none

/-- The byte offset of the parenthesis that closes the one at `opening`. -/
def closingOffset? (text : List Char) (opening : Nat) : Option Nat := do
  let place ← placeOf? text opening
  let group ← Group.ofText? (text.drop place)
  return opening + 1 + byteLength group.inner

theorem Group.close?_eq_some {depth : Nat} {quoting : Quoting} {inner text : List Char} {g : Group}
    (h : close? depth quoting inner text = some g) :
    inner.reverse ++ text = g.inner ++ ')' :: g.after := by
  fun_induction close? depth quoting inner text with
  | case1 => simp at h
  | case2 => cases h; rfl
  | case3 depth inner text ih => simpa using ih h
  | case4 depth inner text ih => simpa using ih h
  | case5 depth quoting inner c text _ _ _ ih => simpa using ih h

/-- A group is its inner text between parentheses, at the front of the text. -/
theorem Group.eq_of_ofText? {text : List Char} {g : Group} (h : ofText? text = some g) :
    text = '(' :: g.inner ++ ')' :: g.after := by
  unfold ofText? at h
  split at h
  · simpa using close?_eq_some h
  · simp at h

theorem Group.length_after_lt {text : List Char} {g : Group} (h : ofText? text = some g) :
    g.after.length < text.length := by
  rw [eq_of_ofText? h, List.length_append, List.length_cons, List.length_cons]
  omega

end LcdHandhelds.Text
