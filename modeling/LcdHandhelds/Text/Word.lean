import LcdHandhelds.Text.Blank

/-!
Whole words. Identifiers are made of ASCII letters, digits and underscores; an occurrence of a word
counts where no such character touches it.
-/
namespace LcdHandhelds.Text

def isWordChar (c : Char) : Bool :=
  c.isAlphanum || c == '_'

/-- No identifier goes on at the front of `text`. -/
def endsWord : List Char → Bool
  | [] => true
  | c :: _ => !isWordChar c

/-- The identifier at the front of a text, and what follows it. -/
def identifier? (text : List Char) : Option (List Char × List Char) :=
  match text.takeWhile isWordChar with
  | [] => none
  | name => some (name, text.dropWhile isWordChar)

/-- A place where a word stands, and the text after the word. -/
structure Occurrence where
  place : Nat
  after : List Char
  deriving DecidableEq, Repr

/--
Scans on from `place`. `glued` says that an identifier character stands directly before it, and
`skip` how many characters are still covered by the last match.
-/
def occurrencesFrom (word : List Char) :
    (place : Nat) → (glued : Bool) → (skip : Nat) → List Char → List Occurrence
  | place, glued, _, [] => if word.isEmpty && !glued then [⟨place, []⟩] else []
  | place, _, skip + 1, c :: text => occurrencesFrom word (place + 1) (isWordChar c) skip text
  | place, glued, 0, c :: text =>
    match word.isPrefixOf? (c :: text) with
    | none => occurrencesFrom word (place + 1) (isWordChar c) 0 text
    | some after =>
      if !glued && endsWord after then
        ⟨place, after⟩ :: occurrencesFrom word (place + 1) (isWordChar c) (word.length - 1) text
      else occurrencesFrom word (place + 1) (isWordChar c) (word.length - 1) text

/--
The whole-word occurrences of `word`, in order. Matches that share characters with an earlier match
do not count, and the empty word matches between any two characters.
-/
def occurrences (word : String) (text : List Char) : List Occurrence :=
  occurrencesFrom word.toList 0 false 0 text

end LcdHandhelds.Text
