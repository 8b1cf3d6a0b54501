import LcdHandhelds.Json.Basic

/-!
Writing JSON over several lines, four spaces for each level. Inside a string only the quote, the
backslash and the control characters of ASCII's first column are escaped.
-/
namespace LcdHandhelds.Json

/-- The four hexadecimal digits of a control character. -/
def controlUnit (c : Char) : List Char :=
  ['0', '0'] ++ [Nat.digitChar (c.toNat / 16), Nat.digitChar (c.toNat % 16)]

def escapeChar (c : Char) : List Char :=
  if c = '"' then ['\\', '"']
  else if c = '\\' then ['\\', '\\']
  else if c = '\x08' then ['\\', 'b']
  else if c = '\x0c' then ['\\', 'f']
  else if c = '\n' then ['\\', 'n']
  else if c = '\r' then ['\\', 'r']
  else if c = '\t' then ['\\', 't']
  else if c.toNat < 0x20 then ['\\', 'u'] ++ controlUnit c
  else [c]

def quote (text : String) : List Char :=
  '"' :: text.toList.flatMap escapeChar ++ ['"']

/-- The start of a line at a level. -/
def newline (level : Nat) : List Char :=
  '\n' :: .replicate (4 * level) ' '

/-- A string that is no text is written as an empty one. -/
def quoteSound (text : Option String) : List Char :=
  quote (text.getD "")

mutual

def render (level : Nat) : Json → List Char
  | null => "null".toList
  | bool true => "true".toList
  | bool false => "false".toList
  | number n => n.text
  | string text => quoteSound text
  | array [] => ['[', ']']
  | array (j :: items) =>
    '[' :: (newline (level + 1) ++ render (level + 1) j ++ renderItems (level + 1) items ++
      newline level ++ [']'])
  | object [] => ['\x7b', '\x7d']
  | object ((key, j) :: fields) =>
    '\x7b' :: (newline (level + 1) ++ quoteSound key ++ ": ".toList ++ render (level + 1) j ++
      renderFields (level + 1) fields ++ newline level ++ ['\x7d'])

/-- The items after the first. -/
def renderItems (level : Nat) : List Json → List Char
  | [] => []
  | j :: items => ',' :: (newline level ++ render level j ++ renderItems level items)

/-- The fields after the first. -/
def renderFields (level : Nat) : List (Option String × Json) → List Char
  | [] => []
  | (key, j) :: fields =>
    ',' :: (newline level ++ quoteSound key ++ ": ".toList ++ render level j ++
      renderFields level fields)

end

/-- The text of a value, without a line feed at its end. -/
def toText (j : Json) : String :=
  String.ofList (render 0 j)

end LcdHandhelds.Json
