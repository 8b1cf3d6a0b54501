import LcdHandhelds.Text.Numeric

/-!
The tokens of TOML: white space, comments, strings and keys. Every function takes the text from its
token on and gives what it read with the rest.
-/
namespace LcdHandhelds.Toml

def isSpace (c : Char) : Bool :=
  c == ' ' || c == '\t'

def skipSpace (text : List Char) : List Char :=
  text.dropWhile isSpace

/-- What a comment or a string on one line may hold: no control character but the tab. -/
def isPlain (c : Char) : Bool :=
  c == '\t' || (0x20 ≤ c.toNat && c.toNat != 0x7F)

def newline? : List Char → Option (List Char)
  | '\n' :: text => some text
  | '\r' :: '\n' :: text => some text
  | _ => none

/-- Skips a comment, if there is one. -/
def skipComment : List Char → List Char
  | '#' :: text => text.dropWhile isPlain
  | text => text

/-- The end of a line, after white space and a comment. -/
def lineEnd? (text : List Char) : Option (List Char) :=
  match skipComment (skipSpace text) with
  | [] => some []
  | text => newline? text

/-- Skips white space, comments and ends of lines. `comment` says that a comment is open. -/
def skipLines : (comment : Bool) → List Char → List Char
  | _, [] => []
  | _, '\n' :: text => skipLines false text
  | _, '\r' :: '\n' :: text => skipLines false text
  | true, c :: text => if isPlain c then skipLines true text else c :: text
  | false, '#' :: text => skipLines true text
  | false, c :: text => if isSpace c then skipLines false text else c :: text

/-- The character with a number written in hexadecimal. -/
def scalarOf? (digits : List Char) : Option Char := do
  let n ← Text.digits? 16 digits
  if n < 0xD800 ∨ (0xE000 ≤ n ∧ n < 0x110000) then some (Char.ofNat n) else none

/-- What a backslash and one more character stand for. -/
def escape? : Char → Option Char
  | 'b' => some '\x08'
  | 't' => some '\t'
  | 'n' => some '\n'
  | 'f' => some '\x0c'
  | 'r' => some '\r'
  | '"' => some '"'
  | '\\' => some '\\'
  | _ => none

/-- The escape after a backslash; `size` is the number of characters that it takes. -/
structure Escape where
  char : Char
  size : Nat

def escapeAt? : List Char → Option Escape
  | 'u' :: text =>
    if 4 ≤ text.length then (scalarOf? (text.take 4)).map (⟨·, 5⟩) else none
  | 'U' :: text =>
    if 8 ≤ text.length then (scalarOf? (text.take 8)).map (⟨·, 9⟩) else none
  | e :: _ => (escape? e).map (⟨·, 1⟩)
  | [] => none

/--
A string in double quotes, after the first of them. `read` holds its characters, nearest first, and
`skip` counts the characters that still belong to an escape.
-/
def basicTail? : (read : List Char) → (skip : Nat) → List Char → Option (String × List Char)
  | _, _, [] => none
  | read, skip + 1, _ :: text => basicTail? read skip text
  | read, 0, '"' :: text => some (String.ofList read.reverse, text)
  | read, 0, '\\' :: text =>
    match escapeAt? text with
    | some e => basicTail? (e.char :: read) e.size text
    | none => none
  | read, 0, c :: text => if isPlain c then basicTail? (c :: read) 0 text else none

/-- A string in single quotes, after the first of them. Nothing is escaped. -/
def literalTail? (text : List Char) : Option (String × List Char) :=
  match text.dropWhile fun c => isPlain c && c != '\x27' with
  | '\x27' :: rest =>
    some (String.ofList (text.takeWhile fun c => isPlain c && c != '\x27'), rest)
  | _ => none

/-- How many of the next characters are quotes of one kind, up to five. -/
def countQuotes (quote : Char) (text : List Char) : Nat :=
  ((text.take 5).takeWhile (· == quote)).length

/-- The text after a backslash goes on with the end of its line. -/
def endsLine (text : List Char) : Bool :=
  (newline? (skipSpace text)).isSome

/-- A string over several lines: what was read of it, and how it goes on. -/
inductive Folding where
  /-- Characters count. -/
  | reading
  /-- White space and ends of lines are left out, as after a backslash that ends its line. -/
  | folding
  deriving DecidableEq

/--
A string in three double quotes, after these. Up to two quotes may stand before the closing three;
every end of a line is one line feed.
-/
def longBasicTail? : Folding → (read : List Char) → (skip : Nat) → List Char →
    Option (String × List Char)
  | _, _, _, [] => none
  | fold, read, skip + 1, _ :: text => longBasicTail? fold read skip text
  | fold, read, 0, c :: text =>
    if fold = .folding ∧ (isSpace c ∨ c = '\n' ∨ (c = '\r' ∧ text.head? = some '\n')) then
      longBasicTail? .folding read 0 text
    else if c = '"' then
      let quotes := countQuotes '"' (c :: text)
      if 3 ≤ quotes then
        some (String.ofList (List.replicate (quotes - 3) '"' ++ read).reverse,
          text.drop (quotes - 1))
      else longBasicTail? .reading ('"' :: read) 0 text
    else if c = '\\' then
      if endsLine text then longBasicTail? .folding read 0 text
      else
        match escapeAt? text with
        | some e => longBasicTail? .reading (e.char :: read) e.size text
        | none => none
    else if c = '\n' then longBasicTail? .reading ('\n' :: read) 0 text
    else if c = '\r' ∧ text.head? = some '\n' then longBasicTail? .reading ('\n' :: read) 1 text
    else if isPlain c then longBasicTail? .reading (c :: read) 0 text
    else none

/-- A string in three single quotes, after these. -/
def longLiteralTail? : (read : List Char) → (skip : Nat) → List Char → Option (String × List Char)
  | _, _, [] => none
  | read, skip + 1, _ :: text => longLiteralTail? read skip text
  | read, 0, c :: text =>
    if c = '\x27' then
      let quotes := countQuotes '\x27' (c :: text)
      if 3 ≤ quotes then
        some (String.ofList (List.replicate (quotes - 3) '\x27' ++ read).reverse,
          text.drop (quotes - 1))
      else longLiteralTail? ('\x27' :: read) 0 text
    else if c = '\n' then longLiteralTail? ('\n' :: read) 0 text
    else if c = '\r' ∧ text.head? = some '\n' then longLiteralTail? ('\n' :: read) 1 text
    else if isPlain c then longLiteralTail? (c :: read) 0 text
    else none

/-- Skips the end of a line that directly follows the quotes of a long string. -/
def skipNewline (text : List Char) : List Char :=
  (newline? text).getD text

def string? : List Char → Option (String × List Char)
  | '"' :: '"' :: '"' :: text => longBasicTail? .reading [] 0 (skipNewline text)
  | '"' :: text => basicTail? [] 0 text
  | '\x27' :: '\x27' :: '\x27' :: text => longLiteralTail? [] 0 (skipNewline text)
  | '\x27' :: text => literalTail? text
  | _ => none

def isBareKeyChar (c : Char) : Bool :=
  c.isAlphanum || c == '_' || c == '-'

/-- One part of a key: bare, or a string on one line. -/
def keyPart? : List Char → Option (String × List Char)
  | '"' :: text => basicTail? [] 0 text
  | '\x27' :: text => literalTail? text
  | text =>
    match text.takeWhile isBareKeyChar with
    | [] => none
    | name => some (String.ofList name, text.dropWhile isBareKeyChar)

/-- The parts of a key, with dots between them and white space around them. -/
def keyParts? : (fuel : Nat) → List Char → Option (List String × List Char)
  | 0, _ => none
  | fuel + 1, text => do
    let (part, text) ← keyPart? (skipSpace text)
    match skipSpace text with
    | '.' :: text =>
      let (parts, rest) ← keyParts? fuel text
      return (part :: parts, rest)
    | rest => return ([part], rest)

/-- How deep keys and values may nest. -/
def deepest : Nat := 79

/-- A key, of not too many parts. -/
def key? (text : List Char) : Option (List String × List Char) :=
  keyParts? deepest text

end LcdHandhelds.Toml
