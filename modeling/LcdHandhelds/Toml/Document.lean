import LcdHandhelds.Toml.Scalar

/-!
TOML documents: values, then lines, then the tree of tables that the lines build.
-/
namespace LcdHandhelds.Toml

/-- The items of an array after its bracket, up to its end. A comma may follow the last one. -/
def items? (value? : List Char → Option (Toml × List Char)) :
    (fuel : Nat) → List Char → Option (List Toml × List Char)
  | 0, _ => none
  | fuel + 1, text =>
    match skipLines false text with
    | ']' :: rest => some ([], rest)
    | text => do
      let (item, text) ← value? text
      match skipLines false text with
      | ',' :: text =>
        let (items, rest) ← items? value? fuel text
        return (item :: items, rest)
      | ']' :: rest => return ([item], rest)
      | _ => none

/-- A key with its value, white space around both left out. -/
def pair? (value? : List Char → Option (Toml × List Char)) (text : List Char) :
    Option ((List String × Toml) × List Char) := do
  let (key, text) ← key? text
  let (value, text) ← value? (skipSpace (← char? '=' text))
  return ((key, value), skipSpace text)

/-- The pairs of a table in braces that is not empty, up to its end. -/
def pairs? (value? : List Char → Option (Toml × List Char)) :
    (fuel : Nat) → List Char → Option (List (List String × Toml) × List Char)
  | 0, _ => none
  | fuel + 1, text => do
    let (pair, text) ← pair? value? text
    match text with
    | ',' :: text =>
      let (pairs, rest) ← pairs? value? fuel text
      return (pair :: pairs, rest)
    | '\x7d' :: rest => return ([pair], rest)
    | _ => none

/-- Adds a pair to a table. -/
def addPair (es : Entries) (pair : List String × Toml) : Option Entries := do
  let key ← pair.1.getLast?
  assign key pair.2 pair.1.dropLast es

def closedTable? (pairs : List (List String × Toml)) : Option Toml :=
  (pairs.foldlM addPair []).map (table .closed)

/-- A value, in which arrays and tables nest no deeper than `levels`. -/
def value? : (levels : Nat) → List Char → Option (Toml × List Char)
  | 0, text =>
    (string? text).map (fun (s, rest) => (string s, rest)) <|>
      (scalar? text).map (fun (k, rest) => (scalar k, rest))
  | levels + 1, text =>
    match text with
    | '[' :: text =>
      (items? (value? levels) (text.length + 1) text).map fun (items, rest) => (array items, rest)
    | '\x7b' :: text =>
      match skipSpace text with
      | '\x7d' :: rest => some (table .closed [], rest)
      | text => do
        let (pairs, rest) ← pairs? (value? levels) (text.length + 1) text
        return (← closedTable? pairs, rest)
    | text =>
      (string? text).map (fun (s, rest) => (string s, rest)) <|>
        (scalar? text).map (fun (k, rest) => (scalar k, rest))

/-- A line of a document that says something. -/
inductive Expression where
  | header (path : List String)
  | element (path : List String)
  | pair (path : List String) (value : Toml)

def closing? (bracket : String) (text : List Char) : Option (List Char) :=
  bracket.toList.isPrefixOf? text

/-- An expression up to the end of its line. -/
def expression? (text : List Char) : Option (Expression × List Char) :=
  match text with
  | '[' :: '[' :: text => do
    let (path, text) ← key? text
    let rest ← lineEnd? (← closing? "]]" text)
    return (.element path, rest)
  | '[' :: text => do
    let (path, text) ← key? text
    let rest ← lineEnd? (← closing? "]" text)
    return (.header path, rest)
  | text => do
    let ((path, value), text) ← pair? (value? deepest) text
    return (.pair path value, ← lineEnd? text)

/-- The expressions of a document; lines without one are skipped. -/
def expressions? : (fuel : Nat) → List Char → Option (List Expression)
  | 0, _ => none
  | fuel + 1, text =>
    match skipLines false text with
    | [] => some []
    | text => do
      let (e, rest) ← expression? text
      return e :: (← expressions? fuel rest)

/-- The document read so far, and the path of the table that takes the next pairs. -/
structure Building where
  root : Entries
  current : List String

def Building.add (b : Building) : Expression → Option Building
  | .header path => do
    let key ← path.getLast?
    return ⟨← changeAt (openTable key) path.dropLast b.root, path⟩
  | .element path => do
    let key ← path.getLast?
    return ⟨← changeAt (openElement key) path.dropLast b.root, path⟩
  | .pair path value => do
    return ⟨← changeAt (addPair · (path, value)) b.current b.root, b.current⟩

/-- Skips the mark of byte order that a file may start with. -/
def skipMark : List Char → List Char
  | '\ufeff' :: text => text
  | text => text

/-- The entries of a document. -/
def parse? (text : List Char) : Option Entries := do
  let expressions ← expressions? (text.length + 1) (skipMark text)
  let built ← expressions.foldlM Building.add ⟨[], []⟩
  return built.root

end LcdHandhelds.Toml
