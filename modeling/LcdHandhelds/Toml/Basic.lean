/-!
TOML values and the tables they are collected in. How a table came about decides what may still be
added to it: a header may open what only the path of another header implied, a dotted key may extend
what dotted keys made, and a table in braces is closed.
-/
namespace LcdHandhelds

inductive Toml.TableKind where
  /-- Opened by a header of its own, or the document itself. -/
  | opened
  /-- Named in the path of a header only. -/
  | implied
  /-- Made by a dotted key. -/
  | dotted
  /-- Written in braces. -/
  | closed
  deriving DecidableEq, Repr

/-- Values that hold no text and no other value; only their kind is kept. -/
inductive Toml.Scalar where
  | integer | float | truth | time
  deriving DecidableEq, Repr

inductive Toml where
  | string (text : String)
  | scalar (kind : Toml.Scalar)
  | array (items : List Toml)
  | table (kind : Toml.TableKind) (entries : List (String × Toml))
  /-- The tables that headers in double brackets opened. -/
  | tables (elements : List (List (String × Toml)))
  deriving Repr

namespace Toml

/-- The entries of a table, in the order of their keys' first appearance. -/
abbrev Entries := List (String × Toml)

/-- Passes the entry of a key through `f`. -/
def alter (key : String) (f : Option Toml → Option Toml) : Entries → Option Entries
  | [] => (f none).map fun v => [(key, v)]
  | (k, v) :: rest =>
    if k = key then (f (some v)).map fun w => (k, w) :: rest
    else (alter key f rest).map ((k, v) :: ·)

/-- Changes the last of a list of tables. -/
def changeLast (f : Entries → Option Entries) : List Entries → Option (List Entries)
  | [] => none
  | [es] => (f es).map ([·])
  | es :: rest => (changeLast f rest).map (es :: ·)

/-- Adds an entry under a new key. -/
def addNew (key : String) (v : Toml) (es : Entries) : Option Entries :=
  alter key (fun | none => some v | some _ => none) es

/--
Adds an entry under a dotted key. The table that gets it has to be new or made by dotted keys; on
the way to it the path may also pass tables that are only implied, and the last of several tables.
-/
def assign (key : String) (v : Toml) : (path : List String) → Entries → Option Entries
  | [], es => addNew key v es
  | [k], es =>
    alter k (fun
      | none => some (table .dotted [(key, v)])
      | some (table .dotted inner) => (addNew key v inner).map (table .dotted)
      | some _ => none) es
  | k :: k' :: path, es =>
    alter k (fun
      | none => (assign key v (k' :: path) []).map (table .dotted)
      | some (table .dotted inner) => (assign key v (k' :: path) inner).map (table .dotted)
      | some (table .implied inner) => (assign key v (k' :: path) inner).map (table .implied)
      | some (tables elements) => (changeLast (assign key v (k' :: path)) elements).map tables
      | some _ => none) es

/-- Changes the table that the path of a header names, making implied tables on the way. -/
def changeAt (f : Entries → Option Entries) : (path : List String) → Entries → Option Entries
  | [], es => f es
  | k :: path, es =>
    alter k (fun
      | none => (changeAt f path []).map (table .implied)
      | some (table .closed _) => none
      | some (table kind inner) => (changeAt f path inner).map (table kind)
      | some (tables elements) => (changeLast (changeAt f path) elements).map tables
      | some _ => none) es

/-- Opens a table by a header of its own, once. -/
def openTable (key : String) (es : Entries) : Option Entries :=
  alter key (fun
    | none => some (table .opened [])
    | some (table .implied inner) => some (table .opened inner)
    | some _ => none) es

/-- Opens one more table of a list. -/
def openElement (key : String) (es : Entries) : Option Entries :=
  alter key (fun
    | none => some (tables [[]])
    | some (tables elements) => some (tables (elements ++ [[]]))
    | some _ => none) es

end Toml

end LcdHandhelds
