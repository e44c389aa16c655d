/-!
# TOML values

A document is a table that is filled line by line.  Every table is defined once: how it came about
decides what may still be added to it.
-/

namespace GoScribe

/-- How a table came about. -/
inductive TableOrigin where
  /-- By a header that names it. -/
  | header
  /-- By a header that names a table inside it. -/
  | implied
  /-- By a key with dots. -/
  | dotted
  /-- Between braces. -/
  | inline
deriving DecidableEq, Repr

namespace TableOrigin

/-- A key with dots in a line of the document may add to the table. -/
def isOpenInDocument (origin : TableOrigin) : Bool := origin = dotted

/-- A key with dots between the same braces may add to the table. -/
def isOpenInBraces (origin : TableOrigin) : Bool := origin = dotted || origin = inline

end TableOrigin

/-- A value of a TOML document. -/
inductive Toml where
  | str (s : String)
  | bool (b : Bool)
  /-- A number, as it is written. -/
  | number (text : String)
  /-- A date, a time, or both, as it is written. -/
  | moment (text : String)
  | arr (elems : List Toml)
  | table (origin : TableOrigin) (members : List (String × Toml))
  /-- An array of tables that headers define, its elements in reverse order. -/
  | tables (elems : List (List (String × Toml)))

namespace Toml

/-- The members of a table. -/
abbrev Members := List (String × Toml)

/-- Members with `value` in place of that of `key`. -/
def replace (key : String) (value : Toml) : Members → Members
  | [] => []
  | (k, v) :: rest => if k = key then (k, value) :: rest else (k, v) :: replace key value rest

/-- Members with a new key. -/
def add? (key : String) (value : Toml) (members : Members) : Option Members :=
  if (members.lookup key).isSome then none else some (members ++ [(key, value)])

/-- The change `f` to the table at a path of keys with dots, all of whose tables are `isOpen`. -/
def changeDotted (isOpen : TableOrigin → Bool) (f : Members → Option Members) :
    List String → Members → Option Members
  | [], members => f members
  | key :: keys, members =>
    match members.lookup key with
    | none => do
      return members ++ [(key, table .dotted (← changeDotted isOpen f keys []))]
    | some (table origin inner) =>
      if isOpen origin then do
        return replace key (table origin (← changeDotted isOpen f keys inner)) members
      else none
    | some _ => none

/-- Members with a value at a path of keys, all of whose tables are `isOpen`. -/
def insert? (isOpen : TableOrigin → Bool) (path : List String) (value : Toml) (members : Members) :
    Option Members :=
  match path.getLast? with
  | none => none
  | some key => changeDotted isOpen (add? key value) path.dropLast members

/-- The change `f` to the table at the path of a header, where the last of several tables is meant. -/
def changeAt (f : Members → Option Members) : List String → Members → Option Members
  | [], members => f members
  | key :: keys, members =>
    match members.lookup key with
    | none => do
      return members ++ [(key, table .implied (← changeAt f keys []))]
    | some (table .header inner) => do
      return replace key (table .header (← changeAt f keys inner)) members
    | some (table .implied inner) => do
      return replace key (table .implied (← changeAt f keys inner)) members
    | some (tables (inner :: before)) => do
      return replace key (tables ((← changeAt f keys inner) :: before)) members
    | some _ => none

/-- Members with the table that a header names last. -/
def openTable? (key : String) (members : Members) : Option Members :=
  match members.lookup key with
  | none => some (members ++ [(key, table .header [])])
  | some (table .implied inner) => some (replace key (table .header inner) members)
  | some _ => none

/-- Members with one more element of the array of tables that a header names last. -/
def openElement? (key : String) (members : Members) : Option Members :=
  match members.lookup key with
  | none => some (members ++ [(key, tables [[]])])
  | some (tables elems) => some (replace key (tables ([] :: elems)) members)
  | some _ => none

end Toml

/-- A line of a TOML document. -/
inductive TomlLine where
  | blank
  | header (path : List String)
  | elementHeader (path : List String)
  | keyValue (path : List String) (value : Toml)

/-- A document in the course of being read: its table, and the path of the header in force. -/
structure TomlDocument where
  members : Toml.Members := []
  current : List String := []

/-- The document with one more line. -/
def TomlDocument.add? (d : TomlDocument) : TomlLine → Option TomlDocument
  | .blank => some d
  | .header path => do
    let key ← path.getLast?
    return { members := ← Toml.changeAt (Toml.openTable? key) path.dropLast d.members, current := path }
  | .elementHeader path => do
    let key ← path.getLast?
    return { members := ← Toml.changeAt (Toml.openElement? key) path.dropLast d.members, current := path }
  | .keyValue path value => do
    let insert := Toml.insert? TableOrigin.isOpenInDocument path value
    return { d with members := ← Toml.changeAt insert d.current d.members }

end GoScribe
