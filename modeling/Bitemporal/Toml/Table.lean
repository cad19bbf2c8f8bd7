/-!
TOML values, and the tables that the statements of a document build.

A table may be written at once, by its own header, or step by step, by longer headers and by
dotted keys. What a later statement may add to a table depends on how the table came about
(`Toml.Origin`); nothing is ever written twice.
-/

namespace Bitemporal

namespace Toml

/-- How a table came about. -/
inductive Origin where
  /-- By a header of its own, or as the whole document. -/
  | header
  /-- By the header of a table within it. -/
  | implied
  /-- By a dotted key. -/
  | dotted
  /-- As a value, which is complete. -/
  | inline
deriving DecidableEq

end Toml

/-- A TOML value. -/
inductive Toml where
  /-- A string. -/
  | string (value : String)
  /-- A 64-bit integer. -/
  | integer (value : Int)
  /-- A truth value. -/
  | boolean (value : Bool)
  /-- A number with a fraction or exponent, a date or a time. -/
  | other
  /-- A list of values. -/
  | array (items : List Toml)
  /-- A table. -/
  | table (origin : Toml.Origin) (entries : List (String × Toml))
  /-- A list of tables, each with a header of its own. -/
  | tables (elements : List (List (String × Toml)))

namespace Toml

/-- The entries of a table, in the order in which they came about. -/
abbrev Entries := List (String × Toml)

namespace Entries

/-- The value of a key. -/
def get? (entries : Entries) (key : String) : Option Toml := List.lookup key entries

/-- The entries with another value for a key. -/
def put (key : String) (value : Toml) : Entries → Entries
  | [] => [(key, value)]
  | entry :: rest => if entry.1 = key then (key, value) :: rest else entry :: put key value rest

/-- Changes the table at a path, and makes the tables on the way that are missing. With `dotted`,
the path is that of a dotted key, which must not enter a table that has a header. A list of tables
is entered at its last element. -/
def editAt (dotted : Bool) (edit : Origin → Entries → Option Entries) :
    List String → Origin → Entries → Option Entries
  | [], origin, entries => edit origin entries
  | key :: path, _, entries =>
    match entries.get? key with
    | none => do
      let origin := if dotted then .dotted else .implied
      let inner ← editAt dotted edit path origin []
      some (entries.put key (.table origin inner))
    | some (.table origin inner) =>
      if origin = .inline || dotted && origin = .header then none
      else do
        let inner ← editAt dotted edit path origin inner
        some (entries.put key (.table origin inner))
    | some (.tables elements) =>
      match elements.getLast? with
      | some last => do
        let last ← editAt dotted edit path .header last
        some (entries.put key (.tables (elements.dropLast ++ [last])))
      | none => none
    | some _ => none

/-- Adds a value under a dotted key: a path, which may be empty, and a name. A path must lead to a
table that only dotted keys write, and the name must be new there. -/
def insert (path : List String) (name : String) (value : Toml) (entries : Entries) :
    Option Entries :=
  editAt true
    (fun origin entries =>
      if decide (origin = .dotted) = path.isEmpty || (entries.get? name).isSome then none
      else some (entries.put name value))
    path .header entries

/-- Starts the table with the header `path.name`. -/
def openTable (path : List String) (name : String) (entries : Entries) : Option Entries :=
  editAt false
    (fun _ entries =>
      match entries.get? name with
      | none => some (entries.put name (.table .header []))
      | some (.table .implied inner) => some (entries.put name (.table .header inner))
      | some _ => none)
    path .header entries

/-- Starts the next element of the list of tables with the header `path.name`. -/
def openElement (path : List String) (name : String) (entries : Entries) : Option Entries :=
  editAt false
    (fun _ entries =>
      match entries.get? name with
      | none => some (entries.put name (.tables [[]]))
      | some (.tables elements) => some (entries.put name (.tables (elements ++ [[]])))
      | some _ => none)
    path .header entries

/-- The table of an inline list of keys and values. -/
def ofPairs? : List ((List String × String) × Toml) → Entries → Option Entries
  | [], entries => some entries
  | ((path, name), value) :: rest, entries => do ofPairs? rest (← entries.insert path name value)

end Entries

/-- One statement of a document. Its key is a path and a name. -/
inductive Statement where
  /-- A value for a key of the current table. -/
  | value (path : List String) (name : String) (value : Toml)
  /-- The header of a table. -/
  | table (path : List String) (name : String)
  /-- The header of an element of a list of tables. -/
  | element (path : List String) (name : String)

/-- Carries out statements on a document whose current table has the path `current`. -/
def Entries.build? : List Statement → List String → Entries → Option Entries
  | [], _, root => some root
  | .value path name value :: rest, current, root => do
    let root ← Entries.editAt false
      (fun _ entries => entries.insert path name value) current .header root
    build? rest current root
  | .table path name :: rest, _, root => do
    build? rest (path ++ [name]) (← root.openTable path name)
  | .element path name :: rest, _, root => do
    build? rest (path ++ [name]) (← root.openElement path name)

end Toml

end Bitemporal
