/-! # TOML values

Values, and the tables that a document builds up. A table remembers how it came about, because that decides what may
still be added to it. -/

namespace MethodAssembler.Toml

/-- How a table came about. -/
inductive TableOrigin where
  /-- It has a header of its own, or is the document itself. -/
  | opened
  /-- A header names a table inside it. -/
  | implied
  /-- A dotted key names something inside it. -/
  | dotted
  /-- It is written between braces. -/
  | inlined
deriving DecidableEq, Repr

inductive Value where
  | string (s : String)
  | integer (n : Int)
  /-- A floating-point number, as it is written. -/
  | float (literal : String)
  | boolean (b : Bool)
  /-- A date, a time or both, as they are written. -/
  | dateTime (literal : String)
  | array (items : List Value)
  | table (origin : TableOrigin) (entries : List (String × Value))
  /-- Tables that share a header, the last one first. -/
  | tables (elements : List (List (String × Value)))
deriving Repr

/-- The entries of a table. -/
abbrev Entries := List (String × Value)

namespace Entries

/-- Gives a key a value, a new one in place of the one it has. -/
def put (key : String) (v : Value) : Entries → Entries
  | [] => [(key, v)]
  | (k, old) :: rest => if k = key then (k, v) :: rest else (k, old) :: put key v rest

/-- Gives a value to a key that has none. -/
def add (key : String) (v : Value) (entries : Entries) : Option Entries :=
  match entries.lookup key with
  | none => some (entries ++ [(key, v)])
  | some _ => none

end Entries

/-! ### Extending tables -/

/-- Changes the table that a path leads to, with what it knows of its origin. Tables that are not there yet come about
    on the way, as `fresh` says; of tables that share a header the last one is meant. A dotted key does not lead into
    a table that was opened by a header, and no path leads into a value. -/
def alterAt (fresh : TableOrigin) (change : TableOrigin → Entries → Option (TableOrigin × Entries)) :
    (path : List String) → TableOrigin → Entries → Option (TableOrigin × Entries)
  | [], origin, entries => change origin entries
  | key :: path, origin, entries =>
    match entries.lookup key with
    | none => do
      let (o, inner) ← alterAt fresh change path fresh []
      return (origin, entries.put key (.table o inner))
    | some (.table .inlined _) => none
    | some (.table o inner) =>
      if fresh = .dotted ∧ o = .opened then none
      else do
        let (o, inner) ← alterAt fresh change path o inner
        return (origin, entries.put key (.table o inner))
    | some (.tables (last :: before)) => do
      let (_, last) ← alterAt fresh change path .opened last
      return (origin, entries.put key (.tables (last :: before)))
    | some _ => none

/-- Assigns a value to a dotted key. The table that takes it is the one at hand, or one that came about by
    dotted keys alone. -/
def assign (path : List String) (key : String) (v : Value) (origin : TableOrigin) (entries : Entries) :
    Option (TableOrigin × Entries) :=
  alterAt .dotted (fun o entries =>
    if (o = .dotted) ↔ path = [] then none else do return (o, ← entries.add key v)) path origin entries

/-- Opens a table by its header: a new one, or one that has been implied so far. -/
def openTable (key : String) (entries : Entries) : Option Entries :=
  match entries.lookup key with
  | none => some (entries.put key (.table .opened []))
  | some (.table .implied inner) => some (entries.put key (.table .opened inner))
  | some _ => none

/-- Adds a table to those that share its header. -/
def openElement (key : String) (entries : Entries) : Option Entries :=
  match entries.lookup key with
  | none => some (entries.put key (.tables [[]]))
  | some (.tables elements) => some (entries.put key (.tables ([] :: elements)))
  | some _ => none

end MethodAssembler.Toml
