/-
Putting a TOML document together.

A document is a tree of tables that grows as its lines are read.  A table remembers
how it came about, since that decides what may still be done to it: a table with a
header of its own is closed to dotted keys, one that only a dotted key made cannot
get a header, and one that a longer header implies can.  Nothing is ever defined
twice.
-/
import BatchTrace.Toml.Value

namespace BatchTrace

namespace Toml

/-- How a table came about. -/
inductive Origin where
  /-- By a header of its own. -/
  | header
  /-- As a part of a longer header. -/
  | implied
  /-- As a part of a dotted key. -/
  | dotted
deriving DecidableEq, Repr

/-- What a key stands for in a document that is being read. -/
inductive Node where
  | value (v : Value)
  | table (origin : Origin) (entries : List (Text × Node))
  /-- The tables under one repeated header. -/
  | tables (elements : List (List (Text × Node)))

/-- The entries of a table, in the order of their keys' first appearance. -/
abbrev Entries := List (Text × Node)

namespace Entries

/-- The entries with one more. -/
def add (key : Text) (node : Node) (entries : Entries) : Entries :=
  entries ++ [(key, node)]

/-- The entries with what stands under a key replaced. -/
def replace (key : Text) (node : Node) (entries : Entries) : Entries :=
  entries.map fun (k, n) => if k = key then (k, node) else (k, n)

/-- The entries of a table after the value of a dotted key has been put in.  The table itself came
about as `origin` says, and where the key has one part, it must not be one that other lines made. -/
def put? (v : Value) : (key : List Text) → (origin : Origin) → Entries → Option Entries
  | [], _, _ => none
  | [key], origin, entries =>
      if origin = .dotted then
        match entries.lookup key with
        | none => some (entries.add key (.value v))
        | some _ => none
      else none
  | key :: path, _, entries =>
      match entries.lookup key with
      | none => (put? v path .dotted []).map fun es => entries.add key (.table .dotted es)
      | some (.value _) => none
      | some (.table .header _) => none
      | some (.table origin es) =>
          (put? v path origin es).map fun es => entries.replace key (.table origin es)
      | some (.tables elements) =>
          match elements.getLast? with
          | none => none
          | some es =>
              (put? v path .header es).map fun es =>
                entries.replace key (.tables (elements.dropLast ++ [es]))

/-- The entries of a table after `f` has been applied to those of the table that a header leads to
from it.  Of repeated tables the last one is meant. -/
def within? (f : Entries → Option Entries) : (path : List Text) → Entries → Option Entries
  | [], entries => f entries
  | key :: path, entries =>
      match entries.lookup key with
      | none => (within? f path []).map fun es => entries.add key (.table .implied es)
      | some (.value _) => none
      | some (.table origin es) =>
          (within? f path es).map fun es => entries.replace key (.table origin es)
      | some (.tables elements) =>
          match elements.getLast? with
          | none => none
          | some es =>
              (within? f path es).map fun es =>
                entries.replace key (.tables (elements.dropLast ++ [es]))

/-- The entries with a table that has a header. -/
def startTable? (key : Text) (entries : Entries) : Option Entries :=
  match entries.lookup key with
  | none => some (entries.add key (.table .header []))
  | some (.table .implied es) => some (entries.replace key (.table .header es))
  | some _ => none

/-- The entries with one more table under a repeated header. -/
def startElement? (key : Text) (entries : Entries) : Option Entries :=
  match entries.lookup key with
  | none => some (entries.add key (.tables [[]]))
  | some (.tables elements) => some (entries.replace key (.tables (elements ++ [[]])))
  | some _ => none

end Entries

mutual

/-- The value that a finished node is. -/
def Node.toValue : Node → Value
  | .value v => v
  | .table _ entries => .table (Node.entryValues entries)
  | .tables elements => .array (Node.elementValues elements)

/-- The values of finished entries. -/
def Node.entryValues : List (Text × Node) → List (Text × Value)
  | [] => []
  | (key, node) :: rest => (key, Node.toValue node) :: Node.entryValues rest

/-- The values of finished repeated tables. -/
def Node.elementValues : List (List (Text × Node)) → List Value
  | [] => []
  | entries :: rest => .table (Node.entryValues entries) :: Node.elementValues rest

end

/-- A document while it is read: what is there, and the header that the next lines belong to. -/
structure Document where
  root : Entries := []
  current : List Text := []

namespace Document

/-- The document after a line with a key and a value. -/
def put? (d : Document) (key : List Text) (v : Value) : Option Document :=
  (Entries.within? (Entries.put? v key .dotted) d.current d.root).map fun root =>
    { d with root := root }

/-- The document after a header, `start?` being what the header does at its last part. -/
def header? (start? : Text → Entries → Option Entries) (d : Document) (key : List Text) :
    Option Document :=
  match key.getLast? with
  | none => none
  | some last =>
      (Entries.within? (start? last) key.dropLast d.root).map fun root => ⟨root, key⟩

/-- The entries of the finished document. -/
def values (d : Document) : List (Text × Value) :=
  Node.entryValues d.root

end Document

end Toml

end BatchTrace
