/-
Tables of variables.

A table lists its variables in the order in which they were first assigned.  Names
are told apart by their lower-case form, and a variable keeps the spelling of its
first assignment: assigning again changes the value only.
-/
import BatchTrace.Text.Lower

namespace BatchTrace

/-- A variable and its value. -/
structure Variable where
  name : Text
  value : Text
deriving DecidableEq, Repr

namespace Variable

/-- The form of its name that a variable is looked up by. -/
def key (v : Variable) : Text :=
  Text.lower v.name

end Variable

/-- Variables in the order of their first assignment. -/
structure Variables where
  entries : List Variable
deriving DecidableEq, Repr

namespace Variables

/-- The table without variables. -/
def empty : Variables :=
  ⟨[]⟩

/-- The value of a variable. -/
def get? (table : Variables) (name : Text) : Option Text :=
  (table.entries.find? (·.key = Text.lower name)).map (·.value)

/-- Is there a variable of this name? -/
def contains (table : Variables) (name : Text) : Bool :=
  table.entries.any (·.key = Text.lower name)

/-- How many variables there are. -/
def size (table : Variables) : Nat :=
  table.entries.length

/-- Is there no variable? -/
def isEmpty (table : Variables) : Bool :=
  table.entries.isEmpty

/-- The table after an assignment. -/
def set (table : Variables) (name value : Text) : Variables :=
  if table.contains name then
    ⟨table.entries.map fun v => if v.key = Text.lower name then { v with value := value } else v⟩
  else ⟨table.entries ++ [⟨name, value⟩]⟩

/-- The table without a variable. -/
def erase (table : Variables) (name : Text) : Variables :=
  ⟨table.entries.filter (·.key ≠ Text.lower name)⟩

/-- The table after every assignment of `top`. -/
def overlay (table top : Variables) : Variables :=
  top.entries.foldl (fun t v => t.set v.name v.value) table

/-- The table that assigning some pairs gives. -/
def ofList (pairs : List (Text × Text)) : Variables :=
  pairs.foldl (fun t p => t.set p.1 p.2) empty

/-- The pairs of a table. -/
def toList (table : Variables) : List (Text × Text) :=
  table.entries.map fun v => (v.name, v.value)

/-- Do two tables have the same variables, spelled alike and with the same values, in any order? -/
def sameEntries (a b : Variables) : Bool :=
  a.size == b.size && a.entries.all fun v => b.entries.contains v

/-- The variables that are there unless others are given. -/
def standard : Variables :=
  ofList
    [("appdata".toList, "C:\\Users\\whoami\\AppData\\Roaming".toList),
      ("comspec".toList, "C:\\Windows\\System32\\cmd.exe".toList)]

end Variables

end BatchTrace
