/-
Frames and the records of commands in them.

A frame is one nesting level of `cmd` or `call`.  It has two tables: what `%name%`
reads, and what `SET` has written.  A child of `cmd` reads what its parent wrote
and starts with an empty table of its own; `call` swaps the parent's tables.
-/
import BatchTrace.Switch
import BatchTrace.Variables

namespace BatchTrace

/-- A command that was run. -/
structure Record where
  /-- The program. -/
  name : Text
  /-- Its arguments. -/
  line : Text
  /-- The switches, for `cmd` only. -/
  options : Switches
  /-- The whole command. -/
  text : Text
  /-- Its place in the order in which all commands ran. -/
  seq : Nat
deriving DecidableEq, Repr

/-- A nesting level. -/
structure Frame where
  /-- The variables that `%name%` reads. -/
  readable : Variables := .empty
  /-- The variables that `SET` has written. -/
  assigned : Variables := .empty
  /-- The switches of the interpreter that the frame belongs to. -/
  options : Switches := []
  /-- The commands that ran in the frame, in order. -/
  commands : List Record := []
deriving DecidableEq, Repr

namespace Frame

/-- A frame in which nothing is set. -/
def empty : Frame := {}

/-- The frame that `cmd` opens below `parent`. -/
def forCmd (parent : Option Frame) (options : Switches) : Frame :=
  { readable := (parent.map (·.assigned)).getD .empty, options := options }

/-- The frame that `call` opens below `parent`, in the same interpreter. -/
def forCall (parent : Frame) : Frame :=
  { readable := parent.assigned, assigned := parent.readable, options := parent.options }

/-- Are references with exclamation marks expanded? -/
def delayedExpansion (f : Frame) : Bool :=
  (Switches.flag? f.options .delayedExpansion).getD false

/-- Do replacements and slices count, if they do `otherwise` where the frame says nothing? -/
def extensions (f : Frame) (otherwise : Bool) : Bool :=
  (Switches.flag? f.options .cmdExtensions).getD otherwise

/-- The variables that `!name!` reads. -/
def delayedVariables (f : Frame) : Variables :=
  f.readable.overlay f.assigned

end Frame

end BatchTrace
