/-
The assignment of a `SET`.

The arguments are `name=value`, or the same in quotes, in which case the value runs
to the last quote.  With `/a` or `/p` nothing is assigned, nor without an equals
sign or without a name.
-/
import BatchTrace.Text.Basic
import BatchTrace.Text.Blank

namespace BatchTrace

namespace Assignment

/-- Do the arguments ask for arithmetic or for input? -/
def isSwitched : Text → Bool
  | '/' :: c :: _ => c.toLower = 'a' || c.toLower = 'p'
  | _ => false

/-- What is assigned: the inside of a quoted text up to its last quote, any other text as it is. -/
def body : Text → Text
  | '"' :: quoted =>
      match Text.splitLast (· = '"') quoted with
      | some (inside, _) => inside
      | none => quoted
  | t => t

/-- The name and value that some arguments assign. -/
def parse? (arguments : Text) : Option (Text × Text) :=
  let arguments := Text.trimStart arguments
  if isSwitched arguments then none
  else
    match Text.splitFirst (· = '=') (body arguments) with
    | some ([], _) => none
    | some (name, value) => some (name, value)
    | none => none

end Assignment

end BatchTrace
