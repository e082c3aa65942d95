/-
Values of TOML, the format of the settings file.
-/
import BatchTrace.Text.Basic

namespace BatchTrace

namespace Toml

/-- A value.  Of a float only its spelling is kept, and a date-time is kept in its standard form;
nothing in the settings is of these types. -/
inductive Value where
  | string (text : Text)
  | integer (n : Int)
  | float (spelling : Text)
  | boolean (b : Bool)
  | dateTime (text : Text)
  | array (elements : List Value)
  | table (entries : List (Text × Value))
deriving Repr

/-- How deep arrays and inline tables may be nested, and how many parts a key may have, plus one. -/
def nestingLimit : Nat := 80

end Toml

end BatchTrace
