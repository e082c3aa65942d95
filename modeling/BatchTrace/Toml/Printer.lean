/-
Writing TOML keys, strings and arrays.

A string is written in the plainest form that can hold it: between double quotes
if nothing has to be escaped, else between single quotes, else over several lines,
and with escapes only if no other form will do.
-/
import BatchTrace.Toml.Scalar

namespace BatchTrace

namespace Toml

/-- Control characters that can only be written as escapes: all but tabs and line feeds. -/
def needsEscape (c : Char) : Bool :=
  (c.toNat < 0x20 && c ≠ '\t' && c ≠ '\n') || c.toNat = 0x7F

/-- The longest run of `c` in a text. -/
def longestRun (c : Char) (t : Text) : Nat :=
  ((t.splitOnP (· ≠ c)).map List.length).foldl max 0

/-- The four hexadecimal digits of a code point below `0x10000`, in capitals. -/
def hexDigits (n : Nat) : Text :=
  [n / 4096, n / 256, n / 16, n].map fun d => (Nat.digitChar (d % 16)).toUpper

/-- A character other than a quote inside a basic string. -/
def escapeChar (multiLine : Bool) (c : Char) : Text :=
  match c with
  | '\x08' => ['\\', 'b']
  | '\t' => ['\\', 't']
  | '\n' => if multiLine then ['\n'] else ['\\', 'n']
  | '\x0c' => ['\\', 'f']
  | '\r' => ['\\', 'r']
  | '\\' => ['\\', '\\']
  | c => if needsEscape c then '\\' :: 'u' :: hexDigits c.toNat else [c]

/-- The inside of a basic string, after `quotes` quotes in a row.  Over several lines, two quotes in
a row can stand as they are. -/
def escapeFrom (multiLine : Bool) (quotes : Nat) : Text → Text
  | [] => []
  | c :: rest =>
      if c = '"' then
        if multiLine && quotes < 2 then '"' :: escapeFrom multiLine (quotes + 1) rest
        else '\\' :: '"' :: escapeFrom multiLine 0 rest
      else escapeChar multiLine c ++ escapeFrom multiLine 0 rest

/-- A string between double quotes. -/
def basicString (t : Text) : Text :=
  '"' :: (escapeFrom false 0 t ++ ['"'])

/-- A string between single quotes. -/
def literalString (t : Text) : Text :=
  '\'' :: (t ++ ['\''])

/-- A body between threefold quotes; it starts on a new line if it has several. -/
def threefold (q : Char) (t body : Text) : Text :=
  [q, q, q] ++ (if t.contains '\n' then ['\n'] else []) ++ body ++ [q, q, q]

/-- A string in the plainest form that can hold it. -/
def printString (t : Text) : Text :=
  let escapes := t.any needsEscape
  let lines := t.contains '\n'
  let backslash := t.contains '\\'
  if !escapes && !backslash && !t.contains '"' && !lines then basicString t
  else if !escapes && !t.contains '\'' && !lines then literalString t
  else if !escapes && !backslash && longestRun '"' t ≤ 2 then
    threefold '"' t (escapeFrom true 0 t)
  else if !escapes && longestRun '\'' t ≤ 2 then threefold '\'' t t
  else if lines then threefold '"' t (escapeFrom true 0 t)
  else basicString t

/-- A key in the plainest form that can hold it; keys are on one line. -/
def printKey (t : Text) : Text :=
  let escapes := t.any needsEscape || t.contains '\n'
  if !t.isEmpty && t.all isBare then t
  else if !escapes && !t.contains '\\' && !t.contains '"' then basicString t
  else if !escapes && !t.contains '\'' then literalString t
  else basicString t

/-- An array of strings; with more than one, each of them is on a line of its own. -/
def printStrings (ts : List Text) : Text :=
  match ts with
  | [] => "[]".toList
  | [t] => '[' :: (printString t ++ [']'])
  | ts => '[' :: (ts.flatMap (fun t => "\n    ".toList ++ printString t ++ [',']) ++ "\n]".toList)

end Toml

end BatchTrace
