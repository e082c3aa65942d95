/-
JSON documents and their two written forms: on one line, and with a line for every
entry.
-/
import BatchTrace.Trace.Session

namespace BatchTrace

/-- A JSON document of the kinds that are written here. -/
inductive Json where
  | bool (b : Bool)
  | number (n : Nat)
  | string (t : Text)
  | array (items : List Json)
  | object (fields : List (Text × Json))

namespace Json

/-- The four hexadecimal digits of a code point below `0x10000`. -/
def hexDigits (n : Nat) : Text :=
  [n / 4096, n / 256, n / 16, n].map fun d => Nat.digitChar (d % 16)

/-- A character inside a string. -/
def quoteChar (c : Char) : Text :=
  match c with
  | '"' => ['\\', '"']
  | '\\' => ['\\', '\\']
  | '\x08' => ['\\', 'b']
  | '\x0c' => ['\\', 'f']
  | '\n' => ['\\', 'n']
  | '\r' => ['\\', 'r']
  | '\t' => ['\\', 't']
  | c => if c.toNat < 0x20 then '\\' :: 'u' :: hexDigits c.toNat else [c]

/-- A string with its quotes. -/
def quote (t : Text) : Text :=
  '"' :: (t.flatMap quoteChar ++ ['"'])

/-- A truth value. -/
def boolText (b : Bool) : Text :=
  if b then "true".toList else "false".toList

/-- Parts with a comma between any two of them. -/
def commaSeparated (parts : List Text) : Text :=
  List.intercalate [','] parts

mutual

/-- A document on one line. -/
def compact : Json → Text
  | bool b => boolText b
  | number n => Nat.toDigits 10 n
  | string t => quote t
  | array items => '[' :: (commaSeparated (compactItems items) ++ [']'])
  | object fields => '\x7b' :: (commaSeparated (compactFields fields) ++ ['\x7d'])

/-- The items of an array, each on one line. -/
def compactItems : List Json → List Text
  | [] => []
  | item :: rest => compact item :: compactItems rest

/-- The fields of an object, each on one line. -/
def compactFields : List (Text × Json) → List Text
  | [] => []
  | (name, value) :: rest => (quote name ++ ':' :: compact value) :: compactFields rest

end

/-- A new line with some levels of indentation. -/
def newline (levels : Nat) : Text :=
  '\n' :: List.replicate (2 * levels) ' '

/-- Parts between brackets, each of them on a line of its own; no lines if there are no parts. -/
def bracketed (levels : Nat) (first last : Char) (parts : List Text) : Text :=
  match parts with
  | [] => [first, last]
  | parts =>
      first ::
        (commaSeparated (parts.map fun part => newline (levels + 1) ++ part) ++ newline levels ++
          [last])

mutual

/-- A document with a line for every entry, at some level of indentation. -/
def pretty (levels : Nat) : Json → Text
  | bool b => boolText b
  | number n => Nat.toDigits 10 n
  | string t => quote t
  | array items => bracketed levels '[' ']' (prettyItems (levels + 1) items)
  | object fields => bracketed levels '\x7b' '\x7d' (prettyFields (levels + 1) fields)

/-- The items of an array at some level of indentation. -/
def prettyItems (levels : Nat) : List Json → List Text
  | [] => []
  | item :: rest => pretty levels item :: prettyItems levels rest

/-- The fields of an object at some level of indentation. -/
def prettyFields (levels : Nat) : List (Text × Json) → List Text
  | [] => []
  | (name, value) :: rest =>
      (quote name ++ ": ".toList ++ pretty levels value) :: prettyFields levels rest

end

/-! ### What is written as JSON -/

/-- An object with plain names. -/
def ofFields (fields : List (String × Json)) : Json :=
  object (fields.map fun (name, value) => (name.toList, value))

/-- A token. -/
def ofToken (t : Token) : Json :=
  ofFields
    [("kind", string t.kind.name.toList), ("text", string t.text),
      ("position",
        ofFields
          [("line", number t.position.line), ("col_start", number t.position.colStart),
            ("col_end", number t.position.colEnd)])]

/-- A table of variables. -/
def ofVariables (table : Variables) : Json :=
  object (table.entries.map fun v => (v.name, string v.value))

/-- A table of switches. -/
def ofSwitches (table : Switches) : Json :=
  object (table.map fun (s, v) =>
    (s.name,
      match v with
      | .flag on => bool on
      | .text t => string t))

/-- A command that was run. -/
def ofRecord (r : Record) : Json :=
  ofFields
    [("command", ofFields [("name", string r.name), ("line", string r.line)]),
      ("options", ofSwitches r.options), ("text", string r.text)]

/-- A frame. -/
def ofFrame (f : Frame) : Json :=
  ofFields
    [("vars",
        ofFields [("thisframe", ofVariables f.readable), ("nextframe", ofVariables f.assigned)]),
      ("options", ofSwitches f.options), ("commands", array (f.commands.map ofRecord))]

/-- A line that was not run. -/
def ofCutOff (c : CutOff) : Json :=
  ofFields
    [("error", string "depth_exceeded".toList), ("limit", number c.limit), ("line", string c.line)]

/-- The result of a run; lines that were not run are only mentioned if there are any. -/
def ofInterpretation (r : Interpretation) : Json :=
  let frames := ("frames", array (r.frames.map ofFrame))
  if r.isComplete then ofFields [frames]
  else ofFields [frames, ("errors", array (r.cutOffs.map ofCutOff))]

end Json

end BatchTrace
