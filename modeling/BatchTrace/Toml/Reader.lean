/-
Reading a TOML document.

Arrays and inline tables nest, and the number of levels that are still allowed is
what the recursion of `readValue` goes down on.  The loops inside a level go on as
long as there is text, so the length of the text bounds them.
-/
import BatchTrace.Toml.Scalar
import BatchTrace.Toml.Table

namespace BatchTrace

namespace Toml

/-- The text after blanks. -/
def skipSpaces (t : Text) : Text :=
  t.dropWhile isSpace

/-- The text after blanks, line ends and comments; nothing if a comment has a character that cannot
stand in it. -/
def skipTrivia? (inComment : Bool) : Text → Option Text
  | [] => some []
  | '\n' :: rest => skipTrivia? false rest
  | '\r' :: '\n' :: rest => skipTrivia? false rest
  | c :: rest =>
      if inComment then if isPrintable c then skipTrivia? true rest else none
      else if isSpace c then skipTrivia? false rest
      else if c = '#' then skipTrivia? true rest
      else some (c :: rest)

/-- The text after the end of a line: blanks, a comment, and a line end or the end of the text. -/
def afterLine? (t : Text) : Option Text :=
  let t := skipSpaces t
  let t := if t.head? = some '#' then t.dropWhile isPrintable else t
  if t.isEmpty then some [] else afterNewline? t

/-! ### Keys -/

/-- One part of a key. -/
def readKeyPart : Reader Text
  | '"' :: rest => readBasic rest
  | '\'' :: rest => readLiteral rest
  | t =>
      match t.takeWhile isBare with
      | [] => none
      | part => some (part, t.dropWhile isBare)

/-- A key with at most `parts` parts, and the text after it and the blanks that follow. -/
def readKeyParts : (parts : Nat) → Reader (List Text)
  | 0, _ => none
  | parts + 1, t =>
      match readKeyPart (skipSpaces t) with
      | none => none
      | some (part, rest) =>
          match skipSpaces rest with
          | '.' :: rest => (readKeyParts parts rest).map fun (key, after) => (part :: key, after)
          | rest => some ([part], rest)

/-- A key. -/
def readKey (t : Text) : Option (List Text × Text) :=
  readKeyParts (nestingLimit - 1) t

/-! ### Values -/

/-- The rest of an array after its opening bracket or a comma in it. -/
def readElements (read : Reader Value) : (bound : Nat) → Reader (List Value)
  | 0, _ => none
  | bound + 1, t =>
      match skipTrivia? false t with
      | none => none
      | some (']' :: rest) => some ([], rest)
      | some t =>
          match read t with
          | none => none
          | some (v, rest) =>
              match skipTrivia? false rest with
              | some (',' :: rest) =>
                  (readElements read bound rest).map fun (vs, after) => (v :: vs, after)
              | some (']' :: rest) => some ([v], rest)
              | _ => none

/-- A key, an equals sign and a value, and the text after it and the blanks that follow. -/
def readPair (read : Reader Value) (t : Text) : Option ((List Text × Value) × Text) :=
  match readKey t with
  | some (key, '=' :: rest) =>
      (read (skipSpaces rest)).map fun (v, after) => ((key, v), skipSpaces after)
  | _ => none

/-- The rest of an inline table after its opening brace, if it is not empty, or after a comma in
it. -/
def readPairs (read : Reader Value) : (bound : Nat) → Reader (List (List Text × Value))
  | 0, _ => none
  | bound + 1, t =>
      match readPair read t with
      | some (pair, ',' :: rest) =>
          (readPairs read bound rest).map fun (pairs, after) => (pair :: pairs, after)
      | some (pair, '}' :: rest) => some ([pair], rest)
      | _ => none

/-- The table that some pairs make up, unless a key is given twice. -/
def tableOfPairs? (pairs : List (List Text × Value)) : Option Value :=
  (pairs.foldlM (fun entries (key, v) => Entries.put? v key .dotted entries) []).map fun entries =>
    .table (Node.entryValues entries)

/-- The rest of an inline table after its opening brace. -/
def readInlineTable (read : Reader Value) (t : Text) : Option (Value × Text) :=
  match skipSpaces t with
  | '}' :: rest => some (.table [], rest)
  | rest =>
      match readPairs read (rest.length + 1) rest with
      | some (pairs, after) => (tableOfPairs? pairs).map fun v => (v, after)
      | none => none

/-- A value in which `levels` levels of arrays and inline tables may be nested. -/
def readValue : (levels : Nat) → Reader Value
  | levels + 1, '[' :: rest =>
      (readElements (readValue levels) (rest.length + 1) rest).map fun (vs, after) =>
        (.array vs, after)
  | levels + 1, '{' :: rest => readInlineTable (readValue levels) rest
  | _, t => readScalar t

/-! ### Documents -/

/-- A line with a key and a value. -/
def readAssignment (d : Document) (t : Text) : Option (Document × Text) :=
  match readPair (readValue (nestingLimit - 1)) t with
  | some ((key, v), rest) => do
      let rest ← afterLine? rest
      let d ← d.put? key v
      some (d, rest)
  | none => none

/-- A header after its opening bracket. -/
def readHeader (d : Document) (t : Text) : Option (Document × Text) :=
  match t with
  | '[' :: t =>
      match readKey t with
      | some (key, ']' :: ']' :: rest) => do
          let rest ← afterLine? rest
          let d ← d.header? Entries.startElement? key
          some (d, rest)
      | _ => none
  | t =>
      match readKey t with
      | some (key, ']' :: rest) => do
          let rest ← afterLine? rest
          let d ← d.header? Entries.startTable? key
          some (d, rest)
      | _ => none

/-- The rest of a document. -/
def readLines : (bound : Nat) → Document → Text → Option Document
  | 0, _, _ => none
  | bound + 1, d, t =>
      match skipSpaces t with
      | [] => some d
      | '[' :: rest =>
          match readHeader d rest with
          | some (d, rest) => readLines bound d rest
          | none => none
      | '#' :: rest =>
          match afterLine? ('#' :: rest) with
          | some rest => readLines bound d rest
          | none => none
      | rest =>
          match afterNewline? rest with
          | some rest => readLines bound d rest
          | none =>
              match readAssignment d rest with
              | some (d, rest) => readLines bound d rest
              | none => none

/-- The entries of a document; nothing if it is not well formed. -/
def parse? (t : Text) : Option (List (Text × Value)) :=
  let t :=
    match t with
    | '\uFEFF' :: rest => rest
    | t => t
  (readLines (t.length + 1) {} t).map Document.values

end Toml

end BatchTrace
