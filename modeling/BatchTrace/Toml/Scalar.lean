/-
Reading TOML strings, numbers and date-times.

Each reader takes a value off the start of a text and gives it with the rest; it
gives nothing if the text does not start with such a value.
-/
import BatchTrace.Toml.Value

namespace BatchTrace

namespace Toml

/-- A reader of some type of value. -/
abbrev Reader (α : Type) := Text → Option (α × Text)

/-! ### Characters -/

/-- A blank on a line. -/
def isSpace (c : Char) : Bool :=
  c = ' ' || c = '\t'

/-- A character that can stand in a comment. -/
def isPrintable (c : Char) : Bool :=
  c = '\t' || (0x20 ≤ c.toNat && c.toNat ≠ 0x7F)

/-- A character that stands for itself in a basic string. -/
def isBasic (c : Char) : Bool :=
  isPrintable c && c ≠ '"' && c ≠ '\\'

/-- A character that can stand in a literal string. -/
def isLiteral (c : Char) : Bool :=
  isPrintable c && c ≠ '\''

/-- A character that can stand in a key without quotes. -/
def isBare (c : Char) : Bool :=
  c.isAlphanum || c = '_' || c = '-'

/-- The text after a line end. -/
def afterNewline? : Text → Option Text
  | '\n' :: rest => some rest
  | '\r' :: '\n' :: rest => some rest
  | _ => none

/-- The text after blanks and line ends. -/
def skipLines : Text → Text
  | ' ' :: rest => skipLines rest
  | '\t' :: rest => skipLines rest
  | '\n' :: rest => skipLines rest
  | '\r' :: '\n' :: rest => skipLines rest
  | t => t

theorem length_skipLines (t : Text) : (skipLines t).length ≤ t.length := by
  fun_induction skipLines t with
  | case1 rest ih => exact Nat.le_succ_of_le ih
  | case2 rest ih => exact Nat.le_succ_of_le ih
  | case3 rest ih => exact Nat.le_succ_of_le ih
  | case4 rest ih => exact Nat.le_succ_of_le (Nat.le_succ_of_le ih)
  | case5 t => exact Nat.le_refl _

/-! ### Strings -/

/-- The value of a hexadecimal digit. -/
def hexDigit? (c : Char) : Option Nat :=
  if c.isDigit then some (c.toNat - '0'.toNat)
  else if 'a' ≤ c ∧ c ≤ 'f' then some (c.toNat - 'a'.toNat + 10)
  else if 'A' ≤ c ∧ c ≤ 'F' then some (c.toNat - 'A'.toNat + 10)
  else none

/-- The character whose code point is written with exactly `count` hexadecimal digits. -/
def codePoint? (count : Nat) (t : Text) : Option Char :=
  match (t.take count).mapM hexDigit? with
  | some digits =>
      let n := digits.foldl (fun n d => n * 16 + d) 0
      if digits.length = count ∧ n.isValidChar then some (Char.ofNat n) else none
  | none => none

/-- The character that an escape stands for, and how many characters after the backslash make it
up. -/
def escape? : Text → Option (Char × Nat)
  | 'b' :: _ => some ('\x08', 1)
  | 't' :: _ => some ('\t', 1)
  | 'n' :: _ => some ('\n', 1)
  | 'f' :: _ => some ('\x0c', 1)
  | 'r' :: _ => some ('\r', 1)
  | '"' :: _ => some ('"', 1)
  | '\\' :: _ => some ('\\', 1)
  | 'u' :: rest => (codePoint? 4 rest).map fun c => (c, 5)
  | 'U' :: rest => (codePoint? 8 rest).map fun c => (c, 9)
  | _ => none

/-- The rest of a basic string after its opening quote. -/
def readBasic : Reader Text
  | [] => none
  | '"' :: rest => some ([], rest)
  | '\\' :: rest =>
      match escape? rest with
      | some (c, used) => (readBasic (rest.drop used)).map fun (t, after) => (c :: t, after)
      | none => none
  | c :: rest =>
      if isBasic c then (readBasic rest).map fun (t, after) => (c :: t, after) else none
termination_by t => t.length
decreasing_by
  all_goals simp only [List.length_cons, List.length_drop]
  all_goals omega

/-- Quotes that close a multi-line string, up to two of which belong to it. -/
def closeQuotes (q : Char) (t : Text) : Text × Text :=
  match t with
  | a :: b :: rest =>
      if a = q then if b = q then ([q, q], rest) else ([q], b :: rest) else ([], t)
  | [a] => if a = q then ([q], []) else ([], t)
  | [] => ([], [])

/-- The rest of a multi-line basic string after its opening quotes and the first line end. -/
def readBasicLines : Reader Text
  | [] => none
  | '"' :: '"' :: '"' :: rest => some (closeQuotes '"' rest)
  | '"' :: rest => (readBasicLines rest).map fun (t, after) => ('"' :: t, after)
  | '\n' :: rest => (readBasicLines rest).map fun (t, after) => ('\n' :: t, after)
  | '\r' :: '\n' :: rest => (readBasicLines rest).map fun (t, after) => ('\n' :: t, after)
  | '\\' :: rest =>
      match escape? rest with
      | some (c, used) => (readBasicLines (rest.drop used)).map fun (t, after) => (c :: t, after)
      | none =>
          if (afterNewline? (rest.dropWhile isSpace)).isSome then readBasicLines (skipLines rest)
          else none
  | c :: rest =>
      if isBasic c then (readBasicLines rest).map fun (t, after) => (c :: t, after) else none
termination_by t => t.length
decreasing_by
  all_goals simp only [List.length_cons, List.length_drop]
  all_goals first | omega | exact Nat.lt_succ_of_le (length_skipLines _)

/-- The rest of a literal string after its opening quote. -/
def readLiteral (t : Text) : Option (Text × Text) :=
  match t.dropWhile isLiteral with
  | '\'' :: rest => some (t.takeWhile isLiteral, rest)
  | _ => none

/-- The rest of a multi-line literal string after its opening quotes and the first line end. -/
def readLiteralLines : Reader Text
  | [] => none
  | '\'' :: '\'' :: '\'' :: rest => some (closeQuotes '\'' rest)
  | '\'' :: rest => (readLiteralLines rest).map fun (t, after) => ('\'' :: t, after)
  | '\n' :: rest => (readLiteralLines rest).map fun (t, after) => ('\n' :: t, after)
  | '\r' :: '\n' :: rest => (readLiteralLines rest).map fun (t, after) => ('\n' :: t, after)
  | c :: rest =>
      if isLiteral c then (readLiteralLines rest).map fun (t, after) => (c :: t, after) else none

/-- The text after a line end, or the same text if it does not start with one. -/
def skipNewline (t : Text) : Text :=
  (afterNewline? t).getD t

/-- A string of any form. -/
def readString : Reader Text
  | '"' :: '"' :: '"' :: rest => readBasicLines (skipNewline rest)
  | '"' :: rest => readBasic rest
  | '\'' :: '\'' :: '\'' :: rest => readLiteralLines (skipNewline rest)
  | '\'' :: rest => readLiteral rest
  | _ => none

/-! ### Numbers -/

/-- Digits with single underscores between them; the digits without the underscores. -/
def readDigits (isDigit : Char → Bool) (t : Text) : Option (Text × Text) :=
  let inNumber (c : Char) : Bool := isDigit c || c = '_'
  let groups := (t.takeWhile inNumber).splitOnP (· = '_')
  if groups.any (·.isEmpty) then none else some (groups.flatten, t.dropWhile inNumber)

/-- The number that digits in a base stand for. -/
def ofDigits (base : Nat) (digits : Text) : Nat :=
  digits.foldl (fun n c => n * base + (hexDigit? c).getD 0) 0

/-- An optional sign: is it a minus? -/
def readSign : Text → Bool × Text
  | '-' :: rest => (true, rest)
  | '+' :: rest => (false, rest)
  | t => (false, t)

/-- Decimal digits without a leading zero. -/
def readDecimal (t : Text) : Option (Text × Text) :=
  match t with
  | '0' :: rest => some (['0'], rest)
  | t => readDigits Char.isDigit t

/-- An integer that fits into 64 bits, signed. -/
def integer? (n : Int) : Option Value :=
  if -9223372036854775808 ≤ n ∧ n ≤ 9223372036854775807 then some (.integer n) else none

/-- An integer in a base other than ten. -/
def readRadix (base : Nat) (t : Text) : Option (Value × Text) :=
  match readDigits (fun c => (hexDigit? c).any (· < base)) t with
  | some (digits, rest) => (integer? (ofDigits base digits)).map fun v => (v, rest)
  | none => none

/-- An integer. -/
def readInteger : Reader Value
  | '0' :: 'x' :: rest => readRadix 16 rest
  | '0' :: 'o' :: rest => readRadix 8 rest
  | '0' :: 'b' :: rest => readRadix 2 rest
  | t =>
      let (negative, rest) := readSign t
      match readDecimal rest with
      | some (digits, after) =>
          let n : Int := ofDigits 10 digits
          (integer? (if negative then -n else n)).map fun v => (v, after)
      | none => none

/-- An exponent. -/
def readExponent : Reader Int
  | c :: rest =>
      if c = 'e' || c = 'E' then
        let (negative, rest) := readSign rest
        (readDigits Char.isDigit rest).map fun (digits, after) =>
          let n : Int := ofDigits 10 digits
          (if negative then -n else n, after)
      else none
  | [] => none

/-- Is `mantissa · 10 ^ exponent` too large for a 64-bit float?  The least such number lies halfway
between the largest float and the next power of two. -/
def overflows (mantissa : Nat) (exponent : Int) : Bool :=
  let limit := Nat.pow 2 1024 - Nat.pow 2 970
  if mantissa = 0 then false
  else if 400 < exponent then true
  else if 0 ≤ exponent then limit ≤ mantissa * Nat.pow 10 exponent.toNat
  else
    let shift := (-exponent).toNat
    if (Nat.toDigits 10 mantissa).length ≤ shift then false
    else limit * Nat.pow 10 shift ≤ mantissa

/-- A fraction, an exponent or both, after the whole part of a float: the digits of the fraction and
the exponent. -/
def readFloatTail : Reader (Text × Int)
  | '.' :: rest =>
      match readDigits Char.isDigit rest with
      | some (fraction, after) =>
          match readExponent after with
          | some (exponent, after) => some ((fraction, exponent), after)
          | none => some ((fraction, 0), after)
      | none => none
  | t => (readExponent t).map fun (exponent, after) => (([], exponent), after)

/-- A float with digits.  Only a positive one is refused when it is too large. -/
def readFinite (t : Text) : Option (Value × Text) :=
  let (negative, rest) := readSign t
  match readDecimal rest with
  | some (whole, after) =>
      match readFloatTail after with
      | some ((fraction, exponent), after) =>
          if !negative && overflows (ofDigits 10 (whole ++ fraction)) (exponent - fraction.length)
          then none
          else some (.float (t.take (t.length - after.length)), after)
      | none => none
  | none => none

/-- An infinity or a NaN. -/
def readSpecial (t : Text) : Option (Value × Text) :=
  match (readSign t).2 with
  | 'i' :: 'n' :: 'f' :: after => some (.float (t.take (t.length - after.length)), after)
  | 'n' :: 'a' :: 'n' :: after => some (.float (t.take (t.length - after.length)), after)
  | _ => none

/-! ### Date-times -/

/-- Exactly two digits that stand for a number within bounds. -/
def readTwo (least most : Nat) : Reader Nat
  | a :: b :: rest =>
      let n := ofDigits 10 [a, b]
      if a.isDigit && b.isDigit && least ≤ n && n ≤ most then some (n, rest) else none
  | _ => none

/-- The days of a month. -/
def daysIn (year month : Nat) : Nat :=
  if month = 2 then
    if year % 4 = 0 ∧ (year % 100 ≠ 0 ∨ year % 400 = 0) then 29 else 28
  else if month = 4 ∨ month = 6 ∨ month = 9 ∨ month = 11 then 30
  else 31

/-- A given character. -/
def readChar (c : Char) : Text → Option Text
  | d :: rest => if d = c then some rest else none
  | [] => none

/-- Two digits for a number below 100. -/
def twoDigits (n : Nat) : Text :=
  [Nat.digitChar (n / 10), Nat.digitChar (n % 10)]

/-- A date, in its standard form. -/
def readDate (t : Text) : Option (Text × Text) := do
  let year := t.take 4
  if year.length = 4 ∧ year.all Char.isDigit then
    let rest ← readChar '-' (t.drop 4)
    let (month, rest) ← readTwo 1 12 rest
    let rest ← readChar '-' rest
    let (day, rest) ← readTwo 1 31 rest
    if day ≤ daysIn (ofDigits 10 year) month then
      some (year ++ '-' :: twoDigits month ++ '-' :: twoDigits day, rest)
    else none
  else none

/-- The fraction of a second to nine places, without zeros at its end. -/
def readFraction : Text → Text × Text
  | '.' :: rest =>
      match rest.takeWhile Char.isDigit with
      | [] => ([], '.' :: rest)
      | digits =>
          let kept := ((digits.take 9).reverse.dropWhile (· = '0')).reverse
          (if kept.isEmpty then [] else '.' :: kept, rest.dropWhile Char.isDigit)
  | t => ([], t)

/-- A time of day, in its standard form. -/
def readTime (t : Text) : Option (Text × Text) := do
  let (hour, rest) ← readTwo 0 23 t
  let rest ← readChar ':' rest
  let (minute, rest) ← readTwo 0 59 rest
  let rest ← readChar ':' rest
  let (second, rest) ← readTwo 0 60 rest
  let (fraction, rest) := readFraction rest
  some (twoDigits hour ++ ':' :: twoDigits minute ++ ':' :: twoDigits second ++ fraction, rest)

/-- The offset of a time from universal time, in its standard form. -/
def readOffset : Reader Text
  | c :: rest =>
      if c = 'Z' || c = 'z' then some (['Z'], rest)
      else if c = '+' || c = '-' then do
        let (hour, rest) ← readTwo 0 23 rest
        let rest ← readChar ':' rest
        let (minute, rest) ← readTwo 0 59 rest
        let sign := if hour = 0 ∧ minute = 0 then '+' else c
        some (sign :: twoDigits hour ++ ':' :: twoDigits minute, rest)
      else none
  | [] => none

/-- A time after a date, with its offset. -/
def readTimePart : Reader Text
  | c :: rest =>
      if c = 'T' || c = 't' || c = ' ' then do
        let (time, rest) ← readTime rest
        match readOffset rest with
        | some (offset, rest) => some ('T' :: time ++ offset, rest)
        | none => some ('T' :: time, rest)
      else none
  | [] => none

/-- A date, a time, or both. -/
def readDateTime (t : Text) : Option (Value × Text) :=
  match readDate t with
  | some (date, rest) =>
      match readTimePart rest with
      | some (time, rest) => some (.dateTime (date ++ time), rest)
      | none => some (.dateTime date, rest)
  | none => (readTime t).map fun (time, rest) => (.dateTime time, rest)

/-! ### Scalars -/

/-- A value that is no array and no table. -/
def readScalar (t : Text) : Option (Value × Text) :=
  match t with
  | '"' :: _ => (readString t).map fun (s, rest) => (.string s, rest)
  | '\'' :: _ => (readString t).map fun (s, rest) => (.string s, rest)
  | 't' :: 'r' :: 'u' :: 'e' :: rest => some (.boolean true, rest)
  | 'f' :: 'a' :: 'l' :: 's' :: 'e' :: rest => some (.boolean false, rest)
  | t => (readDateTime t).or ((readFinite t).or ((readSpecial t).or (readInteger t)))

end Toml

end BatchTrace
