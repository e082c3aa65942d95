/-
Slices of a value: the reference `name:~start,length`.

Start and length are numerals in the manner of C: white space, a sign, then
hexadecimal after `0x`, octal after `0`, decimal otherwise, read up to the first
character that is no digit.  They are kept within 64 bits by stopping at the bounds.
A negative start counts from the end, a negative length leaves out characters at
the end, and if both are negative the slice lies between the two places.
-/
import BatchTrace.Text.Blank

namespace BatchTrace

namespace Slice

/-- The least number an index can be. -/
def minIndex : Int := -9223372036854775808

/-- The greatest number an index can be. -/
def maxIndex : Int := 9223372036854775807

/-- `n` moved to the nearest index. -/
def saturate (n : Int) : Int :=
  max minIndex (min n maxIndex)

/-- The value of a digit in a base up to 16. -/
def digit? (base : Nat) (c : Char) : Option Nat :=
  let value :=
    if c.isDigit then some (c.toNat - '0'.toNat)
    else if 'a' ≤ c ∧ c ≤ 'f' then some (c.toNat - 'a'.toNat + 10)
    else if 'A' ≤ c ∧ c ≤ 'F' then some (c.toNat - 'A'.toNat + 10)
    else none
  value.filter (· < base)

/-- The digits at the start of a text, read after digits that gave `n`. -/
def readDigits (base : Nat) (n : Int) : Text → Int
  | [] => n
  | c :: rest =>
      match digit? base c with
      | some d => readDigits base (saturate (saturate (n * base) + d)) rest
      | none => n

/-- The number that an unsigned numeral stands for. -/
def readUnsigned : Text → Int
  | '0' :: 'x' :: digits => readDigits 16 0 digits
  | '0' :: 'X' :: digits => readDigits 16 0 digits
  | '0' :: digits => readDigits 8 0 digits
  | digits => readDigits 10 0 digits

/-- The number that a numeral stands for; 0 if it has no digits. -/
def readIndex (t : Text) : Int :=
  match Text.trimStart t with
  | '-' :: digits => -readUnsigned digits
  | '+' :: digits => readUnsigned digits
  | digits => readUnsigned digits

/-- `n` as a place in a value of `total` characters. -/
def clamp (total : Nat) (n : Int) : Nat :=
  (min n total).toNat

/-- The characters of `value` from one place to another. -/
def between (value : Text) (first last : Nat) : Text :=
  (value.take last).drop first

/-- The slice of a value. -/
def slice (value : Text) (start : Int) (length : Option Int) : Text :=
  let total := value.length
  let fromEnd (n : Int) : Nat := clamp total (saturate (total + n))
  let first := if start < 0 then fromEnd start else clamp total start
  match length with
  | none => between value first total
  | some n =>
      if n < 0 then
        if start < 0 then between value (min first (fromEnd n)) (max first (fromEnd n))
        else between value first (fromEnd n)
      else between value first (clamp total (saturate (first + n)))

/-- What a reference with these arguments stands for: `~`, a start, and after a comma a length,
neither of them blank. -/
def resolve? (value : Text) : Text → Option Text
  | '~' :: arguments =>
      let isBlank (t : Text) : Bool := (Text.trim t).isEmpty
      match Text.splitFirst (· = ',') arguments with
      | none => if isBlank arguments then none else some (slice value (readIndex arguments) none)
      | some (start, length) =>
          if isBlank start || isBlank length then none
          else some (slice value (readIndex start) (some (readIndex length)))
  | _ => none

end Slice

end BatchTrace
