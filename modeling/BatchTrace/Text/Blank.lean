/-
White space and trimming.

A character is blank when Unicode gives it the property `White_Space`.  Trimming
removes blank characters at the ends of a text and nothing inside it.
-/
import BatchTrace.Text.Basic

namespace BatchTrace

namespace Text

/-- The code points with the property `White_Space`, as closed ranges. -/
def blankRanges : List (Nat × Nat) :=
  [ (0x9, 0xD), (0x20, 0x20), (0x85, 0x85), (0xA0, 0xA0), (0x1680, 0x1680), (0x2000, 0x200A),
    (0x2028, 0x2029), (0x202F, 0x202F), (0x205F, 0x205F), (0x3000, 0x3000) ]

/-- Is `c` white space? -/
def isBlank (c : Char) : Bool :=
  blankRanges.any fun (first, last) => first ≤ c.toNat && c.toNat ≤ last

/-- `t` without the blank characters it starts with. -/
def trimStart (t : Text) : Text :=
  t.dropWhile isBlank

/-- `t` without the blank characters it ends with. -/
def trimEnd (t : Text) : Text :=
  (t.reverse.dropWhile isBlank).reverse

/-- `t` without the blank characters at both ends. -/
def trim (t : Text) : Text :=
  trimEnd (trimStart t)

/-- The first word of `t`, words being separated by white space; empty if there is none. -/
def firstWord (t : Text) : Text :=
  (trimStart t).takeWhile fun c => !isBlank c

end Text

end BatchTrace
