/-
Lower-casing.

`lowerChar` is the lower-case form of one character, `lower` that of a text.  They
differ in one letter only: a capital sigma that ends a word becomes a final sigma,
which depends on the characters around it.

Names are matched in two ways that use the two functions: `sameLetters` compares
texts character by character, and a table key is the `lower` form of a name.
Where the grammar itself is confined to ASCII, `sameAscii` is the comparison.
-/
import BatchTrace.Text.Basic
import BatchTrace.Text.CaseTable

namespace BatchTrace

namespace Text

/-- Is the code point `n` in one of the closed ranges? -/
def inRanges (ranges : List (Nat × Nat)) (n : Nat) : Bool :=
  ranges.any fun (first, last) => first ≤ n && n ≤ last

/-- Does `c` have a case? -/
def isCased (c : Char) : Bool :=
  inRanges casedRanges c.toNat

/-- Is `c` passed over when the case of a neighbour is decided? -/
def isCaseIgnorable (c : Char) : Bool :=
  inRanges caseIgnorableRanges c.toNat

/-- The lower-case form of one character.  Only the dotted capital I has two characters in it. -/
def lowerChar (c : Char) : Text :=
  if c.toNat < 128 then [c.toLower]
  else if c = 'İ' then ['i', '\u0307']
  else
    match lowerRanges.find? (·.holds c.toNat) with
    | some r => [Char.ofNat (c.toNat + r.shift).toNat]
    | none => [c]

/-- Does a letter stand next in `t`, not counting characters that are passed over? -/
def startsCased (t : Text) : Bool :=
  match t.dropWhile isCaseIgnorable with
  | c :: _ => isCased c
  | [] => false

/-- The small form of a capital sigma between `before` (nearest character first) and `after`. -/
def lowerSigma (before after : Text) : Char :=
  if startsCased before && !startsCased after then 'ς' else 'σ'

/-- `lower` for the rest of a text whose beginning, last character first, is `before`. -/
def lowerFrom (before : Text) : Text → Text
  | [] => []
  | c :: rest =>
      (if c = 'Σ' then [lowerSigma before rest] else lowerChar c) ++ lowerFrom (c :: before) rest

/-- The lower-case form of a text. -/
def lower (t : Text) : Text :=
  lowerFrom [] t

/-- Are `a` and `b` the same character when case is ignored? -/
def sameLetter (a b : Char) : Bool :=
  lowerChar a == lowerChar b

/-- What follows `pattern` at the start of `t`, compared character by character without case. -/
def afterSame? : (pattern t : Text) → Option Text
  | [], t => some t
  | _ :: _, [] => none
  | p :: pattern, c :: t => if sameLetter c p then afterSame? pattern t else none

/-- The ASCII letters of `t` in lower case, all else as it is. -/
def asciiLower (t : Text) : Text :=
  t.map Char.toLower

/-- Are `a` and `b` equal when the case of ASCII letters is ignored? -/
def sameAscii (a b : Text) : Bool :=
  asciiLower a == asciiLower b

theorem lowerChar_of_ascii {c : Char} (h : c.toNat < 128) : lowerChar c = [c.toLower] := by
  simp [lowerChar, h]

@[simp]
theorem lower_nil : lower [] = [] := rfl

end Text

end BatchTrace
