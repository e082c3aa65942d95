/-
Texts and how they are cut.

Every stage of the library reads and writes texts character by character, so a
text is a list of characters; `String` appears only where a text enters or leaves
the program.  The cuts below all come with their pieces in reading order, and no
character but the one cut at is lost.
-/

namespace BatchTrace

/-- A text, first character first. -/
abbrev Text := List Char

namespace Text

/-- The parts before and after the first character that satisfies `p`. -/
def splitFirst (p : Char → Bool) : Text → Option (Text × Text)
  | [] => none
  | c :: rest =>
      if p c then some ([], rest)
      else (splitFirst p rest).map fun (before, after) => (c :: before, after)

/-- The parts before and after the last character that satisfies `p`. -/
def splitLast (p : Char → Bool) (t : Text) : Option (Text × Text) :=
  (splitFirst p t.reverse).map fun (after, before) => (before.reverse, after.reverse)

/-- `t` without its last character when that is `c`. -/
def dropLastChar (c : Char) (t : Text) : Text :=
  if t.getLast? = some c then t.dropLast else t

/-- `t` without its first character when that is `c`. -/
def dropFirstChar (c : Char) : Text → Text
  | [] => []
  | d :: rest => if d = c then rest else d :: rest

/-- Every `old` character becomes `new`. -/
def replaceChars (old : Char → Bool) (new : Char) (t : Text) : Text :=
  t.map fun c => if old c then new else c

/-- The lines of a text: cut at each line feed, the last empty piece not counted. -/
def lines (t : Text) : List Text :=
  let pieces := t.splitOnP (· = '\n')
  if pieces.getLast? = some [] then pieces.dropLast else pieces

theorem splitFirst_eq_some {p : Char → Bool} {t before after : Text}
    (h : splitFirst p t = some (before, after)) :
    ∃ c, p c = true ∧ (∀ d ∈ before, p d = false) ∧ t = before ++ c :: after := by
  induction t generalizing before with
  | nil => simp [splitFirst] at h
  | cons d rest ih =>
    by_cases hd : p d = true
    · simp only [splitFirst, hd, if_true, Option.some.injEq, Prod.mk.injEq] at h
      obtain ⟨rfl, rfl⟩ := h
      exact ⟨d, hd, by simp, rfl⟩
    · rw [splitFirst, if_neg hd, Option.map_eq_some_iff] at h
      obtain ⟨⟨b, a⟩, hba, heq⟩ := h
      simp only [Prod.mk.injEq] at heq
      obtain ⟨rfl, rfl⟩ := heq
      obtain ⟨c, hc, hb, rfl⟩ := ih hba
      exact ⟨c, hc, by simpa using ⟨by simpa using hd, hb⟩, rfl⟩

theorem splitFirst_eq_none_iff {p : Char → Bool} {t : Text} :
    splitFirst p t = none ↔ ∀ c ∈ t, p c = false := by
  induction t with
  | nil => simp [splitFirst]
  | cons d rest ih =>
    by_cases hd : p d = true
    · simp [splitFirst, hd]
    · simp [splitFirst, hd, ih]

end Text

end BatchTrace
