/-
Where tokens stand.

The reader goes on from one token to the next and counts lines and columns on its way.  What it
has counted when it comes to a token depends on the text in front of that token alone, however
the text was cut into tokens and whichever of them hold the line feeds.  So a position can be
checked against the text itself: the line is told by the line feeds in front of the token, the
column by the characters behind the last of them.
-/
import BatchTrace.Proofs.Token.Spelling
import Mathlib.Data.List.DropRight

namespace BatchTrace

namespace Position

/-- **Counting along a text** gives one more than its line feeds, and the length of its last
line. -/
theorem advance_eq (p : Text) :
    advance p (1, 0) = (1 + p.count '\n', (p.rtakeWhile (· ≠ '\n')).length) := by
  -- The column starts again at every line feed, so the text is built up at its end.
  induction p using List.reverseRecOn with
  | nil => rfl
  | append_singleton p c ih =>
      rw [advance_append, ih]
      by_cases hc : c = '\n'
      · subst hc
        simp [advance, Nat.add_assoc]
      · simp [advance, hc]

end Position

namespace Token

open Position Lexeme

/-- A token that has been placed stands behind the text of those before it. -/
theorem position_of_place {start : Nat × Nat} {xs : List Lexeme} {before after : List Token}
    {t : Token} (h : place start xs = before ++ t :: after) :
    t.position = ⟨(advance (stringify before) start).1, (advance (stringify before) start).2,
      (advance (stringify before) start).2 + t.text.length⟩ := by
  induction xs generalizing start before with
  | nil => simp [place] at h
  | cons x rest ih =>
      rw [place] at h
      cases before with
      | nil =>
          obtain ⟨rfl, -⟩ := List.cons.inj h
          rfl
      | cons u before =>
          obtain ⟨rfl, hrest⟩ := List.cons.inj h
          rw [ih hrest, stringify_cons, advance_append]

/--
**Positions are those of the text.**  The tokens before a token spell the text in front of it.
Its line is one more than the line feeds there, it starts after as many columns as there are
characters behind the last of them, and it ends after as many more as it has itself.
-/
theorem tokenize_position (s : Text) (before after : List Token) (t : Token)
    (h : tokenize s = before ++ t :: after) :
    stringify before ++ t.text <+: s ∧
      t.position.line = 1 + (stringify before).count '\n' ∧
      t.position.colStart = ((stringify before).rtakeWhile (· ≠ '\n')).length ∧
      t.position.colEnd = t.position.colStart + t.text.length := by
  have hspelled : stringify before ++ t.text ++ stringify after = s := by
    rw [← stringify_tokenize s, h, stringify_append, stringify_cons, List.append_assoc]
  have hposition := position_of_place h
  rw [advance_eq] at hposition
  exact ⟨⟨stringify after, hspelled⟩, by rw [hposition], by rw [hposition], by rw [hposition]⟩

/-- Line feeds stand in a string, in an escape and in a value that is read in pieces. -/
theorem tokenize_position_value :
    let s := "\"a\nb\"^\nset x=c\n(d&e".toList
    tokenize s = (tokenize s).take 9 ++ ⟨.setValue, "c\n(d".toList, 3, 6, 10⟩ ::
        (tokenize s).drop 10 ∧
      stringify ((tokenize s).take 9) ++ "c\n(d".toList <+: s ∧
      3 = 1 + (stringify ((tokenize s).take 9)).count '\n' ∧
      6 = ((stringify ((tokenize s).take 9)).rtakeWhile (· ≠ '\n')).length ∧
      10 = 6 + "c\n(d".toList.length := by
  intro s
  have h : tokenize s = (tokenize s).take 9 ++ ⟨.setValue, "c\n(d".toList, 3, 6, 10⟩ ::
      (tokenize s).drop 10 := by
    decide +kernel
  exact ⟨h, tokenize_position s _ _ _ h⟩

end Token

end BatchTrace
