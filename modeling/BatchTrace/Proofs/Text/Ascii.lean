/-
Characters of ASCII.

There are 128 of them, so whatever can be tested of a character holds of all of them as
soon as it holds of each.  Letters and digits are ordinary characters in every respect that
the library knows: they separate nothing, quote nothing and escape nothing.
-/
import BatchTrace.Program
import BatchTrace.Token.Chunk

namespace BatchTrace

/-- A test that every ASCII character passes. -/
theorem forall_ascii {p : Char → Bool}
    (h : ((List.range 128).all fun n => p (Char.ofNat n)) = true) {c : Char}
    (hc : c.toNat < 128) : p c = true := by
  have hn := List.all_eq_true.mp h c.toNat (List.mem_range.mpr hc)
  rwa [Char.ofNat_toNat] at hn

theorem toNat_lt_of_isAlphanum {c : Char} (h : c.isAlphanum = true) : c.toNat < 128 := by
  have hranges : ((decide (c.val ≥ 'A'.val ∧ c.val ≤ 'Z'.val) ||
      (decide (c.val ≥ 'a'.val) && decide (c.val ≤ 'z'.val))) ||
      (decide (c.val ≥ '0'.val) && decide (c.val ≤ '9'.val))) = true := h
  simp only [Bool.or_eq_true, Bool.and_eq_true, decide_eq_true_eq, UInt32.le_iff_toNat_le,
    ge_iff_le] at hranges
  change ((65 ≤ c.toNat ∧ c.toNat ≤ 90) ∨ (97 ≤ c.toNat ∧ c.toNat ≤ 122)) ∨
    (48 ≤ c.toNat ∧ c.toNat ≤ 57) at hranges
  omega

/-- A test that every letter and digit passes. -/
theorem forall_alphanum {p : Char → Bool}
    (h : ((List.range 128).all fun n => !(Char.ofNat n).isAlphanum || p (Char.ofNat n)) = true)
    {c : Char} (hc : c.isAlphanum = true) : p c = true := by
  have himp := forall_ascii (p := fun c => !c.isAlphanum || p c) h (toNat_lt_of_isAlphanum hc)
  simpa [hc] using himp

section

variable {c : Char} (h : c.isAlphanum = true)
include h

theorem isOrdinary_of_isAlphanum : Chunk.isOrdinary c = true :=
  forall_alphanum (by decide) h

theorem isBlank_of_isAlphanum : Text.isBlank c = false := by
  have hnot := forall_alphanum (p := fun c => !Text.isBlank c) (by decide +kernel) h
  simpa using hnot

theorem isSeparator_of_isAlphanum : Program.isSeparator c = false := by
  have hnot := forall_alphanum (p := fun c => !Program.isSeparator c) (by decide +kernel) h
  simpa using hnot

theorem ne_of_isAlphanum {d : Char} (hd : d.isAlphanum = false) : c ≠ d := by
  rintro rfl
  rw [h] at hd
  exact absurd hd (by simp)

theorem foldLetter_of_isAlphanum : Chunk.foldLetter c = c.toLower := by
  have hsame := forall_alphanum (p := fun c => Chunk.foldLetter c == c.toLower)
    (by decide +kernel) h
  simpa using hsame

end

end BatchTrace
