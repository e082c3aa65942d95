/-
Occurrences of a pattern and their replacement.

A pattern occurs where its letters stand, whatever their case.  The search goes along the text
and takes the first place where they do, so no occurrence starts before the one it finds.
Replacing goes on behind each occurrence that has been replaced and never looks at what it has
put in.  The value is thus cut into texts in front of an occurrence, the occurrences, and a
last text without any: each cut takes at least one character away, so there are no more of them
than characters.
-/
import BatchTrace.Proofs.Reference.Matching

namespace BatchTrace

namespace Replacement

open Text

/-- The pattern stands somewhere in `t`. -/
def Occurs (pattern t : Text) : Prop :=
  ∃ before found after, t = before ++ found ++ after ∧ SameLetters found pattern

/-- In `before ++ found ++ after` the pattern stands at `found`, and nowhere to the left of it. -/
structure Leftmost (pattern before found after : Text) : Prop where
  same : SameLetters found pattern
  least : ∀ before' found' after', before ++ found ++ after = before' ++ found' ++ after' →
    SameLetters found' pattern → before.length ≤ before'.length

/-- An occurrence of a pattern with the text in front of it. -/
structure Cut where
  before : Text
  found : Text

/-- The text that is cut: the cuts and what remains after them. -/
def whole (cuts : List Cut) (last : Text) : Text :=
  cuts.flatMap (fun c => c.before ++ c.found) ++ last

/-- The text with the replacement at every cut. -/
def substituted (replacement : Text) (cuts : List Cut) (last : Text) : Text :=
  cuts.flatMap (fun c => c.before ++ replacement) ++ last

/-- Every cut is at the leftmost occurrence in what remains, and none remains after them. -/
def Greedy (pattern : Text) : List Cut → Text → Prop
  | [], last => ¬ Occurs pattern last
  | c :: cuts, last =>
      Leftmost pattern c.before c.found (whole cuts last) ∧ Greedy pattern cuts last

/-! ### The search for a pattern -/

/-- An occurrence at the very start is found at once. -/
theorem afterSame?_ne_none {pattern found after : Text} (h : SameLetters found pattern) :
    afterSame? pattern (found ++ after) ≠ none := by
  simp [afterSame?_of_sameLetters h]

theorem leftmost_of_find? {pattern t before after : Text}
    (h : find? pattern t = some (before, after)) :
    ∃ found, t = before ++ found ++ after ∧ Leftmost pattern before found after := by
  induction t generalizing before with
  | nil => simp [find?] at h
  | cons c rest ih =>
    rw [find?] at h
    split at h
    · rename_i a hsame
      obtain ⟨rfl, rfl⟩ : [] = before ∧ a = after := by simpa using h
      obtain ⟨found, hfound, hletters⟩ := exists_of_afterSame?_eq_some hsame
      exact ⟨found, hfound, hletters, fun _ _ _ _ _ => Nat.zero_le _⟩
    · rename_i hnone
      obtain ⟨⟨b, a⟩, hfind, heq⟩ := Option.map_eq_some_iff.mp h
      obtain ⟨rfl, rfl⟩ := Prod.mk.inj heq
      obtain ⟨found, rfl, hleft⟩ := ih hfind
      refine ⟨found, rfl, hleft.same, fun before' found' after' hsplit hletters => ?_⟩
      cases before' with
      | nil =>
        have hhere : c :: (b ++ found ++ a) = found' ++ after' := hsplit
        rw [hhere] at hnone
        exact absurd hnone (afterSame?_ne_none hletters)
      | cons d before' =>
        have hlater := hleft.least before' found' after' (List.cons.inj hsplit).2 hletters
        simpa using hlater

theorem not_occurs_of_find? {pattern t : Text} (hne : pattern ≠ []) (h : find? pattern t = none) :
    ¬ Occurs pattern t := by
  rintro ⟨before, found, after, rfl, hletters⟩
  induction before with
  | nil =>
    cases found with
    | nil => exact hne (List.length_eq_zero_iff.mp hletters.length_eq.symm)
    | cons d found =>
      rw [List.nil_append, List.cons_append, find?] at h
      split at h
      · simp at h
      · rename_i hnone
        exact absurd hnone (afterSame?_ne_none hletters)
  | cons c before ih =>
    rw [List.append_assoc, List.cons_append, find?] at h
    split at h
    · simp at h
    · exact ih (by simpa using h)

/-! ### The loop -/

/-- **Replacing cuts at leftmost occurrences.** -/
theorem exists_greedy_replaceAll (p : Char) (pattern replacement t : Text) :
    ∃ cuts last, whole cuts last = t ∧ Greedy (p :: pattern) cuts last ∧
      replaceAll p pattern replacement t = substituted replacement cuts last := by
  fun_induction replaceAll p pattern replacement t with
  | case1 t before after hfind ih =>
    obtain ⟨found, rfl, hleft⟩ := leftmost_of_find? hfind
    obtain ⟨cuts, last, rfl, hgreedy, hrest⟩ := ih
    exact ⟨⟨before, found⟩ :: cuts, last, by simp [whole], ⟨hleft, hgreedy⟩,
      by simp [substituted, hrest]⟩
  | case2 t hfind => exact ⟨[], t, rfl, not_occurs_of_find? (by simp) hfind, rfl⟩

/-- Every round of the loop uses up a character. -/
theorem length_le_of_greedy {pattern : Text} (hne : pattern ≠ []) {cuts : List Cut} {last : Text}
    (h : Greedy pattern cuts last) : cuts.length ≤ (whole cuts last).length := by
  induction cuts with
  | nil => simp
  | cons c cuts ih =>
    have hfound := h.1.same.length_eq
    have hpos := List.length_pos_iff.mpr hne
    have hrest := ih h.2
    simp only [whole, List.flatMap_cons, List.length_append, List.length_cons] at hrest ⊢
    omega

/-! ### Replacements as they are written -/

theorem splitFirst_written {pattern : Text} (heq : '=' ∉ pattern) (replacement : Text) :
    splitFirst (· = '=') (pattern ++ '=' :: replacement) = some (pattern, replacement) :=
  splitFirst_append (fun d hd => by simpa using ne_of_mem_of_not_mem hd heq) (by simp)

theorem resolve?_all {p : Char} {pattern : Text} (heq : '=' ∉ p :: pattern) (htilde : p ≠ '~')
    (hstar : p ≠ '*') (value replacement : Text) :
    resolve? value (p :: pattern ++ '=' :: replacement) =
      some (replaceAll p pattern replacement value) := by
  rw [resolve?, if_neg (by simpa using htilde), splitFirst_written heq]
  split <;> simp_all

theorem resolve?_first {pattern : Text} (hne : pattern ≠ []) (heq : '=' ∉ pattern)
    (value replacement : Text) :
    resolve? value ('*' :: pattern ++ '=' :: replacement) =
      some (((find? pattern value).map fun cut => replacement ++ cut.2).getD value) := by
  obtain ⟨q, pattern, rfl⟩ := List.exists_cons_of_ne_nil hne
  rw [resolve?, if_neg (by simp), splitFirst_written (by simp [heq])]
  cases hfind : find? (q :: pattern) value <;> simp [hfind]

/--
**Find and replace.**  `pattern=replacement` puts the replacement in the place of each occurrence
of the pattern, every one being the leftmost in what remains after the one before, until none
remains.  `*pattern=replacement` puts it in the place of everything up to the end of the first
occurrence, and leaves a value without one as it is.
-/
theorem resolve?_replaces (value pattern replacement : Text) (hne : pattern ≠ [])
    (heq : '=' ∉ pattern) :
    (pattern.head? ≠ some '~' → pattern.head? ≠ some '*' →
      ∃ cuts last, whole cuts last = value ∧ Greedy pattern cuts last ∧
        cuts.length ≤ value.length ∧
        resolve? value (pattern ++ '=' :: replacement) =
          some (substituted replacement cuts last)) ∧
    ((∃ before found after, value = before ++ found ++ after ∧
        Leftmost pattern before found after ∧
        resolve? value ('*' :: pattern ++ '=' :: replacement) = some (replacement ++ after)) ∨
      ¬ Occurs pattern value ∧
        resolve? value ('*' :: pattern ++ '=' :: replacement) = some value) := by
  refine ⟨fun htilde hstar => ?_, ?_⟩
  · obtain ⟨p, pattern, rfl⟩ := List.exists_cons_of_ne_nil hne
    obtain ⟨cuts, last, rfl, hgreedy, hall⟩ := exists_greedy_replaceAll p pattern replacement value
    refine ⟨cuts, last, rfl, hgreedy, length_le_of_greedy hne hgreedy, ?_⟩
    rw [resolve?_all heq (by simpa using htilde) (by simpa using hstar), hall]
  · rw [resolve?_first hne heq]
    cases hfind : find? pattern value with
    | none => exact Or.inr ⟨not_occurs_of_find? hne hfind, rfl⟩
    | some cut =>
      obtain ⟨found, hvalue, hleft⟩ := leftmost_of_find? hfind
      exact Or.inl ⟨cut.1, found, cut.2, hvalue, hleft, rfl⟩

/-- The occurrences overlap, differ in case from the pattern, and the replacement holds it. -/
theorem resolve?_replaces_overlapping :
    ("aa".toList ≠ [] ∧ '=' ∉ "aa".toList ∧ "aa".toList.head? ≠ some '~' ∧
      "aa".toList.head? ≠ some '*') ∧
    ∃ cuts last, whole cuts last = "xaAaA".toList ∧ Greedy "aa".toList cuts last ∧
      cuts.length ≤ "xaAaA".toList.length ∧
      resolve? "xaAaA".toList "aa=aaa".toList = some (substituted "aaa".toList cuts last) :=
  ⟨⟨by decide, by decide, by decide, by decide⟩,
    (resolve?_replaces "xaAaA".toList "aa".toList "aaa".toList (by decide) (by decide)).1
      (by decide) (by decide)⟩

end Replacement

end BatchTrace
