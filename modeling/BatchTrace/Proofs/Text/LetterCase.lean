/-
Texts when the case of ASCII letters is ignored.

Two texts are alike when `asciiLower` makes them equal.  What is shown here is that
the ways in which a text is cut and compared do not tell them apart: cutting the
lower-case text gives the lower-case pieces, and a test of a character that finds
no difference between a letter and its capital finds none in the text.

There are only 26 capitals, so that a function on characters is blind to their case
is decided by trying them.
-/
import BatchTrace.Text.Blank
import BatchTrace.Text.Lower
import Mathlib.Data.List.Basic

namespace BatchTrace

namespace Text

/-! ### Functions that are blind to case -/

/-- The capital ASCII letters. -/
def capitals : List Char :=
  (List.range 26).map fun n => Char.ofNat (65 + n)

/-- Does `f` give the same for a capital ASCII letter as for the small one? -/
def CaseBlind {α : Type} (f : Char → α) : Prop :=
  ∀ c, f c.toLower = f c

theorem toLower_eq_or_mem_capitals (c : Char) : c.toLower = c ∨ c ∈ capitals := by
  by_cases hc : c.val ≥ 'A'.val ∧ c.val ≤ 'Z'.val
  · right
    have hlow : 65 ≤ c.toNat := UInt32.le_iff_toNat_le.1 hc.1
    have hhigh : c.toNat ≤ 90 := UInt32.le_iff_toNat_le.1 hc.2
    have hnat : Char.ofNat (65 + (c.toNat - 65)) = c := by
      rw [Nat.add_sub_cancel' hlow, Char.ofNat_toNat]
    exact List.mem_map.2 ⟨c.toNat - 65, List.mem_range.2 (by omega), hnat⟩
  · exact .inl (dif_neg hc)

theorem caseBlind_of_capitals {α : Type} [DecidableEq α] {f : Char → α}
    (h : capitals.all (fun c => f c.toLower = f c) = true) : CaseBlind f := by
  intro c
  rcases toLower_eq_or_mem_capitals c with hc | hc
  · rw [hc]
  · exact of_decide_eq_true (List.all_eq_true.1 h c hc)

theorem caseBlind_toLower : CaseBlind Char.toLower :=
  caseBlind_of_capitals (by decide)

@[simp] theorem toLower_toLower (c : Char) : c.toLower.toLower = c.toLower :=
  caseBlind_toLower c

theorem caseBlind_isAlpha : CaseBlind Char.isAlpha :=
  caseBlind_of_capitals (by decide)

theorem caseBlind_isDigit : CaseBlind Char.isDigit :=
  caseBlind_of_capitals (by decide)

theorem caseBlind_isAlphanum : CaseBlind Char.isAlphanum :=
  caseBlind_of_capitals (by decide)

theorem caseBlind_isBlank : CaseBlind isBlank :=
  caseBlind_of_capitals (by decide)

theorem caseBlind_isCased : CaseBlind isCased :=
  caseBlind_of_capitals (by decide +kernel)

/-- Ranges that lie below, between or above the capital and the small letters hold none of them. -/
theorem caseBlind_inRanges {ranges : List (Nat × Nat)}
    (h : ranges.all (fun r => r.2 < 65 || 90 < r.1 && r.2 < 97 || 122 < r.1) = true) :
    CaseBlind fun c => inRanges ranges c.toNat := by
  have hout : ∀ n, 65 ≤ n ∧ n ≤ 90 ∨ 97 ≤ n ∧ n ≤ 122 → inRanges ranges n = false := by
    intro n hn
    rw [inRanges, List.any_eq_false]
    intro r hr
    have hrange := List.all_eq_true.1 h r hr
    simp only [Bool.or_eq_true, Bool.and_eq_true, decide_eq_true_eq] at hrange ⊢
    omega
  have hcodes : capitals.all (fun c =>
      65 ≤ c.toNat && c.toNat ≤ 90 && 97 ≤ c.toLower.toNat && c.toLower.toNat ≤ 122) = true := by
    decide
  intro c
  rcases toLower_eq_or_mem_capitals c with hc | hc
  · rw [hc]
  · have hcode := List.all_eq_true.1 hcodes c hc
    simp only [Bool.and_eq_true, decide_eq_true_eq] at hcode
    show inRanges ranges c.toLower.toNat = inRanges ranges c.toNat
    rw [hout _ (by omega), hout _ (by omega)]

theorem caseBlind_isCaseIgnorable : CaseBlind isCaseIgnorable :=
  caseBlind_inRanges (by decide +kernel)

theorem caseBlind_lowerChar : CaseBlind lowerChar :=
  caseBlind_of_capitals (by decide)

/-- A character that is no letter is the lower-case form of no other character. -/
theorem toLower_eq_iff {c d : Char} (hd : d.isAlpha = false) : c.toLower = d ↔ c = d := by
  have hself : ∀ {c : Char}, c.isAlpha = false → c.toLower = c := by
    intro c hc
    rcases toLower_eq_or_mem_capitals c with h | h
    · exact h
    · have hall : capitals.all Char.isAlpha = true := by decide
      rw [List.all_eq_true.1 hall c h] at hc
      contradiction
  constructor
  · rintro rfl
    exact (hself (by rwa [← caseBlind_isAlpha])).symm
  · rintro rfl
    exact hself hd

theorem toLower_ne {c d : Char} (hd : d.isAlpha = false) (h : c ≠ d) : c.toLower ≠ d :=
  mt (toLower_eq_iff hd).1 h

theorem caseBlind_eq {d : Char} (hd : d.isAlpha = false) : CaseBlind fun c => decide (c = d) := by
  intro c
  rw [decide_eq_decide]
  exact toLower_eq_iff hd

theorem caseBlind_ne {d : Char} (hd : d.isAlpha = false) : CaseBlind fun c => decide (c ≠ d) := by
  intro c
  rw [decide_eq_decide]
  exact not_congr (toLower_eq_iff hd)

theorem CaseBlind.not {p : Char → Bool} (h : CaseBlind p) : CaseBlind fun c => !p c := by
  intro c
  show (!p c.toLower) = !p c
  rw [h c]

/-! ### The pieces of a lower-case text -/

theorem splitOnP_map {α β : Type} (f : α → β) (p : β → Bool) (l : List α) :
    (l.map f).splitOnP p = (l.splitOnP (p ∘ f)).map (List.map f) := by
  induction l with
  | nil => rfl
  | cons a l ih =>
    rw [List.map_cons, List.splitOnP_cons_eq_if_modifyHead, List.splitOnP_cons_eq_if_modifyHead, ih]
    by_cases ha : p (f a) = true
    · simp [ha]
    · simp only [ha, Function.comp_apply]
      cases l.splitOnP (p ∘ f) <;> rfl

section

variable {p : Char → Bool} {d : Char} (s t : Text)

@[simp] theorem asciiLower_nil : asciiLower [] = [] := rfl

@[simp] theorem asciiLower_cons (c : Char) : asciiLower (c :: t) = c.toLower :: asciiLower t := rfl

@[simp] theorem asciiLower_append : asciiLower (s ++ t) = asciiLower s ++ asciiLower t :=
  List.map_append

@[simp] theorem length_asciiLower : (asciiLower t).length = t.length :=
  List.length_map _

@[simp] theorem asciiLower_asciiLower : asciiLower (asciiLower t) = asciiLower t := by
  simp [asciiLower]

theorem asciiLower_reverse : asciiLower t.reverse = (asciiLower t).reverse :=
  List.map_reverse

@[simp] theorem asciiLower_eq_nil_iff {t : Text} : asciiLower t = [] ↔ t = [] :=
  List.map_eq_nil_iff

@[simp] theorem isEmpty_asciiLower : (asciiLower t).isEmpty = t.isEmpty :=
  List.isEmpty_map

/-- A pattern that asks for a first character other than a letter matches a text and its
lower-case form alike. -/
theorem asciiLower_eq_cons_iff (hd : d.isAlpha = false) {t r : Text} :
    asciiLower t = d :: r ↔ ∃ r', t = d :: r' ∧ asciiLower r' = r := by
  cases t with
  | nil => simp
  | cons c t => simp [toLower_eq_iff hd]

theorem asciiLower_ne_cons (hd : d.isAlpha = false) {t : Text} (h : ∀ r, t ≠ d :: r) (r : Text) :
    asciiLower t ≠ d :: r := by
  intro heq
  obtain ⟨r', ht, _⟩ := (asciiLower_eq_cons_iff hd).1 heq
  exact h r' ht

theorem head?_asciiLower_eq_some_iff (hd : d.isAlpha = false) {t : Text} :
    (asciiLower t).head? = some d ↔ t.head? = some d := by
  cases t with
  | nil => simp
  | cons c t => simp [toLower_eq_iff hd]

theorem any_asciiLower (h : CaseBlind p) : (asciiLower t).any p = t.any p := by
  rw [asciiLower, List.any_map]
  exact congrArg t.any (funext h)

theorem all_asciiLower (h : CaseBlind p) : (asciiLower t).all p = t.all p := by
  rw [asciiLower, List.all_map]
  exact congrArg t.all (funext h)

theorem isPrefixOf_asciiLower {p : Text} (hp : p.any Char.isAlpha = false) :
    p.isPrefixOf (asciiLower t) = p.isPrefixOf t := by
  induction p generalizing t with
  | nil => simp
  | cons d p ih =>
    rw [List.any_cons, Bool.or_eq_false_iff] at hp
    cases t with
    | nil => rfl
    | cons c t =>
      have hd : (d == c.toLower) = (d == c) := by
        rw [Bool.eq_iff_iff, beq_iff_eq, beq_iff_eq, eq_comm, toLower_eq_iff hp.1, eq_comm]
      rw [asciiLower_cons, List.isPrefixOf, List.isPrefixOf, hd, ih t hp.2]

theorem contains_asciiLower (hd : d.isAlpha = false) :
    (asciiLower t).contains d = t.contains d := by
  rw [asciiLower, List.contains_map, List.contains_eq_any_beq]
  refine congrArg t.any (funext fun c => ?_)
  rw [Bool.eq_iff_iff, beq_iff_eq, beq_iff_eq, eq_comm, toLower_eq_iff hd, eq_comm]

theorem takeWhile_asciiLower (h : CaseBlind p) :
    (asciiLower t).takeWhile p = asciiLower (t.takeWhile p) := by
  rw [asciiLower, List.takeWhile_map, show p ∘ Char.toLower = p from funext h]
  rfl

theorem dropWhile_asciiLower (h : CaseBlind p) :
    (asciiLower t).dropWhile p = asciiLower (t.dropWhile p) := by
  rw [asciiLower, List.dropWhile_map, show p ∘ Char.toLower = p from funext h]
  rfl

theorem filter_asciiLower (h : CaseBlind p) :
    (asciiLower t).filter p = asciiLower (t.filter p) := by
  rw [asciiLower, List.filter_map, show p ∘ Char.toLower = p from funext h]
  rfl

theorem trimStart_asciiLower : trimStart (asciiLower t) = asciiLower (trimStart t) :=
  dropWhile_asciiLower t caseBlind_isBlank

theorem trimEnd_asciiLower : trimEnd (asciiLower t) = asciiLower (trimEnd t) := by
  rw [trimEnd, trimEnd, ← asciiLower_reverse, dropWhile_asciiLower _ caseBlind_isBlank,
    asciiLower_reverse]

theorem trim_asciiLower : trim (asciiLower t) = asciiLower (trim t) := by
  rw [trim, trim, trimStart_asciiLower, trimEnd_asciiLower]

theorem firstWord_asciiLower : firstWord (asciiLower t) = asciiLower (firstWord t) := by
  rw [firstWord, firstWord, trimStart_asciiLower, takeWhile_asciiLower _ caseBlind_isBlank.not]

theorem splitFirst_asciiLower (h : CaseBlind p) : splitFirst p (asciiLower t) =
    (splitFirst p t).map (Prod.map asciiLower asciiLower) := by
  induction t with
  | nil => rfl
  | cons c t ih =>
    rw [asciiLower_cons, splitFirst, splitFirst, h c, ih]
    by_cases hc : p c = true
    · rw [if_pos hc, if_pos hc]
      rfl
    · rw [if_neg hc, if_neg hc, Option.map_map, Option.map_map]
      rfl

theorem splitLast_asciiLower (h : CaseBlind p) : splitLast p (asciiLower t) =
    (splitLast p t).map (Prod.map asciiLower asciiLower) := by
  rw [splitLast, splitLast, ← asciiLower_reverse, splitFirst_asciiLower _ h, Option.map_map,
    Option.map_map]
  refine congrArg (fun f => Option.map f _) (funext fun parts => ?_)
  simp [asciiLower_reverse]

theorem dropFirstChar_asciiLower (hd : d.isAlpha = false) :
    dropFirstChar d (asciiLower t) = asciiLower (dropFirstChar d t) := by
  cases t with
  | nil => rfl
  | cons c t =>
    rw [asciiLower_cons, dropFirstChar, dropFirstChar]
    by_cases hc : c = d
    · rw [if_pos hc, if_pos ((toLower_eq_iff hd).2 hc)]
    · rw [if_neg hc, if_neg (mt (toLower_eq_iff hd).1 hc)]
      rfl

theorem dropLastChar_asciiLower (hd : d.isAlpha = false) :
    dropLastChar d (asciiLower t) = asciiLower (dropLastChar d t) := by
  have hlast : (asciiLower t).getLast? = some d ↔ t.getLast? = some d := by
    rw [asciiLower, List.getLast?_map, Option.map_eq_some_iff]
    simp [toLower_eq_iff hd]
  rw [dropLastChar, dropLastChar]
  by_cases hc : t.getLast? = some d
  · rw [if_pos hc, if_pos (hlast.2 hc), asciiLower, asciiLower, List.map_dropLast]
  · rw [if_neg hc, if_neg (mt hlast.1 hc)]

theorem replaceChars_asciiLower (h : CaseBlind p) (hd : d.toLower = d) :
    replaceChars p d (asciiLower t) = asciiLower (replaceChars p d t) := by
  simp only [replaceChars, asciiLower, List.map_map]
  refine List.map_congr_left fun c _ => ?_
  simp only [Function.comp_apply, h c]
  split
  · exact hd.symm
  · rfl

/-! ### Comparing texts -/

theorem startsCased_asciiLower : startsCased (asciiLower t) = startsCased t := by
  rw [startsCased, startsCased, dropWhile_asciiLower _ caseBlind_isCaseIgnorable]
  cases t.dropWhile isCaseIgnorable with
  | nil => rfl
  | cons c _ => exact caseBlind_isCased c

theorem lowerFrom_asciiLower (before : Text) :
    lowerFrom (asciiLower before) (asciiLower t) = lowerFrom before t := by
  induction t generalizing before with
  | nil => rfl
  | cons c t ih =>
    have hrest : lowerFrom (c.toLower :: asciiLower before) (asciiLower t) =
        lowerFrom (c :: before) t := ih (c :: before)
    have hsigma : c.toLower = 'Σ' ↔ c = 'Σ' := toLower_eq_iff (by decide)
    simp only [asciiLower_cons, lowerFrom, hrest, hsigma, lowerSigma, startsCased_asciiLower,
      caseBlind_lowerChar c]

/-- A table key does not depend on the case of ASCII letters. -/
@[simp] theorem lower_asciiLower : lower (asciiLower t) = lower t :=
  lowerFrom_asciiLower t []

theorem afterSame?_asciiLower (pattern : Text) :
    afterSame? (asciiLower pattern) (asciiLower t) = (afterSame? pattern t).map asciiLower := by
  induction pattern generalizing t with
  | nil => rfl
  | cons p pattern ih =>
    cases t with
    | nil => rfl
    | cons c t =>
      have hsame : sameLetter c.toLower p.toLower = sameLetter c p := by
        rw [sameLetter, sameLetter, caseBlind_lowerChar c, caseBlind_lowerChar p]
      simp only [asciiLower_cons, afterSame?, hsame, ih]
      split <;> rfl

theorem sameAscii_iff {s t : Text} : sameAscii s t = true ↔ asciiLower s = asciiLower t := by
  rw [sameAscii, beq_iff_eq]

theorem sameAscii_asciiLower : sameAscii (asciiLower s) t = sameAscii s t := by
  rw [sameAscii, sameAscii, asciiLower_asciiLower]

theorem sameAscii_comm (s t : Text) : sameAscii s t = sameAscii t s := by
  rw [Bool.eq_iff_iff, sameAscii_iff, sameAscii_iff, eq_comm]

theorem sameAscii_congr_left {s t : Text} (h : sameAscii s t = true) (u : Text) :
    sameAscii s u = sameAscii t u := by
  rw [sameAscii, sameAscii, sameAscii_iff.mp h]

theorem sameAscii_congr_right {s t : Text} (h : sameAscii s t = true) (u : Text) :
    sameAscii u s = sameAscii u t := by
  rw [sameAscii_comm, sameAscii_congr_left h, sameAscii_comm]

end

end Text

end BatchTrace
