/-
Expansion around sigils.

Nothing is expanded where no sigil stands: a text without one is its own expansion, and
one in front of a reference is passed over.  A reference to a name alone, with the end of
the line after its second sigil, stands for the variable's value if there is such a
variable, and for itself if there is none.
-/
import BatchTrace.Proofs.Reference.LetterCase
import BatchTrace.Proofs.Text.Ascii

namespace BatchTrace

/-! ### Names without case -/

namespace Text

/-- The texts are the same, character by character, when case is ignored. -/
def SameLetters (s t : Text) : Prop :=
  s.map lowerChar = t.map lowerChar

instance (s t : Text) : Decidable (SameLetters s t) :=
  inferInstanceAs (Decidable (s.map lowerChar = t.map lowerChar))

theorem exists_of_afterSame?_eq_some {pattern t after : Text}
    (h : afterSame? pattern t = some after) :
    ∃ found, t = found ++ after ∧ SameLetters found pattern := by
  fun_induction afterSame? pattern t with
  | case1 t => exact ⟨[], by simpa using h, rfl⟩
  | case2 => simp at h
  | case3 p pattern c t hsame ih =>
    obtain ⟨found, rfl, hfound⟩ := ih h
    have hletter : lowerChar c = lowerChar p := by simpa [sameLetter] using hsame
    exact ⟨c :: found, rfl, by rw [SameLetters, List.map_cons, List.map_cons, hletter, hfound]⟩
  | case4 => simp at h

theorem afterSame?_of_sameLetters {found pattern : Text} (h : SameLetters found pattern)
    (t : Text) : afterSame? pattern (found ++ t) = some t := by
  induction pattern generalizing found with
  | nil =>
    rw [List.map_eq_nil_iff.mp h]
    rfl
  | cons p pattern ih =>
    obtain ⟨c, rest, rfl, hc, hrest⟩ := List.map_eq_cons_iff.mp h
    rw [List.cons_append, afterSame?, if_pos (by simp [sameLetter, hc]), ih hrest]

/-- In ASCII every letter has one lower-case form. -/
theorem SameLetters.asciiLower_eq {s t : Text} (h : SameLetters s t) (hs : ∀ c ∈ s, c.toNat < 128)
    (ht : ∀ c ∈ t, c.toNat < 128) : asciiLower s = asciiLower t := by
  have hlower : ∀ {r : Text}, (∀ c ∈ r, c.toNat < 128) →
      r.map lowerChar = (asciiLower r).map ([·]) := by
    intro r hr
    rw [asciiLower, List.map_map]
    exact List.map_congr_left fun c hc => lowerChar_of_ascii (hr c hc)
  have hsame : s.map lowerChar = t.map lowerChar := h
  rw [hlower hs, hlower ht] at hsame
  exact List.map_injective_iff.mpr List.singleton_injective hsame

/-- What ends just in front of a mark that closes a text, and has none in it before, is all the
rest. -/
theorem eq_of_concat_eq {d : Char} {n found after : Text} (hn : d ∉ n)
    (h : n ++ [d] = found ++ d :: after) : found = n := by
  rcases List.append_eq_append_iff.mp h with ⟨more, rfl, hmore⟩ | ⟨more, rfl, hmore⟩
  · cases more with
    | nil => exact List.append_nil n
    | cons c more => simp at hmore
  · cases more with
    | nil => exact (List.append_nil found).symm
    | cons c more =>
      rw [(List.cons.inj hmore).1] at hn
      simp at hn

end Text

/-- A reference to a variable by its name alone. -/
def reference (sigil : Char) (n : Text) : Text :=
  sigil :: (n ++ [sigil])

namespace Expansion

variable (e : Expansion) (table : Variables)

/-! ### Texts without sigils -/

section

variable {e} {before : Text} (h : e.sigil ∉ before) (t : Text)
include h

theorem expandNames_append :
    e.expandNames table (before ++ t) = before ++ e.expandNames table t := by
  induction before with
  | nil => rfl
  | cons c rest ih =>
    rw [List.mem_cons, not_or] at h
    rw [List.cons_append, expandNames_of_ne (Ne.symm h.1), ih h.2, List.cons_append]

theorem expandArguments_append (resolve? : Text → Text → Option Text) :
    e.expandArguments table resolve? (before ++ t) =
      before ++ e.expandArguments table resolve? t := by
  induction before with
  | nil => rfl
  | cons c rest ih =>
    rw [List.mem_cons, not_or] at h
    rw [List.cons_append, expandArguments_of_ne (Ne.symm h.1), ih h.2, List.cons_append]

/-- What stands before the first sigil is passed over. -/
theorem expand_append : e.expand table (before ++ t) = before ++ e.expand table t := by
  unfold expand
  dsimp only
  rw [expandNames_append table h]
  split
  · rw [expandArguments_append table h, expandArguments_append table h]
  · rfl

end

theorem expand_nil : e.expand table [] = [] := by
  simp [expand, expandNames, expandArguments]

/-- A text without sigils is its own expansion. -/
theorem expand_of_not_mem {t : Text} (h : e.sigil ∉ t) : e.expand table t = t := by
  have hpassed := expand_append table h []
  rwa [List.append_nil, expand_nil, List.append_nil] at hpassed

/-! ### A reference to a name -/

theorem expandArguments_of_not_mem (resolve? : Text → Text → Option Text) {t : Text}
    (h : ':' ∉ t) : e.expandArguments table resolve? t = t := by
  induction t with
  | nil => rw [expandArguments]
  | cons c t ih =>
    rw [List.mem_cons, not_or] at h
    have hnone : e.withArguments? t = none := by
      rw [withArguments?, Text.splitFirst_eq_none_iff.mpr]
      intro d hd
      simpa using ne_of_mem_of_not_mem hd h.2
    by_cases hc : c = e.sigil
    · rw [hc, expandArguments_sigil, hnone, ih h.2]
    · rw [expandArguments_of_ne hc, ih h.2]

/-- Without colons there is nothing to do after the pass over plain names. -/
theorem expand_eq_expandNames {t : Text} (h : ':' ∉ e.expandNames table t) :
    e.expand table t = e.expandNames table t := by
  unfold expand
  dsimp only
  split
  · rw [expandArguments_of_not_mem e table _ h, expandArguments_of_not_mem e table _ h]
  · rfl

/-- Without sigils there is nothing to do, either. -/
theorem expand_eq_expandNames_of_sigil {t : Text} (h : e.sigil ∉ e.expandNames table t) :
    e.expand table t = e.expandNames table t := by
  have hpassed : ∀ resolve?, e.expandArguments table resolve? (e.expandNames table t) =
      e.expandNames table t := by
    intro resolve?
    have happend := expandArguments_append table h [] resolve?
    rwa [expandArguments, List.append_nil] at happend
  unfold expand
  dsimp only
  rw [hpassed, hpassed, ite_self]

variable {e table}

theorem longest?_eq_none {t : Text} {vs : List Variable}
    (h : ∀ v ∈ vs, e.isPlainName v.name = true → e.afterName? v.name t = none) :
    e.longest? t vs = none := by
  induction vs with
  | nil => rfl
  | cons v vs ih =>
    have hv : (if e.isPlainName v.name then e.afterName? v.name t else none) = none := by
      split
      · exact h v (by simp) ‹_›
      · rfl
    rw [longest?, ih fun w hw => h w (by simp [hw]), hv]

/-- The last variable is the only one that is referred to. -/
theorem longest?_concat {t after : Text} {vs : List Variable} {v : Variable}
    (h : ∀ w ∈ vs, e.afterName? w.name t = none) (hplain : e.isPlainName v.name = true)
    (hv : e.afterName? v.name t = some after) : e.longest? t (vs ++ [v]) = some (v, after) := by
  induction vs with
  | nil => rw [List.nil_append, longest?, longest?, if_pos hplain, hv]
  | cons w vs ih =>
    rw [List.cons_append, longest?, ih fun u hu => h u (by simp [hu]), h w (by simp), ite_self]

theorem afterName?_self (e : Expansion) (n t : Text) :
    e.afterName? n (n ++ e.sigil :: t) = some t := by
  simp [afterName?, Text.afterSame?_of_sameLetters rfl]

theorem afterName?_nil (e : Expansion) (n : Text) : e.afterName? n [] = none := by
  cases n <;> rfl

/-- A name is not found where another one stands. -/
theorem afterName?_of_ne {n name : Text} (hn : ∀ c ∈ n, c.toNat < 128)
    (hname : ∀ c ∈ name, c.toNat < 128) (hfree : e.sigil ∉ n)
    (hne : Text.lower name ≠ Text.lower n) : e.afterName? name (n ++ [e.sigil]) = none := by
  unfold afterName?
  split
  · rename_i c after hsame
    refine if_neg ?_
    rintro rfl
    obtain ⟨found, hfound, hletters⟩ := Text.exists_of_afterSame?_eq_some hsame
    -- The sigil after what was found is the one after `n`, for there is none in `n`.
    have hsame : found = n := Text.eq_of_concat_eq hfree hfound
    rw [hsame] at hletters
    refine hne ?_
    rw [← Text.lower_asciiLower, ← hletters.asciiLower_eq hn hname, Text.lower_asciiLower]
  · rfl

/-- A reference to no variable stays as it is. -/
theorem expandNames_unknown {n : Text} (hfree : e.sigil ∉ n)
    (h : e.longest? (n ++ [e.sigil]) table.entries = none) :
    e.expandNames table (reference e.sigil n) = reference e.sigil n := by
  have hnone : e.longest? [] table.entries = none :=
    longest?_eq_none fun v _ _ => e.afterName?_nil v.name
  rw [reference, expandNames_sigil, h]
  dsimp only
  rw [expandNames_append table hfree, expandNames_sigil, hnone]
  dsimp only
  rw [expandNames]

/-- A reference to a variable is its value. -/
theorem expandNames_known {n : Text} {v : Variable}
    (h : e.longest? (n ++ [e.sigil]) table.entries = some (v, [])) :
    e.expandNames table (reference e.sigil n) = v.value := by
  rw [reference, expandNames_sigil, h]
  dsimp only
  rw [expandNames, List.append_nil]

section

variable {before n : Text} (hbefore : e.sigil ∉ before)
  (hn : ∀ c ∈ n, c.isAlphanum = true) (hfree : e.sigil ∉ n)
  (hnames : ∀ v ∈ table.entries, ∀ c ∈ v.name, c.toNat < 128)
  (hnew : table.contains n = false)
include hn hfree hnames hnew

/-- No variable is found where a new name stands. -/
theorem afterName?_of_new {v : Variable} (hv : v ∈ table.entries) :
    e.afterName? v.name (n ++ [e.sigil]) = none := by
  have hascii : ∀ c ∈ n, c.toNat < 128 := fun c hc => toNat_lt_of_isAlphanum (hn c hc)
  refine afterName?_of_ne hascii (hnames v hv) hfree ?_
  intro hsame
  rw [Variables.contains, List.any_eq_false] at hnew
  exact hnew v hv (decide_eq_true hsame)

include hbefore

/-- **A name that is not in the table is left as it stands.** -/
theorem expand_reference_unknown (hcolon : e.sigil ≠ ':') :
    e.expand table (before ++ reference e.sigil n) = before ++ reference e.sigil n := by
  have hnone := longest?_eq_none fun v hv _ => afterName?_of_new hn hfree hnames hnew hv
  have hexpanded := expandNames_unknown hfree hnone
  rw [expand_append table hbefore, expand_eq_expandNames, hexpanded]
  have hplain : ':' ∉ n := fun hmem => absurd (hn _ hmem) (by decide)
  rw [hexpanded, reference]
  simp [hplain, hcolon.symm]

/-- **A name that has just been entered into the table is replaced by its value.** -/
theorem expand_reference_set (hne : n ≠ []) {v : Text} (hv : ':' ∉ v) :
    e.expand (table.set n v) (before ++ reference e.sigil n) = before ++ v := by
  have hplain : e.isPlainName n = true := by
    have hinner : hasInnerColon n = false := by
      cases n with
      | nil => rfl
      | cons c n =>
        rw [hasInnerColon, Bool.eq_false_iff, Ne, List.contains_iff_mem]
        intro hmem
        exact absurd (hn _ (List.mem_cons_of_mem c (List.dropLast_subset _ hmem))) (by decide)
    simp [isPlainName, hinner, hne]
  have hentries : (table.set n v).entries = table.entries ++ [⟨n, v⟩] := by
    rw [Variables.set, if_neg (by simp [hnew])]
  have hexpanded : e.expandNames (table.set n v) (reference e.sigil n) = v := by
    refine expandNames_known (v := ⟨n, v⟩) ?_
    rw [hentries]
    exact longest?_concat (fun w hw => afterName?_of_new hn hfree hnames hnew hw) hplain
      (e.afterName?_self n [])
  rw [expand_append _ hbefore, expand_eq_expandNames _ _ (by rwa [hexpanded]), hexpanded]

end

end Expansion

end BatchTrace
