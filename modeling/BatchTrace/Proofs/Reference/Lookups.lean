/-
Two ways to look up a name.

A name with arguments is looked up by its key, which is the lower-case form of the whole name.
A name alone is compared with the names of the table character by character.  As a rule that
comes to the same, for a text is lower-cased character by character as well.  There are two
exceptions.  The small form of a capital sigma depends on its place in the text, so the key of
`AΣ` is that of `aς`, which has other letters, and not that of `aσ`, which has the same.  And
the dotted capital I is lower-cased to two characters, so a name with it can have the key of a
longer one.  Only a name in which a sigma or a dot of that kind occurs is concerned.
-/
import BatchTrace.Proofs.Reference.Matching

namespace BatchTrace

/-! ### Keys and letters -/

namespace Text

/-- The small sigmas and the dot above. -/
def smallForms : Text :=
  ['σ', 'ς', '\u0307']

/-- The capital letters that are lower-cased in a way of their own, and what becomes of them. -/
def unsteady : Text :=
  'Σ' :: 'İ' :: smallForms

/-- A text without sigmas and without dots above. -/
def Steady (t : Text) : Prop :=
  ∀ c ∈ t, c ∉ unsteady

instance (t : Text) : Decidable (Steady t) :=
  List.decidableBAll (fun c => c ∉ unsteady) t

theorem toNat_toLower_lt {c : Char} (hc : c.toNat < 128) : c.toLower.toNat < 128 := by
  have hascii := forall_ascii (p := fun c => decide (c.toLower.toNat < 128)) (by decide +kernel) hc
  simpa using hascii

/-- Where a character outside ASCII can come from. -/
theorem cases_of_mem_lowerChar {c d : Char} (hd : 128 ≤ d.toNat) (h : d ∈ lowerChar c) :
    c = d ∨ c = 'İ' ∨ ∃ r ∈ lowerRanges, r.holds c.toNat = true ∧ c.toNat + r.shift = d.toNat := by
  unfold lowerChar at h
  split at h
  · rename_i hc
    have hlow := toNat_toLower_lt hc
    rw [← List.mem_singleton.mp h] at hlow
    omega
  split at h
  · exact .inr (.inl ‹_›)
  split at h
  · rename_i r hfind
    have hholds : r.holds c.toNat = true := by simpa using List.find?_some hfind
    refine .inr (.inr ⟨r, List.mem_of_find?_eq_some hfind, hholds, ?_⟩)
    rw [List.mem_singleton.mp h] at hd ⊢
    rcases toNat_ofNat (c.toNat + r.shift).toNat with hnat | hnat <;> omega
  · exact .inl (List.mem_singleton.mp h).symm

/-- Small sigmas and dots above come only from sigmas and dots above. -/
theorem not_mem_lowerChar {c d : Char} (hc : c ∉ unsteady) (hd : d ∈ smallForms) :
    d ∉ lowerChar c := by
  have hcodes : lowerRanges.all (fun r => smallForms.all fun d =>
      !r.holds (d.toNat - r.shift).toNat || (d.toNat - r.shift).toNat == 'Σ'.toNat) = true := by
    decide +kernel
  have hforms : smallForms.all (fun d => 128 ≤ d.toNat && unsteady.contains d) = true := by
    decide
  have hd' := List.all_eq_true.mp hforms d hd
  rw [Bool.and_eq_true, decide_eq_true_eq, List.contains_iff_mem] at hd'
  intro hmem
  rcases cases_of_mem_lowerChar hd'.1 hmem with rfl | rfl | ⟨r, hr, hholds, hshift⟩
  · exact hc hd'.2
  · exact hc (by decide)
  · have hcode := List.all_eq_true.mp (List.all_eq_true.mp hcodes r hr) d hd
    rw [← hshift, Int.add_sub_cancel, Int.toNat_natCast, hholds] at hcode
    have hsigma : c = 'Σ' := Char.toNat_inj.mp (by simpa using hcode)
    exact hc (by rw [hsigma]; decide)

/-- Each character of a text has its lower-case form in that of the text. -/
theorem exists_mem_lower {c : Char} {t : Text} (h : c ∈ t) :
    ∃ before after, ∀ d ∈ (if c = 'Σ' then [lowerSigma before after] else lowerChar c),
      d ∈ lower t := by
  have hfrom : ∀ before, ∃ before' after,
      ∀ d ∈ (if c = 'Σ' then [lowerSigma before' after] else lowerChar c),
        d ∈ lowerFrom before t := by
    induction t with
    | nil => simp at h
    | cons x t ih =>
      intro before
      rw [lowerFrom]
      rcases List.mem_cons.mp h with rfl | h
      · exact ⟨before, t, fun d hd => List.mem_append_left _ hd⟩
      · obtain ⟨before', after, hd⟩ := ih h (x :: before)
        exact ⟨before', after, fun d hmem => List.mem_append_right _ (hd d hmem)⟩
  exact hfrom []

theorem exists_lowerChar_eq_singleton {c : Char} (hc : c ≠ 'İ') : ∃ d, lowerChar c = [d] := by
  unfold lowerChar
  split
  · exact ⟨_, rfl⟩
  · split <;> exact ⟨_, rfl⟩

/-- Single characters can be told from the text they make up. -/
theorem map_singleton_flatten {l : List Text} (h : ∀ x ∈ l, ∃ d, x = [d]) :
    l.flatten.map (fun d => [d]) = l := by
  induction l with
  | nil => rfl
  | cons x l ih =>
    obtain ⟨d, rfl⟩ := h x (by simp)
    rw [List.flatten_cons, List.map_append, ih fun y hy => h y (by simp [hy])]
    rfl

section

variable {s t : Text}

theorem sameLetters_of_lower_eq (hs : 'Σ' ∉ s ∧ 'İ' ∉ s) (ht : 'Σ' ∉ t ∧ 'İ' ∉ t)
    (h : lower s = lower t) : SameLetters s t := by
  have hsingle : ∀ {r : Text}, 'İ' ∉ r → ∀ x ∈ r.map lowerChar, ∃ d, x = [d] := by
    intro r hr x hx
    obtain ⟨c, hc, rfl⟩ := List.mem_map.mp hx
    exact exists_lowerChar_eq_singleton (ne_of_mem_of_not_mem hc hr)
  rw [lower_eq_flatten hs.1, lower_eq_flatten ht.1] at h
  rw [SameLetters, ← map_singleton_flatten (hsingle hs.2), h, map_singleton_flatten (hsingle ht.2)]

variable (hs : Steady s)
include hs

theorem Steady.not_mem : 'Σ' ∉ s ∧ 'İ' ∉ s :=
  ⟨fun hmem => hs _ hmem (by decide), fun hmem => hs _ hmem (by decide)⟩

theorem Steady.not_mem_of_lower_eq (h : lower s = lower t) : 'Σ' ∉ t ∧ 'İ' ∉ t := by
  have hnone : ∀ d ∈ smallForms, d ∉ lower t := by
    intro d hd hmem
    rw [← h, lower_eq_flatten hs.not_mem.1, List.mem_flatten] at hmem
    obtain ⟨x, hx, hdx⟩ := hmem
    obtain ⟨c, hc, rfl⟩ := List.mem_map.mp hx
    exact not_mem_lowerChar (hs c hc) hd hdx
  constructor
  · intro hmem
    obtain ⟨before, after, hlower⟩ := exists_mem_lower hmem
    rw [if_pos rfl] at hlower
    refine hnone (lowerSigma before after) ?_ (hlower _ (by simp))
    unfold lowerSigma
    split <;> decide
  · intro hmem
    obtain ⟨before, after, hlower⟩ := exists_mem_lower hmem
    rw [if_neg (by decide)] at hlower
    exact hnone '\u0307' (by decide) (hlower _ (by decide +kernel))

theorem Steady.not_mem_of_sameLetters (h : SameLetters s t) : 'Σ' ∉ t ∧ 'İ' ∉ t := by
  have hnone : ∀ d ∈ smallForms, ∀ c ∈ t, d ∉ lowerChar c := by
    intro d hd c hc hmem
    have hletter := List.mem_map_of_mem (f := lowerChar) hc
    rw [show t.map lowerChar = s.map lowerChar from h.symm] at hletter
    obtain ⟨c', hc', hsame⟩ := List.mem_map.mp hletter
    exact not_mem_lowerChar (hs c' hc') hd (hsame ▸ hmem)
  exact ⟨fun hmem => hnone 'σ' (by decide) 'Σ' hmem (by decide +kernel),
    fun hmem => hnone '\u0307' (by decide) 'İ' hmem (by decide +kernel)⟩

/-- **A steady text has the key of another one just if it has its letters.** -/
theorem Steady.lower_eq_iff : lower s = lower t ↔ SameLetters s t := by
  constructor
  · exact fun h => sameLetters_of_lower_eq hs.not_mem (hs.not_mem_of_lower_eq h) h
  · exact fun h => h.lower_eq hs.not_mem.1 (hs.not_mem_of_sameLetters h).1

end

end Text

theorem Slice.slice_whole (value : Text) : slice value 0 none = value := by
  have hfirst : clamp value.length 0 = 0 := by
    unfold clamp
    omega
  simp [slice, hfirst, between]

open Text

/-- The value of the last variable whose name has the given letters. -/
def Variables.spelled? (table : Variables) (name : Text) : Option Text :=
  (table.entries.filter fun v => SameLetters name v.name).getLast?.map (·.value)

theorem Variables.Distinct.spelled?_eq_get? {table : Variables} (h : table.Distinct) {n : Text}
    (hn : Steady n) : table.spelled? n = table.get? n := by
  have hkey : ∀ v : Variable, SameLetters n v.name ↔ v.key = lower n := fun v =>
    hn.lower_eq_iff.symm.trans eq_comm
  ext value
  rw [h.get?_eq_some_iff, spelled?, Option.map_eq_some_iff]
  constructor
  · rintro ⟨v, hlast, rfl⟩
    obtain ⟨hv, hletters⟩ := List.mem_filter.mp (List.mem_of_getLast? hlast)
    exact ⟨v, hv, (hkey v).mp (by simpa using hletters), rfl⟩
  · rintro ⟨v, hv, hvkey, rfl⟩
    have hmem : v ∈ table.entries.filter fun v => SameLetters n v.name :=
      List.mem_filter.mpr ⟨hv, by simpa using (hkey v).mpr hvkey⟩
    obtain ⟨w, hlast⟩ := Option.isSome_iff_exists.mp
      (List.getLast?_isSome.mpr (List.ne_nil_of_mem hmem))
    obtain ⟨hw, hletters⟩ := List.mem_filter.mp (List.mem_of_getLast? hlast)
    have hwkey := (hkey w).mp (by simpa using hletters)
    exact ⟨w, hlast, by rw [h.eq_of_key_eq hw hv (hwkey.trans hvkey.symm)]⟩

namespace Expansion

variable {e : Expansion} {table : Variables} {n : Text}

section

variable (hsigil : e.sigil = '%' ∨ e.sigil = '!') (hne : n ≠ []) (hfree : e.sigil ∉ n)
  (hcolon : ':' ∉ n)
include hfree

theorem sameLetters_of_afterName?_concat {name after : Text}
    (h : e.afterName? name (n ++ [e.sigil]) = some after) : SameLetters n name := by
  obtain ⟨found, hfound, hletters⟩ := afterName?_eq_some_iff.mp h
  rwa [eq_of_concat_eq hfree hfound] at hletters

/-! ### A name alone -/

include hne hcolon

theorem refers_concat_iff {v : Variable} {after : Text} :
    e.Refers (n ++ [e.sigil]) v after ↔ SameLetters n v.name ∧ after = [] := by
  constructor
  · rintro ⟨-, hfound⟩
    have hletters := sameLetters_of_afterName?_concat hfree hfound
    have hself : e.afterName? v.name (n ++ [e.sigil]) = some [] :=
      afterName?_eq_some_iff.mpr ⟨n, rfl, hletters⟩
    exact ⟨hletters, Option.some.inj (hfound.symm.trans hself)⟩
  · rintro ⟨hletters, rfl⟩
    refine ⟨?_, afterName?_eq_some_iff.mpr ⟨n, rfl, hletters⟩⟩
    have hcolon : ':' ∉ v.name := fun hmem =>
      hcolon (hletters.symm.mem_of_mem (by simp [IsMark]) hmem)
    have hlength := hletters.length_eq
    cases hname : v.name with
    | nil =>
      rw [hname] at hlength
      exact absurd (List.length_eq_zero_iff.mp hlength) hne
    | cons c rest =>
      have hinner : ':' ∉ rest.dropLast := fun hmem =>
        hcolon (by rw [hname]; exact List.mem_cons_of_mem c (List.dropLast_subset _ hmem))
      simp [isPlainName, hasInnerColon, hinner]

/-- Names with the same letters are equally long, so the last of them is found. -/
theorem longest?_concat_eq (vs : List Variable) :
    e.longest? (n ++ [e.sigil]) vs =
      (vs.filter fun v => SameLetters n v.name).getLast?.map fun v => (v, []) := by
  induction vs with
  | nil => rfl
  | cons v vs ih =>
    rw [longest?, ih]
    by_cases hletters : SameLetters n v.name
    · rw [refers_iff.mpr ((refers_concat_iff hne hfree hcolon).mpr ⟨hletters, rfl⟩),
        List.filter_cons_of_pos (by simpa using hletters), List.getLast?_cons]
      cases hlast : (vs.filter fun v => SameLetters n v.name).getLast? with
      | none => rfl
      | some w =>
        have hw : SameLetters n w.name := by
          simpa using (List.mem_filter.mp (List.mem_of_getLast? hlast)).2
        have hlength := hw.length_eq.symm.trans hletters.length_eq
        simp [hlength]
    · have hhere : (if e.isPlainName v.name then e.afterName? v.name (n ++ [e.sigil]) else none) =
          none := by
        refine Option.eq_none_iff_forall_ne_some.mpr fun after hafter => ?_
        exact hletters ((refers_concat_iff hne hfree hcolon).mp (refers_iff.mp hafter)).1
      rw [hhere, List.filter_cons_of_neg (by simpa using hletters)]

include hsigil

/-- **A name alone is looked up letter by letter.**  If there is no such variable, the
reference is left as it is. -/
theorem expand_reference_eq (hvalues : ∀ v ∈ table.entries, e.sigil ∉ v.value) :
    e.expand table (reference e.sigil n) =
      (table.spelled? n).getD (reference e.sigil n) := by
  have hlongest := longest?_concat_eq hne hfree hcolon table.entries
  rw [Variables.spelled?]
  cases hlast : (table.entries.filter fun v => SameLetters n v.name).getLast? with
  | none =>
    rw [hlast] at hlongest
    have hnames := expandNames_unknown hfree hlongest
    have hplain : ':' ∉ reference e.sigil n := by
      have hother : ':' ≠ e.sigil := by rcases hsigil with hs | hs <;> simp [hs]
      simp [reference, hcolon, hother]
    rw [expand_eq_expandNames _ _ (by rwa [hnames]), hnames]
    rfl
  | some v =>
    rw [hlast] at hlongest
    have hnames := expandNames_known hlongest
    have hv := (List.mem_filter.mp (List.mem_of_getLast? hlast)).1
    rw [expand_eq_expandNames_of_sigil _ _ (by rw [hnames]; exact hvalues v hv), hnames]
    rfl

/-! ### A name with arguments -/

omit hne hfree hcolon hsigil in
/-- A reference with arguments that stands alone. -/
theorem expandArguments_reference {resolve? : Text → Text → Option Text} {t arguments : Text}
    (ht : e.sigil ∉ t) (h : e.withArguments? (t ++ [e.sigil]) = some (n, arguments, [])) :
    e.expandArguments table resolve? (reference e.sigil t) =
      ((table.get? n).bind fun value => resolve? value arguments).getD (reference e.sigil t) := by
  have hend : e.expandArguments table resolve? [e.sigil] = [e.sigil] := by
    rw [expandArguments_sigil, show e.withArguments? [] = none from rfl, expandArguments]
  rw [reference, expandArguments_sigil, h]
  dsimp only
  cases (table.get? n).bind fun value => resolve? value arguments with
  | none =>
    dsimp only
    rw [expandArguments_append table ht, hend]
    rfl
  | some value =>
    dsimp only
    rw [expandArguments, List.append_nil]
    rfl

/-- **A name with arguments is looked up by key**, here for the slice that is all of the value. -/
theorem expand_whole_slice (hext : e.extensions = true) {value : Text}
    (hget : table.get? n = some value) :
    e.expand table (reference e.sigil (n ++ ":~0".toList)) = value := by
  let r : SliceReference := ⟨n, ['0'], none⟩
  have hr : r.Proper e.sigil table := by
    have hstart : trim ['0'] ≠ [] := by decide
    refine ⟨hne, ⟨hfree, hcolon⟩, by simp [r, hget], ?_, by simp [r], hstart, by simp [r]⟩
    rcases hsigil with hs | hs <;> simp [r, SliceReference.arguments, hs]
  have hbody : e.sigil ∉ n ++ ":~0".toList := not_mem_slice hsigil hr
  have hparts : e.withArguments? ((n ++ ":~0".toList) ++ [e.sigil]) =
      some (n, "~0".toList, []) := withArguments?_slice hsigil hr []
  have hnone : e.longest? ((n ++ ":~0".toList) ++ [e.sigil]) table.entries = none := by
    refine longest?_eq_none fun v _ hplain => ?_
    refine Option.eq_none_iff_forall_ne_some.mpr fun after hafter => ?_
    have hletters : SameLetters (n ++ ':' :: "~0".toList) v.name :=
      sameLetters_of_afterName?_concat hbody hafter
    have hinner := hasInnerColon_of_sameLetters hne (by decide) hletters
    simp [isPlainName, hext, hinner] at hplain
  have hreplacement : Replacement.resolve? value "~0".toList = none := rfl
  have hslice : Slice.resolve? value "~0".toList = some value :=
    congrArg some (Slice.slice_whole value)
  rw [expand, if_pos hext, expandNames_unknown hbody hnone, expandArguments_reference hbody hparts,
    hget, Option.bind_some, hreplacement, Option.getD_none,
    expandArguments_reference hbody hparts, hget, Option.bind_some, hslice, Option.getD_some]

end

/--
**Where the two lookups agree.**  A whole slice of a variable always stands for its value.  The
name alone stands for it just if the variable that is found letter by letter has this value,
and always if no sigma and no dot above occurs in the name.
-/
theorem expand_lookups (table : Variables) (hdistinct : table.Distinct)
    (hvalues : ∀ v ∈ table.entries, '%' ∉ v.value) (n : Text) (hne : n ≠ []) (hfree : '%' ∉ n)
    (hcolon : ':' ∉ n) (hn : table.contains n = true) :
    let e : Expansion := ⟨'%', true⟩
    some (e.expand table (reference '%' (n ++ ":~0".toList))) = table.get? n ∧
      (some (e.expand table (reference '%' n)) = table.get? n ↔
        table.spelled? n = table.get? n) ∧
      (Steady n → some (e.expand table (reference '%' n)) = table.get? n) := by
  intro e
  obtain ⟨v, hv, hkey⟩ := Variables.contains_iff.mp hn
  have hget := hdistinct.get?_of_mem hv hkey
  have hname := expand_reference_eq (e := e) (Or.inl rfl) hne hfree hcolon hvalues
  have hagree : some (e.expand table (reference '%' n)) = table.get? n ↔
      table.spelled? n = table.get? n := by
    rw [hget, hname]
    cases hspelled : table.spelled? n with
    | none =>
      -- What is left as it is has a sigil, and the value has none.
      have hother : reference e.sigil n ≠ v.value := fun heq =>
        hvalues v hv (heq ▸ by simp [reference, e])
      simp [hother]
    | some value => simp
  refine ⟨?_, hagree, fun hsteady => hagree.mpr (hdistinct.spelled?_eq_get? hsteady)⟩
  rw [hget]
  exact congrArg some (expand_whole_slice (e := e) (Or.inl rfl) hne hfree hcolon rfl hget)

/-- The sign for a kelvin is lower-cased to a letter of ASCII, alone and in a name. -/
theorem expand_lookups_kelvin :
    let e : Expansion := ⟨'%', true⟩
    let table := Variables.ofList [("k".toList, "yes".toList), ("k%".toList, "no".toList), ([], [])]
    let n : Text := ['\u212a']
    (table.Distinct ∧ (∀ v ∈ table.entries, '%' ∉ v.value) ∧ n ≠ [] ∧ '%' ∉ n ∧ ':' ∉ n ∧
      table.contains n = true ∧ Steady n) ∧
    e.expand table (reference '%' (n ++ ":~0".toList)) = "yes".toList ∧
      e.expand table (reference '%' n) = "yes".toList := by
  intro e table n
  have hdistinct : table.Distinct := Variables.distinct_ofList _
  have hvalues : ∀ v ∈ table.entries, '%' ∉ v.value := by decide +kernel
  have hn : table.contains n = true := by decide +kernel
  have hsteady : Steady n := by decide
  have hget : table.get? n = some "yes".toList := by decide +kernel
  obtain ⟨hslice, -, hname⟩ := expand_lookups table hdistinct hvalues n (by decide) (by decide)
    (by decide) hn
  refine ⟨⟨hdistinct, hvalues, by decide, by decide, by decide, hn, hsteady⟩, ?_, ?_⟩
  · exact Option.some.inj (hslice.trans hget)
  · exact Option.some.inj ((hname hsteady).trans hget)

/-- **The two lookups do not always agree.**  A sigma that ends a word has the key of the final
one, but not its letter. -/
theorem expand_lookups_sigma :
    let e : Expansion := ⟨'%', true⟩
    let table := Variables.ofList [("aς".toList, "v".toList)]
    let n := "AΣ".toList
    ((∀ v ∈ table.entries, '%' ∉ v.value) ∧ n ≠ [] ∧ '%' ∉ n ∧ ':' ∉ n ∧
      table.contains n = true ∧ table.get? n = some "v".toList) ∧
    e.expand table (reference '%' (n ++ ":~0".toList)) = "v".toList ∧
      e.expand table (reference '%' n) = "%AΣ%".toList := by
  decide +kernel

end Expansion

end BatchTrace
