/-
The reference that is found at a sigil.

All names of a table compete for the text behind a sigil, and the longest one that fits wins.
Names that fit at the same place and are equally long have the same letters, so if they are
ASCII they have the same key.  In a table keys are distinct, hence no two names ever tie, and
the order of the table plays no part in what is found.  Lookups by key do not depend on it
either, so a text is expanded alike by tables that have the same variables.
-/
import BatchTrace.Proofs.Reference.Slices
import BatchTrace.Proofs.Variables.Keys

namespace BatchTrace

/-! ### Names with the same letters -/

namespace Text

/-- But for the capital sigma, a text is lower-cased character by character. -/
theorem lower_eq_flatten {t : Text} (h : 'Σ' ∉ t) : lower t = (t.map lowerChar).flatten := by
  have hfrom : ∀ before, lowerFrom before t = (t.map lowerChar).flatten := by
    induction t with
    | nil => exact fun _ => rfl
    | cons c t ih =>
      intro before
      rw [List.mem_cons, not_or] at h
      rw [lowerFrom, if_neg (Ne.symm h.1), ih h.2, List.map_cons, List.flatten_cons]
  exact hfrom []

namespace SameLetters

variable {s t u : Text}

theorem symm (h : SameLetters s t) : SameLetters t s :=
  Eq.symm h

theorem trans (h : SameLetters s t) (h' : SameLetters t u) : SameLetters s u :=
  Eq.trans h h'

theorem length_eq (h : SameLetters s t) : s.length = t.length := by
  simpa using congrArg List.length h

theorem lower_eq (h : SameLetters s t) (hs : 'Σ' ∉ s) (ht : 'Σ' ∉ t) : lower s = lower t := by
  rw [lower_eq_flatten hs, lower_eq_flatten ht]
  exact congrArg List.flatten h

end SameLetters

end Text

/-- Of the names with the same letters a table has only one, if its names are ASCII. -/
theorem Variables.Distinct.eq_of_sameLetters {table : Variables} (h : table.Distinct)
    (hascii : ∀ v ∈ table.entries, ∀ c ∈ v.name, c.toNat < 128) {v w : Variable}
    (hv : v ∈ table.entries) (hw : w ∈ table.entries) (hletters : Text.SameLetters v.name w.name) :
    v = w := by
  have hsigma : ∀ u ∈ table.entries, 'Σ' ∉ u.name := fun u hu hmem =>
    absurd (hascii u hu _ hmem) (by decide)
  exact h.eq_of_key_eq hv hw (hletters.lower_eq (hsigma v hv) (hsigma w hw))

namespace Expansion

open Text

variable {e : Expansion} {t after : Text} {v w : Variable} {vs : List Variable}

/-! ### The longest name -/

/-- The text behind a sigil begins with a reference to the variable, and `after` follows it. -/
structure Refers (e : Expansion) (t : Text) (v : Variable) (after : Text) : Prop where
  plain : e.isPlainName v.name = true
  found : e.afterName? v.name t = some after

theorem refers_iff :
    (if e.isPlainName v.name then e.afterName? v.name t else none) = some after ↔
      e.Refers t v after := by
  constructor
  · intro h
    split at h
    · exact ⟨‹_›, h⟩
    · simp at h
  · rintro ⟨hplain, hfound⟩
    rw [if_pos hplain, hfound]

theorem refers_of_longest? (h : e.longest? t vs = some (v, after)) :
    v ∈ vs ∧ e.Refers t v after := by
  induction vs generalizing v after with
  | nil => simp [longest?] at h
  | cons u vs ih =>
    have hlater : ∀ {w : Variable} {after : Text}, e.longest? t vs = some (w, after) →
        w ∈ u :: vs ∧ e.Refers t w after := fun hw =>
      ⟨List.mem_cons_of_mem u (ih hw).1, (ih hw).2⟩
    rw [longest?] at h
    split at h
    · exact hlater h
    · rename_i hhere _
      obtain ⟨rfl, rfl⟩ := Prod.mk.inj (Option.some.inj h)
      exact ⟨by simp, refers_iff.mp hhere⟩
    · rename_i hhere hw
      split at h
      · obtain ⟨rfl, rfl⟩ := Prod.mk.inj (Option.some.inj h)
        exact ⟨by simp, refers_iff.mp hhere⟩
      · obtain ⟨rfl, rfl⟩ := Prod.mk.inj (Option.some.inj h)
        exact hlater hw

/-- Where there is a reference, one at least as long is found. -/
theorem Refers.exists_longest? (h : e.Refers t v after) (hv : v ∈ vs) :
    ∃ w after', e.longest? t vs = some (w, after') ∧ v.name.length ≤ w.name.length := by
  induction vs with
  | nil => simp at hv
  | cons u vs ih =>
    rw [longest?]
    rcases List.mem_cons.mp hv with rfl | hv
    · rw [refers_iff.mpr h]
      rcases e.longest? t vs with _ | ⟨w, after'⟩
      · exact ⟨v, after, rfl, Nat.le_refl _⟩
      · dsimp only
        split
        · exact ⟨v, after, rfl, Nat.le_refl _⟩
        · exact ⟨w, after', rfl, by omega⟩
    · obtain ⟨w, after', hw, hle⟩ := ih hv
      rw [hw]
      rcases (if e.isPlainName u.name then e.afterName? u.name t else none) with _ | here
      · exact ⟨w, after', rfl, hle⟩
      · dsimp only
        split
        · exact ⟨u, here, rfl, by omega⟩
        · exact ⟨w, after', rfl, hle⟩

/-- A reference that no other one is as long as is the one that is found. -/
theorem Refers.longest?_eq (h : e.Refers t v after) (hv : v ∈ vs)
    (hmax : ∀ w ∈ vs, ∀ after', e.Refers t w after' → v.name.length ≤ w.name.length → w = v) :
    e.longest? t vs = some (v, after) := by
  obtain ⟨w, after', hw, hle⟩ := h.exists_longest? hv
  obtain ⟨hmem, hrefers⟩ := refers_of_longest? hw
  obtain rfl := hmax w hmem after' hrefers hle
  have hsame : some after' = some after := hrefers.found.symm.trans h.found
  rw [hw, Option.some.inj hsame]

/-- References of one length at one place are to names with the same letters. -/
theorem Refers.sameLetters {after' : Text} (h : e.Refers t v after) (h' : e.Refers t w after')
    (hlength : v.name.length = w.name.length) : SameLetters v.name w.name := by
  obtain ⟨found, hfound, hletters⟩ := afterName?_eq_some_iff.mp h.found
  obtain ⟨found', hfound', hletters'⟩ := afterName?_eq_some_iff.mp h'.found
  have hlengths : found.length = found'.length := by
    rw [hletters.length_eq, hlength, hletters'.length_eq]
  obtain ⟨rfl, -⟩ := List.append_inj (hfound.symm.trans hfound') hlengths
  exact hletters.symm.trans hletters'

/-! ### Tables in another order -/

section

variable {a b : Variables} (hdistinct : a.Distinct)
  (hascii : ∀ v ∈ a.entries, ∀ c ∈ v.name, c.toNat < 128) (hperm : a.entries.Perm b.entries)
include hdistinct hascii hperm

theorem longest?_eq_of_perm (t : Text) : e.longest? t a.entries = e.longest? t b.entries := by
  cases hlongest : e.longest? t a.entries with
  | none =>
    refine (longest?_eq_none fun v hv hplain => ?_).symm
    by_contra hsome
    obtain ⟨after, hafter⟩ := Option.ne_none_iff_exists'.mp hsome
    have hrefers : e.Refers t v after := ⟨hplain, hafter⟩
    obtain ⟨w, after', hw, -⟩ := hrefers.exists_longest? (hperm.mem_iff.mpr hv)
    rw [hlongest] at hw
    simp at hw
  | some found =>
    obtain ⟨v, after⟩ := found
    obtain ⟨hv, hrefers⟩ := refers_of_longest? hlongest
    refine (hrefers.longest?_eq (hperm.mem_iff.mp hv) fun w hw after' hrefers' hle => ?_).symm
    -- The other name is no longer either, for it is in the first table, too.
    have hw := hperm.mem_iff.mpr hw
    obtain ⟨u, after'', hu, hle'⟩ := hrefers'.exists_longest? hw
    obtain ⟨rfl, -⟩ := Prod.mk.inj (Option.some.inj (hlongest.symm.trans hu))
    have hletters := hrefers'.sameLetters hrefers (Nat.le_antisymm hle' hle)
    exact hdistinct.eq_of_sameLetters hascii hw hv hletters

theorem expandNames_eq_of_perm (t : Text) : e.expandNames a t = e.expandNames b t := by
  have hlongest : ∀ t, e.longest? t a.entries = e.longest? t b.entries :=
    longest?_eq_of_perm hdistinct hascii hperm
  fun_induction expandNames e a t with
  | case1 => rw [expandNames]
  | case2 rest v after h ih => rw [expandNames_sigil, ← hlongest, h, ih]
  | case3 rest h ih => rw [expandNames_sigil, ← hlongest, h, ih]
  | case4 c rest hc ih => rw [expandNames_of_ne hc, ih]

omit hascii in
theorem expandArguments_eq_of_perm (resolve? : Text → Text → Option Text) (t : Text) :
    e.expandArguments a resolve? t = e.expandArguments b resolve? t := by
  have hget : ∀ name, a.get? name = b.get? name := hdistinct.get?_eq_of_perm hperm
  fun_induction expandArguments e a resolve? t with
  | case1 => rw [expandArguments]
  | case2 rest name arguments after h value hv ih =>
    rw [expandArguments_sigil, h]
    simp only [← hget, hv, ih]
  | case3 rest name arguments after h hv ih =>
    rw [expandArguments_sigil, h]
    simp only [← hget, hv, ih]
  | case4 rest h ih => rw [expandArguments_sigil, h, ih]
  | case5 c rest hc ih => rw [expandArguments_of_ne hc, ih]

end

/--
**Equal tables expand alike.**  If two tables have the same variables, with ASCII names spelled
alike and the same values, then every text has the same expansion in both, whatever the order
in which the variables were first assigned.
-/
theorem expand_of_sameEntries (e : Expansion) (a b : Variables) (hdistinct : a.Distinct)
    (hascii : ∀ v ∈ a.entries, ∀ c ∈ v.name, c.toNat < 128) (h : a.sameEntries b = true)
    (t : Text) : e.expand a t = e.expand b t := by
  have hperm := hdistinct.perm_of_sameEntries h
  simp only [expand, expandNames_eq_of_perm hdistinct hascii hperm,
    expandArguments_eq_of_perm hdistinct hperm]

/-- Three names fit at the first sigil, and none of them stands at the same place in both
tables. -/
theorem expand_of_sameEntries_overlapping :
    let e : Expansion := ⟨'%', true⟩
    let a := Variables.ofList [("A".toList, "1".toList), ("a%b".toList, "2".toList),
      ("a%b%".toList, "%A".toList)]
    let b := Variables.ofList [("a%b%".toList, "%A".toList), ("A".toList, "1".toList),
      ("a%b".toList, "2".toList)]
    (a.Distinct ∧ (∀ v ∈ a.entries, ∀ c ∈ v.name, c.toNat < 128) ∧ a.sameEntries b = true) ∧
    e.expand a "%a%B%%A:~0%".toList = e.expand b "%a%B%%A:~0%".toList := by
  intro e a b
  have hdistinct : a.Distinct := Variables.distinct_ofList _
  have hall : a.entries.all (fun v => v.name.all fun c => c.toNat < 128) = true := by
    decide +kernel
  have hascii : ∀ v ∈ a.entries, ∀ c ∈ v.name, c.toNat < 128 := by
    simpa only [List.all_eq_true, decide_eq_true_eq] using hall
  have hsame : a.sameEntries b = true := by decide +kernel
  exact ⟨⟨hdistinct, hascii, hsame⟩, expand_of_sameEntries e a b hdistinct hascii hsame _⟩

end Expansion

end BatchTrace
