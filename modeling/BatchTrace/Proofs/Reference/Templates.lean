/-
Texts with references as templates.

Where no name and no value of a table has a sigil in it, the sigils of a text pair up as they
are written: a name that fits behind the first sigil reaches just to the next one, so it is the
name between the two, and of all names with these letters a table has only one.  The pass over
names therefore goes from reference to reference, and what it leaves has no sigils for the
passes that follow.
-/
import BatchTrace.Proofs.Reference.Matching

namespace BatchTrace

open Text

/-- A table with names of ASCII characters, none of them empty, and with no sigil in a name or in
a value.  Assignments keep its keys distinct. -/
structure Variables.Quiet (sigil : Char) (table : Variables) : Prop where
  distinct : table.Distinct
  named : ∀ v ∈ table.entries, v.name ≠ []
  ascii : ∀ v ∈ table.entries, ∀ c ∈ v.name, c.toNat < 128
  names : ∀ v ∈ table.entries, sigil ∉ v.name
  values : ∀ v ∈ table.entries, sigil ∉ v.value

/-- References to variables by name alone, each with the text that follows it. -/
abbrev Template := List (Text × Text)

namespace Template

/-- The template as it is written. -/
def written (sigil : Char) (parts : Template) : Text :=
  parts.flatMap fun p => reference sigil p.1 ++ p.2

/-- The template with the values of the variables in their places. -/
def value (table : Variables) (parts : Template) : Text :=
  parts.flatMap fun p => (table.get? p.1).getD [] ++ p.2

/-- Every reference is to a variable of the table, but for the case of ASCII letters, and to one
that can be referred to by name alone; the texts between the references have no sigil. -/
def Defined (e : Expansion) (table : Variables) (parts : Template) : Prop :=
  ∀ p ∈ parts, e.sigil ∉ p.2 ∧ ∃ v ∈ table.entries, sameAscii p.1 v.name = true ∧
    (e.extensions = true → Expansion.hasInnerColon v.name = false)

instance (e : Expansion) (table : Variables) (parts : Template) :
    Decidable (parts.Defined e table) :=
  inferInstanceAs (Decidable (∀ p ∈ parts, _))

theorem written_cons (sigil : Char) (m l : Text) (parts : Template) :
    written sigil ((m, l) :: parts) = sigil :: (m ++ sigil :: (l ++ written sigil parts)) := by
  simp [written, reference]

end Template

theorem Text.SameLetters.of_sameAscii {s t : Text} (h : sameAscii s t = true) :
    SameLetters s t := by
  have hlower : ∀ r : Text, r.map lowerChar = (asciiLower r).map lowerChar := by
    intro r
    rw [asciiLower, List.map_map]
    exact List.map_congr_left fun c _ => (caseBlind_lowerChar c).symm
  rw [SameLetters, hlower s, hlower t, sameAscii_iff.mp h]

namespace Expansion

variable {e : Expansion} {table : Variables} {v : Variable} {m : Text} {parts : Template}
  (hquiet : table.Quiet e.sigil)
include hquiet

/-! ### One reference -/

section

variable (hv : v ∈ table.entries) (hm : sameAscii m v.name = true)
include hv hm

theorem get?_of_sameAscii : table.get? m = some v.value := by
  refine hquiet.distinct.get?_of_mem hv ?_
  rw [← lower_asciiLower m, sameAscii_iff.mp hm, lower_asciiLower]
  rfl

variable (hsigil : e.sigil = '%' ∨ e.sigil = '!')
include hsigil

theorem sigil_not_mem_of_sameAscii : e.sigil ∉ m := fun hmem =>
  hquiet.names v hv ((SameLetters.of_sameAscii hm).mem_of_mem (isMark_sigil hsigil) hmem)

theorem longest?_of_sameAscii (hcolon : e.extensions = true → hasInnerColon v.name = false)
    (t : Text) : e.longest? (m ++ e.sigil :: t) table.entries = some (v, t) := by
  have hletters := SameLetters.of_sameAscii hm
  have hplain : e.isPlainName v.name = true := by
    cases hext : e.extensions with
    | false => simp [isPlainName, hext, hquiet.named v hv]
    | true => simp [isPlainName, hcolon hext, hquiet.named v hv]
  have hrefers : e.Refers (m ++ e.sigil :: t) v t :=
    ⟨hplain, afterName?_eq_some_iff.mpr ⟨m, rfl, hletters⟩⟩
  refine hrefers.longest?_eq hv fun w hw after hother _ => ?_
  have hother : SameLetters m w.name :=
    sameLetters_of_afterName? (isMark_sigil hsigil) (hquiet.names w hw)
      (sigil_not_mem_of_sameAscii hquiet hv hm hsigil) hother.found
  exact hquiet.distinct.eq_of_sameLetters hquiet.ascii hw hv (hother.symm.trans hletters)

end

/-! ### The whole template -/

section

variable (h : parts.Defined e table)
include h

theorem isSome_get?_of_defined {p : Text × Text} (hp : p ∈ parts) :
    (table.get? p.1).isSome = true := by
  obtain ⟨-, v, hv, hm, -⟩ := h p hp
  rw [get?_of_sameAscii hquiet hv hm]
  rfl

theorem sigil_not_mem_value : e.sigil ∉ parts.value table := by
  intro hmem
  obtain ⟨p, hp, hmem⟩ := List.mem_flatMap.mp hmem
  obtain ⟨hfree, v, hv, hm, -⟩ := h p hp
  rw [get?_of_sameAscii hquiet hv hm] at hmem
  rcases List.mem_append.mp hmem with hmem | hmem
  · exact hquiet.values v hv hmem
  · exact hfree hmem

theorem expandNames_template (hsigil : e.sigil = '%' ∨ e.sigil = '!') :
    e.expandNames table (parts.written e.sigil) = parts.value table := by
  induction parts with
  | nil => simp [Template.written, Template.value, expandNames]
  | cons p parts ih =>
    obtain ⟨m, l⟩ := p
    obtain ⟨hfree, v, hv, hm, hcolon⟩ := h (m, l) (by simp)
    rw [Template.written_cons, expandNames_sigil,
      longest?_of_sameAscii hquiet hv hm hsigil hcolon]
    dsimp only
    rw [expandNames_append table hfree, ih fun q hq => h q (by simp [hq])]
    simp [Template.value, get?_of_sameAscii hquiet hv hm]

end

omit hquiet

/--
**References by name alone expand as a template.**  Each reference to a variable, written in
any case, is replaced by the variable's value, and the texts between the references are kept,
however many there are and however the names overlap.  It makes no difference whether there are
extensions, but that with them a name may not have a colon inside.
-/
theorem expand_template (e : Expansion) (hsigil : e.sigil = '%' ∨ e.sigil = '!')
    (table : Variables) (hquiet : table.Quiet e.sigil) (before : Text)
    (hbefore : e.sigil ∉ before) (parts : Template) (h : parts.Defined e table) :
    (∀ p ∈ parts, (table.get? p.1).isSome = true) ∧
      e.expand table (before ++ parts.written e.sigil) = before ++ parts.value table := by
  refine ⟨fun p hp => isSome_get?_of_defined hquiet h hp, ?_⟩
  have hnames := expandNames_template hquiet h hsigil
  have hfree := sigil_not_mem_value hquiet h
  rw [expand_append table hbefore, expand_eq_expandNames_of_sigil _ _ (by rwa [hnames]), hnames]

/-- The names begin alike, one ends with a colon and one has a space in it; the text between
the references is the name of a variable, too. -/
theorem expand_template_overlapping :
    let e : Expansion := ⟨'%', true⟩
    let table := Variables.ofList [("a".toList, "1".toList), ("A b".toList, ":~0".toList),
      ("a:".toList, "".toList)]
    let parts : Template :=
      [("A B".toList, "a".toList), ("A:".toList, []), ("a".toList, "!".toList)]
    ((e.sigil = '%' ∨ e.sigil = '!') ∧ table.Quiet e.sigil ∧ e.sigil ∉ "x:".toList ∧
      parts.Defined e table) ∧
    e.expand table "x:%A B%a%A:%%a%!".toList = "x::~0a1!".toList := by
  intro e table parts
  have hascii : table.entries.all (fun v => v.name.all fun c => c.toNat < 128) = true := by
    decide +kernel
  have hquiet : table.Quiet e.sigil :=
    { distinct := Variables.distinct_ofList _
      named := by decide +kernel
      ascii := by simpa only [List.all_eq_true, decide_eq_true_eq] using hascii
      names := by decide +kernel
      values := by decide +kernel }
  have hbefore : e.sigil ∉ "x:".toList := by decide
  have hparts : parts.Defined e table := by decide +kernel
  have hwritten : "x:%A B%a%A:%%a%!".toList = "x:".toList ++ parts.written e.sigil := by decide
  have hvalue : "x::~0a1!".toList = "x:".toList ++ parts.value table := by decide +kernel
  refine ⟨⟨Or.inl rfl, hquiet, hbefore, hparts⟩, ?_⟩
  rw [hwritten, hvalue]
  exact (expand_template e (Or.inl rfl) table hquiet "x:".toList hbefore parts hparts).2

end Expansion

end BatchTrace
