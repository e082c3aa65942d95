/-
Slices one after the other.

The three passes of expansion share the sigils of a text: the second sigil of a reference
that a pass leaves alone may open another one.  In a chain of slices this never happens.  The
text between two references is no name, and a slice is neither a name nor a replacement, so
the first two passes leave the whole chain as it is.  The third goes on after the second sigil
of each slice and never looks at what it has put in, so the values may hold sigils of their
own.
-/
import BatchTrace.Proofs.Reference.Indices
import BatchTrace.Proofs.Reference.Sigils

namespace BatchTrace

/-! ### Marks and letter case -/

/-- An ASCII character before the letters: as good as any sigil or colon. -/
def IsMark (c : Char) : Prop :=
  0 < c.toNat ∧ c.toNat < 65

namespace Text

theorem isAlpha_of_isMark {d : Char} (hd : IsMark d) : d.isAlpha = false := by
  have hascii := forall_ascii (p := fun c => 65 ≤ c.toNat || !c.isAlpha) (by decide +kernel)
    (c := d) (by have := hd.2; omega)
  simpa [Nat.not_le.mpr hd.2] using hascii

/-- Every lower-case form outside ASCII comes after the marks. -/
theorem mark_lt_of_holds {r : CaseRange} (hr : r ∈ lowerRanges) {n : Nat}
    (h : r.holds n = true) : 65 ≤ (n + r.shift).toNat := by
  have htable : lowerRanges.all (fun r => decide (65 ≤ (r.first : Int) + r.shift)) = true := by
    decide +kernel
  have hfirst := of_decide_eq_true (List.all_eq_true.mp htable r hr)
  simp only [CaseRange.holds, Bool.and_eq_true, decide_eq_true_eq] at h
  omega

theorem toNat_ofNat (n : Nat) : (Char.ofNat n).toNat = n ∨ (Char.ofNat n).toNat = 0 := by
  by_cases hn : n.isValidChar
  · left
    rw [show Char.ofNat n = Char.ofNatAux n hn from dif_pos hn]
    rfl
  · right
    rw [show Char.ofNat n = '\x00' from dif_neg hn]
    rfl

/-- No other character has a mark for its lower-case form. -/
theorem eq_of_lowerChar {c d : Char} (hd : IsMark d) (h : lowerChar c = [d]) : c = d := by
  unfold lowerChar at h
  split at h
  · exact (toLower_eq_iff (isAlpha_of_isMark hd)).mp (List.cons.inj h).1
  split at h
  · simp at h
  split at h
  · rename_i r hfind
    have hholds := mark_lt_of_holds (List.mem_of_find?_eq_some hfind) (n := c.toNat)
      (by simpa using List.find?_some hfind)
    have hlow := hd.1
    have hhigh := hd.2
    rw [← (List.cons.inj h).1] at hlow hhigh
    rcases toNat_ofNat (c.toNat + r.shift).toNat with hnat | hnat <;> omega
  · exact (List.cons.inj h).1

theorem lowerChar_of_isMark {d : Char} (hd : IsMark d) : lowerChar d = [d] := by
  rw [lowerChar_of_ascii (by have := hd.2; omega),
    (toLower_eq_iff (isAlpha_of_isMark hd)).mpr rfl]

namespace SameLetters

variable {s t : Text}

theorem mem_of_mem {d : Char} (h : SameLetters s t) (hd : IsMark d) (hs : d ∈ s) : d ∈ t := by
  have hmem := List.mem_map_of_mem (f := lowerChar) hs
  rw [show s.map lowerChar = t.map lowerChar from h, lowerChar_of_isMark hd] at hmem
  obtain ⟨c, hc, hlower⟩ := List.mem_map.mp hmem
  rwa [← eq_of_lowerChar hd hlower]

/-- A mark inside the one text is a mark inside the other. -/
theorem exists_append {a b : Text} {d : Char} (hd : IsMark d)
    (h : SameLetters (a ++ d :: b) t) :
    ∃ a' b', t = a' ++ d :: b' ∧ a'.length = a.length ∧ b'.length = b.length := by
  have hmap : t.map lowerChar = a.map lowerChar ++ [d] :: b.map lowerChar := by
    rw [← lowerChar_of_isMark hd, ← List.map_cons, ← List.map_append]
    exact h.symm
  obtain ⟨a', rest, rfl, ha, hrest⟩ := List.map_eq_append_iff.mp hmap
  obtain ⟨c, b', rfl, hc, hb⟩ := List.map_eq_cons_iff.mp hrest
  refine ⟨a', b', by rw [eq_of_lowerChar hd hc], ?_, ?_⟩
  · simpa using congrArg List.length ha
  · simpa using congrArg List.length hb

end SameLetters

end Text

namespace Expansion

open Text

variable {e : Expansion} {table : Variables}

/-! ### The pass over plain names -/

/-- A name is found where its letters stand, with a sigil behind them. -/
theorem afterName?_eq_some_iff {name t after : Text} :
    e.afterName? name t = some after ↔
      ∃ found, t = found ++ e.sigil :: after ∧ SameLetters found name := by
  constructor
  · intro h
    unfold afterName? at h
    split at h
    · rename_i c rest hsame
      split at h
      · rename_i hc
        obtain rfl : rest = after := by simpa using h
        rw [hc] at hsame
        exact exists_of_afterSame?_eq_some hsame
      · simp at h
    · simp at h
  · rintro ⟨found, rfl, hletters⟩
    rw [afterName?, afterSame?_of_sameLetters hletters]
    exact if_pos rfl

section

variable (hsigil : IsMark e.sigil) {name : Text} (hname : e.sigil ∉ name)
include hsigil hname

/-- A name without sigils reaches just to the next sigil. -/
theorem sameLetters_of_afterName? {a b after : Text} (ha : e.sigil ∉ a)
    (h : e.afterName? name (a ++ e.sigil :: b) = some after) : SameLetters a name := by
  obtain ⟨found, hfound, hletters⟩ := afterName?_eq_some_iff.mp h
  have hfree : e.sigil ∉ found := fun hmem => hname (hletters.mem_of_mem hsigil hmem)
  have hsplit : ∀ {s t : Text}, e.sigil ∉ s →
      splitFirst (· = e.sigil) (s ++ e.sigil :: t) = some (s, t) := fun hs =>
    splitFirst_append (fun d hd => by simpa using ne_of_mem_of_not_mem hd hs) (by simp)
  have hsame := hsplit (t := b) ha
  rw [hfound, hsplit hfree, Option.some.injEq, Prod.mk.injEq] at hsame
  rwa [← hsame.1]

omit hsigil hname in
theorem afterName?_of_not_mem (name : Text) {t : Text} (ht : e.sigil ∉ t) :
    e.afterName? name t = none := by
  refine Option.eq_none_iff_forall_ne_some.mpr fun after hafter => ?_
  obtain ⟨found, rfl, -⟩ := afterName?_eq_some_iff.mp hafter
  simp at ht

end

theorem hasInnerColon_of_sameLetters {n args name : Text} (hn : n ≠ []) (hargs : args ≠ [])
    (h : SameLetters (n ++ ':' :: args) name) : hasInnerColon name = true := by
  obtain ⟨a, b, rfl, ha, hb⟩ := h.exists_append (by simp [IsMark])
  cases a with
  | nil => exact absurd (List.length_eq_zero_iff.mp ha.symm) hn
  | cons c a =>
    have hbne : b ≠ [] := by
      rintro rfl
      exact hargs (List.length_eq_zero_iff.mp hb.symm)
    rw [List.cons_append, hasInnerColon, List.dropLast_append_of_ne_nil (by simp),
      List.dropLast_cons_of_ne_nil hbne]
    simp

end Expansion

/-! ### Chains of slices -/

/-- A reference to a part of a value: where it starts and, after a comma, how long it is. -/
structure SliceReference where
  name : Text
  start : Text
  length : Option Text
deriving DecidableEq, Repr

namespace SliceReference

/-- What stands between the tilde and the second sigil. -/
def arguments (r : SliceReference) : Text :=
  r.start ++ (r.length.map (',' :: ·)).getD []

/-- The reference as it is written. -/
def written (sigil : Char) (r : SliceReference) : Text :=
  sigil :: (r.name ++ ':' :: '~' :: (r.arguments ++ [sigil]))

/-- What the reference stands for. -/
def value (table : Variables) (r : SliceReference) : Text :=
  Slice.slice ((table.get? r.name).getD []) (Slice.readIndex r.start)
    (r.length.map Slice.readIndex)

/-- The reference is to a variable of the table, and its start and its length are there. -/
@[mk_iff]
structure Proper (sigil : Char) (table : Variables) (r : SliceReference) : Prop where
  named : r.name ≠ []
  bare : sigil ∉ r.name ∧ ':' ∉ r.name
  defined : (table.get? r.name).isSome = true
  closed : sigil ∉ r.arguments
  comma : ',' ∉ r.start
  start : Text.trim r.start ≠ []
  length : ∀ l ∈ r.length, Text.trim l ≠ []

instance (sigil : Char) (table : Variables) (r : SliceReference) :
    Decidable (r.Proper sigil table) :=
  decidable_of_iff _ (proper_iff sigil table r).symm

end SliceReference

/-- References, each with the text that follows it. -/
abbrev SliceChain := List (SliceReference × Text)

namespace SliceChain

/-- The chain as it is written. -/
def written (sigil : Char) (parts : SliceChain) : Text :=
  parts.flatMap fun p => p.1.written sigil ++ p.2

/-- What the chain stands for. -/
def value (table : Variables) (parts : SliceChain) : Text :=
  parts.flatMap fun p => p.1.value table ++ p.2

/-- Every reference is a proper one, and no text between two of them could be taken for a name
or for a part of a reference. -/
def Proper (sigil : Char) (table : Variables) (parts : SliceChain) : Prop :=
  ∀ p ∈ parts, p.1.Proper sigil table ∧ sigil ∉ p.2 ∧ ':' ∉ p.2 ∧
    ∀ v ∈ table.entries, ¬ Text.SameLetters p.2 v.name

instance (sigil : Char) (table : Variables) (parts : SliceChain) :
    Decidable (parts.Proper sigil table) :=
  inferInstanceAs (Decidable (∀ p ∈ parts, _))

theorem written_cons (sigil : Char) (r : SliceReference) (l : Text) (parts : SliceChain) :
    written sigil ((r, l) :: parts) =
      sigil :: ((r.name ++ ':' :: '~' :: r.arguments) ++ sigil :: (l ++ written sigil parts)) := by
  simp [written, SliceReference.written]

end SliceChain

namespace Expansion

open Text SliceChain

variable {e : Expansion} {table : Variables} {r : SliceReference} {parts : SliceChain} {l : Text}

section

variable (hsigil : e.sigil = '%' ∨ e.sigil = '!')
include hsigil

theorem isMark_sigil : IsMark e.sigil := by
  rcases hsigil with hs | hs <;> simp [IsMark, hs]

theorem not_mem_slice (hr : r.Proper e.sigil table) :
    e.sigil ∉ r.name ++ ':' :: '~' :: r.arguments := by
  have hother : e.sigil ≠ ':' ∧ e.sigil ≠ '~' := by rcases hsigil with hs | hs <;> simp [hs]
  simp [hr.bare.1, hr.closed, hother]

/-! ### The chain in the pass over names -/

section

variable (hnames : ∀ v ∈ table.entries, e.sigil ∉ v.name)
include hnames

/-- A variable called like a slice has a colon inside its name. -/
theorem longest?_slice (hext : e.extensions = true) (hr : r.Proper e.sigil table) (t : Text) :
    e.longest? ((r.name ++ ':' :: '~' :: r.arguments) ++ e.sigil :: t) table.entries = none := by
  refine longest?_eq_none fun v hv hplain => ?_
  cases hafter : e.afterName? v.name ((r.name ++ ':' :: '~' :: r.arguments) ++ e.sigil :: t) with
  | none => rfl
  | some after =>
    have hletters := sameLetters_of_afterName? (isMark_sigil hsigil) (hnames v hv)
      (not_mem_slice hsigil hr) hafter
    have hinner := hasInnerColon_of_sameLetters hr.named (by simp) hletters
    simp [isPlainName, hext, hinner] at hplain

theorem longest?_between (hfree : e.sigil ∉ l)
    (hl : ∀ v ∈ table.entries, ¬ SameLetters l v.name) :
    e.longest? (l ++ parts.written e.sigil) table.entries = none := by
  refine longest?_eq_none fun v hv _ => ?_
  cases parts with
  | nil => exact afterName?_of_not_mem v.name (by simpa [SliceChain.written] using hfree)
  | cons p parts =>
    obtain ⟨r, l'⟩ := p
    rw [written_cons]
    cases hafter : e.afterName? v.name (l ++ e.sigil :: _) with
    | none => rfl
    | some after =>
      have hletters := sameLetters_of_afterName? (isMark_sigil hsigil) (hnames v hv) hfree hafter
      exact absurd hletters (hl v hv)

omit hsigil hnames in
theorem expandNames_between (hfree : e.sigil ∉ l) {t : Text}
    (h : e.longest? (l ++ t) table.entries = none) :
    e.expandNames table (e.sigil :: (l ++ t)) = e.sigil :: (l ++ e.expandNames table t) := by
  rw [expandNames_sigil, h]
  dsimp only
  rw [expandNames_append table hfree]

theorem expandNames_slices (hext : e.extensions = true) (h : parts.Proper e.sigil table) :
    e.expandNames table (parts.written e.sigil) = parts.written e.sigil := by
  induction parts with
  | nil => simp [SliceChain.written, expandNames]
  | cons p parts ih =>
    obtain ⟨r, l⟩ := p
    obtain ⟨hr, hfree, -, hl⟩ := h (r, l) (by simp)
    rw [written_cons, expandNames_between (not_mem_slice hsigil hr)
      (longest?_slice hsigil hnames hext hr _),
      expandNames_between hfree (longest?_between hsigil hnames hfree hl),
      ih fun q hq => h q (by simp [hq])]

end

/-! ### The chain in the passes over arguments -/

theorem withArguments?_slice (hr : r.Proper e.sigil table) (t : Text) :
    e.withArguments? ((r.name ++ ':' :: '~' :: r.arguments) ++ e.sigil :: t) =
      some (r.name, '~' :: r.arguments, t) := by
  have hcolon : splitFirst (· = ':') (r.name ++ ':' :: ('~' :: r.arguments ++ e.sigil :: t)) =
      some (r.name, '~' :: r.arguments ++ e.sigil :: t) :=
    splitFirst_append (fun d hd => by simpa using ne_of_mem_of_not_mem hd hr.bare.2) (by simp)
  have hend : splitFirst (· = e.sigil) ('~' :: r.arguments ++ e.sigil :: t) =
      some ('~' :: r.arguments, t) := by
    refine splitFirst_append (fun d hd => ?_) (by simp)
    have hfree : e.sigil ∉ '~' :: r.arguments := fun hmem =>
      not_mem_slice hsigil hr (by simp_all)
    simpa using ne_of_mem_of_not_mem hd hfree
  rw [List.append_assoc, List.cons_append, withArguments?, hcolon]
  dsimp only
  rw [if_neg (by simp [hr.named, hr.bare.1]), hend]
  rfl

/-- Between two references the next colon comes after the next sigil. -/
theorem withArguments?_between (hl : ':' ∉ l) (h : parts.Proper e.sigil table) :
    e.withArguments? (l ++ parts.written e.sigil) = none := by
  cases parts with
  | nil =>
    rw [withArguments?, splitFirst_eq_none_iff.mpr]
    intro d hd
    simpa using ne_of_mem_of_not_mem (by simpa [SliceChain.written] using hd) hl
  | cons p parts =>
    obtain ⟨r, l'⟩ := p
    obtain ⟨hr, -⟩ := h (r, l') (by simp)
    have hcolon : ':' ∉ l ++ e.sigil :: r.name := by
      have hother : ':' ≠ e.sigil := by rcases hsigil with hs | hs <;> simp [hs]
      simp [hl, hr.bare.2, hother]
    have hsplit : l ++ SliceChain.written e.sigil ((r, l') :: parts) = (l ++ e.sigil :: r.name) ++
        ':' :: ('~' :: r.arguments ++ e.sigil :: (l' ++ SliceChain.written e.sigil parts)) := by
      simp [written_cons]
    rw [withArguments?, hsplit,
      splitFirst_append (fun d hd => by simpa using ne_of_mem_of_not_mem hd hcolon) (by simp)]
    dsimp only
    rw [if_pos (by simp)]

omit hsigil in
theorem expandArguments_between {resolve? : Text → Text → Option Text} (hfree : e.sigil ∉ l)
    {t : Text} (h : e.withArguments? (l ++ t) = none) :
    e.expandArguments table resolve? (e.sigil :: (l ++ t)) =
      e.sigil :: (l ++ e.expandArguments table resolve? t) := by
  rw [expandArguments_sigil, h]
  dsimp only
  rw [expandArguments_append table hfree]

/-- A slice is not a replacement. -/
theorem expandArguments_replacements (h : parts.Proper e.sigil table) :
    e.expandArguments table Replacement.resolve? (parts.written e.sigil) =
      parts.written e.sigil := by
  induction parts with
  | nil => simp [SliceChain.written, expandArguments]
  | cons p parts ih =>
    obtain ⟨r, l⟩ := p
    obtain ⟨hr, hfree, hl, -⟩ := h (r, l) (by simp)
    have hrest : SliceChain.Proper e.sigil table parts := fun q hq => h q (by simp [hq])
    have hnone : ((table.get? r.name).bind fun value =>
        Replacement.resolve? value ('~' :: r.arguments)) = none := by
      cases table.get? r.name <;> rfl
    rw [written_cons, expandArguments_sigil, withArguments?_slice hsigil hr]
    dsimp only
    rw [hnone]
    dsimp only
    rw [expandArguments_append table (not_mem_slice hsigil hr),
      expandArguments_between hfree (withArguments?_between hsigil hl hrest), ih hrest]

omit hsigil in
theorem resolve?_slice (hr : r.Proper e.sigil table) :
    ((table.get? r.name).bind fun value => Slice.resolve? value ('~' :: r.arguments)) =
      some (r.value table) := by
  obtain ⟨value, hvalue⟩ := Option.isSome_iff_exists.mp hr.defined
  rw [hvalue, SliceReference.value, hvalue]
  exact Slice.resolve?_of_written ⟨rfl, hr.comma, hr.start, hr.length⟩ value

theorem expandArguments_slices (h : parts.Proper e.sigil table) :
    e.expandArguments table Slice.resolve? (parts.written e.sigil) = parts.value table := by
  induction parts with
  | nil => simp [SliceChain.written, SliceChain.value, expandArguments]
  | cons p parts ih =>
    obtain ⟨r, l⟩ := p
    obtain ⟨hr, hfree, -⟩ := h (r, l) (by simp)
    rw [written_cons, expandArguments_sigil, withArguments?_slice hsigil hr]
    dsimp only
    rw [resolve?_slice hr]
    dsimp only
    rw [expandArguments_append table hfree, ih fun q hq => h q (by simp [hq])]
    simp [SliceChain.value]

end

/--
**A chain of slices is expanded slice by slice.**  Whatever the values are, each reference stands
for the slice of its variable's value, and the texts around the references are kept.  For this
the texts between them must not be names of variables, and no name may hold a sigil.
-/
theorem expand_slices (e : Expansion) (hext : e.extensions = true)
    (hsigil : e.sigil = '%' ∨ e.sigil = '!') (table : Variables)
    (hnames : ∀ v ∈ table.entries, e.sigil ∉ v.name) (before : Text)
    (hbefore : e.sigil ∉ before) (parts : SliceChain) (h : parts.Proper e.sigil table) :
    e.expand table (before ++ parts.written e.sigil) = before ++ parts.value table := by
  rw [expand_append table hbefore, expand, if_pos hext,
    expandNames_slices hsigil hnames hext h,
    expandArguments_replacements hsigil h, expandArguments_slices hsigil h]

/-- The value holds sigils and a colon, a variable is called like a slice, and the first two
references have nothing between them. -/
theorem expand_slices_adjacent :
    let e : Expansion := ⟨'%', true⟩
    let table := Variables.ofList [("x".toList, "%y:~0%".toList), ("x:~1,3".toList, "z".toList)]
    let parts : SliceChain := [(⟨"X".toList, "1".toList, some "3".toList⟩, []),
      (⟨"x".toList, " -0x2".toList, none⟩, "!".toList)]
    (e.extensions = true ∧ (e.sigil = '%' ∨ e.sigil = '!') ∧
      (∀ v ∈ table.entries, e.sigil ∉ v.name) ∧ e.sigil ∉ "a:".toList ∧
      parts.Proper e.sigil table) ∧
    e.expand table "a:%X:~1,3%%x:~ -0x2%!".toList = "a:y:~0%!".toList := by
  intro e table parts
  have hnames : ∀ v ∈ table.entries, e.sigil ∉ v.name := by decide +kernel
  have hbefore : e.sigil ∉ "a:".toList := by decide
  have hparts : parts.Proper e.sigil table := by decide +kernel
  have hwritten : "a:%X:~1,3%%x:~ -0x2%!".toList = "a:".toList ++ parts.written e.sigil := by
    decide
  have hvalue : "a:y:~0%!".toList = "a:".toList ++ parts.value table := by decide +kernel
  refine ⟨⟨rfl, Or.inl rfl, hnames, hbefore, hparts⟩, ?_⟩
  rw [hwritten, hvalue]
  exact expand_slices e rfl (Or.inl rfl) table hnames "a:".toList hbefore parts hparts

end Expansion

end BatchTrace
