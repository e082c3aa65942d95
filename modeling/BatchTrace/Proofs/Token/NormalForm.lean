/-
What cleaning leaves behind.

Every pass has a normal form, which says what its results look like, and each pass
comes with three facts: its results are in its normal form, it changes nothing that
is in its normal form, and it keeps the normal forms of the passes before it.

The last of these is what the order of the passes is for.  Once a pass has run, no
later one can bring back what it has removed, so the result of a cleaning is in the
normal forms of all passes that were chosen, and cleaning it again changes nothing.
-/
import BatchTrace.Proofs.Token.Widening

namespace BatchTrace

namespace Token

/-! ### Carets -/

/-- No token is a caret or the character after one. -/
def Unescaped (ts : List Token) : Prop :=
  ∀ t ∈ ts, t.kind ≠ .escape ∧ t.kind ≠ .escapedLiteral

theorem unescaped_applyEscapes (ts : List Token) : Unescaped (applyEscapes ts) := by
  intro t ht
  obtain ⟨u, hu, rfl⟩ := List.mem_map.mp ht
  have hescape : u.kind ≠ .escape := by simpa using (List.mem_filter.mp hu).2
  split
  · exact ⟨by simp [withKind], by simp [withKind]⟩
  · rename_i hliteral
    exact ⟨hescape, hliteral⟩

theorem applyEscapes_of_unescaped {ts : List Token} (h : Unescaped ts) : applyEscapes ts = ts := by
  have hfilter : ts.filter (·.kind ≠ .escape) = ts := by
    rw [List.filter_eq_self]
    intro t ht
    simpa using (h t ht).1
  rw [applyEscapes, hfilter]
  refine (List.map_congr_left ?_).trans (List.map_id ts)
  intro t ht
  exact if_neg (h t ht).2

theorem Unescaped.map {f : Token → Token} (hf : ∀ t, (f t).kind = t.kind) {ts : List Token}
    (h : Unescaped ts) : Unescaped (ts.map f) := by
  intro t ht
  obtain ⟨u, hu, rfl⟩ := List.mem_map.mp ht
  rw [hf]
  exact h u hu

/-! ### Empty strings -/

theorem stripEmptyFrom_sublist (kept ts : List Token) :
    (stripEmptyFrom kept ts).Sublist (kept.reverse ++ ts) := by
  fun_induction stripEmptyFrom kept ts with
  | case1 kept => simp
  | case2 u rest last before hpair ih =>
      refine ih.trans ?_
      rw [List.reverse_cons, List.append_assoc]
      exact (List.Sublist.refl _).append (List.sublist_append_right [last, u] rest)
  | case3 u rest last before hpair ih => simpa using ih
  | case4 u rest ih => simpa using ih

theorem stripEmptyStrings_sublist (ts : List Token) : (stripEmptyStrings ts).Sublist ts :=
  stripEmptyFrom_sublist [] ts

/-- The tokens kept so far never hold an empty string: one that would arise is taken away with the
closing quote that makes it. -/
theorem apart_stripEmptyFrom {kept : List Token} (h : Apart Kind.EmptyPair kept.reverse)
    (ts : List Token) : Apart Kind.EmptyPair (stripEmptyFrom kept ts) := by
  fun_induction stripEmptyFrom kept ts with
  | case1 kept => exact h
  | case2 u rest last before hpair ih =>
      rw [List.reverse_cons] at h
      exact ih (List.IsChain.left_of_append h)
  | case3 u rest last before hpair ih =>
      refine ih ?_
      rw [List.reverse_cons]
      refine List.IsChain.append h (List.isChain_singleton u) ?_
      intro x hx y hy hempty
      have hx' : last = x := by simpa using hx
      have hy' : u = y := by simpa using hy
      subst hx' hy'
      exact hpair ⟨hempty.2, hempty.1⟩
  | case4 u rest ih => exact ih (List.isChain_singleton u)

theorem stripEmptyFrom_of_apart {kept ts : List Token}
    (h : Apart Kind.EmptyPair (kept.reverse ++ ts)) :
    stripEmptyFrom kept ts = kept.reverse ++ ts := by
  fun_induction stripEmptyFrom kept ts with
  | case1 kept => rw [List.append_nil]
  | case2 u rest last before hpair ih =>
      rw [List.reverse_cons, List.append_assoc] at h
      obtain ⟨hbad, -⟩ := List.isChain_cons_cons.mp (List.IsChain.right_of_append h)
      exact absurd ⟨hpair.2, hpair.1⟩ hbad
  | case3 u rest last before hpair ih =>
      rw [ih (by simpa using h)]
      simp
  | case4 u rest ih =>
      rw [ih (by simpa using h)]
      simp

theorem apart_stripEmptyStrings (ts : List Token) :
    Apart Kind.EmptyPair (stripEmptyStrings ts) := by
  refine apart_stripEmptyFrom ?_ ts
  exact List.isChain_nil

theorem stripEmptyStrings_of_apart {ts : List Token} (h : Apart Kind.EmptyPair ts) :
    stripEmptyStrings ts = ts :=
  stripEmptyFrom_of_apart h

theorem Unescaped.stripEmptyStrings {ts : List Token} (h : Unescaped ts) :
    Unescaped (stripEmptyStrings ts) :=
  fun t ht => h t ((stripEmptyStrings_sublist ts).mem ht)

/-! ### Neighbouring literals -/

theorem mergeable_iff (a b : Token) :
    (a.kind == b.kind && b.kind.isMergeable) = true ↔ Kind.Mergeable a.kind b.kind := by
  simp [Kind.Mergeable]

theorem apart_mergeLiterals (ts : List Token) : Apart Kind.Mergeable (mergeLiterals ts) :=
  apart_fuseRuns mergeable_iff ts

theorem mergeLiterals_of_apart {ts : List Token} (h : Apart Kind.Mergeable ts) :
    mergeLiterals ts = ts :=
  fuseRuns_of_apart mergeable_iff h

theorem Apart.mergeLiterals {R : Kind → Kind → Prop} {ts : List Token} (h : Apart R ts) :
    Apart R (mergeLiterals ts) :=
  h.fuseRuns fun a b hjoin => ((mergeable_iff a b).mp hjoin).1

theorem Unescaped.mergeLiterals {ts : List Token} (h : Unescaped ts) :
    Unescaped (mergeLiterals ts) :=
  forall_fuseRuns (fun _ _ _ ha _ => ha) h

/-! ### Strings -/

theorem Apart.widen_emptyPair {join : Bool} {ts : List Token} (h : Apart Kind.EmptyPair ts) :
    Apart Kind.EmptyPair (Token.widen join ts) := by
  refine h.widen ?_ ?_
  · rintro a b hside ⟨ha, hb⟩
    exact hside (by rw [isGlued, isGlued, ha, hb]; rfl)
  · intro run hrun
    exact apart_widenRun (by simp [Kind.EmptyPair]) (by simp [Kind.EmptyPair])
      (by simp [Kind.EmptyPair]) (Or.inl hrun) hrun

theorem Apart.widen_mergeable {join : Bool} {ts : List Token} (h : Apart Kind.Mergeable ts) :
    Apart Kind.Mergeable (Token.widen join ts) := by
  refine h.widen ?_ ?_
  · rintro a b hside ⟨hkind, -⟩
    exact hside (by rw [isGlued, isGlued, hkind])
  · intro run hrun
    refine apart_widenRun ?_ (by simp [Kind.Mergeable]) (by simp [Kind.Mergeable])
      (Or.inr (by simp [Kind.Mergeable])) hrun
    rintro k ⟨-, hk⟩
    exact absurd hk (by decide)

theorem Unescaped.widen {join : Bool} {ts : List Token} (h : Unescaped ts) :
    Unescaped (widen join ts) := by
  intro t ht
  rcases mem_widen ht with hglued | hmem
  · constructor
    · intro hkind
      rw [isGlued, hkind] at hglued
      exact absurd hglued (by decide)
    · intro hkind
      rw [isGlued, hkind] at hglued
      exact absurd hglued (by decide)
  · exact h t hmem

/-! ### Blanks -/

theorem separators_iff (a b : Token) :
    (a.kind == .delimiter && b.kind == .delimiter) = true ↔ Kind.Separators a.kind b.kind := by
  simp [Kind.Separators]

@[simp] theorem kind_singleSpace (t : Token) : t.singleSpace.kind = t.kind := by
  unfold singleSpace
  split <;> rfl

/-- A single space is white space too, and has the width that it is given. -/
theorem singleSpace_singleSpace (t : Token) : t.singleSpace.singleSpace = t.singleSpace := by
  by_cases h : t.isBlankDelimiter = true
  · have hblank : t.singleSpace.isBlankDelimiter = true := by
      rw [isBlankDelimiter, kind_singleSpace, kind_of_isBlankDelimiter h, singleSpace, if_pos h]
      rfl
    rw [singleSpace, if_pos hblank, singleSpace, if_pos h]
  · have hsame : t.singleSpace = t := if_neg h
    rw [hsame, hsame]

/-- A token that is white space is one space, and one column wide. -/
def IsSingle (t : Token) : Prop :=
  t.isBlankDelimiter = true →
    t.text = [' '] ∧ t.position.colEnd = t.position.colStart + 1

theorem singleSpace_eq_self_iff {t : Token} : t.singleSpace = t ↔ t.IsSingle := by
  unfold singleSpace IsSingle
  split
  · rename_i hblank
    obtain ⟨kind, text, line, colStart, colEnd⟩ := t
    simp [hblank, eq_comm]
  · rename_i hblank
    simp [hblank]

/-- Separators stand alone, white space is a single space, and there is none at either end. -/
structure Squeezed (ts : List Token) : Prop where
  apart : Apart Kind.Separators ts
  single : ∀ t ∈ ts, t.IsSingle
  trimmed : Trimmed ts

theorem squeezed_stripBlanks (ts : List Token) : Squeezed (stripBlanks ts) where
  apart := ((apart_fuseRuns separators_iff ts).map kind_singleSpace).trimBlanks
  single := by
    intro t ht
    obtain ⟨u, -, rfl⟩ := List.mem_map.mp (mem_of_mem_trimBlanks ht)
    exact singleSpace_eq_self_iff.mp (singleSpace_singleSpace u)
  trimmed := trimmed_trimBlanks _

theorem stripBlanks_of_squeezed {ts : List Token} (h : Squeezed ts) : stripBlanks ts = ts := by
  have hmap : ts.map singleSpace = ts := by
    refine (List.map_congr_left ?_).trans (List.map_id ts)
    intro t ht
    exact singleSpace_eq_self_iff.mpr (h.single t ht)
  rw [stripBlanks, fuseRuns_of_apart separators_iff h.apart, hmap, trimBlanks_of_trimmed h.trimmed]

theorem Apart.stripBlanks {R : Kind → Kind → Prop} {ts : List Token} (h : Apart R ts) :
    Apart R (stripBlanks ts) := by
  have hfused : Apart R (Token.fuseRuns _ ts) := h.fuseRuns fun a b hjoin => by
    obtain ⟨ha, hb⟩ := (separators_iff a b).mp hjoin
    rw [ha, hb]
  exact (hfused.map kind_singleSpace).trimBlanks

theorem Widened.stripBlanks {join : Bool} {ts : List Token} (h : Widened join .outside ts) :
    Widened join .outside (stripBlanks ts) := by
  have hfused : Widened join .outside (Token.fuseRuns _ ts) := h.fuseRuns fun a b hjoin => by
    obtain ⟨ha, hb⟩ := (separators_iff a b).mp hjoin
    rw [isGlued, isGlued, ha, hb]
    exact ⟨rfl, rfl⟩
  exact (hfused.map kind_singleSpace).trimBlanks

/-- A property that fusing separators and shrinking white space keep holds of all tokens that are
left if it held before. -/
theorem forall_stripBlanks {P : Token → Prop}
    (hfuse : ∀ a b, Kind.Separators a.kind b.kind → P a → P b → P (a.fuse b))
    (hspace : ∀ t, P t → P t.singleSpace) {ts : List Token} (h : ∀ t ∈ ts, P t) :
    ∀ t ∈ stripBlanks ts, P t := by
  intro t ht
  obtain ⟨u, hu, rfl⟩ := List.mem_map.mp (mem_of_mem_trimBlanks ht)
  refine hspace u (forall_fuseRuns ?_ h u hu)
  intro a b hjoin
  exact hfuse a b ((separators_iff a b).mp hjoin)

theorem Unescaped.stripBlanks {ts : List Token} (h : Unescaped ts) :
    Unescaped (stripBlanks ts) := by
  refine forall_stripBlanks (fun a b _ ha _ => ha) ?_ h
  intro t ht
  rwa [kind_singleSpace]

/-! ### Commas -/

/-- The token with commas and semicolons as spaces, if it is a separator. -/
def blankCommas (t : Token) : Token :=
  if t.kind = .delimiter then
    { t with text := Text.replaceChars (fun c => c = ',' || c = ';') ' ' t.text }
  else t

theorem stripCommas_eq (ts : List Token) : stripCommas ts = stripBlanks (ts.map blankCommas) := rfl

@[simp] theorem kind_blankCommas (t : Token) : (blankCommas t).kind = t.kind := by
  unfold blankCommas
  split <;> rfl

/-- No separator holds a comma or semicolon. -/
def CommaFree (ts : List Token) : Prop :=
  ∀ t ∈ ts, t.kind = .delimiter → ∀ c ∈ t.text, c ≠ ',' ∧ c ≠ ';'

theorem commaFree_map_blankCommas (ts : List Token) : CommaFree (ts.map blankCommas) := by
  intro t ht hkind c hc
  obtain ⟨u, -, rfl⟩ := List.mem_map.mp ht
  rw [kind_blankCommas] at hkind
  rw [blankCommas, if_pos hkind] at hc
  obtain ⟨d, -, rfl⟩ := List.mem_map.mp hc
  split
  · decide
  · rename_i hd
    simpa using hd

theorem map_blankCommas_of_commaFree {ts : List Token} (h : CommaFree ts) :
    ts.map blankCommas = ts := by
  refine (List.map_congr_left ?_).trans (List.map_id ts)
  intro t ht
  unfold blankCommas
  split
  · rename_i hkind
    have htext : Text.replaceChars (fun c => c = ',' || c = ';') ' ' t.text = t.text := by
      refine (List.map_congr_left ?_).trans (List.map_id t.text)
      intro c hc
      obtain ⟨hcomma, hsemicolon⟩ := h t ht hkind c hc
      simp [hcomma, hsemicolon]
    rw [htext]
    rfl
  · rfl

theorem CommaFree.stripBlanks {ts : List Token} (h : CommaFree ts) :
    CommaFree (stripBlanks ts) := by
  refine forall_stripBlanks ?_ ?_ h
  · intro a b hkinds ha hb _ c hc
    rcases List.mem_append.mp hc with hc | hc
    · exact ha hkinds.1 c hc
    · exact hb hkinds.2 c hc
  · intro t ht hkind c hc
    rw [kind_singleSpace] at hkind
    unfold singleSpace at hc
    split at hc
    · rw [List.mem_singleton.mp hc]
      decide
    · exact ht hkind c hc

theorem Unescaped.stripCommas {ts : List Token} (h : Unescaped ts) :
    Unescaped (stripCommas ts) :=
  (h.map kind_blankCommas).stripBlanks

theorem Apart.stripCommas {R : Kind → Kind → Prop} {ts : List Token} (h : Apart R ts) :
    Apart R (stripCommas ts) :=
  (h.map kind_blankCommas).stripBlanks

theorem Widened.stripCommas {join : Bool} {ts : List Token} (h : Widened join .outside ts) :
    Widened join .outside (stripCommas ts) :=
  (h.map kind_blankCommas).stripBlanks

theorem squeezed_stripCommas (ts : List Token) : Squeezed (stripCommas ts) :=
  squeezed_stripBlanks _

theorem commaFree_stripCommas (ts : List Token) : CommaFree (stripCommas ts) :=
  (commaFree_map_blankCommas ts).stripBlanks

theorem stripCommas_of_commaFree {ts : List Token} (hsqueezed : Squeezed ts) (h : CommaFree ts) :
    stripCommas ts = ts := by
  rw [stripCommas_eq, map_blankCommas_of_commaFree h, stripBlanks_of_squeezed hsqueezed]

end Token

namespace Cleaning

/-! ### All passes together -/

/-- The normal forms of the passes that run. -/
structure Normal (options : Cleaning) (ts : List Token) : Prop where
  escapes : options.escapes = true → Token.Unescaped ts
  emptyStrings : options.emptyStrings = true → Token.Apart Kind.EmptyPair ts
  literals : options.literals = true → Token.Apart Kind.Mergeable ts
  strings : options.strings = true → Token.Widened options.joinStrings .outside ts
  blanks : options.blanks = true → Token.Squeezed ts
  commas : options.commas = true → Token.Squeezed ts ∧ Token.CommaFree ts

variable {P : List Token → Prop} {pass : List Token → List Token} {ts : List Token}

/-- A pass that keeps `P` keeps it whether it is chosen or not. -/
theorem keep (hpass : ∀ {us}, P us → P (pass us)) (b : Bool) (h : P ts) :
    P (if b then pass ts else ts) := by
  cases b with
  | false => exact h
  | true => exact hpass h

theorem gain (hpass : ∀ us, P (pass us)) {b : Bool} (hb : b = true) :
    P (if b then pass ts else ts) := by
  rw [if_pos hb]
  exact hpass ts

theorem skip {b : Bool} (h : b = true → pass ts = ts) : (if b then pass ts else ts) = ts := by
  cases b with
  | false => rfl
  | true => exact h rfl

/-- A pass that has run is not undone by the passes after it. -/
theorem normal_apply (options : Cleaning) (ts : List Token) :
    options.Normal (options.apply ts) where
  escapes h :=
    keep .stripCommas _ <| keep .stripBlanks _ <| keep .widen _ <| keep .mergeLiterals _ <|
      keep .stripEmptyStrings _ <| gain Token.unescaped_applyEscapes h
  emptyStrings h :=
    keep .stripCommas _ <| keep .stripBlanks _ <| keep .widen_emptyPair _ <|
      keep .mergeLiterals _ <| gain Token.apart_stripEmptyStrings h
  literals h :=
    keep .stripCommas _ <| keep .stripBlanks _ <| keep .widen_mergeable _ <|
      gain Token.apart_mergeLiterals h
  strings h :=
    keep .stripCommas _ <| keep .stripBlanks _ <| gain (fun _ => Token.widened_widen) h
  blanks h := keep (fun _ => Token.squeezed_stripCommas _) _ <| gain Token.squeezed_stripBlanks h
  commas h := ⟨gain Token.squeezed_stripCommas h, gain Token.commaFree_stripCommas h⟩

theorem apply_of_normal {options : Cleaning} {ts : List Token} (h : options.Normal ts) :
    options.apply ts = ts := by
  unfold apply
  dsimp only
  rw [skip fun hon => Token.applyEscapes_of_unescaped (h.escapes hon)]
  rw [skip fun hon => Token.stripEmptyStrings_of_apart (h.emptyStrings hon)]
  rw [skip fun hon => Token.mergeLiterals_of_apart (h.literals hon)]
  rw [skip fun hon => Token.widen_of_widened (h.strings hon)]
  rw [skip fun hon => Token.stripBlanks_of_squeezed (h.blanks hon)]
  exact skip fun hon => Token.stripCommas_of_commaFree (h.commas hon).1 (h.commas hon).2

/-- **Cleaning is done after one run.** Cleaning what has been cleaned changes no token, whichever
passes are chosen, and what cleaning leaves alone is exactly what is in the normal forms of these
passes. -/
theorem apply_idempotent (options : Cleaning) (ts : List Token) :
    options.apply (options.apply ts) = options.apply ts ∧
      (options.apply ts = ts ↔ options.Normal ts) := by
  refine ⟨apply_of_normal (normal_apply options ts), ?_, apply_of_normal⟩
  intro hfixed
  rw [← hfixed]
  exact normal_apply options ts

end Cleaning

end BatchTrace
