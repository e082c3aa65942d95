/-
What the standard cleaning makes of a text.

The normal forms of the passes say what no cleaning leaves behind, whatever tokens it is given.
The tokens of a text are not any tokens: their strings are whole, but for one that the end of the
text cuts off.  `Strung` goes along a list of tokens and says whether a string is open behind it.
Every pass keeps this account, and keeps a string open at the end if there was one.  Carets and
separators stand outside of strings, an empty string is taken away with both its quotes, and what
is fused is never a piece of a string.  Widening puts strings together anew; the string that it
makes of a run is open if the last one of the run was.

With both, the tokens are known.  Words do not touch strings and strings do not touch each other,
a string that is closed has one piece of content between its quotes, and a string that is not
closed ends the list.
-/
import BatchTrace.Proofs.Token.Brackets
import BatchTrace.Proofs.Token.NormalForm

namespace BatchTrace

namespace Kind

/-- A word next to a piece of a string. -/
def Touching (k l : Kind) : Prop :=
  (k.isWord = true ∧ l.isDquotePiece = true) ∨ (k.isDquotePiece = true ∧ l.isWord = true)

/-- The end of a string next to the beginning of another one. -/
def Adjoining (k l : Kind) : Prop :=
  k = .stringDquoteEnd ∧ l = .stringDquoteBegin

theorem isDquotePiece_of_isWord {k : Kind} (h : k.isWord = true) : k.isDquotePiece = false := by
  revert h
  cases k <;> decide

end Kind

/-- Where one can be between two tokens, as far as strings in double quotes are concerned. -/
inductive StringPlace where
  /-- In no string. -/
  | outside
  /-- Behind an opening quote. -/
  | opened
  /-- Behind what the string holds. -/
  | filled
deriving DecidableEq

namespace StringPlace

/-- Going from one place past a token of some kind to another. -/
inductive Passes : StringPlace → Kind → StringPlace → Prop
  | other {k : Kind} (h : k.isDquotePiece = false) : Passes outside k outside
  | opening : Passes outside .stringDquoteBegin opened
  | content : Passes opened .stringDquoteChar filled
  | empty : Passes opened .stringDquoteEnd outside
  | closing : Passes filled .stringDquoteEnd outside

namespace Passes

variable {p q r : StringPlace} {k : Kind}

theorem of_other (h : Passes p k q) (hk : k.isDquotePiece = false) : p = outside ∧ q = outside := by
  cases h <;> simp_all [Kind.isDquotePiece]

theorem of_opening (h : Passes p .stringDquoteBegin q) : p = outside ∧ q = opened := by
  cases h <;> simp_all [Kind.isDquotePiece]

theorem of_content (h : Passes p .stringDquoteChar q) : p = opened ∧ q = filled := by
  cases h <;> simp_all [Kind.isDquotePiece]

theorem of_closing (h : Passes p .stringDquoteEnd q) :
    (p = opened ∨ p = filled) ∧ q = outside := by
  cases h <;> simp_all [Kind.isDquotePiece]

/-- Past a piece of a string one comes out of the string only by its closing quote. -/
theorem eq_closing (h : Passes p k outside) (hk : k.isDquotePiece = true) :
    k = .stringDquoteEnd := by
  cases h with
  | other hother => simp [hother] at hk
  | empty => rfl
  | closing => rfl

/-- No piece of a string comes twice in a row. -/
theorem of_twice (h : Passes p k q) (hs : Passes q k r) : k.isDquotePiece = false := by
  cases h with
  | other hk => exact hk
  | opening => cases hs
  | content => cases hs
  | empty => cases hs with
    | other hk => exact hk
  | closing => cases hs with
    | other hk => exact hk

end Passes

end StringPlace

namespace Token

open StringPlace

/-- The strings in a list of tokens that begins at the place `p` are whole, and one is at the place
`r` behind it. -/
inductive Strung : StringPlace → List Token → StringPlace → Prop
  | nil (p : StringPlace) : Strung p [] p
  | cons {p q r : StringPlace} {t : Token} {ts : List Token} (h : Passes p t.kind q)
      (hs : Strung q ts r) : Strung p (t :: ts) r

namespace Strung

variable {p q r : StringPlace} {t u : Token} {ts us : List Token}

theorem append (h : Strung p ts q) (hs : Strung q us r) : Strung p (ts ++ us) r := by
  induction h with
  | nil => exact hs
  | cons hx _ ih => exact .cons hx (ih hs)

theorem exists_of_append (h : Strung p (ts ++ us) r) : ∃ q, Strung p ts q ∧ Strung q us r := by
  induction ts generalizing p with
  | nil => exact ⟨p, .nil p, h⟩
  | cons t ts ih =>
      cases h with
      | cons hx hs =>
          obtain ⟨q, hts, hus⟩ := ih hs
          exact ⟨q, .cons hx hts, hus⟩

/-- What is no piece of a string stands outside of strings. -/
theorem of_other (h : Strung p (t :: ts) r) (ht : t.kind.isDquotePiece = false) :
    p = outside ∧ Strung outside ts r := by
  cases h with
  | cons hx hs =>
      obtain ⟨rfl, rfl⟩ := hx.of_other ht
      exact ⟨rfl, hs⟩

theorem of_opening (h : Strung p (t :: ts) r) (ht : t.kind = .stringDquoteBegin) :
    p = outside ∧ Strung opened ts r := by
  cases h with
  | cons hx hs =>
      rw [ht] at hx
      obtain ⟨rfl, rfl⟩ := hx.of_opening
      exact ⟨rfl, hs⟩

theorem eq_of_others (h : Strung p ts r) (hts : ∀ t ∈ ts, t.kind.isDquotePiece = false) :
    p = r := by
  induction h with
  | nil => rfl
  | cons hx _ ih =>
      obtain ⟨rfl, rfl⟩ := hx.of_other (hts _ (by simp))
      exact ih fun u hu => hts u (by simp [hu])

/-! ### Passes that change nothing about strings -/

theorem map {f : Token → Token} (hf : ∀ t, (f t).kind = t.kind) (h : Strung p ts r) :
    Strung p (ts.map f) r := by
  induction h with
  | nil p => exact .nil p
  | cons hx _ ih => exact .cons (by rwa [hf]) ih

theorem applyEscapes (h : Strung p ts r) : Strung p (applyEscapes ts) r := by
  induction h with
  | nil p => exact .nil p
  | @cons p q r t ts hx _ ih =>
      unfold Token.applyEscapes at ih ⊢
      by_cases hcaret : t.kind = .escape
      · obtain ⟨rfl, rfl⟩ := hx.of_other (by rw [hcaret]; rfl)
        rwa [List.filter_cons_of_neg (by simpa using hcaret)]
      · rw [List.filter_cons_of_pos (by simpa using hcaret), List.map_cons]
        refine .cons ?_ ih
        split
        · rename_i hescaped
          obtain ⟨rfl, rfl⟩ := hx.of_other (by rw [hescaped]; rfl)
          exact .other rfl
        · exact hx

/-- A quote that closes a string right behind the one that opens it leads back to where that one
stood. -/
theorem stripEmptyFrom {kept : List Token} (h : Strung p (kept.reverse ++ ts) r) :
    Strung p (stripEmptyFrom kept ts) r := by
  fun_induction Token.stripEmptyFrom kept ts with
  | case1 kept => simpa using h
  | case2 t rest last before hpair ih =>
      refine ih ?_
      rw [List.reverse_cons, List.append_assoc] at h
      obtain ⟨q, hbefore, hlast⟩ := h.exists_of_append
      obtain ⟨rfl, hrest⟩ := hlast.of_opening hpair.2
      cases hrest with
      | cons hx hs =>
          rw [hpair.1] at hx
          obtain ⟨-, rfl⟩ := hx.of_closing
          exact hbefore.append hs
  | case3 t rest last before hpair ih => exact ih (by simpa using h)
  | case4 t rest ih => exact ih (by simpa using h)

theorem stripEmptyStrings (h : Strung p ts r) : Strung p (stripEmptyStrings ts) r :=
  stripEmptyFrom h

theorem fuseFrom {joins : Token → Token → Bool}
    (hsame : ∀ a b, joins a b = true → a.kind = b.kind) (h : Strung p (t :: ts) r) :
    Strung p (fuseFrom joins t ts) r := by
  induction ts generalizing t p with
  | nil => exact h
  | cons next rest ih =>
      rw [Token.fuseFrom]
      cases h with
      | cons hx hs =>
          split
          · rename_i hjoin
            have hkind := hsame t next hjoin
            cases hs with
            | cons hy hrest =>
                have hother := hx.of_twice (hkind ▸ hy)
                obtain ⟨rfl, rfl⟩ := hx.of_other hother
                obtain ⟨-, rfl⟩ := hy.of_other (hkind ▸ hother)
                exact ih (.cons (.other hother) hrest)
          · exact .cons hx (ih hs)

/-- Fusing neighbours of one kind leaves strings alone. -/
theorem fuseRuns {joins : Token → Token → Bool}
    (hsame : ∀ a b, joins a b = true → a.kind = b.kind) (h : Strung p ts r) :
    Strung p (fuseRuns joins ts) r := by
  cases ts with
  | nil => exact h
  | cons t ts => exact h.fuseFrom hsame

theorem mergeLiterals (h : Strung p ts r) : Strung p (mergeLiterals ts) r :=
  h.fuseRuns fun a b hjoin => ((mergeable_iff a b).mp hjoin).1

theorem isDquotePiece_of_isBlankDelimiter (h : t.isBlankDelimiter = true) :
    t.kind.isDquotePiece = false := by
  rw [kind_of_isBlankDelimiter h]
  rfl

theorem dropWhile_blanks (h : Strung p ts r) : Strung p (ts.dropWhile isBlankDelimiter) r := by
  induction h with
  | nil p => exact .nil p
  | @cons p q r t ts hx hs ih =>
      rw [List.dropWhile_cons]
      split
      · rename_i hblank
        obtain ⟨rfl, rfl⟩ := hx.of_other (isDquotePiece_of_isBlankDelimiter hblank)
        exact ih
      · exact .cons hx hs

theorem trimBlanks (h : Strung p ts r) : Strung p (trimBlanks ts) r := by
  have hdrop := h.dropWhile_blanks
  have hsplit : Token.trimBlanks ts ++
      (ts.dropWhile isBlankDelimiter).rtakeWhile isBlankDelimiter =
        ts.dropWhile isBlankDelimiter := List.rdropWhile_append_rtakeWhile
  rw [← hsplit] at hdrop
  obtain ⟨q, hkept, hback⟩ := hdrop.exists_of_append
  have hends : q = r := hback.eq_of_others fun t ht =>
    isDquotePiece_of_isBlankDelimiter (List.mem_rtakeWhile_imp ht)
  rwa [← hends]

theorem stripBlanks (h : Strung p ts r) : Strung p (stripBlanks ts) r := by
  have hfused : Strung p (Token.fuseRuns _ ts) r := h.fuseRuns fun a b hjoin => by
    obtain ⟨ha, hb⟩ := (separators_iff a b).mp hjoin
    rw [ha, hb]
  exact (hfused.map kind_singleSpace).trimBlanks

theorem stripCommas (h : Strung p ts r) : Strung p (stripCommas ts) r := by
  refine (h.map fun t => ?_).stripBlanks
  split <;> rfl

end Strung

/-! ### Widening -/

theorem Quoted.Proper.exists_strung {q : Quoted} (h : q.Proper) :
    ∃ r, Strung outside q.tokens r ∧ (q.closing = none ↔ r ≠ outside) := by
  obtain ⟨opening, content, closing⟩ := q
  have hopening : Passes outside opening.kind opened := by
    rw [h.opening]
    exact .opening
  cases content with
  | none =>
      cases closing with
      | none => exact ⟨opened, .cons hopening (.nil _), by simp⟩
      | some e =>
          have he : Passes opened e.kind outside := by
            rw [h.closing e rfl]
            exact .empty
          exact ⟨outside, .cons hopening (.cons he (.nil _)), by simp⟩
  | some c =>
      have hc : Passes opened c.kind filled := by
        rw [h.content c rfl]
        exact .content
      cases closing with
      | none => exact ⟨filled, .cons hopening (.cons hc (.nil _)), by simp⟩
      | some e =>
          have he : Passes filled e.kind outside := by
            rw [h.closing e rfl]
            exact .closing
          exact ⟨outside, .cons hopening (.cons hc (.cons he (.nil _))), by simp⟩

/-- The strings that a run becomes are whole, and the last one is open if the last one of the run
is.  What carries the induction: the string that is being put together has its closing quote as long
as one is outside of strings. -/
theorem Strung.exists_strings (join : Bool) {q : Quoted} {ts : List Token} {p r : StringPlace}
    (hq : q.Proper) (hopen : q.closing = none ↔ p ≠ outside) (h : Strung p ts r) :
    ∃ r', Strung outside ((q.strings join ts).flatMap Quoted.tokens) r' ∧
      (r' = outside ↔ r = outside) := by
  induction ts generalizing q p with
  | nil =>
      cases h
      obtain ⟨r', htokens, hclosing⟩ := hq.exists_strung
      refine ⟨r', ?_, not_iff_not.mp (hclosing.symm.trans hopen)⟩
      simpa [Quoted.strings] using htokens
  | cons t ts ih =>
      cases h with
      | cons hx hs =>
          rw [Quoted.strings]
          split
          · rename_i hkind
            rw [hkind] at hx
            obtain ⟨rfl, rfl⟩ := hx.of_opening
            split
            · exact ih ⟨hq.opening, hq.content, by simp⟩ (by simp) hs
            · obtain ⟨r', hrest, hr⟩ := ih (Quoted.proper_start [] hkind)
                (by simp [Quoted.closing_start]) hs
              obtain ⟨q', htokens, hclosing⟩ := hq.exists_strung
              have hout : q' = outside := not_not.mp (mt hclosing.mpr (by simp [hopen]))
              rw [List.flatMap_cons]
              exact ⟨r', (hout ▸ htokens).append hrest, hr⟩
          · rename_i hkind
            rw [hkind] at hx
            obtain ⟨-, rfl⟩ := hx.of_closing
            exact ih ⟨hq.opening, hq.content, by simpa using hkind⟩ (by simp) hs
          · rename_i hopening hclosing
            refine ih (hq.absorb t) ?_ hs
            show q.closing = none ↔ _
            rw [hopen]
            generalize hkind : t.kind = k at hx
            cases hx with
            | other => rfl
            | opening => exact absurd hkind hopening
            | content => simp
            | empty => exact absurd hkind hclosing
            | closing => exact absurd hkind hclosing

theorem Strung.exists_widenRun (join : Bool) {run : List Token} {r : StringPlace}
    (h : Strung outside run r) :
    ∃ r', Strung outside (widenRun join run) r' ∧ (r' = outside ↔ r = outside) := by
  rcases widenRun_cases join run with ⟨-, heq⟩ | ⟨before, t, rest, q, hrun, ht, hq, hopen, heq⟩
  · exact ⟨r, by rwa [heq], Iff.rfl⟩
  · rw [hrun] at h
    obtain ⟨p, -, hstring⟩ := h.exists_of_append
    obtain ⟨-, hrest⟩ := hstring.of_opening ht
    rw [heq]
    exact hrest.exists_strings join hq (by simp [hopen])

/-- Widening leaves a string open at the end if there was one. -/
theorem Strung.exists_widen (join : Bool) {ts : List Token} {r : StringPlace}
    (h : Strung outside ts r) :
    ∃ r', Strung outside (widen join ts) r' ∧ (r' = outside ↔ r = outside) := by
  fun_induction widen join ts with
  | case1 => exact ⟨r, h, Iff.rfl⟩
  | case2 t rest hglued ih =>
      rw [← run_append_rest] at h
      obtain ⟨q, hrun, hrest⟩ := h.exists_of_append
      obtain ⟨q', hrun', hq⟩ := hrun.exists_widenRun join
      cases hafter : rest.dropWhile isGlued with
      | nil =>
          rw [hafter] at hrest
          cases hrest
          refine ⟨q', ?_, hq⟩
          simpa [widen] using hrun'
      | cons u more =>
          -- The token behind the run is no piece of a string, so none is open there.
          have hu : u.isGlued = false := not_isGlued_of_mem_dropWhile u (by rw [hafter]; rfl)
          have hpiece : u.kind.isDquotePiece = false := (Bool.or_eq_false_iff.mp hu).2
          have hout : q = outside := by
            rw [hafter] at hrest
            exact (hrest.of_other hpiece).1
          subst hout
          obtain ⟨r', hrest', hr⟩ := ih hrest
          obtain rfl := hq.mpr rfl
          rw [hafter] at hrest'
          exact ⟨r', hrun'.append hrest', hr⟩
  | case3 t rest hglued ih =>
      have hpiece : t.kind.isDquotePiece = false := by
        rw [isGlued, Bool.not_eq_true] at hglued
        exact (Bool.or_eq_false_iff.mp hglued).2
      obtain ⟨r', hrest, hr⟩ := ih (h.of_other hpiece).2
      exact ⟨r', .cons (.other hpiece) hrest, hr⟩

/-- The strings among the tokens are whole, and one is open at their end if `r` is in a string. -/
def StrungLike (r : StringPlace) (ts : List Token) : Prop :=
  ∃ r', Strung outside ts r' ∧ (r' = outside ↔ r = outside)

namespace StrungLike

variable {r : StringPlace} {ts : List Token}

theorem pass {f : List Token → List Token}
    (hf : ∀ {us p}, Strung outside us p → Strung outside (f us) p) (b : Bool)
    (h : StrungLike r ts) : StrungLike r (if b then f ts else ts) := by
  refine Cleaning.keep (P := StrungLike r) ?_ b h
  rintro us ⟨r', hus, hr⟩
  exact ⟨r', hf hus, hr⟩

theorem widen (join b : Bool) (h : StrungLike r ts) :
    StrungLike r (if b then widen join ts else ts) := by
  refine Cleaning.keep (P := StrungLike r) ?_ b h
  rintro us ⟨q, hus, hq⟩
  obtain ⟨r', hwidened, hr⟩ := hus.exists_widen join
  exact ⟨r', hwidened, hr.trans hq⟩

/-- All passes together, whichever are chosen. -/
theorem apply (options : Cleaning) (h : StrungLike r ts) : StrungLike r (options.apply ts) :=
  pass .stripCommas _ <| pass .stripBlanks _ <| widen _ _ <| pass .mergeLiterals _ <|
    pass .stripEmptyStrings _ <| pass .applyEscapes _ h

end StrungLike

theorem Strung.exists_apply {ts : List Token} {r : StringPlace} (h : Strung outside ts r) :
    ∃ r', Strung outside (Cleaning.standard.apply ts) r' ∧ (r' = outside ↔ r = outside) :=
  StrungLike.apply Cleaning.standard ⟨r, h, Iff.rfl⟩

end Token

/-! ### Neighbours of strings -/

namespace RunState

open StringPlace

/-- Where one is in a run tells whether a string is open. -/
def place : RunState → StringPlace
  | outside | words | closed => .outside
  | opened => .opened
  | filled => .filled

variable {st st' : RunState} {k : Kind} {q : StringPlace}

theorem not_glued_of_closed (h : closed.next true k = some st') :
    (k.isWord || k.isDquotePiece) = false := by
  by_contra hglued
  rcases next_string (by simp) (Bool.not_eq_false _ ▸ hglued) h with
    ⟨-, hjoin, -⟩ | ⟨-, hst, -⟩ | ⟨-, hst, -⟩
  · simp at hjoin
  · simp at hst
  · simp at hst

theorem eq_words (hst : st.place = .outside) (hk : k.isWord = true)
    (h : st.next true k = some st') : st' = words := by
  have hopening : k ≠ .stringDquoteBegin := by
    rintro rfl
    exact absurd hk (by decide)
  have hglued : (k.isWord || k.isDquotePiece) = true := by rw [hk]; rfl
  cases st with
  | outside | words =>
      rw [next_plain (by simp) hglued hopening] at h
      exact (Option.some.inj h).symm
  | opened | filled => simp [place] at hst
  | closed => simp [not_glued_of_closed h] at hglued

theorem eq_closed (hst : st.place ≠ .outside) (h : st.next true .stringDquoteEnd = some st') :
    st' = closed := by
  cases st with
  | opened => exact (Option.some.inj h).symm
  | filled => exact (Option.some.inj h).symm
  | outside | words | closed => simp [place] at hst

/-- The two accounts of a list of tokens go on together. -/
theorem eq_place (hst : Passes st.place k q) (h : st.next true k = some st') : q = st'.place := by
  generalize hplace : st.place = p at hst
  cases hst with
  | other hk =>
      by_cases hword : k.isWord = true
      · rw [eq_words hplace hword h]
        rfl
      · have hglued : (k.isWord || k.isDquotePiece) = false := by simp [hword, hk]
        unfold next at h
        rw [if_neg (by simp [hglued])] at h
        rw [← Option.some.inj h]
        rfl
  | opening =>
      cases st with
      | outside =>
          rw [← Option.some.inj h]
          rfl
      | words => simp [next, Kind.isWord, Kind.isDquotePiece] at h
      | closed => simpa [Kind.isDquotePiece] using not_glued_of_closed h
      | opened | filled => simp [place] at hplace
  | content =>
      cases st with
      | opened =>
          rw [← Option.some.inj h]
          rfl
      | outside | words | filled | closed => simp [place] at hplace
  | empty | closing =>
      rw [eq_closed (by simp [hplace]) h]
      rfl

end RunState

namespace Token

open StringPlace

section

variable {st : RunState} {ts : List Token} {r : StringPlace}

/-- Two tokens that a string should have taken in or joined do not stand side by side. -/
theorem not_touching {st' st'' : RunState} {k l : Kind} {q : StringPlace}
    (hk : st.next true k = some st') (hl : st'.next true l = some st'')
    (hpk : Passes st.place k st'.place) (hpl : Passes st'.place l q) :
    ¬ (Kind.Touching k l ∨ Kind.Adjoining k l) := by
  -- Behind a closing quote the run is over.
  have hend : k = .stringDquoteEnd → (l.isWord || l.isDquotePiece) = false := by
    rintro rfl
    have hopen : st.place ≠ .outside := by
      rcases hpk.of_closing.1 with hplace | hplace <;> simp [hplace]
    rw [RunState.eq_closed hopen hk] at hl
    exact RunState.not_glued_of_closed hl
  rintro ((⟨hword, hpiece⟩ | ⟨hpiece, hword⟩) | ⟨hclosing, hopening⟩)
  · have hother := hpk.of_other (Kind.isDquotePiece_of_isWord hword)
    rw [RunState.eq_words hother.1 hword hk] at hl hpl
    cases hpl with
    | other hl' => simp [hl'] at hpiece
    | opening => simp [RunState.next, Kind.isWord, Kind.isDquotePiece] at hl
  · have hout := (hpl.of_other (Kind.isDquotePiece_of_isWord hword)).1
    rw [hout] at hpk
    have hfree := hend (hpk.eq_closing hpiece)
    simp [hword] at hfree
  · have hfree := hend hclosing
    simp [hopening, Kind.isDquotePiece] at hfree

theorem apart_of_widened (hwidened : Widened true st ts) (h : Strung st.place ts r) :
    Apart (fun k l => Kind.Touching k l ∨ Kind.Adjoining k l) ts := by
  induction ts generalizing st with
  | nil => exact List.isChain_nil
  | cons t ts ih =>
      obtain ⟨st', hnext, hwidened⟩ := hwidened
      cases h with
      | cons hx hs =>
          obtain rfl := RunState.eq_place hx hnext
          refine List.isChain_cons.mpr ⟨?_, ih hwidened hs⟩
          intro u hu
          obtain ⟨more, rfl⟩ := List.head?_eq_some_iff.mp hu
          obtain ⟨st'', hnext', -⟩ := hwidened
          cases hs with
          | cons hy _ => exact not_touching hnext hnext' hx hy

end

/-! ### Strings as wholes -/

/-- The tokens behind an opening quote close the string. -/
def Closes (rest : List Token) : Prop :=
  ∃ content closing more, rest = content ++ closing :: more ∧
    (∀ t ∈ content, t.kind = .stringDquoteChar) ∧ closing.kind = .stringDquoteEnd

/-- There is a string among the tokens that is not closed. -/
def Unclosed (ts : List Token) : Prop :=
  ∃ front opening rest, ts = front ++ opening :: rest ∧ opening.kind = .stringDquoteBegin ∧
    ¬ Closes rest

theorem not_closes {rest : List Token} (h : ∀ t ∈ rest, t.kind = .stringDquoteChar) :
    ¬ Closes rest := by
  rintro ⟨content, closing, more, rfl, -, hclosing⟩
  have hkind := h closing (by simp)
  simp [hclosing] at hkind

namespace Strung

variable {ts rest : List Token} {r : StringPlace}

/-- What follows an opening quote: a closing one, content and a closing one, or the end. -/
theorem opened_cases (h : Strung opened rest r) :
    (∃ closing more, rest = closing :: more ∧ closing.kind = .stringDquoteEnd) ∨
      (∃ content closing more, rest = content :: closing :: more ∧
        content.kind = .stringDquoteChar ∧ closing.kind = .stringDquoteEnd) ∨
      (rest.length ≤ 1 ∧ (∀ t ∈ rest, t.kind = .stringDquoteChar) ∧ r ≠ outside) := by
  cases h with
  | nil => exact Or.inr (Or.inr ⟨by simp, by simp, by simp⟩)
  | @cons _ _ _ t ts hx hs =>
      generalize hkind : t.kind = k at hx
      cases hx with
      | empty => exact Or.inl ⟨t, ts, rfl, hkind⟩
      | content =>
          cases hs with
          | nil => exact Or.inr (Or.inr ⟨by simp, by simpa using hkind, by simp⟩)
          | @cons _ _ _ u us hy _ =>
              generalize hkind' : u.kind = l at hy
              cases hy with
              | closing => exact Or.inr (Or.inl ⟨t, u, us, rfl, hkind, hkind'⟩)

/-- A string that is not closed holds at most one token, and the tokens end with it. -/
theorem of_not_closes (h : Strung opened rest r) (hopen : ¬ Closes rest) :
    rest.length ≤ 1 ∧ (∀ t ∈ rest, t.kind = .stringDquoteChar) ∧ r ≠ outside := by
  rcases h.opened_cases with ⟨closing, more, rfl, hclosing⟩ |
    ⟨content, closing, more, rfl, hcontent, hclosing⟩ | hend
  · exact absurd ⟨[], closing, more, rfl, by simp, hclosing⟩ hopen
  · exact absurd ⟨[content], closing, more, rfl, by simpa using hcontent, hclosing⟩ hopen
  · exact hend

/-- The last token leads to where one is. -/
theorem exists_concat {p : StringPlace} (h : Strung p ts r) (hne : p ≠ r) :
    ∃ front u q, ts = front ++ [u] ∧ Strung p front q ∧ Passes q u.kind r := by
  rcases List.eq_nil_or_concat' ts with rfl | ⟨front, u, rfl⟩
  · cases h
    exact absurd rfl hne
  · obtain ⟨q, hfront, hlast⟩ := h.exists_of_append
    cases hlast with
    | cons hx hs =>
        cases hs
        exact ⟨front, u, q, rfl, hfront, hx⟩

theorem exists_of_opened (h : Strung outside ts opened) :
    ∃ front opening, ts = front ++ [opening] ∧ opening.kind = .stringDquoteBegin := by
  obtain ⟨front, u, q, rfl, -, hu⟩ := h.exists_concat (by simp)
  generalize hkind : u.kind = k at hu
  cases hu
  exact ⟨front, u, rfl, hkind⟩

theorem exists_of_filled (h : Strung outside ts filled) :
    ∃ front opening content, ts = front ++ [opening, content] ∧
      opening.kind = .stringDquoteBegin ∧ content.kind = .stringDquoteChar := by
  obtain ⟨front, u, q, rfl, hfront, hu⟩ := h.exists_concat (by simp)
  generalize hkind : u.kind = k at hu
  cases hu
  obtain ⟨front, opening, rfl, hopening⟩ := hfront.exists_of_opened
  exact ⟨front, opening, u, by simp, hopening, hkind⟩

/-- A string is not closed if one is in it at the end. -/
theorem unclosed_iff (h : Strung outside ts r) : Unclosed ts ↔ r ≠ outside := by
  constructor
  · rintro ⟨front, opening, rest, rfl, hopening, hopen⟩
    obtain ⟨q, -, hstring⟩ := h.exists_of_append
    exact ((hstring.of_opening hopening).2.of_not_closes hopen).2.2
  · intro hr
    cases r with
    | outside => exact absurd rfl hr
    | opened =>
        obtain ⟨front, opening, rfl, hopening⟩ := h.exists_of_opened
        exact ⟨front, opening, [], rfl, hopening, not_closes (by simp)⟩
    | filled =>
        obtain ⟨front, opening, content, rfl, hopening, hcontent⟩ := h.exists_of_filled
        exact ⟨front, opening, [content], rfl, hopening, not_closes (by simpa using hcontent)⟩

end Strung

/-- Tokens as the standard cleaning leaves them. -/
structure StandardForm (ts : List Token) : Prop where
  /-- There is no caret, and no character that one has escaped. -/
  unescaped : ∀ t ∈ ts, t.kind ≠ .escape ∧ t.kind ≠ .escapedLiteral
  /-- No two tokens in a row say the same as one. -/
  merged : Apart Kind.Mergeable ts
  /-- No two separators stand in a row. -/
  separated : Apart Kind.Separators ts
  /-- White space is one space, and something stands on both sides of it. -/
  blank : ∀ front t rest, ts = front ++ t :: rest → t.kind = .delimiter →
    (∀ c ∈ t.text, c ∉ [',', ';', '=']) → t.text = [' '] ∧ front ≠ [] ∧ rest ≠ []
  /-- No word stands next to a piece of a string. -/
  enclosed : Apart Kind.Touching ts
  /-- No string stands next to another one. -/
  joined : Apart Kind.Adjoining ts
  /-- A string that is closed has one token between its quotes. -/
  closed : ∀ front opening rest, ts = front ++ opening :: rest →
    opening.kind = .stringDquoteBegin → Closes rest →
    ∃ content closing more, rest = content :: closing :: more ∧
      content.kind = .stringDquoteChar ∧ closing.kind = .stringDquoteEnd
  /-- A string that is not closed has at most one token behind its quote, and the tokens end. -/
  unclosed : ∀ front opening rest, ts = front ++ opening :: rest →
    opening.kind = .stringDquoteBegin → ¬ Closes rest →
    rest.length ≤ 1 ∧ ∀ t ∈ rest, t.kind = .stringDquoteChar
  /-- What a string holds stands behind its opening quote only. -/
  content : ∀ front t rest, ts = front ++ t :: rest → t.kind = .stringDquoteChar →
    ∃ opening ∈ front.getLast?, opening.kind = .stringDquoteBegin
  /-- A closing quote stands behind an opening quote and what the string holds only. -/
  closing : ∀ front t rest, ts = front ++ t :: rest → t.kind = .stringDquoteEnd →
    ∃ before opening content, front = before ++ [opening, content] ∧
      opening.kind = .stringDquoteBegin ∧ content.kind = .stringDquoteChar

section

variable {ts front rest : List Token} {t : Token} {r : StringPlace}

theorem Squeezed.blank (h : Squeezed ts) (hsplit : ts = front ++ t :: rest)
    (hkind : t.kind = .delimiter) (htext : ∀ c ∈ t.text, c ∉ [',', ';', '=']) :
    t.text = [' '] ∧ front ≠ [] ∧ rest ≠ [] := by
  have hblank : t.isBlankDelimiter = true := by
    simp only [isBlankDelimiter, hkind, beq_self_eq_true, Bool.true_and, List.all_eq_true]
    intro c hc
    simpa [and_assoc] using htext c hc
  refine ⟨(h.single t (by simp [hsplit]) hblank).1, ?_, ?_⟩
  · rintro rfl
    have hnot := h.trimmed.1 t (by simp [hsplit])
    simp [hblank] at hnot
  · rintro rfl
    have hnot := h.trimmed.2 t (by simp [hsplit])
    simp [hblank] at hnot

/-- No opening quote stands right before a closing one. -/
theorem Apart.not_emptyPair {u : Token} (h : Apart Kind.EmptyPair (front ++ u :: t :: rest))
    (hu : u.kind = .stringDquoteBegin) : t.kind ≠ .stringDquoteEnd := by
  intro ht
  exact (List.isChain_cons_cons.mp (List.IsChain.right_of_append h)).1 ⟨hu, ht⟩

/-- A list in the normal forms of the passes, the strings of which are whole, is in the standard
form. -/
theorem standardForm_of_normal (hnormal : Cleaning.standard.Normal ts) (h : Strung outside ts r) :
    StandardForm ts where
  unescaped := hnormal.escapes rfl
  merged := hnormal.literals rfl
  separated := (hnormal.blanks rfl).apart
  blank _ _ _ := (hnormal.blanks rfl).blank
  enclosed := (apart_of_widened (hnormal.strings rfl) h).imp fun _ _ hnot htouch =>
    hnot (Or.inl htouch)
  joined := (apart_of_widened (hnormal.strings rfl) h).imp fun _ _ hnot hjoin =>
    hnot (Or.inr hjoin)
  closed := by
    rintro front opening rest rfl hopening ⟨content, closing, more, hrest, hcontent, hclosing⟩
    obtain ⟨q, -, hstring⟩ := h.exists_of_append
    rcases (hstring.of_opening hopening).2.opened_cases with
      ⟨closing, more, rfl, hclosing⟩ | hfilled | ⟨-, hopen, -⟩
    · exact absurd hclosing ((hnormal.emptyStrings rfl).not_emptyPair hopening)
    · exact hfilled
    · exact absurd ⟨content, closing, more, hrest, hcontent, hclosing⟩ (not_closes hopen)
  unclosed := by
    rintro front opening rest rfl hopening hopen
    obtain ⟨q, -, hstring⟩ := h.exists_of_append
    obtain ⟨hlength, hkinds, -⟩ := (hstring.of_opening hopening).2.of_not_closes hopen
    exact ⟨hlength, hkinds⟩
  content := by
    rintro front t rest rfl ht
    obtain ⟨q, hfront, hrest⟩ := h.exists_of_append
    cases hrest with
    | cons hx _ =>
        rw [ht] at hx
        obtain ⟨rfl, -⟩ := hx.of_content
        obtain ⟨before, opening, rfl, hopening⟩ := hfront.exists_of_opened
        exact ⟨opening, by simp, hopening⟩
  closing := by
    rintro front t rest rfl ht
    obtain ⟨q, hfront, hrest⟩ := h.exists_of_append
    cases hrest with
    | cons hx _ =>
        rw [ht] at hx
        rcases hx.of_closing.1 with rfl | rfl
        · obtain ⟨before, opening, rfl, hopening⟩ := hfront.exists_of_opened
          have hempty := hnormal.emptyStrings rfl
          rw [List.append_assoc] at hempty
          exact absurd ht (hempty.not_emptyPair hopening)
        · exact hfront.exists_of_filled

end

end Token

/-! ### The tokens of a text -/

/-- Where one is with regard to strings, if single quotes and carets do not matter. -/
def Bracketing.Place.string : Place → StringPlace
  | text _ | caret _ => .outside
  | opened => .opened
  | filled => .filled

theorem Kind.isDquotePiece_of_not_isBracketed {k : Kind} (h : k.isBracketed = false) :
    k.isDquotePiece = false := by
  revert h
  cases k <;> decide

theorem Bracketing.Passes.string {p q : Place} {x : Lexeme} (h : Passes p x q) :
    p.string.Passes x.kind q.string := by
  cases h with
  | other t hother => exact .other (Kind.isDquotePiece_of_not_isBracketed hother)
  | dquoteBegin => exact .opening
  | dquoteChar => exact .content
  | dquoteEmpty => exact .empty
  | dquoteEnd => exact .closing
  | caret | escaped | squoteBegin | squoteChar | squoteEnd => exact .other rfl

namespace Token

open StringPlace

theorem strung_of_walk {ts : List Token} {p q : Bracketing.Place}
    (h : Bracketing.Walk p (ts.map lexeme) q) : Strung p.string ts q.string := by
  induction ts generalizing p with
  | nil =>
      cases h
      exact .nil _
  | cons t ts ih =>
      rw [List.map_cons] at h
      cases h with
      | cons hx hs => exact .cons hx.string (ih hs)

theorem exists_strung_tokenize (s : Text) : ∃ r, Strung outside (tokenize s) r := by
  obtain ⟨p, hwalk, -⟩ := Lexer.exists_walk_lexemes s
  rw [← map_lexeme_tokenize] at hwalk
  exact ⟨p.string, strung_of_walk hwalk⟩

/--
**The standard form of a text.**  The standard cleaning brings the tokens of every text into the
standard form, and a string among them is not closed exactly if there was one that was not closed
before.
-/
theorem standardForm_tokenize (s : Text) :
    StandardForm (Cleaning.standard.apply (tokenize s)) ∧
      (Unclosed (Cleaning.standard.apply (tokenize s)) ↔ Unclosed (tokenize s)) := by
  obtain ⟨r, hread⟩ := exists_strung_tokenize s
  obtain ⟨r', hcleaned, hr⟩ := hread.exists_apply
  refine ⟨standardForm_of_normal (Cleaning.normal_apply _ _) hcleaned, ?_⟩
  rw [hcleaned.unclosed_iff, hread.unclosed_iff, not_iff_not]
  exact hr

end Token

end BatchTrace
