/-
The program of a command with its strings folded.

A closed string stands either before the head of a command ends or behind that, never across it:
what ends a head is no piece of a string.  So the parts of a command can be folded one by one, and
the folded parts are the parts of the folded command.  They spell what they spelled before, and a
string ends the switches of `cmd` whether it is folded or not.

Whether a quote is open in the head is another matter.  After an opening quote that is never closed,
a closed string would close it as long as its quotes are seen.  In the tokens of a text a string
that is not closed is the last one, and cleaning keeps it so.
-/
import BatchTrace.Proofs.Program.Parts
import BatchTrace.Proofs.Token.Collapse

namespace BatchTrace

open Token

/-- A string ends the switches of `cmd`, folded or not. -/
theorem Token.Folds.ofTokensFrom_eq {ts us : List Token} (h : Folds ts us) (table : Switches) :
    CmdArguments.ofTokensFrom table us = CmdArguments.ofTokensFrom table ts := by
  induction h generalizing table with
  | nil => rfl
  | kept _ hs ih => simp only [CmdArguments.ofTokensFrom, ih, stringify_cons, hs.stringify_eq]
  | closed hopening hcontent hclosing hs _ =>
      have hspell := (Folds.closed hopening hcontent hclosing hs).stringify_eq
      simp only [CmdArguments.ofTokensFrom, hopening, kind_folded, hspell]

section

variable {ts : List Token} {t : Token}

theorem Program.quoteOpen_concat_opening (ht : t.kind = .stringDquoteBegin) :
    quoteOpen (ts ++ [t]) = true := by
  rw [quoteOpen, List.foldl_concat, ht]

theorem Program.quoteOpen_concat_closing (ht : t.kind = .stringDquoteEnd) :
    quoteOpen (ts ++ [t]) = false := by
  rw [quoteOpen, List.foldl_concat, ht]

theorem Program.quoteOpen_concat (hopening : t.kind ≠ .stringDquoteBegin)
    (hclosing : t.kind ≠ .stringDquoteEnd) : quoteOpen (ts ++ [t]) = quoteOpen ts := by
  rw [quoteOpen, List.foldl_concat]
  split
  · rename_i hkind
    exact absurd hkind hopening
  · rename_i hkind
    exact absurd hkind hclosing
  · rfl

/-- A quote is open behind the tokens exactly if one is in a string there. -/
theorem Token.Strung.quoteOpen_eq {r : StringPlace} (h : Strung .outside ts r) :
    Program.quoteOpen ts = decide (r ≠ .outside) := by
  induction ts using List.reverseRecOn generalizing r with
  | nil =>
      cases h
      rfl
  | append_singleton ts t ih =>
      obtain ⟨q, hts, hlast⟩ := h.exists_of_append
      cases hlast with
      | cons hx hs =>
          cases hs
          generalize hkind : t.kind = k at hx
          cases hx with
          | other hk =>
              rw [Program.quoteOpen_concat, ih hts]
              · rintro heq
                rw [← hkind, heq] at hk
                exact absurd hk (by decide)
              · rintro heq
                rw [← hkind, heq] at hk
                exact absurd hk (by decide)
          | opening => exact Program.quoteOpen_concat_opening hkind
          | content =>
              rw [Program.quoteOpen_concat (by simp [hkind]) (by simp [hkind]), ih hts]
              rfl
          | empty => exact Program.quoteOpen_concat_closing hkind
          | closing => exact Program.quoteOpen_concat_closing hkind

end

namespace Program

theorem isDquotePiece_of_isLeading {t : Token} (h : isLeading t = true) :
    t.kind.isDquotePiece = false := by
  rcases isLeading_iff.mp h with hkind | hkind | hkind | hkind
  · rw [hkind]; rfl
  · rw [hkind]; rfl
  · rw [hkind]; rfl
  · revert hkind
    cases t.kind <;> decide

theorem ne_opening_of_isLeading {t : Token} (h : isLeading t = true) :
    t.kind ≠ .stringDquoteBegin := by
  intro heq
  have hpiece := isDquotePiece_of_isLeading h
  rw [heq] at hpiece
  exact absurd hpiece (by decide)

namespace Parts

/-- The parts with the closed strings in them folded. -/
def fold (p : Parts) : Parts where
  leading := p.leading
  head := collapse p.head
  closing := p.closing
  separator := p.separator
  arguments := collapse p.arguments
  leading_kind := p.leading_kind
  head_ne_nil := mt (folds_collapse p.head).eq_nil_iff.mp p.head_ne_nil
  first_kind := by
    intro t ht
    rcases (folds_collapse p.head).mem_head? ht with hkind | ht
    · simp [hkind]
    · exact p.first_kind t ht
  head_kind :=
    (folds_collapse p.head).forall_kind (p := fun k => k ≠ .delimiter ∧ k.isChain = false)
      (by decide) p.head_kind
  last_kind := by
    intro t ht
    rcases (folds_collapse p.head).mem_getLast? ht with hkind | ht
    · simp [hkind]
    · exact p.last_kind t ht
  closing_kind := p.closing_kind
  separator_kind := p.separator_kind
  arguments_eq_nil h := by rw [p.arguments_eq_nil h, collapse]

variable (p : Parts)

/-- Behind the head stands no piece of a string. -/
theorem startsAfresh : StartsAfresh (p.closing ++ (p.separator.toList ++ p.arguments)) := by
  intro t ht
  have hpiece : t.kind.isDquotePiece = false := by
    refine isDquotePiece_of_isLeading (isLeading_iff.mpr ?_)
    cases hclosing : p.closing with
    | cons c cs =>
        rw [hclosing] at ht
        exact Or.inr (Or.inl (p.closing_kind t (by rw [hclosing, ← Option.some.inj ht]; simp)))
    | nil =>
        cases hsep : p.separator with
        | none => simp [hclosing, hsep, p.arguments_eq_nil hsep] at ht
        | some d =>
            rw [hclosing, hsep] at ht
            exact Or.inr (Or.inr (p.separator_kind t (by rw [hsep]; exact ht)))
  constructor <;> intro heq <;> rw [heq] at hpiece <;> exact absurd hpiece (by decide)

/-- Folding a command folds its parts. -/
theorem tokens_fold : p.fold.tokens = collapse p.tokens := by
  have hleading : ∀ t ∈ p.leading, t.kind ≠ .stringDquoteBegin := fun t ht =>
    ne_opening_of_isLeading (isLeading_iff.mpr (p.leading_kind t ht))
  have hclosing : ∀ t ∈ p.closing, t.kind ≠ .stringDquoteBegin := fun t ht =>
    ne_opening_of_isLeading (isLeading_iff.mpr (Or.inr (Or.inl (p.closing_kind t ht))))
  have hseparator : ∀ t ∈ p.separator.toList, t.kind ≠ .stringDquoteBegin := by
    intro t ht
    have hkind := p.separator_kind t (by simpa using ht)
    exact ne_opening_of_isLeading (isLeading_iff.mpr (Or.inr (Or.inr hkind)))
  refine (Folds.collapse_eq ?_).symm
  refine .prepend hleading ((folds_collapse p.head).append ?_ p.startsAfresh)
  exact .prepend hclosing (.prepend hseparator (folds_collapse p.arguments))

end Parts

/-- The commands `ts` and `us` name the same program in the same way, and hand the same text to
it. -/
structure NamesAlike (ts us : List Token) : Prop where
  name : (identify us).name = (identify ts).name
  head : (identify us).head = (identify ts).head
  switches : (identify us).switches = (identify ts).switches
  isIdentified : (identify us).isIdentified = (identify ts).isIdentified
  arguments : stringify ((identify us).arguments us) = stringify ((identify ts).arguments ts)

theorem NamesAlike.refl (ts : List Token) : NamesAlike ts ts :=
  ⟨rfl, rfl, rfl, rfl, rfl⟩

theorem namesAlike_fold (p : Parts) (h : quoteOpen p.fold.head = quoteOpen p.head) :
    NamesAlike p.tokens p.fold.tokens := by
  have hhead : stringify p.fold.head = stringify p.head := (folds_collapse p.head).stringify_eq
  by_cases hopen : quoteOpen p.head = true
  · rw [hopen] at h
    have hts := Parts.identify_of_quoteOpen hopen
    have hus := Parts.identify_of_quoteOpen h
    refine ⟨by rw [hts, hus], by rw [hts, hus], by rw [hts, hus], by rw [hts, hus], ?_⟩
    rw [hts, hus]
    show stringify p.fold.tokens = stringify p.tokens
    rw [p.tokens_fold, (folds_collapse p.tokens).stringify_eq]
  · have hclosed : ¬ quoteOpen p.fold.head = true := by rwa [h]
    have hts := Parts.identify_of_quoteClosed hopen
    have hus := Parts.identify_of_quoteClosed hclosed
    have hswitches : CmdArguments.ofTokens p.fold.arguments = CmdArguments.ofTokens p.arguments :=
      (folds_collapse p.arguments).ofTokensFrom_eq []
    rw [hhead, hswitches] at hus
    refine ⟨by rw [hts, hus], by rw [hts, hus], by rw [hts, hus], by rw [hts, hus]; rfl, ?_⟩
    rw [Parts.arguments_identify hopen, Parts.arguments_identify hclosed]
    exact (folds_collapse p.arguments).stringify_eq

/-- Behind the reserved word `SET` a separator is seen as before. -/
theorem namesAlike_setWord {leading ts us : List Token} {w : Token}
    (hleading : ∀ t ∈ leading, isLeading t = true) (hw : w.kind = .setWord) (h : Folds ts us) :
    NamesAlike (leading ++ w :: ts) (leading ++ w :: us) := by
  have hts := identify_setWord hleading hw ts
  have hus := identify_setWord hleading hw us
  refine ⟨by rw [hts, hus], by rw [hts, hus], by rw [hts, hus], by rw [hts, hus]; rfl, ?_⟩
  rw [arguments_setWord hleading hw, arguments_setWord hleading hw]
  cases h with
  | nil => rfl
  | @kept t ts us ht hs =>
      rw [List.head?_cons, List.head?_cons, List.tail_cons, List.tail_cons]
      split
      · exact hs.stringify_eq
      · exact (Folds.kept ht hs).stringify_eq
  | closed hopening hcontent hclosing hs =>
      rw [if_neg (by simp), if_neg (by simp [hopening])]
      exact (Folds.closed hopening hcontent hclosing hs).stringify_eq

/-- Of a command in which only the last string can be open, folding changes nothing that its
program depends on. -/
theorem namesAlike_collapse {ts : List Token} {r : StringPlace} (h : Strung .outside ts r) :
    NamesAlike ts (collapse ts) := by
  rcases command_cases ts with hall | ⟨leading, w, rest, rfl, hleading, hw⟩ | ⟨p, rfl⟩
  · rw [(Folds.of_unopened fun t ht => ne_opening_of_isLeading (hall t ht)).collapse_eq]
    exact .refl ts
  · have hfolds : Folds (leading ++ w :: rest) (leading ++ w :: collapse rest) :=
      .prepend (fun t ht => ne_opening_of_isLeading (hleading t ht))
        (.kept (by simp [hw]) (folds_collapse rest))
    rw [hfolds.collapse_eq]
    exact namesAlike_setWord hleading hw (folds_collapse rest)
  · obtain ⟨q, hleading, hrest⟩ := h.exists_of_append
    obtain rfl := hleading.eq_of_others fun t ht =>
      isDquotePiece_of_isLeading (isLeading_iff.mpr (p.leading_kind t ht))
    obtain ⟨q, hhead, -⟩ := hrest.exists_of_append
    rw [← p.tokens_fold]
    refine namesAlike_fold p ?_
    exact ((folds_collapse p.head).strung hhead).quoteOpen_eq.trans hhead.quoteOpen_eq.symm

/--
**Folding strings does not change what a command is taken for.**  Whatever the text and whichever
passes clean its tokens, the program, its head and its switches are the same with the closed strings
folded as without, and the arguments spell the same text.
-/
theorem namesAlike_cleaned (options : Cleaning) (s : Text) :
    NamesAlike (options.apply (tokenize s)) (collapse (options.apply (tokenize s))) := by
  obtain ⟨r, hread⟩ := exists_strung_tokenize s
  obtain ⟨r', hcleaned, -⟩ := StrungLike.apply options ⟨r, hread, Iff.rfl⟩
  exact namesAlike_collapse hcleaned

end Program

end BatchTrace
