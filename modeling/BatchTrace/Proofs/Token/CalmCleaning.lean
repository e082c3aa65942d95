/-
Cleaning a text without special characters.

Nothing is escaped or quoted in such a text and no two of its tokens can be merged, so
cleaning comes down to its last step: white space becomes single spaces, and what separates
nothing at the end is dropped.  `tidy` does that to lexemes.

What is left can be read once more.  Blanks at the end of an assignment are part of it and
are kept by cleaning, but not by the trimming that a text goes through before it is read
again; `Shortened` says that nothing else is different the second time.
-/
import BatchTrace.Proofs.Text.Trimming
import BatchTrace.Proofs.Token.Alphabet
import BatchTrace.Proofs.Token.Calm
import BatchTrace.Proofs.Token.NormalForm
import BatchTrace.Proofs.Token.Outcome
import BatchTrace.Proofs.Token.Widening

namespace BatchTrace

open Chunk Lexeme

variable {t run : Text} {xs ys : List Lexeme}

/-! ### Kinds and neighbours -/

namespace Kind

/-- The kinds that an assignment consists of. -/
def isAssigned : Kind → Bool
  | setName | setAssignment | setValue => true
  | _ => false

theorem ne_of_isAssigned {k l : Kind} (hk : k.isAssigned = true) (hl : l.isAssigned = false) :
    k ≠ l := by
  rintro rfl
  rw [hk] at hl
  exact absurd hl (by simp)

/-- The kinds that occur in a text without special characters. -/
def isCalm (k : Kind) : Bool :=
  k.isWord || k.isAssigned || k = setWord || k = delimiter || k = doubleEquals

theorem ne_of_isCalm {k l : Kind} (hk : k.isCalm = true) (hl : l.isCalm = false) : k ≠ l := by
  rintro rfl
  rw [hk] at hl
  exact absurd hl (by simp)

end Kind

theorem isAssigned_assignment {k : Kind} (hk : k.isAssigned = true) (a v : Text) :
    ∀ x ∈ ofText k a ++ ⟨.setAssignment, ['=']⟩ :: ofText .setValue v, x.kind.isAssigned = true :=
  Lexer.forall_kind_assignment (p := (·.isAssigned = true)) hk rfl rfl a v

theorem isAssigned_quotedAssignment (t : Text) :
    ∀ x ∈ Lexer.quotedAssignment t, x.kind.isAssigned = true :=
  Lexer.forall_kind_quotedAssignment (p := (·.isAssigned = true)) rfl rfl rfl t

theorem Kind.isCalm_of_isAssigned {k : Kind} (h : k.isAssigned = true) : k.isCalm = true := by
  simp [isCalm, h]

namespace Calmly

theorem isCalm_kind (h : Calmly t xs) : ∀ x ∈ xs, x.kind.isCalm = true := by
  have hset : ∀ {run b : Text} {ws : List Lexeme}, (∀ x ∈ ws, x.kind.isAssigned = true) →
      ∀ x ∈ ⟨.setWord, run⟩ :: (ofText .delimiter b ++ ws), x.kind.isCalm = true := by
    intro run b ws hws x hx
    rcases List.mem_cons.mp hx with rfl | hx
    · rfl
    · rcases List.mem_append.mp hx with hx | hx
      · rw [kind_of_mem_ofText hx]
        rfl
      · exact Kind.isCalm_of_isAssigned (hws x hx)
  induction h with
  | nil => simp
  | @word run t xs hword hset h ih =>
      intro x hx
      rcases List.mem_cons.mp hx with rfl | hx
      · exact forall_kind_word (by decide) run
      · exact ih x hx
  | @gap run t xs hgap h ih =>
      intro x hx
      rcases List.mem_cons.mp hx with rfl | hx
      · exact forall_kind_gap (by decide) run
      · exact ih x hx
  | @value run b v => exact hset (isAssigned_assignment (k := .setName) rfl [] v)
  | @name run b t => exact hset (isAssigned_quotedAssignment t)

theorem eq_nil (h : Calmly [] xs) : xs = [] := by
  generalize hnil : ([] : Text) = t at h
  cases h with
  | nil => rfl
  | word hword => exact absurd (List.append_eq_nil_iff.mp hnil.symm).1 hword.ne_nil
  | gap hgap => exact absurd (List.append_eq_nil_iff.mp hnil.symm).1 hgap.ne_nil
  | value hword => exact absurd (List.append_eq_nil_iff.mp hnil.symm).1 hword.ne_nil
  | name hword => exact absurd (List.append_eq_nil_iff.mp hnil.symm).1 hword.ne_nil

end Calmly

/-- A run does not begin with a character of another class. -/
theorem not_stop {p : Char → Bool} (hne : run ≠ []) (hrun : ∀ c ∈ run, p c = false)
    (h : ∀ c ∈ (run ++ t).head?, p c = true) : False := by
  obtain ⟨c, more, rfl⟩ := List.exists_cons_of_ne_nil hne
  have hc := h c rfl
  rw [hrun c (by simp)] at hc
  exact absurd hc (by simp)

theorem IsWord.not_separators (h : IsWord run t) {rest : Text}
    (hstop : ∀ c ∈ (run ++ rest).head?, isDelimiter c = true) : False :=
  not_stop h.ne_nil (fun c hc => isDelimiter_of_isOrdinary (h.ordinary c hc)) hstop

theorem IsGap.not_ordinary (h : IsGap run t) {rest : Text}
    (hstop : ∀ c ∈ (run ++ rest).head?, isOrdinary c = true) : False :=
  not_stop h.ne_nil (fun c hc => by simp [isOrdinary, h.separators c hc]) hstop

namespace Calmly

/-- After a word comes nothing that could be merged with it. -/
theorem not_mergeable_head? (h : Calmly t xs) (ht : ∀ c ∈ t.head?, isDelimiter c = true) :
    ∀ x ∈ xs.head?, x.kind.isMergeable = false := by
  cases h with
  | nil => simp
  | word hword => exact (hword.not_separators ht).elim
  | @gap run =>
      rintro x ⟨⟩
      have hgap := forall_kind_gap (p := fun k => !k.isMergeable) (by decide) run
      simpa using hgap
  | value hword => exact (hword.not_separators ht).elim
  | name hword => exact (hword.not_separators ht).elim

/-- A text that begins with an ordinary character begins with a word. -/
theorem exists_word_head? (h : Calmly t xs) (ht : ∀ c ∈ t.head?, isOrdinary c = true) :
    xs = [] ∨ ∃ run xs', xs = ⟨(Chunk.word run).kind, run⟩ :: xs' ∧ run.head? = t.head? := by
  have hset : ∀ {run t : Text} {xs : List Lexeme}, IsWord run t →
      (Chunk.word run).kind = .setWord →
      ∃ run' xs', ⟨.setWord, run⟩ :: xs = ⟨(Chunk.word run').kind, run'⟩ :: xs' ∧
        run'.head? = (run ++ t).head? := by
    intro run t xs hword hset
    exact ⟨run, xs, by rw [hset], (List.head?_append_of_ne_nil _ hword.ne_nil).symm⟩
  cases h with
  | nil => exact .inl rfl
  | @word run _ xs hword =>
      exact .inr ⟨run, xs, rfl, (List.head?_append_of_ne_nil _ hword.ne_nil).symm⟩
  | gap hgap => exact (hgap.not_ordinary ht).elim
  | value hword hkind => exact .inr (hset hword hkind)
  | name hword hkind => exact .inr (hset hword hkind)

/-- After a gap comes no other one. -/
theorem not_delimiter_head? (h : Calmly t xs) (ht : ∀ c ∈ t.head?, isOrdinary c = true) :
    ∀ x ∈ xs.head?, x.kind ≠ .delimiter := by
  rcases h.exists_word_head? ht with rfl | ⟨run, xs', rfl, -⟩
  · simp
  · rintro x ⟨⟩
    exact kind_word_ne_delimiter run

end Calmly

/-- Two kinds that cleaning makes one of. -/
def Kind.Fusable (k l : Kind) : Prop :=
  Kind.Mergeable k l ∨ Kind.Separators k l

theorem apart_assignment (run b : Text) {ws : List Lexeme}
    (hws : ∀ x ∈ ws, x.kind.isAssigned = true)
    (h : ws.IsChain fun x y => ¬ Kind.Fusable x.kind y.kind) :
    (⟨.setWord, run⟩ :: (ofText .delimiter b ++ ws)).IsChain
      fun x y => ¬ Kind.Fusable x.kind y.kind := by
  have hother : ∀ {x : Lexeme}, x.kind.isMergeable = false → ∀ y ∈ ws.head?,
      ¬ Kind.Fusable x.kind y.kind := by
    rintro x hx y hy (hmerge | hsep)
    · rw [hmerge.1, hmerge.2] at hx
      exact absurd hx (by simp)
    · exact Kind.ne_of_isAssigned (hws y (List.mem_of_mem_head? hy)) rfl hsep.2
  cases b with
  | nil => exact List.isChain_cons.mpr ⟨hother rfl, h⟩
  | cons c b =>
      refine List.isChain_cons_cons.mpr ⟨?_, List.isChain_cons.mpr ⟨hother rfl, h⟩⟩
      rintro (hmerge | hsep)
      · exact absurd hmerge.1 (by simp)
      · exact absurd hsep.1 (by simp)

theorem apart_quotedAssignment (t : Text) :
    (Lexer.quotedAssignment t).IsChain fun x y => ¬ Kind.Fusable x.kind y.kind := by
  unfold Lexer.quotedAssignment
  split
  · rename_i a v _
    cases a <;> cases v <;> simp [ofText, Kind.Fusable, Kind.Mergeable, Kind.Separators]
  · cases t <;> simp [ofText]

/-- Cleaning finds no neighbours to make one of. -/
theorem Calmly.apart (h : Calmly t xs) : xs.IsChain fun x y => ¬ Kind.Fusable x.kind y.kind := by
  induction h with
  | nil => exact List.isChain_nil
  | @word run t xs hword hset h ih =>
      refine List.isChain_cons.mpr ⟨?_, ih⟩
      rintro y hy (hmerge | hsep)
      · have hnot := h.not_mergeable_head? hword.stop y hy
        rw [hmerge.2] at hnot
        exact absurd hnot (by simp)
      · exact kind_word_ne_delimiter run hsep.1
  | @gap run t xs hgap h ih =>
      refine List.isChain_cons.mpr ⟨?_, ih⟩
      rintro y hy (hmerge | hsep)
      · have hkind := forall_kind_gap (p := fun k => !k.isMergeable) (by decide) run
        have hsame : (Chunk.delimiter run).kind = y.kind := hmerge.1
        rw [hsame, hmerge.2] at hkind
        exact absurd hkind (by simp)
      · exact h.not_delimiter_head? hgap.stop y hy hsep.2
  | @value run b v =>
      refine apart_assignment run b (isAssigned_assignment (k := .setName) rfl [] v) ?_
      cases v <;> simp [ofText, Kind.Fusable, Kind.Mergeable, Kind.Separators]
  | @name run b t =>
      exact apart_assignment run b (isAssigned_quotedAssignment t) (apart_quotedAssignment t)

/-! ### What cleaning leaves -/

namespace Lexeme

/-- White space between words is one space. -/
def squeeze (x : Lexeme) : Lexeme :=
  if x.kind == .delimiter && x.text.all fun c => !(c = ',' || c = ';' || c = '=') then
    ⟨x.kind, [' ']⟩
  else x

/-- Lexemes with single spaces for white space, and without separators at the end. -/
def tidy (xs : List Lexeme) : List Lexeme :=
  (xs.map squeeze).rdropWhile (·.kind = .delimiter)

theorem squeeze_of_ne {x : Lexeme} (h : x.kind ≠ .delimiter) : x.squeeze = x := by
  simp [squeeze, h]

@[simp] theorem kind_squeeze (x : Lexeme) : x.squeeze.kind = x.kind := by
  unfold squeeze
  split <;> rfl

theorem lexeme_singleSpace (t : Token) : t.singleSpace.lexeme = t.lexeme.squeeze := by
  unfold Token.singleSpace squeeze Token.isBlankDelimiter
  split
  · rename_i h
    exact (if_pos h).symm
  · rename_i h
    exact (if_neg h).symm

end Lexeme

namespace Token

variable {ts : List Token}

/-- The passes before the one on blanks find nothing to do. -/
theorem apply_standard_of_calmly (h : Calmly t (ts.map lexeme)) :
    Cleaning.standard.apply ts = trimBlanks (ts.map singleSpace) := by
  have hkinds : ∀ u ∈ ts, u.kind.isCalm = true := fun u hu =>
    h.isCalm_kind u.lexeme (List.mem_map_of_mem hu)
  have hapart : Apart Kind.Fusable ts := (List.isChain_map lexeme).mp h.apart
  have hunescaped : Unescaped ts := fun u hu =>
    ⟨Kind.ne_of_isCalm (hkinds u hu) rfl, Kind.ne_of_isCalm (hkinds u hu) rfl⟩
  have hunquoted : ∀ u ∈ ts, u.kind ≠ .stringDquoteBegin := fun u hu =>
    Kind.ne_of_isCalm (hkinds u hu) rfl
  have hempty : Apart Kind.EmptyPair ts := by
    refine List.Pairwise.isChain (List.pairwise_of_forall_mem_list ?_)
    intro u hu v _ hpair
    exact hunquoted u hu hpair.1
  have hsep : Apart Kind.Separators ts := hapart.imp fun _ _ hnot hsep => hnot (.inr hsep)
  have hmerge : Apart Kind.Mergeable ts := hapart.imp fun _ _ hnot hmerge => hnot (.inl hmerge)
  show stripBlanks (widen true (mergeLiterals (stripEmptyStrings (applyEscapes ts)))) = _
  rw [applyEscapes_of_unescaped hunescaped, stripEmptyStrings_of_apart hempty,
    mergeLiterals_of_apart hmerge, widen_of_plain hunquoted, stripBlanks,
    fuseRuns_of_apart separators_iff hsep]

end Token

theorem Block.peel_of_ungrouped {ts : List Token} (h : ∀ u ∈ ts, u.kind ≠ .lParen) :
    peel ts = trimDelimiters ts := by
  have hnone : inner? (trimDelimiters ts) = none :=
    inner?_eq_none_of_head? fun u hu => h u (trimDelimiters_subset ts (List.mem_of_mem_head? hu))
  rw [peel_eq, hnone]

theorem rdropWhile_map {α β : Type} (f : α → β) (p : β → Bool) (l : List α) :
    (l.map f).rdropWhile p = (l.rdropWhile (p ∘ f)).map f := by
  rw [List.rdropWhile, List.rdropWhile, ← List.map_reverse, List.dropWhile_map, List.map_reverse]

/-- Dropping fewer first makes no difference. -/
theorem rdropWhile_rdropWhile {α : Type} {p q : α → Bool} (h : ∀ x, q x = true → p x = true)
    (l : List α) : (l.rdropWhile q).rdropWhile p = l.rdropWhile p := by
  induction l using List.reverseRecOn with
  | nil => rfl
  | append_singleton l x ih =>
      by_cases hq : q x = true
      · rw [List.rdropWhile_concat_pos _ _ _ hq, ih, List.rdropWhile_concat_pos _ _ _ (h x hq)]
      · rw [List.rdropWhile_concat_neg _ _ _ hq]

theorem dropWhile_rdropWhile_of_head? {α : Type} {p q : α → Bool} {l : List α}
    (h : ∀ x ∈ l.head?, p x = false) : (l.rdropWhile q).dropWhile p = l.rdropWhile q := by
  cases hl : l.rdropWhile q with
  | nil => rfl
  | cons x rest =>
      have hx : x ∈ l.head? := by
        obtain ⟨back, hback⟩ := List.rdropWhile_prefix q (l := l)
        rw [← hback, hl]
        rfl
      exact List.dropWhile_cons_of_neg (by simp [h x hx])

/-- Where no separator stands in front, trimming drops those at the end. -/
theorem Token.map_lexeme_trim {ts : List Token} (h : ∀ u ∈ ts.head?, u.kind ≠ .delimiter) :
    (Block.trimDelimiters (trimBlanks ts)).map lexeme =
      (ts.map lexeme).rdropWhile (·.kind = .delimiter) := by
  have hblank : trimBlanks ts = ts.rdropWhile isBlankDelimiter := by
    have hfront : ts.dropWhile isBlankDelimiter = ts := dropWhile_of_head? fun u hu => by
      simp [isBlankDelimiter, h u hu]
    rw [trimBlanks, hfront]
    rfl
  show (((trimBlanks ts).dropWhile (·.kind = .delimiter)).rdropWhile (·.kind = .delimiter)).map
    lexeme = _
  rw [hblank, dropWhile_rdropWhile_of_head? (by simpa using h), rdropWhile_rdropWhile,
    rdropWhile_map]
  · rfl
  · intro u hu
    simpa using kind_of_isBlankDelimiter hu

/-- **Of a text without special characters that begins with a word, cleaning leaves its lexemes
tidied up.** -/
theorem Calm.lexemes_cleaned (ht : Calm t) (hfirst : ∀ c ∈ t.head?, isOrdinary c = true) :
    (Block.peel (Cleaning.standard.apply (Token.tokenize t))).map Token.lexeme =
      tidy (Lexer.lexemes t) := by
  rw [← Token.map_lexeme_tokenize]
  have hcalm : Calmly t ((Token.tokenize t).map Token.lexeme) := by
    rw [Token.map_lexeme_tokenize]
    exact ht.calmly
  generalize Token.tokenize t = ts at hcalm ⊢
  have hkinds : ∀ u ∈ Token.trimBlanks (ts.map Token.singleSpace), u.kind ≠ .lParen := by
    intro u hu
    obtain ⟨v, hv, rfl⟩ := List.mem_map.mp (Token.mem_of_mem_trimBlanks hu)
    rw [Token.kind_singleSpace]
    exact Kind.ne_of_isCalm (hcalm.isCalm_kind v.lexeme (List.mem_map_of_mem hv)) rfl
  have hhead : ∀ u ∈ (ts.map Token.singleSpace).head?, u.kind ≠ .delimiter := by
    have hlexeme := hcalm.not_delimiter_head? hfirst
    cases ts with
    | nil => simp
    | cons v rest =>
        rintro u ⟨⟩
        rw [Token.kind_singleSpace]
        exact hlexeme v.lexeme rfl
  have hsqueeze : (ts.map Token.singleSpace).map Token.lexeme =
      (ts.map Token.lexeme).map squeeze := by
    simp [lexeme_singleSpace]
  rw [Token.apply_standard_of_calmly hcalm, Block.peel_of_ungrouped hkinds,
    Token.map_lexeme_trim hhead, hsqueeze]
  rfl

/-! ### Blanks at the end -/

theorem isBlank_of_isOrdinary {c : Char} (hcalm : isCalm c = true) (h : isOrdinary c = true) :
    Text.isBlank c = false := by
  rw [isBlank_of_isCalm hcalm, beq_eq_false_iff_ne]
  rintro rfl
  exact absurd h (by decide)

/-- A word has no blanks at its end. -/
theorem IsWord.trimEnd_append (h : IsWord run t) (hcalm : Calm run) (s : Text) :
    Text.trimEnd (run ++ s) = run ++ Text.trimEnd s := by
  refine Text.trimEnd_append_of_last ?_ s
  intro c hc
  have hmem := List.mem_of_mem_getLast? hc
  exact isBlank_of_isOrdinary (hcalm c hmem) (h.ordinary c hmem)

namespace Lexeme

theorem squeeze_squeeze (x : Lexeme) : x.squeeze.squeeze = x.squeeze := by
  by_cases h : (x.kind == .delimiter && x.text.all fun c => !(c = ',' || c = ';' || c = '=')) = true
  · have hx : x.squeeze = ⟨x.kind, [' ']⟩ := if_pos h
    rw [hx, squeeze, if_pos]
    rw [Bool.and_eq_true] at h
    simp [h.1]
  · have hx : x.squeeze = x := if_neg h
    rw [hx, hx]

theorem mem_text_squeeze {x : Lexeme} {c : Char} (h : c ∈ x.squeeze.text) :
    c = ' ' ∨ c ∈ x.text := by
  unfold squeeze at h
  split at h
  · exact .inl (List.mem_singleton.mp h)
  · exact .inr h

theorem text_squeeze_ne_nil {x : Lexeme} (h : x.text ≠ []) : x.squeeze.text ≠ [] := by
  unfold squeeze
  split
  · simp
  · exact h

/-- A gap of a `SET` and what it is squeezed to. -/
theorem exists_squeezed_gap {b : Text} (hb : ∀ c ∈ b, isDelimiter c = true) (hne : '=' ∉ b) :
    ∃ b', (ofText .delimiter b).map squeeze = ofText .delimiter b' ∧
      (∀ x ∈ ofText .delimiter b', x.squeeze = x) ∧ (∀ c ∈ b', isDelimiter c = true) ∧ '=' ∉ b' ∧
      (b' = [] → b = []) := by
  cases b with
  | nil => exact ⟨[], rfl, by simp [ofText], by simp, by simp, fun _ => rfl⟩
  | cons c b =>
      have hnil := text_squeeze_ne_nil (x := ⟨.delimiter, c :: b⟩) (by simp)
      have hsame : squeeze ⟨.delimiter, c :: b⟩ =
          ⟨.delimiter, (squeeze ⟨.delimiter, c :: b⟩).text⟩ :=
        congrArg (Lexeme.mk · _) (kind_squeeze ⟨.delimiter, c :: b⟩)
      refine ⟨(squeeze ⟨.delimiter, c :: b⟩).text, ?_, ?_, ?_, ?_, fun h => absurd h hnil⟩
      · rw [ofText_of_ne_nil hnil, ← hsame]
        rfl
      · rw [ofText_of_ne_nil hnil, ← hsame]
        simpa using squeeze_squeeze _
      · intro d hd
        rcases mem_text_squeeze hd with rfl | hd
        · rfl
        · exact hb d hd
      · intro hmem
        rcases mem_text_squeeze hmem with heq | hmem
        · exact absurd heq (by decide)
        · exact hne hmem

theorem tidy_cons (x : Lexeme) (xs : List Lexeme) :
    tidy (x :: xs) = if tidy xs = [] ∧ x.kind = .delimiter then [] else x.squeeze :: tidy xs := by
  rw [tidy, List.map_cons, Token.rdropWhile_cons]
  simp [tidy]

/-- An assignment at the end is not touched. -/
theorem tidy_append {us ws : List Lexeme} (hws : ∀ x ∈ ws, x.kind.isAssigned = true)
    (hne : ws ≠ []) : tidy (us ++ ws) = us.map squeeze ++ ws := by
  have hkind : ∀ x ∈ ws, x.kind ≠ .delimiter := fun x hx => Kind.ne_of_isAssigned (hws x hx) rfl
  have hsame : ws.map squeeze = ws := by
    refine (List.map_congr_left fun x hx => squeeze_of_ne (hkind x hx)).trans (List.map_id ws)
  rw [tidy, List.map_append, hsame]
  refine List.rdropWhile_eq_self_iff.mpr fun hl => ?_
  rw [List.getLast_append_of_ne_nil _ hne]
  simpa using hkind _ (List.getLast_mem hne)

end Lexeme

/-! ### Reading once more -/

/-- Lexemes that end in the assignment `ws`, and `ws'` which is `ws` without the blanks at its
end. -/
structure Shortened (us ws ws' : List Lexeme) : Prop where
  squeezed : ∀ x ∈ us, x.squeeze = x
  assigned : ∀ x ∈ ws, x.kind.isAssigned = true
  assigned' : ∀ x ∈ ws', x.kind.isAssigned = true
  spelled : spell ws' = Text.trimEnd (spell ws)
  nil_iff : ws = [] ↔ ws' = []

/-- What is left of the lexemes `xs` of `t` is `us ++ ws`, and spelled out, trimmed and read once
more it is `us ++ ws'`. -/
structure Reread (t : Text) (xs us ws ws' : List Lexeme) : Prop extends Shortened us ws ws' where
  tidied : tidy xs = us ++ ws
  calmly : Calmly (spell (us ++ ws')) (us ++ ws')
  trimmed : spell (us ++ ws') = Text.trimEnd (spell (us ++ ws))
  /-- What stands before it ends where it ended before. -/
  separators : (∀ c ∈ t.head?, isDelimiter c = true) →
    ∀ c ∈ (spell (us ++ ws')).head?, isDelimiter c = true
  ordinary : (∀ c ∈ t.head?, isOrdinary c = true) → (spell (us ++ ws')).head? = t.head?

namespace Reread

variable {us ws ws' : List Lexeme}

theorem nil : Reread [] [] [] [] [] where
  squeezed := by simp
  assigned := by simp
  assigned' := by simp
  spelled := rfl
  nil_iff := Iff.rfl
  tidied := rfl
  calmly := .nil
  trimmed := rfl
  separators _ := by simp
  ordinary _ := rfl

/-- Another lexeme in front, which is kept. -/
theorem cons (h : Reread t xs us ws ws') {x : Lexeme} (hne : x.text ≠ [])
    (hcalmly : Calmly (x.squeeze.text ++ spell (us ++ ws')) (x.squeeze :: (us ++ ws')))
    (hkept : x.kind ≠ .delimiter ∨ spell (us ++ ws') ≠ [])
    (htrim : x.kind ≠ .delimiter → ∀ s, Text.trimEnd (x.text ++ s) = x.text ++ Text.trimEnd s)
    (hgap : x.kind = .delimiter → ∀ c ∈ x.text, isDelimiter c = true) :
    Reread (x.text ++ t) (x :: xs) (x.squeeze :: us) ws ws' where
  squeezed := by
    intro y hy
    rcases List.mem_cons.mp hy with rfl | hy
    · exact squeeze_squeeze x
    · exact h.squeezed y hy
  assigned := h.assigned
  assigned' := h.assigned'
  spelled := h.spelled
  nil_iff := h.nil_iff
  tidied := by
    rw [tidy_cons, if_neg, h.tidied]
    · rfl
    · rintro ⟨hnil, hkind⟩
      rcases hkept with hkept | hkept
      · exact hkept hkind
      · rw [h.trimmed, ← h.tidied, hnil] at hkept
        exact hkept rfl
  calmly := hcalmly
  trimmed := by
    have hspell := h.trimmed
    show x.squeeze.text ++ spell (us ++ ws') = Text.trimEnd (x.squeeze.text ++ spell (us ++ ws))
    rcases hkept with hkept | hkept
    · rw [squeeze_of_ne hkept, htrim hkept, hspell]
    · rw [Text.trimEnd_append_of_ne_nil (hspell ▸ hkept), hspell]
  separators hstop := by
    intro c hc
    have hc' : c ∈ x.squeeze.text.head? := by
      rwa [List.cons_append, spell_cons,
        List.head?_append_of_ne_nil _ (text_squeeze_ne_nil hne)] at hc
    by_cases hkind : x.kind = .delimiter
    · rcases mem_text_squeeze (List.mem_of_mem_head? hc') with rfl | hmem
      · rfl
      · exact hgap hkind c hmem
    · rw [squeeze_of_ne hkind] at hc'
      exact hstop c (by rwa [List.head?_append_of_ne_nil _ hne])
  ordinary hstop := by
    rw [List.cons_append, spell_cons, List.head?_append_of_ne_nil _ (text_squeeze_ne_nil hne),
      List.head?_append_of_ne_nil _ hne]
    by_cases hkind : x.kind = .delimiter
    · refine (not_stop hne (fun c hc => ?_) hstop).elim
      simp [isOrdinary, hgap hkind c hc]
    · rw [squeeze_of_ne hkind]

end Reread

theorem Calmly.squeezed_gap {s : Text} (hgap : IsGap run t)
    (hkind : (Chunk.delimiter run).kind = .delimiter) (hs : ∀ c ∈ s.head?, isOrdinary c = true)
    (h : Calmly s ys) :
    Calmly ((squeeze ⟨.delimiter, run⟩).text ++ s) (squeeze ⟨.delimiter, run⟩ :: ys) := by
  by_cases hblank : squeeze ⟨.delimiter, run⟩ = ⟨.delimiter, run⟩
  · have hcalmly := Calmly.gap ⟨hgap.ne_nil, hgap.separators, hs⟩ h
    rw [hkind] at hcalmly
    rwa [hblank]
  · have hspace : squeeze ⟨.delimiter, run⟩ = ⟨.delimiter, [' ']⟩ := by
      unfold squeeze at hblank ⊢
      split
      · rfl
      · rename_i hnot
        exact absurd (if_neg hnot) hblank
    rw [hspace]
    exact .gap ⟨by simp, by simp [isDelimiter], hs⟩ h

/-- A `SET` with the assignment `ws`, in which only the blanks at the end change. -/
theorem Reread.set {b : Text} {ws ws' : List Lexeme} (hword : IsWord run (b ++ spell ws))
    (hrun : Calm run) (hb : ∀ c ∈ b, isDelimiter c = true) (hne : '=' ∉ b)
    (hws : ∀ x ∈ ws, x.kind.isAssigned = true) (hws' : ∀ x ∈ ws', x.kind.isAssigned = true)
    (hspell : spell ws' = Text.trimEnd (spell ws)) (hhead : (spell ws').head? = (spell ws).head?)
    (hnil : spell ws ≠ [])
    (hcalmly : ∀ b', IsWord run (b' ++ spell ws') → (∀ c ∈ b', isDelimiter c = true) → '=' ∉ b' →
      Calmly (run ++ (b' ++ spell ws')) (⟨.setWord, run⟩ :: (ofText .delimiter b' ++ ws'))) :
    ∃ us, Reread (run ++ (b ++ spell ws)) (⟨.setWord, run⟩ :: (ofText .delimiter b ++ ws))
      us ws ws' := by
  obtain ⟨b', hmap, hsqueezed, hb', hne', hgap⟩ := exists_squeezed_gap hb hne
  have hnil' : spell ws' ≠ [] := by
    intro hempty
    rw [hempty] at hhead
    exact hnil (List.head?_eq_none_iff.mp hhead.symm)
  have hwhole : ∀ zs : List Lexeme, spell (⟨.setWord, run⟩ :: ofText .delimiter b' ++ zs) =
      run ++ (b' ++ spell zs) := by
    intro zs
    rw [List.cons_append, spell_cons, spell_append, (Covers.ofText (by simp) b').spelled]
  have hword' : IsWord run (b' ++ spell ws') := by
    refine ⟨hword.ne_nil, hword.ordinary, ?_⟩
    intro c hc
    by_cases hempty : b' = []
    · rw [hempty, List.nil_append, hhead] at hc
      exact hword.stop c (by rwa [hgap hempty])
    · rw [List.head?_append_of_ne_nil _ hempty] at hc
      exact hb' c (List.mem_of_mem_head? hc)
  refine ⟨⟨.setWord, run⟩ :: ofText .delimiter b', ⟨?_, hws, hws', hspell, ?_⟩, ?_, ?_, ?_, ?_, ?_⟩
  · intro x hx
    rcases List.mem_cons.mp hx with rfl | hx
    · exact squeeze_of_ne (by simp)
    · exact hsqueezed x hx
  · refine ⟨fun h => absurd (by rw [h]; rfl) hnil, fun h => absurd (by rw [h]; rfl) hnil'⟩
  · rw [tidy_cons, if_neg (by simp), tidy_append hws (fun h => hnil (by rw [h]; rfl)), hmap,
      squeeze_of_ne (by simp)]
    rfl
  · rw [hwhole]
    exact hcalmly b' hword' hb' hne'
  · rw [hwhole, hwhole, hword.trimEnd_append hrun, Text.trimEnd_append_of_ne_nil (hspell ▸ hnil'),
      hspell]
  · intro hstop
    exact (hword.not_separators hstop).elim
  · intro _
    rw [hwhole, List.head?_append_of_ne_nil _ hword.ne_nil,
      List.head?_append_of_ne_nil _ hword.ne_nil]

theorem Reread.value {b v : Text} (hword : IsWord run (b ++ '=' :: v)) (hrun : Calm run)
    (hset : (Chunk.word run).kind = .setWord) (hb : ∀ c ∈ b, isDelimiter c = true) (hne : '=' ∉ b) :
    ∃ us ws ws', Reread (run ++ (b ++ '=' :: v))
      (⟨.setWord, run⟩ :: (ofText .delimiter b ++ ⟨.setAssignment, ['=']⟩ :: ofText .setValue v))
      us ws ws' := by
  have hspell : ∀ v : Text, spell (⟨.setAssignment, ['=']⟩ :: ofText .setValue v) = '=' :: v := by
    intro v
    rw [spell_cons, (Covers.ofText (by simp) v).spelled]
    rfl
  have hassigned : ∀ v : Text, ∀ x ∈ ⟨.setAssignment, ['=']⟩ :: ofText .setValue v,
      x.kind.isAssigned = true := isAssigned_assignment (k := .setName) rfl []
  have htrim : Text.trimEnd ('=' :: v) = '=' :: Text.trimEnd v :=
    Text.trimEnd_append_of_last (a := ['=']) (by simp; decide) v
  rw [← hspell v] at hword ⊢
  obtain ⟨us, hr⟩ := Reread.set hword hrun hb hne (hassigned v) (hassigned (Text.trimEnd v))
    (by rw [hspell, hspell, htrim]) (by rw [hspell, hspell]; rfl) (by simp [hspell])
    (by
      intro b' hword' hb' hne'
      rw [hspell] at hword' ⊢
      exact .value hword' hset hb' hne')
  exact ⟨us, _, _, hr⟩

theorem Reread.name {b t : Text} (hword : IsWord run (b ++ t)) (hrun : Calm run) (ht : Calm t)
    (hset : (Chunk.word run).kind = .setWord) (hb : ∀ c ∈ b, isDelimiter c = true) (hne : '=' ∉ b)
    (hstop : ∀ c ∈ t.head?, isOrdinary c = true) :
    ∃ us ws ws', Reread (run ++ (b ++ t))
      (⟨.setWord, run⟩ :: (ofText .delimiter b ++ Lexer.quotedAssignment t)) us ws ws' := by
  have hspell : ∀ t : Text, spell (Lexer.quotedAssignment t) = t := fun t =>
    (Lexer.covers_quotedAssignment t).spelled
  by_cases hnil : t = []
  · -- Of a `SET` that assigns nothing the word itself is left.
    subst hnil
    have hcalmly := @Calmly.name run [] [] ⟨hword.ne_nil, hword.ordinary, by simp⟩ hset (by simp)
      (by simp) (by simp)
    refine ⟨[⟨.setWord, run⟩], [], [], { Reread.nil.toShortened with
      squeezed := ?_, tidied := ?_, calmly := ?_, trimmed := ?_, separators := ?_, ordinary := ?_ }⟩
    · simpa using squeeze_of_ne (x := ⟨.setWord, run⟩) (by simp)
    · rw [tidy_cons, if_neg (by simp), squeeze_of_ne (by simp)]
      refine congrArg _ ?_
      show tidy (ofText .delimiter b ++ []) = []
      cases b with
      | nil => rfl
      | cons c b => exact (tidy_cons ⟨.delimiter, c :: b⟩ []).trans (if_pos ⟨rfl, rfl⟩)
    · exact hcalmly
    · show run ++ [] = Text.trimEnd (run ++ [])
      rw [hword.trimEnd_append hrun]
      rfl
    · intro hstop
      exact (hword.not_separators hstop).elim
    · intro _
      show (run ++ []).head? = _
      rw [List.head?_append_of_ne_nil _ hword.ne_nil, List.head?_append_of_ne_nil _ hword.ne_nil]
  · have hhead : (Text.trimEnd t).head? = t.head? := Text.head?_trimEnd fun c hc =>
      isBlank_of_isOrdinary (ht c (List.mem_of_mem_head? hc)) (hstop c hc)
    rw [← hspell t] at hword
    obtain ⟨us, hr⟩ := Reread.set hword hrun hb hne (isAssigned_quotedAssignment t)
      (isAssigned_quotedAssignment (Text.trimEnd t)) (by rw [hspell, hspell])
      (by rw [hspell, hspell, hhead]) (by rwa [hspell])
      (by
        intro b' hword' hb' hne'
        rw [hspell] at hword' ⊢
        exact .name hword' hset hb' hne' (hhead ▸ hstop))
    rw [hspell] at hr
    exact ⟨us, _, _, hr⟩

/-- **What cleaning leaves of a text is read again as it was**, but for the blanks at the end of an
assignment. -/
theorem Calmly.reread (h : Calmly t xs) (ht : Calm t) :
    ∃ us ws ws', Reread t xs us ws ws' := by
  induction h with
  | nil => exact ⟨[], [], [], .nil⟩
  | @word run t xs hword hset h ih =>
      obtain ⟨us, ws, ws', hr⟩ := ih ht.of_append_right
      have hkind := kind_word_ne_delimiter run
      have hrun : Calm run := fun c hc => ht c (by simp [hc])
      refine ⟨_, ws, ws', hr.cons (x := ⟨(Chunk.word run).kind, run⟩) hword.ne_nil ?_ (.inl hkind)
        (fun _ => hword.trimEnd_append hrun) (fun hdelimiter => absurd hdelimiter hkind)⟩
      rw [squeeze_of_ne hkind]
      exact .word ⟨hword.ne_nil, hword.ordinary, hr.separators hword.stop⟩ hset hr.calmly
  | @gap run t xs hgap h ih =>
      obtain ⟨us, ws, ws', hr⟩ := ih ht.of_append_right
      have hhead := hr.ordinary hgap.stop
      have hstop : ∀ c ∈ (spell (us ++ ws')).head?, isOrdinary c = true := fun c hc =>
        hgap.stop c (hhead ▸ hc)
      rcases kind_gap run with hkind | ⟨rfl, hkind⟩
      · rw [hkind]
        by_cases hnil : t = []
        · -- Nothing comes after the gap, so it is dropped.
          subst hnil
          rw [h.eq_nil]
          refine ⟨[], [], [], { Reread.nil.toShortened with
            tidied := ?_, calmly := .nil, trimmed := rfl, separators := by simp, ordinary := ?_ }⟩
          · rw [tidy_cons, if_pos ⟨rfl, rfl⟩]
            rfl
          · intro hstop
            exact (hgap.not_ordinary hstop).elim
        · have hspell : spell (us ++ ws') ≠ [] := by
            intro hempty
            rw [hempty] at hhead
            exact hnil (List.head?_eq_none_iff.mp hhead.symm)
          exact ⟨_, ws, ws', hr.cons (x := ⟨.delimiter, run⟩) hgap.ne_nil
            (.squeezed_gap hgap hkind hstop hr.calmly) (.inr hspell) (fun hne => absurd rfl hne)
            (fun _ => hgap.separators)⟩
      · rw [hkind]
        refine ⟨_, ws, ws', hr.cons (x := ⟨.doubleEquals, ['=', '=']⟩) hgap.ne_nil ?_
          (.inl (by simp)) (fun _ => Text.trimEnd_append_of_last (by simp; decide)) (by simp)⟩
        exact .gap ⟨hgap.ne_nil, hgap.separators, hstop⟩ hr.calmly
  | @value run b v hword hset hb hne =>
      exact Reread.value hword (fun c hc => ht c (by simp [hc])) hset hb hne
  | @name run b t hword hset hb hne hstop =>
      exact Reread.name hword (fun c hc => ht c (by simp [hc])) ht.of_append_right.of_append_right
        hset hb hne hstop

end BatchTrace
