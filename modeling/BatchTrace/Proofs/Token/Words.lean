/-
Cleaning keeps the words of a line.

The words of a token list are what stands between its separators, read without the
carets and double quotes in it.  Cleaning moves quotes and glues tokens together,
and must neither lose a word doing so nor make one word of two.

The passes on carets, strings and literals never touch a separator.  They keep the
`pieces`, the texts between one separator and the next with the empty ones still
counted, because a piece looks at nothing but the text of its tokens: a stretch
without separators may be replaced by any other that spells the same.

The passes on blanks do take separators away, at the ends and next to each other,
and there only empty pieces are lost.  `words_append_delimiter` says that a separator
cuts the words of a list in two, and everything about these passes follows from it.
-/
import BatchTrace.Proofs.Token.NormalForm

namespace BatchTrace

namespace Kind

/-- Carets and double quotes, which say how text is read and are not part of it. -/
def isMark : Kind → Bool
  | escape | stringDquoteBegin | stringDquoteEnd => true
  | _ => false

theorem isMark_of_mergeable {k : Kind} (h : k.isMergeable = true) : k.isMark = false := by
  cases k <;> simp_all [isMergeable, isMark]

end Kind

namespace Token

/-- The text of some tokens without the marks among them. -/
def unmarked (ts : List Token) : Text :=
  stringify (ts.filter fun t => !t.kind.isMark)

/-- The texts between separators, empty ones counted. -/
def pieces (ts : List Token) : List Text :=
  (ts.splitOnP (·.kind = .delimiter)).map unmarked

/-- The words of a token list. -/
def words (ts : List Token) : List Text :=
  (pieces ts).filter (· ≠ [])

section

variable {t u : Token} {ts us : List Token}

@[simp] theorem unmarked_nil : unmarked [] = [] := rfl

@[simp] theorem unmarked_append (ts us : List Token) :
    unmarked (ts ++ us) = unmarked ts ++ unmarked us := by
  simp [unmarked]

theorem unmarked_cons (t : Token) (ts : List Token) :
    unmarked (t :: ts) = unmarked [t] ++ unmarked ts :=
  unmarked_append [t] ts

theorem unmarked_cons_mark (h : t.kind.isMark = true) : unmarked (t :: ts) = unmarked ts := by
  simp [unmarked, h]

theorem pieces_cons_delimiter (h : t.kind = .delimiter) : pieces (t :: ts) = [] :: pieces ts := by
  simp [pieces, List.splitOnP_cons_eq_if_modifyHead, h]

/-- A token that is no separator belongs to the first piece. -/
theorem pieces_cons (h : t.kind ≠ .delimiter) :
    pieces (t :: ts) = (pieces ts).modifyHead (unmarked [t] ++ ·) := by
  have hsplit : (t :: ts).splitOnP (·.kind = .delimiter) =
      (ts.splitOnP (·.kind = .delimiter)).modifyHead (t :: ·) := by
    rw [List.splitOnP_cons_eq_if_modifyHead, if_neg (by simpa using h)]
  rw [pieces, pieces, hsplit]
  cases ts.splitOnP (·.kind = .delimiter) with
  | nil => rfl
  | cons first rest => simp [unmarked_cons t first]

theorem pieces_append_of_free (hfree : ∀ t ∈ ts, t.kind ≠ .delimiter) :
    pieces (ts ++ us) = (pieces us).modifyHead (unmarked ts ++ ·) := by
  induction ts with
  | nil =>
      rw [List.nil_append]
      cases pieces us <;> rfl
  | cons t rest ih =>
      have hrest := ih fun u hu => hfree u (by simp [hu])
      rw [List.cons_append, pieces_cons (hfree t (by simp)), hrest]
      cases pieces us with
      | nil => rfl
      | cons first more => simp [unmarked_cons t rest]

/-- What stands before two lists with the same pieces does not tell them apart. -/
theorem pieces_append_congr (front : List Token) (h : pieces ts = pieces us) :
    pieces (front ++ ts) = pieces (front ++ us) := by
  induction front with
  | nil => exact h
  | cons t rest ih =>
      by_cases ht : t.kind = .delimiter
      · rw [List.cons_append, List.cons_append, pieces_cons_delimiter ht,
          pieces_cons_delimiter ht, ih]
      · rw [List.cons_append, List.cons_append, pieces_cons ht, pieces_cons ht, ih]

theorem pieces_cons_mark (h : t.kind.isMark = true) : pieces (t :: ts) = pieces ts := by
  have ht : t.kind ≠ .delimiter := by
    intro hkind
    rw [hkind] at h
    exact absurd h (by decide)
  rw [pieces_cons ht, unmarked_cons_mark h]
  cases pieces ts <;> rfl

/-- A token may be replaced by one that is as good a separator and spells the same. -/
theorem pieces_cons_congr (hkind : t.kind = .delimiter ↔ u.kind = .delimiter)
    (htext : unmarked [t] = unmarked [u]) (hrest : pieces ts = pieces us) :
    pieces (t :: ts) = pieces (u :: us) := by
  by_cases ht : t.kind = .delimiter
  · rw [pieces_cons_delimiter ht, pieces_cons_delimiter (hkind.mp ht), hrest]
  · rw [pieces_cons ht, pieces_cons fun hu => ht (hkind.mpr hu), htext, hrest]

end

/-! ### Carets, empty strings, literals -/

theorem pieces_applyEscapes (ts : List Token) : pieces (applyEscapes ts) = pieces ts := by
  induction ts with
  | nil => rfl
  | cons t rest ih =>
      by_cases hescape : t.kind = .escape
      · have hdrop : applyEscapes (t :: rest) = applyEscapes rest := by
          simp [applyEscapes, hescape]
        rw [hdrop, ih, pieces_cons_mark (by rw [hescape]; rfl)]
      · have hkeep : applyEscapes (t :: rest) =
            (if t.kind = .escapedLiteral then t.withKind .literal else t) :: applyEscapes rest := by
          simp [applyEscapes, hescape]
        rw [hkeep]
        by_cases hliteral : t.kind = .escapedLiteral
        · -- A caret's character changes its kind only, and neither kind is a mark.
          rw [if_pos hliteral]
          refine pieces_cons_congr ?_ ?_ ih
          · simp [withKind, hliteral]
          · simp [unmarked, withKind, hliteral, Kind.isMark]
        · rw [if_neg hliteral]
          exact pieces_cons_congr Iff.rfl rfl ih

theorem pieces_stripEmptyFrom (kept ts : List Token) :
    pieces (stripEmptyFrom kept ts) = pieces (kept.reverse ++ ts) := by
  fun_induction stripEmptyFrom kept ts with
  | case1 kept => rw [List.append_nil]
  | case2 t rest last before hpair ih =>
      -- The two quotes that go are marks, so they are in no piece.
      have hlast : last.kind.isMark = true := by rw [hpair.2]; rfl
      have ht : t.kind.isMark = true := by rw [hpair.1]; rfl
      rw [ih, List.reverse_cons, List.append_assoc]
      refine pieces_append_congr _ ?_
      rw [List.singleton_append, pieces_cons_mark hlast, pieces_cons_mark ht]
  | case3 t rest last before hpair ih => rw [ih, List.reverse_cons, List.append_assoc]; rfl
  | case4 t rest ih => rw [ih]; rfl

theorem pieces_stripEmptyStrings (ts : List Token) : pieces (stripEmptyStrings ts) = pieces ts :=
  pieces_stripEmptyFrom [] ts

theorem pieces_fuse {t next : Token} (h : Kind.Mergeable t.kind next.kind) (rest : List Token) :
    pieces (t.fuse next :: rest) = pieces (t :: next :: rest) := by
  obtain ⟨hkind, hmerge⟩ := h
  have hnext := Kind.isMark_of_mergeable hmerge
  have hfree : ∀ u ∈ [t, next], u.kind ≠ .delimiter := by
    intro u hu hdelimiter
    have hsame : u.kind = next.kind := by
      rcases List.mem_pair.mp hu with rfl | rfl
      · exact hkind
      · rfl
    rw [← hsame, hdelimiter] at hmerge
    exact absurd hmerge (by decide)
  have hspell : unmarked [t.fuse next] = unmarked [t, next] := by
    simp [unmarked, hkind, hnext, fuse]
  rw [show t :: next :: rest = [t, next] ++ rest from rfl, pieces_append_of_free hfree, ← hspell]
  exact pieces_cons (hfree t (by simp))

theorem pieces_fuseFrom (t : Token) (rest : List Token) :
    pieces (fuseFrom (fun t next => t.kind == next.kind && next.kind.isMergeable) t rest) =
      pieces (t :: rest) := by
  induction rest generalizing t with
  | nil => rfl
  | cons next rest ih =>
      rw [fuseFrom]
      by_cases hjoin : (t.kind == next.kind && next.kind.isMergeable) = true
      · rw [if_pos hjoin, ih, pieces_fuse ((mergeable_iff t next).mp hjoin)]
      · rw [if_neg hjoin]
        exact pieces_append_congr [t] (ih next)

theorem pieces_mergeLiterals (ts : List Token) : pieces (mergeLiterals ts) = pieces ts := by
  cases ts with
  | nil => rfl
  | cons t rest => exact pieces_fuseFrom t rest

/-! ### Strings -/

/-- The only marks in a run are the quotes of its strings. -/
theorem isMark_of_isGlued {t : Token} (h : t.isGlued = true) (hbegin : t.kind ≠ .stringDquoteBegin)
    (hend : t.kind ≠ .stringDquoteEnd) : t.kind.isMark = false := by
  unfold isGlued at h
  cases hk : t.kind <;> simp_all [Kind.isMark, Kind.isWord, Kind.isDquotePiece]

namespace Quoted

/-- A string spells its content: its quotes are marks. -/
theorem unmarked_tokens {q : Quoted} (h : q.Proper) :
    unmarked q.tokens = unmarked q.content.toList := by
  have hopening : q.opening.kind.isMark = true := by rw [h.opening]; rfl
  have hclosing : unmarked q.closing.toList = [] := by
    cases hc : q.closing with
    | none => rfl
    | some e =>
        have he : e.kind.isMark = true := by rw [h.closing e hc]; rfl
        exact unmarked_cons_mark he
  rw [tokens, unmarked_cons_mark hopening, unmarked_append, hclosing, List.append_nil]

theorem unmarked_absorb {q : Quoted} (h : q.Proper) {t : Token} (ht : t.kind.isMark = false) :
    unmarked (q.absorb t).content.toList = unmarked q.content.toList ++ unmarked [t] := by
  have hspell : unmarked [t] = t.text := by simp [unmarked, ht]
  rw [hspell]
  cases hc : q.content with
  | none => simp [absorb, hc, unmarked, withKind, Kind.isMark]
  | some content =>
      have hcontent : content.kind = .stringDquoteChar := h.content content hc
      simp [absorb, hc, unmarked, fuse, hcontent, Kind.isMark]

theorem unmarked_foldl_absorb {q : Quoted} (h : q.Proper) {words : List Token}
    (hwords : ∀ t ∈ words, t.kind.isMark = false) :
    unmarked (words.foldl absorb q).content.toList =
      unmarked q.content.toList ++ unmarked words := by
  induction words generalizing q with
  | nil => simp
  | cons t rest ih =>
      rw [List.foldl_cons, ih (h.absorb t) fun u hu => hwords u (by simp [hu]),
        unmarked_absorb h (hwords t (by simp)), unmarked_cons t rest, List.append_assoc]

theorem unmarked_start {words : List Token} (hwords : ∀ t ∈ words, t.kind.isMark = false)
    {q : Token} (hq : q.kind = .stringDquoteBegin) :
    unmarked (start words q).content.toList = unmarked words := by
  refine (unmarked_foldl_absorb ⟨?_, by simp, by simp⟩ hwords).trans (List.nil_append _)
  cases words with
  | nil => exact hq
  | cons first rest => exact hq

/-- Going on with a string adds what the run spells, wherever its quotes end up. -/
theorem unmarked_extend {join : Bool} {q : Quoted} (h : q.Proper) {ts : List Token}
    (hglued : ∀ t ∈ ts, t.isGlued = true) :
    unmarked (q.extend join ts) = unmarked q.content.toList ++ unmarked ts := by
  fun_induction extend join q ts with
  | case1 q => rw [unmarked_tokens h, unmarked_nil, List.append_nil]
  | case2 q t rest hkind hjoin ih =>
      rw [ih ⟨h.opening, h.content, by simp⟩ fun u hu => hglued u (by simp [hu]),
        unmarked_cons_mark (by rw [hkind]; rfl)]
  | case3 q t rest hkind hjoin ih =>
      rw [unmarked_append, unmarked_tokens h,
        ih (proper_start [] hkind) fun u hu => hglued u (by simp [hu]),
        unmarked_start (by simp) hkind, unmarked_cons_mark (by rw [hkind]; rfl)]
      rfl
  | case4 q t rest hkind ih =>
      rw [ih ⟨h.opening, h.content, by simpa using hkind⟩ fun u hu => hglued u (by simp [hu]),
        unmarked_cons_mark (by rw [hkind]; rfl)]
  | case5 q t rest hbegin hend ih =>
      have ht : t.kind.isMark = false :=
        isMark_of_isGlued (hglued t (by simp)) (by simpa using hbegin) (by simpa using hend)
      rw [ih (h.absorb t) fun u hu => hglued u (by simp [hu]), unmarked_absorb h ht,
        unmarked_cons t rest, List.append_assoc]

end Quoted

theorem unmarked_filter_closing (ts : List Token) :
    unmarked (ts.filter (·.kind ≠ .stringDquoteEnd)) = unmarked ts := by
  induction ts with
  | nil => rfl
  | cons t rest ih =>
      by_cases ht : t.kind = .stringDquoteEnd
      · rw [List.filter_cons_of_neg (by simp [ht]), ih, unmarked_cons_mark (by rw [ht]; rfl)]
      · rw [List.filter_cons_of_pos (by simpa using ht), unmarked_cons t, ih, ← unmarked_cons]

theorem unmarked_widenRun {join : Bool} {run : List Token} (hglued : ∀ t ∈ run, t.isGlued = true) :
    unmarked (widenRun join run) = unmarked run := by
  rcases widenRun_split join run with ⟨-, heq⟩ | ⟨before, q, rest, rfl, hbefore, hq, heq⟩
  · rw [heq]
  · have hwords : ∀ t ∈ before.filter (·.kind ≠ .stringDquoteEnd), t.kind.isMark = false := by
      intro t ht
      obtain ⟨hmem, hend⟩ := List.mem_filter.mp ht
      exact isMark_of_isGlued (hglued t (by simp [hmem])) (hbefore t hmem) (by simpa using hend)
    rw [heq, Quoted.unmarked_extend (Quoted.proper_start _ hq) fun t ht => hglued t (by simp [ht]),
      Quoted.unmarked_start hwords hq, unmarked_filter_closing, unmarked_append,
      unmarked_cons_mark (by rw [hq]; rfl)]

theorem kind_ne_delimiter_of_isGlued {t : Token} (h : t.isGlued = true) :
    t.kind ≠ .delimiter := by
  intro hkind
  rw [isGlued, hkind] at h
  exact absurd h (by decide)

theorem pieces_widen (join : Bool) (ts : List Token) : pieces (widen join ts) = pieces ts := by
  fun_induction widen join ts with
  | case1 => rfl
  | case2 t rest hglued ih =>
      have hrun : ∀ u ∈ t :: rest.takeWhile isGlued, u.isGlued = true :=
        isGlued_of_mem_takeWhile hglued
      have hfree : ∀ u ∈ widenRun join (t :: rest.takeWhile isGlued), u.kind ≠ .delimiter :=
        fun u hu => kind_ne_delimiter_of_isGlued (isGlued_widenRun hrun u hu)
      have hfree' : ∀ u ∈ t :: rest.takeWhile isGlued, u.kind ≠ .delimiter :=
        fun u hu => kind_ne_delimiter_of_isGlued (hrun u hu)
      rw [pieces_append_of_free hfree, ih, unmarked_widenRun hrun, ← pieces_append_of_free hfree',
        run_append_rest]
  | case3 t rest hglued ih => exact pieces_append_congr [t] ih

/-! ### Separators -/

theorem words_of_pieces {ts us : List Token} (h : pieces ts = pieces us) : words ts = words us := by
  rw [words, words, h]

section

variable {t : Token}

/-- **A separator cuts the words in two.** -/
theorem words_append_delimiter (h : t.kind = .delimiter) (ts us : List Token) :
    words (ts ++ t :: us) = words ts ++ words us := by
  rw [words, words, words, pieces, List.splitOnP_append_cons ts us (by simpa using h),
    List.map_append, List.filter_append]
  rfl

theorem words_cons_delimiter (h : t.kind = .delimiter) (ts : List Token) :
    words (t :: ts) = words ts :=
  words_append_delimiter h [] ts

theorem words_concat_delimiter (h : t.kind = .delimiter) (ts : List Token) :
    words (ts ++ [t]) = words ts := by
  rw [words_append_delimiter h]
  exact List.append_nil _

/-- Two separators in a row cut where one of them does. -/
theorem words_fuseFrom (front : List Token) (t : Token) (rest : List Token) :
    words (front ++ fuseFrom (fun t next => t.kind == .delimiter && next.kind == .delimiter)
      t rest) = words (front ++ t :: rest) := by
  induction rest generalizing front t with
  | nil => rfl
  | cons next rest ih =>
      rw [fuseFrom]
      by_cases hjoin : (t.kind == .delimiter && next.kind == .delimiter) = true
      · obtain ⟨ht, hnext⟩ := (separators_iff t next).mp hjoin
        have hfused : (t.fuse next).kind = .delimiter := ht
        rw [if_pos hjoin, ih, words_append_delimiter hfused, words_append_delimiter ht,
          words_cons_delimiter hnext]
      · rw [if_neg hjoin]
        simpa using ih (front ++ [t]) next

theorem words_fuseRuns (ts : List Token) :
    words (fuseRuns (fun t next => t.kind == .delimiter && next.kind == .delimiter) ts) =
      words ts := by
  cases ts with
  | nil => rfl
  | cons t rest => exact words_fuseFrom [] t rest

/-- Rewriting separators as separators changes no piece. -/
theorem pieces_map {f : Token → Token} (hkind : ∀ t, (f t).kind = t.kind)
    (hf : ∀ t, t.kind ≠ .delimiter → f t = t) (ts : List Token) :
    pieces (ts.map f) = pieces ts := by
  induction ts with
  | nil => rfl
  | cons t rest ih =>
      rw [List.map_cons]
      by_cases ht : t.kind = .delimiter
      · have hft : (f t).kind = .delimiter := (hkind t).trans ht
        rw [pieces_cons_delimiter hft, pieces_cons_delimiter ht, ih]
      · rw [hf t ht]
        exact pieces_append_congr [t] ih

theorem words_dropWhile_blank (ts : List Token) :
    words (ts.dropWhile isBlankDelimiter) = words ts := by
  induction ts with
  | nil => rfl
  | cons t rest ih =>
      by_cases ht : t.isBlankDelimiter = true
      · rw [List.dropWhile_cons_of_pos ht, ih,
          words_cons_delimiter (kind_of_isBlankDelimiter ht)]
      · rw [List.dropWhile_cons_of_neg ht]

theorem words_trimBlanks (ts : List Token) : words (trimBlanks ts) = words ts := by
  have hback : ∀ us : List Token,
      words (us.dropWhile isBlankDelimiter).reverse = words us.reverse := by
    intro us
    induction us with
    | nil => rfl
    | cons t rest ih =>
        by_cases ht : t.isBlankDelimiter = true
        · rw [List.dropWhile_cons_of_pos ht, ih, List.reverse_cons,
            words_concat_delimiter (kind_of_isBlankDelimiter ht)]
        · rw [List.dropWhile_cons_of_neg ht]
  rw [trimBlanks, hback, List.reverse_reverse, words_dropWhile_blank]

theorem words_stripBlanks (ts : List Token) : words (stripBlanks ts) = words ts := by
  have hsingle : ∀ t : Token, t.kind ≠ .delimiter → t.singleSpace = t := by
    intro t ht
    exact if_neg fun hblank => ht (kind_of_isBlankDelimiter hblank)
  rw [stripBlanks, words_trimBlanks, words_of_pieces (pieces_map kind_singleSpace hsingle _),
    words_fuseRuns]

theorem words_stripCommas (ts : List Token) : words (stripCommas ts) = words ts := by
  have hblank : ∀ t : Token, t.kind ≠ .delimiter → blankCommas t = t := fun t ht => if_neg ht
  rw [stripCommas_eq, words_stripBlanks, words_of_pieces (pieces_map kind_blankCommas hblank _)]

end

end Token

namespace Cleaning

/--
**Cleaning loses, doubles, reorders and glues no word.**  Whichever passes are
chosen, and whatever the tokens are, they have the same words after cleaning as
before.
-/
theorem words_apply (options : Cleaning) (ts : List Token) :
    Token.words (options.apply ts) = Token.words ts := by
  -- A pass that keeps the words keeps them whether it is chosen or not.
  have hchosen : ∀ {pass : List Token → List Token},
      (∀ us, Token.words (pass us) = Token.words us) →
      ∀ (b : Bool) (us : List Token),
        Token.words (if b then pass us else us) = Token.words us := by
    intro pass hpass b us
    cases b with
    | false => rfl
    | true => exact hpass us
  unfold apply
  dsimp only
  rw [hchosen Token.words_stripCommas, hchosen Token.words_stripBlanks,
    hchosen fun us => Token.words_of_pieces (Token.pieces_widen _ us),
    hchosen fun us => Token.words_of_pieces (Token.pieces_mergeLiterals us),
    hchosen fun us => Token.words_of_pieces (Token.pieces_stripEmptyStrings us),
    hchosen fun us => Token.words_of_pieces (Token.pieces_applyEscapes us)]

/-- Quotes and carets inside a word do not count, and the comma separates as the blanks do. -/
example : Token.words (Token.tokenize "c^a\"l\"c  \"a b\", x".toList) =
    ["calc".toList, "a b".toList, "x".toList] := by
  decide +kernel

end Cleaning

end BatchTrace
