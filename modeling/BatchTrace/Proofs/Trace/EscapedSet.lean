/-
A `SET` with a caret in it.

The reader knows the word `SET` only where it is written out.  With a caret in it the word is put
together again by cleaning, when its arguments have been read as the words of a command already:
runs of blanks in them become single spaces, strings take in what touches them, empty strings
are dropped, and separators at the end are taken off.  So `s^et t` does not assign what `set t`
does, but what `set` does with the cleaned text `t`, provided that both lines end in the same
separators; `set a=` keeps the equals sign at its end, and `s^et a=` does not.
-/
import BatchTrace.Proofs.Trace.Assignments

namespace BatchTrace

open Reading

variable {t u : Text}

/-! ### Separators in front -/

namespace Reading

variable {r : Reading}

theorem exists_gap_append (r : Reading) :
    ∃ g r', r = g ++ r' ∧ (∀ x ∈ g, isGap x = true) ∧ ∀ x ∈ r'.head?, isGap x = false :=
  ⟨r.takeWhile isGap, r.dropWhile isGap, List.takeWhile_append_dropWhile.symm,
    fun _ hx => List.mem_takeWhile_imp hx, fun _ hx => not_of_mem_head?_dropWhile hx⟩

theorem mem_of_mem_widen {x : Role × Char} (hx : x ∈ widen r) (hgap : isGap x = true) : x ∈ r := by
  fun_induction widen r with
  | case1 => exact hx
  | case2 y rest hy ih =>
      rcases List.mem_append.mp hx with hx | hx
      · have hglued := isGlued_of_mem_widenRun
          (List.forall_mem_cons.mpr ⟨hy, fun _ hz => List.mem_takeWhile_imp hz⟩) x hx
        simp [isGap_of_isGlued hglued] at hgap
      · exact List.mem_cons_of_mem y ((List.dropWhile_suffix _).subset (ih hx))
  | case3 y rest hy ih =>
      rcases List.mem_cons.mp hx with rfl | hx
      · exact List.mem_cons_self
      · exact List.mem_cons_of_mem y (ih hx)

theorem mem_of_mem_squeeze {x : Role × Char} (hx : x ∈ squeeze r) : x = (.gap, ' ') ∨ x ∈ r := by
  fun_induction squeeze r with
  | case1 => simp at hx
  | case2 y rest hy ih =>
      rcases List.mem_append.mp hx with hx | hx
      · unfold squeezeRun at hx
        split at hx
        · split at hx
          · simp at hx
          · exact Or.inl (List.mem_singleton.mp hx)
        · refine Or.inr ?_
          rcases List.mem_cons.mp hx with rfl | hx
          · exact List.mem_cons_self
          · exact List.mem_cons_of_mem y ((List.takeWhile_prefix _).subset hx)
      · exact (ih hx).imp_right
          fun h => List.mem_cons_of_mem y ((List.dropWhile_suffix _).subset h)
  | case3 y rest hy ih =>
      rcases List.mem_cons.mp hx with rfl | hx
      · exact Or.inr List.mem_cons_self
      · exact (ih hx).imp_right (List.mem_cons_of_mem y)

/-- Separators are kept or become spaces, and no new ones come up. -/
theorem isDelimiter_of_mem_tidy
    (hr : ∀ x ∈ r, isGap x = true → Chunk.isDelimiter x.2 = true) :
    ∀ x ∈ tidy r, isGap x = true → Chunk.isDelimiter x.2 = true := by
  intro x hx hgap
  rcases mem_of_mem_squeeze hx with rfl | hx
  · rfl
  · refine hr x (mem_of_mem_widen ?_ hgap) hgap
    unfold trimStart at hx
    split at hx
    · exact (List.dropWhile_suffix _).subset hx
    · exact hx

/-- White space in front of what stands after a space goes into the space; other separators stay. -/
theorem settle_space_cons (r : Reading) :
    settle ((.gap, ' ') :: r) = if tidy r = [] then [] else (.gap, ' ') :: tidy r := by
  obtain ⟨g, r', rfl, hg, hr'⟩ := exists_gap_append r
  have hrun : ∀ x ∈ (.gap, ' ') :: g, isGap x = true := List.forall_mem_cons.mpr ⟨rfl, hg⟩
  rw [tidy_gap_append hg hr', ← List.cons_append]
  by_cases hblank : isBlank g = true
  · rw [if_pos hblank]
    exact settle_blank_append (by simp) hrun hblank hr'
  · have hkept : ¬ isBlank ((.gap, ' ') :: g) = true := hblank
    have hne : g ++ settle r' ≠ [] := by
      rintro hnil
      exact hblank (by rw [(List.append_eq_nil_iff.mp hnil).1]; rfl)
    rw [if_neg hblank, settle_gap_append (by simp) hrun hr', squeezeRun, if_neg hkept, if_neg hne]
    rfl

/-- White space is not left in front of what is tidied. -/
theorem eq_nil_of_tidy {g rest : Reading} (h : tidy r = g ++ rest)
    (hg : ∀ x ∈ g, isGap x = true) (hrest : ∀ x ∈ rest.head?, isGap x = false)
    (hblank : isBlank g = true) : g = [] := by
  obtain ⟨front, more, rfl, hfront, hmore⟩ := exists_gap_append r
  have hsettle := isGap_head?_settle hmore
  rw [← takeWhile_run hg hrest, ← h, tidy_gap_append hfront hmore]
  split
  · exact takeWhile_run (List.forall_mem_nil _) hsettle
  · rename_i hkept
    rw [tidy_gap_append hfront hmore, if_neg hkept] at h
    rw [← takeWhile_run hg hrest, ← h, takeWhile_run hfront hsettle] at hblank
    exact absurd hblank hkept

/-- What comes after the separators in front begins with none, unless it is an equals sign. -/
def Starts (r : Reading) : Prop :=
  ∀ x ∈ (r.dropWhile isGap).head?, Chunk.isDelimiter x.2 = true → x.2 = '='

theorem starts_append {run : Reading} (hrun : ∀ x ∈ run, isGap x = true) :
    Starts (run ++ r) ↔ Starts r := by
  rw [Starts, List.dropWhile_append_of_pos hrun]
  rfl

theorem Starts.settle {r : Reading} (h : Starts r) (hr : ∀ x ∈ r.head?, isGap x = false) :
    Starts (settle r) := by
  cases r with
  | nil => simpa using h
  | cons x rest =>
      obtain ⟨y, more, hsettle, hy, hchar⟩ := exists_settle_cons (hr x rfl) rest
      rw [hsettle, Starts, List.dropWhile_cons_of_neg (by simp [hy])]
      rw [Starts, List.dropWhile_cons_of_neg (by simp [hr x rfl])] at h
      intro z hz hdelimiter
      obtain rfl := Option.some.inj hz
      rcases hchar with hchar | hchar
      · rw [hchar] at hdelimiter ⊢
        exact h x rfl hdelimiter
      · rw [hchar] at hdelimiter
        exact absurd hdelimiter (by decide)

theorem Starts.tidy (h : Starts r) : Starts (tidy r) := by
  obtain ⟨g, r', rfl, hg, hr'⟩ := exists_gap_append r
  have hsettle := ((starts_append hg).mp h).settle hr'
  rw [tidy_gap_append hg hr']
  split
  · exact hsettle
  · rwa [starts_append hg]

/-- The separators in front are known by their characters, if no equals sign is among them. -/
theorem Starts.eq_append (h : Starts r)
    (hr : ∀ x ∈ r, isGap x = true → Chunk.isDelimiter x.2 = true)
    (hequals : '=' ∉ r.text.takeWhile Chunk.isDelimiter) :
    ∃ r', r = ofText .gap (r.text.takeWhile Chunk.isDelimiter) ++ r' ∧
      r'.text = r.text.dropWhile Chunk.isDelimiter ∧ ∀ x ∈ r'.head?, isGap x = false := by
  obtain ⟨g, r', rfl, hg, hr'⟩ := exists_gap_append r
  have hchars : ∀ c ∈ g.text, Chunk.isDelimiter c = true := by
    intro c hc
    obtain ⟨x, hx, rfl⟩ := List.mem_map.mp hc
    exact hr x (List.mem_append_left r' hx) (hg x hx)
  have hgap : ofText .gap g.text = g := ofText_text fun x hx => by simpa [isGap] using hg x hx
  have hstop : ∀ c ∈ r'.text.head?, Chunk.isDelimiter c = false := by
    intro c hc
    by_contra hdelimiter
    rw [Bool.not_eq_false] at hdelimiter
    cases r' with
    | nil => simp at hc
    | cons x more =>
        obtain rfl : x.2 = c := Option.some.inj hc
        have hx : x.2 = '=' := (starts_append hg).mp h x
          (by rw [List.dropWhile_cons_of_neg (by simp [hr' x rfl])]; rfl) hdelimiter
        refine hequals ?_
        rw [text_append, List.takeWhile_append_of_pos hchars, text_cons,
          List.takeWhile_cons_of_pos hdelimiter, hx]
        simp
  rw [text_append, takeWhile_run hchars hstop, dropWhile_run hchars hstop, hgap]
  exact ⟨r', rfl, rfl, hr'⟩

end Reading

/-- The separators that a line ends with when it has been cleaned. -/
def separatorsAtEnd (t : Text) : Text :=
  Token.separatorsAtEnd (Cleaning.standard.apply (Token.tokenize t))

/-! ### Reading the line -/

namespace Lexer

open Lexeme

variable {d r : Text} (hd : ∀ c ∈ d, Chunk.isDelimiter c = true)
  (hr : ∀ c ∈ r.head?, Chunk.isDelimiter c = false)
include hd hr

theorem lexemes_escaped : lexemes ("s^et ".toList ++ (d ++ r)) =
    ⟨.literal, ['s']⟩ :: ⟨.escape, ['^']⟩ :: ⟨.escapedLiteral, ['e']⟩ :: ⟨.literal, ['t']⟩ ::
      ⟨.delimiter, ' ' :: d⟩ :: join (pieces .command r) := by
  have hfirst : Chunk.next? (['s'] ++ ("^et ".toList ++ (d ++ r))) =
      some (.word ['s'], "^et ".toList ++ (d ++ r)) :=
    Chunk.next?_word_append (by decide) (by simp; decide) (by simp; decide) (by simp)
  have hsecond : Chunk.next? ('^' :: 'e' :: (['t'] ++ (' ' :: d ++ r))) =
      some (.escape 'e', ['t'] ++ (' ' :: d ++ r)) := rfl
  have hthird : Chunk.next? (['t'] ++ (' ' :: d ++ r)) = some (.word ['t'], ' ' :: d ++ r) :=
    Chunk.next?_word_append (by decide) (by simp; decide) (by simp; decide) (by simp)
  have hspace : Chunk.next? (' ' :: d ++ r) = some (.delimiter (' ' :: d), r) :=
    Chunk.next?_delimiter_append (by simp) (List.forall_mem_cons.mpr ⟨rfl, hd⟩) hr
  have hpieces : pieces .command (['s'] ++ ("^et ".toList ++ (d ++ r))) =
      ⟨.literal, ['s']⟩ :: ⟨.escape, ['^']⟩ :: ⟨.escapedLiteral, ['e']⟩ :: ⟨.literal, ['t']⟩ ::
        ⟨.delimiter, ' ' :: d⟩ :: pieces .command r := by
    rw [pieces_of_next? hfirst]
    show [_] ++ pieces .command ('^' :: 'e' :: (['t'] ++ (' ' :: d ++ r))) = _
    rw [pieces_of_next? hsecond]
    show [_] ++ (_ ++ pieces .command (['t'] ++ (' ' :: d ++ r))) = _
    rw [pieces_of_next? hthird]
    show [_] ++ (_ ++ ([_] ++ pieces .command (' ' :: d ++ r))) = _
    rw [pieces_of_next? hspace]
    rfl
  show join (pieces .command (['s'] ++ ("^et ".toList ++ (d ++ r)))) = _
  rw [hpieces, join_cons rfl, join_cons rfl, join_cons rfl, join_cons rfl, join_cons rfl]

end Lexer

/-! ### Empty strings in front -/

theorem Token.AllAlike.reading_eq {ts us : List Token} (h : Token.AllAlike ts us) :
    Token.reading ts = Token.reading us := by
  induction h with
  | nil => rfl
  | cons htoken _ ih => rw [Token.reading_cons, Token.reading_cons, htoken.kind, htoken.text, ih]

namespace Lexer

theorem lexemes_empty_string (t : Text) : lexemes ('"' :: '"' :: t) =
    ⟨.stringDquoteBegin, ['"']⟩ :: ⟨.stringDquoteEnd, ['"']⟩ :: lexemes t := by
  have hpieces : pieces .command ('"' :: '"' :: t) =
      ⟨.stringDquoteBegin, ['"']⟩ :: ⟨.stringDquoteEnd, ['"']⟩ :: pieces .command t :=
    pieces_of_next? (show Chunk.next? ('"' :: '"' :: t) = some (.doubleQuote, '"' :: t) from rfl)
      .command
  rw [lexemes, hpieces, Lexeme.join_cons rfl, Lexeme.join_cons rfl]
  rfl

/-- A string that does not begin with two quotes has something in it, or ends with the text. -/
theorem exists_lexemes_string {rest : Text} (hrest : '"' ∉ rest.head?) :
    ∃ xs, lexemes ('"' :: rest) = ⟨.stringDquoteBegin, ['"']⟩ :: xs ∧
      ∀ x ∈ xs.head?, x.kind = .stringDquoteChar := by
  obtain ⟨body, isOpen, after, hbody, hend, heq⟩ := exists_string rest
  have htext : rest = body ++ (if isOpen then [] else ['"']) ++ after := by
    simpa [text_ofString] using heq
  have hnext : Chunk.next? ('"' :: rest) = some (.doubleQuote, rest) := rfl
  have hstep : step .command .doubleQuote rest = ⟨stringLexemes body isOpen, .command, after⟩ := by
    rw [htext]
    exact step_string (Or.inl rfl) hbody hend
  have hpieces : pieces .command ('"' :: rest) =
      stringLexemes body isOpen ++ pieces .command after := by
    rw [pieces_of_next? hnext, hstep]
  rw [lexemes, hpieces, stringLexemes, List.cons_append, Lexeme.join_cons rfl]
  refine ⟨_, rfl, ?_⟩
  cases body with
  | nil =>
      cases isOpen with
      | true => simp [hend rfl, Lexeme.ofText, Lexeme.join]
      | false => simp [htext] at hrest
  | cons c body =>
      rw [Lexeme.ofText_of_ne_nil (by simp), List.singleton_append, List.cons_append,
        Lexeme.join_cons rfl]
      simp

end Lexer

theorem starts_cons {t : Token} (hkind : t.kind ≠ .delimiter) {c : Char} {more : Text}
    (htext : t.text = c :: more) (hc : Chunk.isDelimiter c = true → c = '=') (ts : List Token) :
    Starts (Token.reading (t :: ts)) := by
  have hgap : isGap (t.kind.role, c) = false := by simp [isGap, hkind]
  rw [Token.reading_cons, htext, ofText_cons, List.cons_append, Starts,
    List.dropWhile_cons_of_neg (by simp [hgap])]
  intro x hx hdelimiter
  obtain rfl := Option.some.inj hx
  exact hc hdelimiter

/-- A string that has something in it is not taken out. -/
theorem Token.exists_stripEmptyStrings_string {b : Token} {ts : List Token}
    (hts : ∀ e ∈ ts.head?, e.kind = .stringDquoteChar) :
    ∃ us, Token.stripEmptyStrings (b :: ts) = b :: us := by
  cases ts with
  | nil => exact ⟨[], rfl⟩
  | cons e ts =>
      have he := hts e rfl
      have hbelow : ∀ u ∈ [e, b].head?, u.kind ≠ .stringDquoteBegin := by simp [he]
      have hstep : Token.stripEmptyStrings (b :: e :: ts) = Token.stripEmptyFrom [e, b] ts := by
        simp [Token.stripEmptyStrings, Token.stripEmptyFrom, he]
      rw [hstep]
      exact ⟨_, Token.stripEmptyFrom_append hbelow [] ts⟩

/-- A token in front that neither opens a string nor separates. -/
theorem starts_of_head? {t : Text} (hcaret : '^' ∉ t) {ts : List Token}
    (hts : ts.map Token.lexeme = Lexer.lexemes t)
    (ht : ∀ c ∈ t.head?, Chunk.isDelimiter c = false ∧ c ≠ '"') :
    Starts (Token.reading (Token.stripEmptyStrings ts)) := by
  cases ts with
  | nil => simp [Starts, Token.stripEmptyStrings, Token.stripEmptyFrom]
  | cons first ts =>
      have hplain := (Token.plain_of_map_lexeme hts (Lexer.plain_pieces .command hcaret)).2 first
        (by simp)
      obtain ⟨c, more, htext⟩ := List.exists_cons_of_ne_nil hplain.ne_nil
      have hread := Token.reading_of_map_lexeme hts
      rw [Token.reading_cons, htext, ofText_cons, List.cons_append] at hread
      have hhead : c ∈ t.head? := by
        rw [← Lexer.text_reading .command t, ← hread]
        rfl
      obtain ⟨hdelimiter, hquote⟩ := ht c hhead
      have hgap := Lexer.isGap_head?_reading .command hcaret (fun c hc => (ht c hc).1)
        (first.kind.role, c) (by rw [← hread]; rfl)
      have hbegin : first.kind ≠ .stringDquoteBegin := by
        rintro hbegin
        rw [hplain.quote (Or.inl hbegin)] at htext
        exact hquote (List.cons.inj htext).1.symm
      rw [Token.stripEmptyStrings_cons hbegin]
      refine starts_cons (fun hkind => ?_) htext (by simp [hdelimiter]) _
      simp [isGap, hkind, Kind.role, Kind.isWord] at hgap

/-- What follows separators in front starts in the same way. -/
theorem starts_separated {d r : Text} (hne : d ≠ []) (hd : ∀ c ∈ d, Chunk.isDelimiter c = true)
    (hr : ∀ c ∈ r.head?, Chunk.isDelimiter c = false)
    (h : ∀ ts : List Token, ts.map Token.lexeme = Lexer.lexemes r →
      Starts (Token.reading (Token.stripEmptyStrings ts)))
    {ts : List Token} (hts : ts.map Token.lexeme = Lexer.lexemes (d ++ r)) :
    Starts (Token.reading (Token.stripEmptyStrings ts)) := by
  rw [Lexer.lexemes_separated hd hr, Lexeme.ofText_of_ne_nil hne] at hts
  obtain ⟨first, ts, rfl, hfirst, hts⟩ := List.map_eq_cons_iff.mp hts
  obtain ⟨hkind, htext⟩ := Lexeme.mk.inj hfirst
  rcases kind_gap d with hgap | ⟨rfl, hequals⟩
  · rw [hgap] at hkind
    rw [Token.stripEmptyStrings_cons (by simp [hkind]), Token.reading_cons, starts_append]
    · exact h ts hts
    · intro x hx
      simp [isGap, role_of_mem_ofText hx, hkind]
  · rw [hequals] at hkind
    rw [Token.stripEmptyStrings_cons (by simp [hkind])]
    exact starts_cons (by simp [hkind]) htext (fun _ => rfl) _

/-- What follows an empty string starts in the same way, and a string that is kept starts with its
quote. -/
theorem starts_string {rest : Text}
    (h : ∀ after, rest = '"' :: after → ∀ ts : List Token,
      ts.map Token.lexeme = Lexer.lexemes after →
        Starts (Token.reading (Token.stripEmptyStrings ts)))
    {ts : List Token} (hts : ts.map Token.lexeme = Lexer.lexemes ('"' :: rest)) :
    Starts (Token.reading (Token.stripEmptyStrings ts)) := by
  by_cases hrest : '"' ∈ rest.head?
  · obtain ⟨after, rfl⟩ := List.head?_eq_some_iff.mp hrest
    rw [Lexer.lexemes_empty_string] at hts
    obtain ⟨b, _, rfl, hb, hts⟩ := List.map_eq_cons_iff.mp hts
    obtain ⟨e, ts, rfl, he, hts⟩ := List.map_eq_cons_iff.mp hts
    have hstrip : Token.stripEmptyStrings (b :: e :: ts) = Token.stripEmptyStrings ts := by
      simp [Token.stripEmptyStrings, Token.stripEmptyFrom, (Lexeme.mk.inj hb).1,
        (Lexeme.mk.inj he).1]
    rw [hstrip]
    exact h after rfl ts hts
  · obtain ⟨xs, hlexemes, hxs⟩ := Lexer.exists_lexemes_string hrest
    rw [hlexemes] at hts
    obtain ⟨b, ts, rfl, hb, rfl⟩ := List.map_eq_cons_iff.mp hts
    obtain ⟨us, hus⟩ : ∃ us, Token.stripEmptyStrings (b :: ts) = b :: us := by
      refine Token.exists_stripEmptyStrings_string fun e he => hxs e.lexeme ?_
      rw [List.head?_map, he]
      rfl
    rw [hus]
    exact starts_cons (by simp [(Lexeme.mk.inj hb).1]) (Lexeme.mk.inj hb).2 (by decide) us

theorem exists_delimiter_append (t : Text) :
    ∃ d r, t = d ++ r ∧ (∀ c ∈ d, Chunk.isDelimiter c = true) ∧
      ∀ c ∈ r.head?, Chunk.isDelimiter c = false :=
  ⟨t.takeWhile Chunk.isDelimiter, t.dropWhile Chunk.isDelimiter,
    List.takeWhile_append_dropWhile.symm, fun _ hc => List.mem_takeWhile_imp hc,
    fun _ hc => not_of_mem_head?_dropWhile hc⟩

/-- What is left when the empty strings are gone starts as a command does. -/
theorem starts_stripEmptyStrings {t : Text} (hcaret : '^' ∉ t) {ts : List Token}
    (hts : ts.map Token.lexeme = Lexer.lexemes t) :
    Starts (Token.reading (Token.stripEmptyStrings ts)) := by
  -- Separators and empty strings come off the text until something that is kept stands in front.
  obtain ⟨d, r, hsplit, hd, hr⟩ := exists_delimiter_append t
  have hlength : t.length = d.length + r.length := by rw [hsplit, List.length_append]
  have hcaret' : '^' ∉ r := fun hmem => hcaret (by rw [hsplit]; exact List.mem_append_right d hmem)
  rw [hsplit] at hts
  by_cases hne : d = []
  · rw [hne, List.nil_append] at hts
    by_cases hquote : '"' ∈ r.head?
    · obtain ⟨rest, hrest⟩ := List.head?_eq_some_iff.mp hquote
      rw [hrest] at hts
      refine starts_string (fun after hafter ts hts => ?_) hts
      have hshort : after.length < t.length := by
        rw [hlength, hrest, hafter, List.length_cons, List.length_cons]
        omega
      exact starts_stripEmptyStrings (fun hmem => hcaret' (by simp [hrest, hafter, hmem])) hts
    · refine starts_of_head? hcaret' hts fun c hc => ⟨hr c hc, ?_⟩
      rintro rfl
      exact hquote hc
  · have hshort : r.length < t.length := by
      have hpos := List.length_pos_iff.mpr hne
      omega
    exact starts_separated hne hd hr (fun ts hts => starts_stripEmptyStrings hcaret' hts) hts
termination_by t.length

/-- The separators in front of a text are read with the blanks that are left when empty strings
after them are gone. -/
theorem deobfuscate_separated {d r : Text} (hd : ∀ c ∈ d, Chunk.isDelimiter c = true)
    (hr : ∀ c ∈ r.head?, Chunk.isDelimiter c = false) (hcaret : '^' ∉ d ++ r) {ts : List Token}
    (hts : ts.map Token.lexeme = Lexeme.join (Lexer.pieces .command r))
    (hhead : '=' ∉ (Cleaning.standard.deobfuscate (d ++ r)).takeWhile Chunk.isDelimiter) :
    Cleaning.standard.deobfuscate (d ++ r) =
      (tidy (ofText .gap d ++ Token.reading (Token.stripEmptyStrings ts))).text := by
  have hkind : (Chunk.delimiter d).kind ≠ .stringDquoteBegin := by
    rcases kind_gap d with h | ⟨-, h⟩ <;> simp [h]
  let front := Lexeme.place (1, 0) (Lexeme.ofText (Chunk.delimiter d).kind d)
  have halike : Token.AllAlike (Token.tokenize (d ++ r)) (front ++ ts) := by
    refine Token.allAlike_of_map_lexeme ?_
    rw [Token.map_lexeme_tokenize, Lexer.lexemes_separated hd hr, List.map_append,
      Token.map_lexeme_place, hts]
  have hstrip : Token.stripEmptyStrings (front ++ ts) = front ++ Token.stripEmptyStrings ts := by
    cases d with
    | nil => rfl
    | cons c d => exact Token.stripEmptyStrings_cons hkind ts
  have hread : Token.reading (Token.stripEmptyStrings (Token.tokenize (d ++ r))) =
      ofText (Chunk.delimiter d).kind.role d ++ Token.reading (Token.stripEmptyStrings ts) := by
    have hsame : Token.reading (Token.stripEmptyStrings (Token.tokenize (d ++ r))) =
        Token.reading (Token.stripEmptyStrings (front ++ ts)) :=
      (Token.AllAlike.stripEmptyFrom .nil halike).reading_eq
    rw [hsame, hstrip, Token.reading_append, Lexeme.reading_place, Lexeme.reading_ofText]
  have htext : Cleaning.standard.deobfuscate (d ++ r) =
      (tidy (ofText (Chunk.delimiter d).kind.role d ++
        Token.reading (Token.stripEmptyStrings ts))).text := by
    rw [← hread, Cleaning.deobfuscate_eq_text_tidy hcaret]
  rcases kind_gap d with hgap | ⟨rfl, hequals⟩
  · rwa [hgap] at htext
  · -- Two equals signs alone are an operator, and it would stand in front of the cleaned text.
    have hother : ∀ x ∈ ofText .other ['=', '='], x.1 = .other := fun _ hx => role_of_mem_ofText hx
    rw [htext, hequals, tidy_eq, trimStart_of_not_gap (by simp [isGap, Kind.role, Kind.isWord]),
      show Kind.doubleEquals.role = .other from rfl, settle_append_of_other hother] at hhead
    exact absurd (by simp [show Chunk.isDelimiter '=' = true from rfl]) hhead

/-- Where the empty strings are gone, what separates is spelled with separators. -/
theorem isDelimiter_of_mem_stripEmptyStrings {r : Text} (hcaret : '^' ∉ r) {ts : List Token}
    (hts : ts.map Token.lexeme = Lexer.lexemes r) {x : Role × Char}
    (hx : x ∈ Token.reading (Token.stripEmptyStrings ts)) (hgap : isGap x = true) :
    Chunk.isDelimiter x.2 = true := by
  have hmem := ((Token.stripEmptyStrings_sublist ts).flatMap _).mem hx
  rw [← Token.reading, Token.reading_of_map_lexeme hts] at hmem
  exact Lexer.isDelimiter_of_mem_reading .command hcaret hmem hgap

/-! ### Running the line -/

/-- Cleaning makes the word of the tokens in front of the separator. -/
theorem exists_tokens_escaped {d r : Text} (hd : ∀ c ∈ d, Chunk.isDelimiter c = true)
    (hr : ∀ c ∈ r.head?, Chunk.isDelimiter c = false) :
    ∃ front b ts, Token.tokenize ("s^et ".toList ++ (d ++ r)) = front ++ b :: ts ∧
      front ≠ [] ∧ (∀ x ∈ front, x.kind.isChain = false ∧ x.kind ≠ .delimiter) ∧
      b.lexeme = ⟨.delimiter, ' ' :: d⟩ ∧
      ts.map Token.lexeme = Lexeme.join (Lexer.pieces .command r) ∧
      ∃ w : Token, w.IsSet ∧
        Cleaning.standard.apply (front ++ b :: ts) = w :: Token.afterWord (b :: ts) := by
  have hlexemes := Lexer.lexemes_escaped hd hr
  rw [← Token.map_lexeme_tokenize] at hlexemes
  obtain ⟨t₁, _, htokens, h₁, hlexemes⟩ := List.map_eq_cons_iff.mp hlexemes
  obtain ⟨t₂, _, rfl, h₂, hlexemes⟩ := List.map_eq_cons_iff.mp hlexemes
  obtain ⟨t₃, _, rfl, h₃, hlexemes⟩ := List.map_eq_cons_iff.mp hlexemes
  obtain ⟨t₄, _, rfl, h₄, hlexemes⟩ := List.map_eq_cons_iff.mp hlexemes
  obtain ⟨b, ts, rfl, hb, hts⟩ := List.map_eq_cons_iff.mp hlexemes
  obtain ⟨hkind₁, htext₁⟩ := Lexeme.mk.inj h₁
  obtain ⟨hkind₂, -⟩ := Lexeme.mk.inj h₂
  obtain ⟨hkind₃, htext₃⟩ := Lexeme.mk.inj h₃
  obtain ⟨hkind₄, htext₄⟩ := Lexeme.mk.inj h₄
  obtain ⟨w, hwkind, hwtext, happly⟩ :=
    Token.exists_apply_escaped hkind₁ hkind₂ hkind₃ hkind₄ (Lexeme.mk.inj hb).1 ts
  refine ⟨[t₁, t₂, t₃, t₄], b, ts, htokens, by simp, ?_, hb, hts, w, ⟨Or.inr hwkind, ?_⟩, happly⟩
  · simp [hkind₁, hkind₂, hkind₃, hkind₄, Kind.isChain]
  · rw [hwtext, htext₁, htext₃, htext₄]
    rfl

/-- **The word with a caret in it assigns the cleaned text after it.** -/
theorem exists_isSetLine_escaped (ht : Flat t) (hu : Cleaning.standard.deobfuscate t = u)
    (hhead : '=' ∉ u.takeWhile Chunk.isDelimiter) :
    (isBlank (ofText .gap (u.takeWhile Chunk.isDelimiter)) = true →
      u.takeWhile Chunk.isDelimiter = []) ∧
    ∃ ts, IsSetLine ("s^et ".toList ++ t) ts (u.takeWhile Chunk.isDelimiter)
      (u.dropWhile Chunk.isDelimiter) := by
  obtain ⟨d, r, rfl, hd, hr⟩ := exists_delimiter_append t
  have hflat : Flat r := ht.of_subset (List.subset_append_right d r)
  obtain ⟨front, b, ts, htokens, hne, hfront, hb, hts, w, hw, happly⟩ :=
    exists_tokens_escaped hd hr
  obtain ⟨hkind, htext⟩ := Lexeme.mk.inj hb
  have hspace : ∀ x ∈ ofText .gap d, isGap x = true :=
    fun x hx => by simp [isGap, role_of_mem_ofText hx]
  have hgap : ∀ x ∈ ofText .gap d ++ Token.reading (Token.stripEmptyStrings ts),
      isGap x = true → Chunk.isDelimiter x.2 = true := by
    intro x hx hgap
    rcases List.mem_append.mp hx with hx | hx
    · obtain ⟨c, hc, rfl⟩ := List.mem_map.mp hx
      exact hd c hc
    · exact isDelimiter_of_mem_stripEmptyStrings hflat.not_mem_caret hts hx hgap
  subst hu
  have htidy := deobfuscate_separated hd hr ht.not_mem_caret hts hhead
  rw [htidy] at hhead ⊢
  have hstarts : Starts (ofText .gap d ++ Token.reading (Token.stripEmptyStrings ts)) :=
    (starts_append hspace).mpr (starts_stripEmptyStrings hflat.not_mem_caret hts)
  obtain ⟨r', hsplit, hrest, hstop⟩ :=
    hstarts.tidy.eq_append (isDelimiter_of_mem_tidy hgap) hhead
  obtain ⟨hafter, hread⟩ := Token.reading_afterWord_cons hkind (by simp [htext])
    (Token.plain_of_map_lexeme hts (Lexer.plain_pieces .command hflat.not_mem_caret))
  rw [htext, ofText_cons, List.cons_append, settle_space_cons] at hread
  have hblank := fun hblank => ofText_eq_nil.mp (eq_nil_of_tidy hsplit
    (fun x hx => by simp [isGap, role_of_mem_ofText hx]) hstop hblank)
  generalize tidy (ofText .gap d ++ Token.reading (Token.stripEmptyStrings ts)) = cleaned at *
  refine ⟨hblank, Token.afterWord (b :: ts), ?_, ⟨w, hw, by rw [htokens, happly]⟩, ?_⟩
  · obtain ⟨x, hx⟩ := List.exists_mem_of_ne_nil front hne
    refine Block.ofTokens_of_unchained ?_
      ⟨x, by rw [htokens]; exact List.mem_append_left _ hx, (hfront x hx).2⟩
    rw [htokens, List.forall_mem_append, List.forall_mem_cons, hkind]
    exact ⟨fun x hx => (hfront x hx).1, rfl,
      Token.isChain_of_map_lexeme hts (Lexer.isChain_pieces .command hflat)⟩
  · rw [← hrest]
    refine Token.arguments_of_reading hafter (Token.apart_afterWord _) hstop ?_
    rw [hread, hrest, List.takeWhile_append_dropWhile, ofText_cons, List.cons_append, ← hsplit]
    simp [Reading.text]

/-- Does a text begin with a quote or a parenthesis, separators apart?  After `SET` these lead back
to a command, and anything else is a name. -/
def isBracketed (u : Text) : Bool :=
  (u.dropWhile Chunk.isDelimiter).head?.any (· ∈ ['"', '(', ')'])

theorem isBracketed_iff : isBracketed u = true ↔
    ∃ c ∈ (u.dropWhile Chunk.isDelimiter).head?, c ∈ ['"', '(', ')'] := by
  simp [isBracketed, Option.any_eq_true]

/-- **The word that is written out assigns the text after it as it is.** -/
theorem exists_isSetLine_written (ht : Flat u)
    (hclean : isBracketed u = true → Cleaning.standard.deobfuscate u = u)
    (hquotes : isBracketed u = false → QuotesApart (fromEquals u))
    (hhead : '=' ∉ u.takeWhile Chunk.isDelimiter)
    (hblank : isBlank (ofText .gap (u.takeWhile Chunk.isDelimiter)) = true →
      u.takeWhile Chunk.isDelimiter = []) :
    ∃ ts, IsSetLine ("set ".toList ++ u) ts (u.takeWhile Chunk.isDelimiter)
      (u.dropWhile Chunk.isDelimiter) := by
  have hsplit := List.takeWhile_append_dropWhile (p := Chunk.isDelimiter) (l := u)
  have hg : ∀ c ∈ u.takeWhile Chunk.isDelimiter, Chunk.isDelimiter c = true :=
    fun _ hc => List.mem_takeWhile_imp hc
  have hstop : ∀ c ∈ (u.dropWhile Chunk.isDelimiter).head?, Chunk.isDelimiter c = false :=
    fun _ hc => not_of_mem_head?_dropWhile hc
  have hsuffix := @List.dropWhile_suffix _ u Chunk.isDelimiter
  have hverbatim : Lexer.Verbatim (u.dropWhile Chunk.isDelimiter) := by
    refine Lexer.verbatim (ht.of_subset hsuffix.subset) hstop (fun hname => ?_) fun hbracket => ?_
    · refine (hquotes ?_).mono (fromEquals_suffix hsuffix).isInfix
      rw [← Bool.not_eq_true, isBracketed_iff]
      rintro ⟨c, hc, hmem⟩
      exact hname c hc hmem
    · refine Lexer.clean_command hg hhead hblank hstop ?_ ?_
      · rw [hsplit]
        exact ht.not_mem_caret
      · rw [hsplit]
        exact hclean (isBracketed_iff.mpr hbracket)
  obtain ⟨ts, hline, -, -⟩ := hverbatim.exists_isSetLine hg hhead hblank
  rw [hsplit] at hline
  exact ⟨ts, hline⟩

/--
**A `SET` with a caret in it assigns the cleaned text.**  Let `u` be what cleaning makes of a text
without operators, carets and references.  If `u` begins with a quote or a parenthesis, let cleaning
leave it alone, and otherwise let no two quotes stand side by side in it from the first equals sign
on.  If no equals sign is among the separators that `u` begins with, and the two lines end in the
same separators, then `s^et` before the text and `set` before `u` have the same trace.
-/
theorem interpret_escaped_set {t u : Text} (ht : ∀ c ∈ t, c ∉ "&|<>^%!".toList)
    (hu : Cleaning.standard.deobfuscate t = u)
    (hclean : isBracketed u = true → Cleaning.standard.deobfuscate u = u)
    (hquotes : isBracketed u = false → ¬ "\"\"".toList <:+: u.dropWhile (· ≠ '='))
    (hhead : '=' ∉ u.takeWhile Chunk.isDelimiter)
    (hlast : separatorsAtEnd ("s^et ".toList ++ t) = separatorsAtEnd ("set ".toList ++ u)) :
    ∃ r, interpret {} ("s^et ".toList ++ t) = .ok r ∧
      interpret {} ("set ".toList ++ u) = .ok r := by
  have hsub : u ⊆ ' ' :: t := by
    rw [← hu]
    refine Token.stringify_apply_subset (by simp) _ ?_
    rw [Token.stringify_tokenize]
    exact List.subset_cons_self ' ' t
  have hflat : Flat t := fun c hc hmem => ht c hc (List.mem_append_left ['%', '!'] hmem)
  have hflat' : Flat u := by
    intro c hc
    rcases List.mem_cons.mp (hsub hc) with rfl | hmem
    · decide
    · exact hflat c hmem
  have href : Unreferenced t := ⟨fun hmem => ht _ hmem (by simp), fun hmem => ht _ hmem (by simp)⟩
  have href' := href.of_subset hsub
  obtain ⟨hblank, ts, hleft⟩ := exists_isSetLine_escaped hflat hu hhead
  obtain ⟨us, hright⟩ := exists_isSetLine_written hflat' hclean hquotes hhead hblank
  have hends : Token.separatorsAtEnd ts = Token.separatorsAtEnd us := by
    rw [← hleft.separatorsAtEnd_apply, ← hright.separatorsAtEnd_apply]
    exact hlast
  obtain ⟨htext, htail⟩ := hleft.arguments.stringify_dropSeparators hright.arguments hends
  refine ⟨afterSet (Token.dropSeparators ts), hleft.interpret_eq ?_, ?_⟩
  · exact ⟨by simpa using href.1, by simpa using href.2⟩
  · rw [hright.interpret_eq (unreferenced_set href'.1 href'.2), afterSet, afterSet, htext, htail]

/-- Blanks are squeezed and a string takes in what touches it.  Two quotes stand side by side in the
name, and the last string is left open before a separator. -/
theorem interpret_escaped_set_string :
    let t := " ,'\"\"'=b  c\"d\"e \"f=".toList
    let u := " ,'\"\"'=b \"cde\" \"f=".toList
    ∃ r, interpret {} ("s^et ".toList ++ t) = .ok r ∧
      interpret {} ("set ".toList ++ u) = .ok r := by
  intro t u
  have ht : ∀ c ∈ t, c ∉ "&|<>^%!".toList := by simp [t]
  have hu : Cleaning.standard.deobfuscate t = u := by decide +kernel
  have hname : isBracketed u = false := by decide +kernel
  have hlast : separatorsAtEnd ("s^et ".toList ++ t) = separatorsAtEnd ("set ".toList ++ u) := by
    decide +kernel
  exact interpret_escaped_set ht hu (by simp [hname]) (fun _ => by decide +kernel)
    (by decide +kernel) hlast

/-- The value of the word with a caret in it has one blank where two were written. -/
theorem interpret_escaped_set_ne :
    let assigned := fun t : Text =>
      (interpret {} t).toOption.bind fun r => r.frames.getLast?.map (·.assigned)
    assigned "s^et a=b  c".toList = some ⟨[⟨"a".toList, "b c".toList⟩]⟩ ∧
      assigned "set a=b  c".toList = some ⟨[⟨"a".toList, "b  c".toList⟩]⟩ := by
  decide +kernel

end BatchTrace
