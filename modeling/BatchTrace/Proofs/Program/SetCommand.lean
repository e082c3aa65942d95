/-
The command that begins with `set`.

Cleaning looks at neighbours only, and a separator keeps what stands before it apart from what
stands after it.  The word `set` and what follows it are therefore cleaned on their own, and this
is so for a `set` with a caret in it as well, which is read as three words and merged.  The command
has the same name in both cases, and its arguments are the cleaned text after the separator.
-/
import BatchTrace.Proofs.Program.Disguise
import BatchTrace.Proofs.Token.CalmCleaning
import BatchTrace.Proofs.Token.SetRegion

namespace BatchTrace

open Reading

/-! ### Passes that do not reach over a token -/

/-- Is a token of this kind kept as it is by the passes that concern words and strings? -/
def Kind.isFence (k : Kind) : Bool :=
  !k.isMergeable && !k.isWord && !k.isDquotePiece && k ≠ .escape && k ≠ .escapedLiteral

namespace Token

variable {t : Token} {ts : List Token}

/-- What stands under a token that opens no string stays. -/
theorem stripEmptyFrom_append {below : List Token}
    (hbelow : ∀ u ∈ below.head?, u.kind ≠ .stringDquoteBegin) (kept ts : List Token) :
    stripEmptyFrom (kept ++ below) ts = below.reverse ++ stripEmptyFrom kept ts := by
  induction ts generalizing kept with
  | nil => simp [stripEmptyFrom]
  | cons u rest ih =>
      cases kept with
      | nil =>
          have hstep : stripEmptyFrom below (u :: rest) = stripEmptyFrom ([u] ++ below) rest := by
            cases below with
            | nil => rfl
            | cons last before => simp [stripEmptyFrom, hbelow last rfl]
          rw [List.nil_append, hstep, ih [u]]
          rfl
      | cons last before =>
          simp only [List.cons_append, stripEmptyFrom]
          split
          · exact ih before
          · exact ih (u :: last :: before)

theorem stripEmptyStrings_cons (ht : t.kind ≠ .stringDquoteBegin) (ts : List Token) :
    stripEmptyStrings (t :: ts) = t :: stripEmptyStrings ts := by
  have hbelow : ∀ u ∈ [t].head?, u.kind ≠ .stringDquoteBegin := by simpa using ht
  exact stripEmptyFrom_append hbelow [] ts

theorem mergeLiterals_cons (ht : t.kind.isMergeable = false) (ts : List Token) :
    mergeLiterals (t :: ts) = t :: mergeLiterals ts := by
  cases ts with
  | nil => rfl
  | cons next rest =>
      have hjoin : (t.kind == next.kind && next.kind.isMergeable) = false := by
        by_cases hsame : t.kind = next.kind
        · simp [← hsame, ht]
        · simp [hsame]
      simp [mergeLiterals, fuseRuns, fuseFrom, hjoin]

theorem widen_cons (ht : t.isGlued = false) (join : Bool) (ts : List Token) :
    widen join (t :: ts) = t :: widen join ts := by
  rw [widen, if_neg (by simp [ht])]

/-- Tokens after the passes that concern words and strings. -/
def joinWords (ts : List Token) : List Token :=
  widen true (mergeLiterals (stripEmptyStrings (applyEscapes ts)))

theorem joinWords_cons (ht : t.kind.isFence = true) (ts : List Token) :
    joinWords (t :: ts) = t :: joinWords ts := by
  obtain ⟨⟨⟨⟨hmerge, hword⟩, hpiece⟩, hescape⟩, hescaped⟩ := by
    simpa [Kind.isFence] using ht
  have hbegin : t.kind ≠ .stringDquoteBegin := by
    rintro heq
    simp [heq, Kind.isDquotePiece] at hpiece
  rw [joinWords, applyEscapes_cons hescape, if_neg hescaped, stripEmptyStrings_cons hbegin,
    mergeLiterals_cons hmerge, widen_cons (by simp [isGlued, hword, hpiece])]
  rfl

/-- The cleaned tokens of what stands after a word. -/
def afterWord (ts : List Token) : List Token :=
  ((fuseRuns (fun t next => t.kind == .delimiter && next.kind == .delimiter)
    (joinWords ts)).map singleSpace).rdropWhile isBlankDelimiter

theorem stripBlanks_cons (ht : t.kind ≠ .delimiter) (ts : List Token) :
    stripBlanks (t :: ts) =
      t :: ((fuseRuns (fun t next => t.kind == .delimiter && next.kind == .delimiter)
        ts).map singleSpace).rdropWhile isBlankDelimiter := by
  have hblank : t.isBlankDelimiter = false := by simp [isBlankDelimiter, ht]
  have hfuse : fuseRuns (fun t next => t.kind == .delimiter && next.kind == .delimiter) (t :: ts) =
      t :: fuseRuns (fun t next => t.kind == .delimiter && next.kind == .delimiter) ts := by
    cases ts with
    | nil => rfl
    | cons next rest => simp [fuseRuns, fuseFrom, ht]
  rw [stripBlanks, hfuse, List.map_cons, singleSpace_of_not_delimiter ht, trimBlanks,
    List.dropWhile_cons_of_neg (by simp [hblank])]
  show List.rdropWhile _ _ = _
  rw [rdropWhile_cons, if_neg (by simp [hblank])]

/-- What follows the word `set` is cleaned on its own. -/
theorem apply_setWord (ht : t.kind = .setWord) (ts : List Token) :
    Cleaning.standard.apply (t :: ts) = t :: afterWord ts := by
  show stripBlanks (joinWords (t :: ts)) = _
  rw [joinWords_cons (by rw [ht]; rfl), stripBlanks_cons (by simp [ht])]
  rfl

/-- Three words, the second of them escaped, are one word, and what follows it after a separator is
cleaned on its own. -/
theorem exists_apply_escaped {s c e r d : Token} (hs : s.kind = .literal) (hc : c.kind = .escape)
    (he : e.kind = .escapedLiteral) (hr : r.kind = .literal) (hd : d.kind = .delimiter)
    (ts : List Token) :
    ∃ w, w.kind = .literal ∧ w.text = s.text ++ e.text ++ r.text ∧
      Cleaning.standard.apply (s :: c :: e :: r :: d :: ts) = w :: afterWord (d :: ts) := by
  have hescapes : applyEscapes (s :: c :: e :: r :: d :: ts) =
      s :: e.withKind .literal :: r :: applyEscapes (d :: ts) := by
    rw [applyEscapes_cons (by simp [hs]), applyEscapes_cons_escape hc,
      applyEscapes_cons (by simp [he]), applyEscapes_cons (by simp [hr])]
    simp [hs, he, hr]
  have hstrip : stripEmptyStrings (s :: e.withKind .literal :: r :: applyEscapes (d :: ts)) =
      s :: e.withKind .literal :: r :: stripEmptyStrings (applyEscapes (d :: ts)) := by
    rw [stripEmptyStrings_cons (by simp [hs]), stripEmptyStrings_cons (by simp [withKind]),
      stripEmptyStrings_cons (by simp [hr])]
  obtain ⟨us, hus⟩ : ∃ us, stripEmptyStrings (applyEscapes (d :: ts)) = d :: us := by
    rw [applyEscapes_cons (by simp [hd]), if_neg (by simp [hd]),
      stripEmptyStrings_cons (by simp [hd])]
    exact ⟨_, rfl⟩
  let w := (s.fuse (e.withKind .literal)).fuse r
  have hw : w.kind = .literal := hs
  have hmerge : mergeLiterals (s :: e.withKind .literal :: r :: d :: us) =
      w :: mergeLiterals (d :: us) := by
    simp [mergeLiterals, fuseRuns, fuseFrom, fuse, withKind, hs, hr, hd, Kind.isMergeable, w]
  have hwiden : widen true (w :: mergeLiterals (d :: us)) =
      w :: widen true (mergeLiterals (d :: us)) := by
    have hglued : w.isGlued = true := by simp [isGlued, hw, Kind.isWord]
    have hstop : d.isGlued = false := by simp [isGlued, hd, Kind.isWord, Kind.isDquotePiece]
    rw [mergeLiterals_cons (by simp [hd, Kind.isMergeable]), widen, if_pos hglued,
      List.takeWhile_cons_of_neg (by simp [hstop]), List.dropWhile_cons_of_neg (by simp [hstop])]
    simp [widenRun, hw]
  have hjoin : joinWords (s :: c :: e :: r :: d :: ts) = w :: joinWords (d :: ts) := by
    rw [joinWords, hescapes, hstrip, hus, hmerge, hwiden, joinWords, hus]
  refine ⟨w, hw, rfl, ?_⟩
  show stripBlanks (joinWords _) = _
  rw [hjoin, stripBlanks_cons (by simp [hw])]
  rfl

/-! ### Reading what follows the word -/

theorem plain_afterWord (hescapes : Unescaped ts) (hplain : ∀ t ∈ ts, t.Plain) :
    ∀ t ∈ afterWord ts, t.Plain := by
  let w : Token := ⟨.setWord, ['s'], default⟩
  have hwhole : ∀ t ∈ Cleaning.standard.apply (w :: ts), t.Plain :=
    Cleaning.plain_apply (List.forall_mem_cons.mpr ⟨by simp [w], hescapes⟩)
      (List.forall_mem_cons.mpr ⟨⟨by simp [w], by simp [w]⟩, hplain⟩)
  rw [apply_setWord rfl] at hwhole
  exact (List.forall_mem_cons.mp hwhole).2

theorem apart_afterWord (ts : List Token) : Apart Kind.Separators (afterWord ts) := by
  have hwhole :=
    ((Cleaning.normal_apply .standard (⟨.setWord, ['s'], default⟩ :: ts)).blanks rfl).apart
  rw [apply_setWord rfl] at hwhole
  exact (List.isChain_cons.mp hwhole).2

theorem reading_afterWord (hescapes : Unescaped ts) (hplain : ∀ t ∈ ts, t.Plain) :
    reading (afterWord ts) = settle (reading (stripEmptyStrings ts)) := by
  have hstripped := plain_mergeLiterals (Cleaning.plain_stripEmptyStrings hplain)
  rw [afterWord, joinWords, applyEscapes_of_unescaped hescapes,
    reading_rdropWhile (plain_fuseSeparators (plain_widen true hstripped))
      (apart_fuseRuns separators_iff _),
    reading_fuseRuns (by simp; intro a b ha hb; rw [ha, hb]), reading_widen hstripped,
    reading_mergeLiterals]
  rfl

/-- A separator after the word is read in front of what follows it. -/
theorem reading_afterWord_cons {d : Token} (hkind : d.kind = .delimiter) (htext : d.text ≠ [])
    (hts : Unescaped ts ∧ ∀ t ∈ ts, t.Plain) :
    (∀ t ∈ afterWord (d :: ts), t.Plain) ∧
      reading (afterWord (d :: ts)) =
        settle (ofText .gap d.text ++ reading (stripEmptyStrings ts)) := by
  have hescapes : Unescaped (d :: ts) := List.forall_mem_cons.mpr ⟨by simp [hkind], hts.1⟩
  have hplain : ∀ t ∈ d :: ts, t.Plain :=
    List.forall_mem_cons.mpr ⟨⟨htext, by simp [hkind]⟩, hts.2⟩
  refine ⟨plain_afterWord hescapes hplain, ?_⟩
  rw [reading_afterWord hescapes hplain, stripEmptyStrings_cons (by simp [hkind]), reading_cons,
    hkind]
  rfl

/-! ### Tokens of a text -/

section

variable {mode : Lexer.Mode} {u : Text} (hts : ts.map lexeme = Lexeme.join (Lexer.pieces mode u))
include hts

theorem reading_of_map_lexeme : reading ts = Lexer.reading mode u := by
  rw [Lexer.reading, ← Lexeme.reading_join, ← hts, Lexeme.reading, List.flatMap_map]
  rfl

theorem plain_of_map_lexeme (hplain : ∀ x ∈ Lexer.pieces mode u, x.Plain) :
    Unescaped ts ∧ ∀ t ∈ ts, t.Plain := by
  have hmem : ∀ t ∈ ts, t.lexeme ∈ Lexeme.join (Lexer.pieces mode u) := by
    intro t ht
    rw [← hts]
    exact List.mem_map_of_mem ht
  have hjoin := Lexeme.forall_join
    (fun k s hk => Lexeme.plain_of_isInert (x := ⟨k, s⟩) (Kind.isInert_of_isPieced hk)) hplain
  refine ⟨fun t ht => (hjoin _ (hmem t ht)).unescaped, fun t ht => ⟨?_, ?_⟩⟩
  · exact (Lexer.covers_pieces mode u).join.nonempty _ (hmem t ht)
  · exact (hjoin _ (hmem t ht)).quote

theorem isChain_of_map_lexeme (hchain : ∀ x ∈ Lexer.pieces mode u, x.kind.isChain = false) :
    ∀ t ∈ ts, t.kind.isChain = false := by
  intro t ht
  have hjoin := Lexeme.forall_join (P := fun x => x.kind.isChain = false)
    (fun k s hk => by cases k <;> simp_all [Lexeme.isPieced, Kind.isChain]) hchain
  refine hjoin t.lexeme ?_
  rw [← hts]
  exact List.mem_map_of_mem ht

end

/-- Cleaned tokens that spell separators and a text after a single space. -/
inductive Arguments : List Token → Text → Text → Prop
  | nil : Arguments [] [] []
  | cons {d : Token} {ts : List Token} {g u : Text} (hkind : d.kind = .delimiter)
      (htext : d.text = ' ' :: g) (hspell : stringify ts = u) (hne : g ++ u ≠ []) :
      Arguments (d :: ts) g u

/-- Separators that are read together are one token. -/
theorem arguments_of_reading (hplain : ∀ t ∈ ts, t.Plain) (hapart : Apart Kind.Separators ts)
    {g : Text} {r : Reading} (hr : ∀ x ∈ r.head?, isGap x = false)
    (h : reading ts = if g ++ r.text = [] then [] else ofText .gap (' ' :: g) ++ r) :
    Arguments ts g r.text := by
  by_cases hnil : g ++ r.text = []
  · rw [if_pos hnil, reading_eq_nil hplain] at h
    obtain ⟨hg, hr⟩ := List.append_eq_nil_iff.mp hnil
    rw [h, hg, hr]
    exact .nil
  · rw [if_neg hnil] at h
    cases ts with
    | nil => simp at h
    | cons d ts =>
        have hplain' : ∀ t ∈ ts, t.Plain := fun t ht => hplain t (by simp [ht])
        have hkind : d.kind = .delimiter := by
          have hhead : (.gap, ' ') ∈ (reading (d :: ts)).head? := by rw [h]; rfl
          obtain ⟨t, ht, hrole⟩ := role_of_mem_head?_reading hplain hhead
          obtain rfl := Option.some.inj ht
          exact Kind.role_eq_gap.mp hrole.symm
        have hafter : ∀ t ∈ ts.head?, t.kind ≠ .delimiter :=
          fun t ht hdelimiter => (List.isChain_cons.mp hapart).1 t ht ⟨hkind, hdelimiter⟩
        have hgap : ∀ s : Text, ∀ x ∈ ofText .gap s, isGap x = true :=
          fun s x hx => by simp [isGap, role_of_mem_ofText hx]
        rw [reading_cons, Kind.role_eq_gap.mpr hkind] at h
        have hrest := isGap_head?_reading hplain' hafter
        have htext := takeWhile_run (hgap d.text) hrest
        rw [h, takeWhile_run (hgap _) hr] at htext
        have hspell := dropWhile_run (hgap d.text) hrest
        rw [h, dropWhile_run (hgap _) hr] at hspell
        refine .cons hkind ?_ ?_ hnil
        · simpa using (congrArg Reading.text htext).symm
        · rw [hspell, text_reading]

theorem Arguments.isDelimiter_head? {g u : Text} (h : Arguments ts g u) :
    ∀ d ∈ ts.head?, d.kind = .delimiter := by
  cases h with
  | nil => simp
  | cons hkind htext hspell hne => simpa using hkind

theorem Arguments.stringify_tail {g u : Text} (h : Arguments ts g u) : stringify ts.tail = u := by
  cases h with
  | nil => rfl
  | cons hkind htext hspell hne => exact hspell

/-- Where no separator is read last, none is the last token. -/
theorem ne_delimiter_of_getLast? (hplain : ∀ t ∈ ts, t.Plain)
    (hlast : ∀ x ∈ (reading ts).getLast?, isGap x = false) :
    ∀ t ∈ ts.getLast?, t.kind ≠ .delimiter := by
  intro t ht hkind
  obtain ⟨init, rfl⟩ := List.getLast?_eq_some_iff.mp ht
  obtain ⟨before, c, htext⟩ :=
    (List.eq_nil_or_concat' t.text).resolve_left (hplain t (by simp)).ne_nil
  have hgap := hlast (t.kind.role, c) (by
    rw [reading_append, reading_cons, reading_nil, List.append_nil, htext, ofText_append,
      ← List.append_assoc]
    exact List.getLast?_concat)
  simp [isGap, hkind, Kind.role, Kind.isWord] at hgap

/-- Tokens without the separators at their end. -/
def dropSeparators (ts : List Token) : List Token :=
  ts.rdropWhile (·.kind = .delimiter)

/-- The separators at the end, as they are written. -/
def separatorsAtEnd (ts : List Token) : Text :=
  stringify (ts.rtakeWhile (·.kind = .delimiter))

theorem dropSeparators_cons (ht : t.kind ≠ .delimiter) (ts : List Token) :
    dropSeparators (t :: ts) = t :: dropSeparators ts := by
  rw [dropSeparators, rdropWhile_cons, if_neg (by simp [ht])]
  rfl

theorem stringify_dropSeparators_append (ts : List Token) :
    stringify (dropSeparators ts) ++ separatorsAtEnd ts = stringify ts := by
  rw [separatorsAtEnd, ← stringify_append, dropSeparators, List.rdropWhile_append_rtakeWhile]

theorem separatorsAtEnd_cons (ht : t.kind ≠ .delimiter) (ts : List Token) :
    separatorsAtEnd (t :: ts) = separatorsAtEnd ts := by
  have hwhole := stringify_dropSeparators_append (t :: ts)
  rw [dropSeparators_cons ht, stringify_cons, stringify_cons, List.append_assoc,
    ← stringify_dropSeparators_append ts] at hwhole
  exact List.append_cancel_left (List.append_cancel_left hwhole)

theorem dropSeparators_of_reading (hplain : ∀ t ∈ ts, t.Plain)
    (hlast : ∀ x ∈ (reading ts).getLast?, isGap x = false) : dropSeparators ts = ts := by
  refine List.rdropWhile_eq_self_iff.mpr fun hne => ?_
  simpa using ne_delimiter_of_getLast? hplain hlast _ (List.getLast?_eq_getLast_of_ne_nil hne)

/-- A token in front stays unless nothing is left. -/
theorem dropSeparators_cons_cases (t : Token) (ts : List Token) :
    dropSeparators (t :: ts) = [] ∨ dropSeparators (t :: ts) = t :: dropSeparators ts := by
  rw [dropSeparators, rdropWhile_cons]
  split
  · exact Or.inl rfl
  · exact Or.inr rfl

/-- What is left of such tokens is spelled like what is left of other ones that spell the same and
end in the same separators, and so it is after the first separator. -/
theorem Arguments.stringify_dropSeparators {us : List Token} {g u : Text} (h : Arguments ts g u)
    (h' : Arguments us g u) (hend : separatorsAtEnd ts = separatorsAtEnd us) :
    stringify (dropSeparators ts) = stringify (dropSeparators us) ∧
      stringify (dropSeparators ts).tail = stringify (dropSeparators us).tail := by
  cases h with
  | nil =>
      cases h' with
      | nil => exact ⟨rfl, rfl⟩
      | cons _ _ _ hne => exact absurd rfl hne
  | @cons d ts _ _ hkind htext hspell hne =>
      cases h' with
      | nil => exact absurd rfl hne
      | @cons e us _ _ hkind' htext' hspell' _ =>
          have hwhole : stringify (dropSeparators (d :: ts)) ++ separatorsAtEnd (d :: ts) =
              stringify (dropSeparators (e :: us)) ++ separatorsAtEnd (d :: ts) := by
            nth_rewrite 2 [hend]
            rw [stringify_dropSeparators_append, stringify_dropSeparators_append, stringify_cons,
              stringify_cons, htext, htext', hspell, hspell']
          have htail : ∀ {d : Token} (ts : List Token), d.text = ' ' :: g →
              stringify (dropSeparators (d :: ts)).tail =
                (stringify (dropSeparators (d :: ts))).drop (g.length + 1) := by
            intro d ts htext
            rcases dropSeparators_cons_cases d ts with hnil | hcons
            · simp [hnil]
            · rw [hcons, stringify_cons, htext, ← List.length_cons, List.drop_left]
              rfl
          rw [htail ts htext, htail us htext', List.append_cancel_right hwhole]
          exact ⟨rfl, rfl⟩

end Token

/-! ### The command -/

/-- Only the separators at the end are taken off a command that begins with a word. -/
theorem Block.peel_cons {w : Token} (hdelimiter : w.kind ≠ .delimiter) (hparen : w.kind ≠ .lParen)
    (ts : List Token) : peel (w :: ts) = w :: Token.dropSeparators ts := by
  have htrim : trimDelimiters (w :: ts) = w :: Token.dropSeparators ts := by
    rw [← Token.dropSeparators_cons hdelimiter, trimDelimiters,
      List.dropWhile_cons_of_neg (by simp [hdelimiter])]
    rfl
  have hnone : inner? (trimDelimiters (w :: ts)) = none :=
    inner?_eq_none_of_head? (by simpa [htrim] using hparen)
  rw [peel_eq, hnone, htrim]

/-- The word `set`, as it is or without a caret. -/
structure Token.IsSet (w : Token) : Prop where
  kind : w.kind = .setWord ∨ w.kind = .literal
  text : w.text = "set".toList

theorem Token.IsSet.ne_delimiter {w : Token} (hw : w.IsSet) : w.kind ≠ .delimiter := by
  rcases hw.kind with h | h <;> simp [h]

namespace Program

variable {w : Token} {ts : List Token} {u : Text}

theorem identify_set (hw : w.IsSet) (hts : ∀ d ∈ ts.head?, d.kind = .delimiter) :
    identify (w :: ts) = ⟨"set".toList, some (min 2 (w :: ts).length), "set".toList, []⟩ := by
  by_cases hset : w.kind = .setWord
  · have hidentify := identify_setWord (List.forall_mem_nil _) hset ts
    rw [List.nil_append, hw.text] at hidentify
    rw [hidentify]
    cases ts with
    | nil => rfl
    | cons d ts => simp [hts d rfl]
  · have hliteral := hw.kind.resolve_left hset
    have hstop : ts.takeWhile (·.kind ≠ .delimiter) = [] ∧
        ts.dropWhile (·.kind ≠ .delimiter) = ts := by
      cases ts with
      | nil => exact ⟨rfl, rfl⟩
      | cons d ts => simp [hts d rfl]
    have hloose : ∀ u ∈ w :: ts.takeWhile (·.kind ≠ .delimiter), u.kind.isLoose = true := by
      rw [hstop.1, List.forall_mem_singleton, hliteral]
      rfl
    obtain ⟨p, htokens, hhead, harguments⟩ := exists_parts_loose hloose hw.ne_delimiter hset
    rw [hstop.1] at hhead
    rw [hstop.2] at harguments
    have hopen : ¬ quoteOpen p.head = true := by simp [hhead, quoteOpen, hliteral]
    have hspelled : Token.stringify p.head = "set".toList := by
      rw [hhead, Token.stringify_cons, hw.text]
      rfl
    have hoffset : p.offset = min 2 (w :: ts).length := by
      have hdrop := congrArg List.length p.drop_offset
      have hle := p.offset_le
      rw [htokens, harguments, List.length_drop, List.length_tail, List.length_cons] at hdrop
      rw [htokens, List.length_cons] at hle
      rw [List.length_cons]
      omega
    have hname : nameOfHead "set".toList = "set".toList := by decide +kernel
    rw [← htokens, Parts.identify_of_quoteClosed hopen, hspelled, hname, hoffset, htokens,
      if_neg (by decide)]

end Program

/-- The command assigns what the tokens after the first of `ts` say, if they say anything. -/
structure Command.Sets (c : Command) (ts : List Token) : Prop where
  name : c.program.name = "set".toList
  arguments : c.setArguments = Text.trim (Token.stringify ts.tail)
  text : c.text = Text.trim ("set".toList ++ Token.stringify ts)

/-- **The word `set` and its arguments are the command that assigns.** -/
theorem Command.sets_peel {w : Token} {ts : List Token} (hw : w.IsSet)
    (hts : ∀ d ∈ ts.head?, d.kind = .delimiter) :
    (ofTokens (Block.peel (w :: ts))).Sets (Token.dropSeparators ts) := by
  have hparen : w.kind ≠ .lParen := by rcases hw.kind with h | h <;> simp [h]
  have hhead : ∀ d ∈ (Token.dropSeparators ts).head?, d.kind = .delimiter := by
    intro d hd
    obtain ⟨back, hback⟩ := List.rdropWhile_prefix (·.kind = .delimiter) (l := ts)
    obtain ⟨more, hmore⟩ := List.head?_eq_some_iff.mp hd
    exact hts d (by rw [← hback, ← Token.dropSeparators, hmore]; rfl)
  rw [Block.peel_cons hw.ne_delimiter hparen]
  generalize Token.dropSeparators ts = us at hhead
  have hprogram : Program.identify (w :: us) = _ := Program.identify_set hw hhead
  have hline : (ofTokens (w :: us)).line = Text.trim (Token.stringify us.tail) := by
    rw [line, arguments, ofTokens, hprogram]
    cases us with
    | nil => rfl
    | cons d us => simp [Program.arguments]
  refine ⟨congrArg Program.name hprogram, ?_, ?_⟩
  · have hset : (ofTokens (w :: us)).program.head = "set".toList := congrArg Program.head hprogram
    rw [setArguments, hset, hline]
    rfl
  · show Text.trim (Token.stringify (w :: us)) = _
    rw [Token.stringify_cons, hw.text]

end BatchTrace
