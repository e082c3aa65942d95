/-
Switches that are written out and read back.

A table of switches is sorted by name and has one entry for each name, which is what the last
switch of that name says.  `Records` says so of a table and the switches that were entered; entering
one more switch keeps it.

Words of switches with gaps of spaces and commas between them are read word by word: a slash makes
a word a literal, and a gap ends it.  The body behind them begins with no separator and no slash, so
it is neither passed over nor taken for a switch, and it comes out as it went in.
-/
import BatchTrace.Proofs.Program.SwitchWords
import BatchTrace.Proofs.Token.Calm

namespace BatchTrace

open SpelledSwitch

/-! ### Names and values -/

namespace Switch

/-- The letters that `cmd` knows and what they stand for. -/
def letterNames : List (Char × Text) :=
  [('c', "run_then_terminate".toList), ('k', "run_then_continue".toList),
    ('v', "delayed_expansion".toList), ('e', "cmd_extensions".toList),
    ('f', "path_autocomplete".toList), ('q', "echo_off".toList), ('d', "ignore_autorun".toList),
    ('s', "strip_quotes".toList)]

theorem name_ofName (name : Text) : (ofName name).name = name := by
  rw [ofName]
  cases h : known.find? (·.name = name) with
  | none => rfl
  | some s => simpa using List.find?_some h

theorem ofName_inj {m n : Text} : ofName m = ofName n ↔ m = n := by
  constructor
  · intro h
    rw [← name_ofName m, h, name_ofName]
  · rintro rfl
    rfl

/-- A letter stands for the switch of its name. -/
theorem ofLetter_eq (c : Char) : ofLetter c = ofName ((letterNames.lookup c).getD [c]) := by
  unfold ofLetter
  split
  case h_9 hc hk hv he hf hq hd hs =>
    have hnone : letterNames.lookup c = none := by
      simpa [letterNames, List.lookup_eq_none_iff] using ⟨hc, hk, hv, he, hf, hq, hd, hs⟩
    -- The names that `cmd` knows are all longer than a letter.
    have hlong : (known.all fun s => s.name.length ≠ 1) = true := by decide
    have hfind : known.find? (·.name = [c]) = none := by
      refine List.find?_eq_none.mpr fun s hs heq => ?_
      have hlength := List.all_eq_true.mp hlong s hs
      simp [of_decide_eq_true heq] at hlength
    rw [hnone, Option.getD_none, ofName, hfind, Option.getD_none]
  all_goals rfl

end Switch

namespace SpelledSwitch

/-- The name that the switch has in a table. -/
def name (x : SpelledSwitch) : Text :=
  (Switch.letterNames.lookup x.letter.toLower).getD [x.letter.toLower]

/-- What the switch says. -/
def value (x : SpelledSwitch) : SwitchValue :=
  x.argument.elim (.flag true) fun a =>
    if x.letter.toLower ∈ ['v', 'e', 'f'] then .flag (Text.asciiLower a ≠ "off".toList)
    else if x.letter.toLower ∈ ['c', 'k', 'q', 'd', 's'] then .flag true
    else .text a

theorem valueOf_eq (x : SpelledSwitch) :
    (Switch.ofLetter x.letter.toLower).valueOf x.argument = x.value := by
  rw [value]
  generalize x.letter.toLower = c
  cases x.argument with
  | none => rfl
  | some a =>
      rw [Option.elim_some]
      have hsame : Text.sameAscii a ['o', 'f', 'f'] =
          decide (Text.asciiLower a = ['o', 'f', 'f']) := by
        rw [Bool.eq_iff_iff, Text.sameAscii_iff, decide_eq_true_eq]
        rfl
      unfold Switch.ofLetter
      split
      case h_9 hc hk hv he hf hq hd hs =>
        have hflag : c ∉ ['v', 'e', 'f'] := by simpa using ⟨hv, he, hf⟩
        have hknown : c ∉ ['c', 'k', 'q', 'd', 's'] := by simpa using ⟨hc, hk, hq, hd, hs⟩
        rw [if_neg hflag, if_neg hknown]
        rfl
      all_goals simp [Switch.valueOf, Switch.takesOnOff, hsame]

theorem enter_written (x : SpelledSwitch) (table : Switches) :
    WrittenSwitch.enter table x.written = Switches.insert (Switch.ofName x.name) x.value table := by
  show Switches.insert (Switch.ofLetter x.letter.toLower)
    ((Switch.ofLetter x.letter.toLower).valueOf x.argument) table = _
  rw [x.valueOf_eq, Switch.ofLetter_eq]
  rfl

end SpelledSwitch

/-! ### Tables -/

namespace Switches

section

variable {table : Switches} {s : Switch}

theorem mem_insert {v : SwitchValue} {e : Switch × SwitchValue}
    (h : table.Pairwise fun d e => d.1.name < e.1.name) :
    e ∈ insert s v table ↔ e = (s, v) ∨ (e ∈ table ∧ e.1 ≠ s) := by
  induction table with
  | nil => simp [insert]
  | cons d table ih =>
      obtain ⟨s', v'⟩ := d
      obtain ⟨hfirst, htable⟩ := List.pairwise_cons.mp h
      -- An entry of a greater name is no entry for `s`.
      have hgreater : s.name < e.1.name → e.1 ≠ s := by
        rintro hlt rfl
        exact Std.ne_of_lt hlt rfl
      rw [insert]
      split
      · rename_i hsame
        subst hsame
        have hkept : e ∈ table → e.1 ≠ s := fun he => hgreater (hfirst e he)
        grind
      · rename_i hother
        split
        · rename_i hlt
          have hkept : e ∈ (s', v') :: table → e.1 ≠ s := by
            intro he
            rcases List.mem_cons.mp he with rfl | he
            · exact hgreater hlt
            · exact hgreater (List.lt_trans hlt (hfirst e he))
          grind
        · rw [List.mem_cons, List.mem_cons, ih htable]
          grind

theorem sorted_insert {v : SwitchValue} (h : table.Pairwise fun d e => d.1.name < e.1.name)
    (hnames : ∀ e ∈ table, e.1.name = s.name → e.1 = s) :
    (insert s v table).Pairwise fun d e => d.1.name < e.1.name := by
  induction table with
  | nil => simp [insert]
  | cons d table ih =>
      obtain ⟨s', v'⟩ := d
      obtain ⟨hfirst, htable⟩ := List.pairwise_cons.mp h
      rw [insert]
      split
      · rename_i hsame
        subst hsame
        exact List.pairwise_cons.mpr ⟨hfirst, htable⟩
      · rename_i hother
        split
        · rename_i hlt
          refine List.pairwise_cons.mpr ⟨fun e he => ?_, h⟩
          rcases List.mem_cons.mp he with rfl | he
          · exact hlt
          · exact List.lt_trans hlt (hfirst e he)
        · rename_i hle
          refine List.pairwise_cons.mpr
            ⟨fun e he => ?_, ih htable fun e he => hnames e (List.mem_cons_of_mem _ he)⟩
          rcases (mem_insert htable).mp he with rfl | ⟨he, -⟩
          · by_contra hge
            have hname : s'.name = s.name := List.le_antisymm hle hge
            exact hother (hnames (s', v') List.mem_cons_self hname).symm
          · exact hfirst e he

end

/-- The table holds what the switches `xs` say, one after the other. -/
structure Records (table : Switches) (xs : List SpelledSwitch) : Prop where
  /-- The entries are sorted by name, and no name has two of them. -/
  sorted : table.Pairwise fun d e => d.1.name < e.1.name
  /-- An entry comes from a switch that no later one of its name replaces. -/
  mem_iff : ∀ s v, (s, v) ∈ table ↔ ∃ before x after, xs = before ++ x :: after ∧
    (∀ y ∈ after, y.name ≠ x.name) ∧ s = Switch.ofName x.name ∧ v = x.value

namespace Records

variable {table : Switches} {xs : List SpelledSwitch}

theorem nil : Records [] [] where
  sorted := .nil
  mem_iff := by simp

/-- One more switch replaces what an earlier one of its name says. -/
theorem enter (h : Records table xs) (x : SpelledSwitch) :
    Records (WrittenSwitch.enter table x.written) (xs ++ [x]) := by
  rw [x.enter_written]
  constructor
  · refine sorted_insert h.sorted ?_
    rintro ⟨s, v⟩ hmem hname
    obtain ⟨_, y, _, -, -, rfl, -⟩ := (h.mem_iff s v).mp hmem
    rw [Switch.name_ofName, Switch.name_ofName] at hname
    rw [hname]
  · intro s v
    rw [mem_insert h.sorted, h.mem_iff]
    constructor
    · rintro (heq | ⟨⟨before, y, after, rfl, hlater, rfl, rfl⟩, hne⟩)
      · obtain ⟨rfl, rfl⟩ := Prod.mk.inj heq
        exact ⟨xs, x, [], rfl, by simp, rfl, rfl⟩
      · refine ⟨before, y, after ++ [x], by simp, ?_, rfl, rfl⟩
        intro z hz
        rcases List.mem_append.mp hz with hz | hz
        · exact hlater z hz
        · rw [List.mem_singleton.mp hz]
          exact fun hname => hne (congrArg Switch.ofName hname.symm)
    · rintro ⟨before, y, after, heq, hlater, rfl, rfl⟩
      -- The switch that the entry comes from is the new one, or the new one comes after it.
      rcases List.eq_nil_or_concat' after with rfl | ⟨after, z, rfl⟩
      · obtain ⟨-, hlast⟩ := List.append_inj' heq rfl
        rw [(List.cons.inj hlast).1]
        exact .inl rfl
      · rw [← List.cons_append, ← List.append_assoc] at heq
        obtain ⟨rfl, hlast⟩ := List.append_inj' heq rfl
        obtain rfl := (List.cons.inj hlast).1
        refine .inr ⟨⟨before, y, after, rfl, fun w hw => hlater w (by simp [hw]), rfl, rfl⟩, ?_⟩
        intro hsame
        exact hlater x (by simp) (Switch.ofName_inj.mp hsame).symm

/-- **A table holds what the last switch of each name says.** -/
theorem foldl_enter (xs : List SpelledSwitch) :
    Records ((xs.map SpelledSwitch.written).foldl WrittenSwitch.enter []) xs := by
  induction xs using List.reverseRecOn with
  | nil => exact nil
  | append_singleton xs x ih =>
      rw [List.map_append, List.map_singleton, List.foldl_concat]
      exact ih.enter x

end Records

end Switches

/-! ### How words and gaps are read -/

theorem Chunk.kind_word_slash (more : Text) : (word ('/' :: more)).kind = .literal := by
  have hwords : (reservedWords.all fun e => e.1.head? ≠ some '/') = true := by decide
  have hnone : reserved? ('/' :: more) = none := by
    rw [reserved?, List.lookup_eq_none_iff]
    intro e he
    have hhead := List.all_eq_true.mp hwords e he
    rw [bne_iff_ne]
    intro heq
    rw [← heq] at hhead
    exact of_decide_eq_true hhead rfl
  rw [kind, hnone, Option.getD_none]

/-- Joining pieces keeps the kind of the first one. -/
theorem Lexeme.kind_head?_join (x : Lexeme) (xs : List Lexeme) :
    ∀ y ∈ (join (x :: xs)).head?, y.kind = x.kind := by
  rw [join]
  split
  · simp
  · split <;> simp

namespace Lexer

theorem kind_head?_command {chunk : Chunk} (h : chunk.WellFormed)
    (hchunk : ∀ run, chunk ≠ .delimiter run) (rest : Text) :
    ∃ x xs, (command chunk rest).out = x :: xs ∧ x.kind ≠ .delimiter := by
  cases chunk with
  | delimiter run => exact absurd rfl (hchunk run)
  | word run => exact ⟨_, _, rfl, Chunk.kind_word_ne_delimiter run⟩
  | singleQuote =>
      cases hquoted : singleQuoted? rest with
      | none =>
          rw [command_singleQuote_none hquoted]
          exact ⟨_, _, rfl, by simp⟩
      | some quoted =>
          rw [command_singleQuote_some hquoted]
          exact ⟨_, _, rfl, by simp⟩
  | operator kind spelling =>
      refine ⟨_, _, rfl, ?_⟩
      rintro rfl
      exact absurd h.1 (by decide)
  | _ => exact ⟨_, _, rfl, by simp [Chunk.kind]⟩

/-- A text that begins with no separator has no separator for its first lexeme. -/
theorem kind_head?_lexemes {t : Text} (h : ∀ c ∈ t.head?, Chunk.isDelimiter c = false) :
    ∀ x ∈ (lexemes t).head?, x.kind ≠ .delimiter := by
  intro x hx
  by_cases ht : t = []
  · subst ht
    rw [lexemes, pieces_nil] at hx
    simp [Lexeme.join] at hx
  obtain ⟨chunk, rest, hnext, hwell⟩ := Chunk.exists_next? ht
  have hchunk : ∀ run, chunk ≠ .delimiter run := by
    rintro run rfl
    obtain ⟨⟨c, hc, hdelimiter⟩, -⟩ := Chunk.isDelimiter_of_next? hnext
    exact absurd hdelimiter (by simp [h c hc])
  obtain ⟨y, ys, hout, hy⟩ := kind_head?_command hwell hchunk rest
  rw [lexemes, pieces_of_next? hnext, show (step .command chunk rest).out = _ from hout,
    List.cons_append] at hx
  rwa [Lexeme.kind_head?_join _ _ x hx]

end Lexer

/-! ### Switches that are written out -/

/-- A word of switches that is read as one word. -/
structure SwitchWord where
  switches : List SpelledSwitch
  ne_nil : switches ≠ []
  letters : ∀ x ∈ switches, x.letter.isAlpha = true
  arguments : ∀ x ∈ switches, ∀ a ∈ x.argument, ∀ c ∈ a, Chunk.isOrdinary c = true

namespace SwitchWord

/-- The text of the word. -/
def text (w : SwitchWord) : Text :=
  spell w.switches

theorem spells (w : SwitchWord) : Spells w.switches [] w.text where
  ne_nil := w.ne_nil
  word_eq := (List.append_nil _).symm
  takesGlue h := absurd rfl h
  glued_head := by simp

theorem isOrdinary (w : SwitchWord) {c : Char} (hc : c ∈ w.text) : Chunk.isOrdinary c = true := by
  obtain ⟨x, hx, hc⟩ := List.mem_flatMap.mp hc
  rcases List.mem_cons.mp hc with rfl | hc
  · rfl
  rcases List.mem_cons.mp hc with rfl | hc
  · refine isOrdinary_of_isAlphanum ?_
    simp [Char.isAlphanum, w.letters x hx]
  · cases ha : x.argument with
    | none => simp [ha] at hc
    | some a =>
        rw [ha, Option.elim_some] at hc
        rcases List.mem_cons.mp hc with rfl | hc
        · rfl
        · exact w.arguments x hx a ha c hc

end SwitchWord

/-- Spaces and commas. -/
structure Gap where
  text : Text
  ne_nil : text ≠ []
  separators : ∀ c ∈ text, c = ' ' ∨ c = ','

namespace Gap

theorem isDelimiter (gap : Gap) {c : Char} (hc : c ∈ gap.text) : Chunk.isDelimiter c = true := by
  rcases gap.separators c hc with rfl | rfl <;> rfl

theorem kind_eq (gap : Gap) : (Chunk.delimiter gap.text).kind = .delimiter := by
  rw [Chunk.kind, if_neg]
  intro hequals
  have hmem : '=' ∈ gap.text := by simp [hequals]
  exact absurd (gap.separators '=' hmem) (by decide)

end Gap

/-- Words of switches with a gap behind each of them, and then a body. -/
def CmdArguments.render (body : Text) : List (SwitchWord × Gap) → Text
  | [] => body
  | (w, gap) :: more => w.text ++ (gap.text ++ render body more)

namespace CmdArguments

section

variable {body : Text} (h : ∀ c ∈ body.head?, c ≠ '/' ∧ Chunk.isDelimiter c = false)
include h

theorem isDelimiter_head?_render (words : List (SwitchWord × Gap)) :
    ∀ c ∈ (render body words).head?, Chunk.isDelimiter c = false := by
  cases words with
  | nil => exact fun c hc => (h c hc).2
  | cons e more =>
      obtain ⟨w, gap⟩ := e
      obtain ⟨rest, hslash⟩ := w.spells.exists_slash
      rw [render, hslash]
      rintro c ⟨⟩
      rfl

/-- A word of switches is a literal, and the gap behind it is a separator. -/
theorem lexemes_render_cons (w : SwitchWord) (gap : Gap) (more : List (SwitchWord × Gap)) :
    Lexer.lexemes (render body ((w, gap) :: more)) =
      ⟨.literal, w.text⟩ :: ⟨.delimiter, gap.text⟩ :: Lexer.lexemes (render body more) := by
  have hword : IsWord w.text (gap.text ++ render body more) := by
    refine ⟨?_, fun c hc => w.isOrdinary hc, ?_⟩
    · obtain ⟨rest, hslash⟩ := w.spells.exists_slash
      simp [hslash]
    · intro c hc
      rw [List.head?_append_of_ne_nil _ gap.ne_nil] at hc
      exact gap.isDelimiter (List.mem_of_mem_head? hc)
  have hkind : (Chunk.word w.text).kind = .literal := by
    obtain ⟨rest, hslash⟩ := w.spells.exists_slash
    rw [hslash, Chunk.kind_word_slash]
  have hgap : Chunk.next? (gap.text ++ render body more) =
      some (.delimiter gap.text, render body more) :=
    Chunk.next?_delimiter_append gap.ne_nil (fun c hc => gap.isDelimiter hc)
      (isDelimiter_head?_render h more)
  rw [render, Lexer.lexemes, Lexer.pieces_of_next? hword.next?,
    show Lexer.step .command (.word w.text) _ = _ from Lexer.command_word (by simp [hkind]) _]
  dsimp only
  rw [Lexer.pieces_of_next? hgap,
    show Lexer.step .command (.delimiter gap.text) _ = _ from
      Lexer.command_delimiter gap.kind_eq _, hkind]
  exact (Lexeme.join_cons rfl _).trans (congrArg _ (Lexeme.join_cons rfl _))

/-- The switches of all words are taken, and the body is left. -/
theorem takes_render (words : List (SwitchWord × Gap)) {ts : List Token}
    (hts : ts.map Token.lexeme = Lexer.lexemes (render body words)) :
    ∃ taken, Takes ts taken (words.flatMap (·.1.switches)) body := by
  induction words generalizing ts with
  | nil =>
      have hspelled : Token.stringify ts = body := by
        rw [← Token.spell_map_lexeme, hts]
        exact (Lexer.covers_lexemes body).spelled
      have hstart : ∀ t ∈ ts.head?, t.kind ≠ .delimiter ∧
          (t.kind = .literal → ∀ xs glued, ¬ Spells xs glued t.text) := by
        intro t ht
        have hhead : t.lexeme ∈ (Lexer.lexemes body).head? := by
          rw [show Lexer.lexemes body = _ from hts.symm, List.head?_map, ht]
          rfl
        refine ⟨Lexer.kind_head?_lexemes (fun c hc => (h c hc).2) _ hhead, ?_⟩
        intro _ xs glued hspells
        obtain ⟨rest, hslash⟩ := hspells.exists_slash
        obtain ⟨us, rfl⟩ := List.head?_eq_some_iff.mp ht
        rw [Token.stringify_cons, hslash] at hspelled
        exact (h '/' (by rw [← hspelled]; rfl)).1 rfl
      rw [← hspelled]
      exact ⟨[], .body hstart⟩
  | cons e more ih =>
      obtain ⟨w, gap⟩ := e
      rw [lexemes_render_cons h] at hts
      obtain ⟨t, us, rfl, ht, hus⟩ := List.map_eq_cons_iff.mp hts
      obtain ⟨u, vs, rfl, hu, hvs⟩ := List.map_eq_cons_iff.mp hus
      obtain ⟨hliteral, htext⟩ := Lexeme.mk.inj ht
      obtain ⟨hdelimiter, -⟩ := Lexeme.mk.inj hu
      obtain ⟨taken, htakes⟩ := ih hvs
      have hword : Spells w.switches [] t.text := htext ▸ w.spells
      exact ⟨_, .word hliteral hword (.separator hdelimiter htakes)⟩

end

/--
**Switches that are written out are read back.**  Words of switches with a gap of spaces and commas
behind each of them are read as these switches, whatever their letters and arguments are: the table
holds what the last switch of each name says.  The body behind the last gap is left as it is.
-/
theorem ofTokens_render (words : List (SwitchWord × Gap)) {body : Text}
    (hbody : ∀ c ∈ body.head?, c ≠ '/' ∧ Chunk.isDelimiter c = false) :
    (ofTokens (Token.tokenize (render body words))).body = body ∧
      (ofTokens (Token.tokenize (render body words))).switches.Records
        (words.flatMap (·.1.switches)) := by
  obtain ⟨taken, htakes⟩ := takes_render hbody words (Token.map_lexeme_tokenize _)
  rw [ofTokens, htakes.ofTokensFrom_eq]
  exact ⟨rfl, Switches.Records.foldl_enter _⟩

/-- A switch that is given twice, with a slash in the body. -/
theorem ofTokens_render_repeated :
    let body := "echo /x".toList
    ∃ words : List (SwitchWord × Gap),
      render body words = "/V:Off/k, ,/v:on echo /x".toList ∧
      (∀ c ∈ body.head?, c ≠ '/' ∧ Chunk.isDelimiter c = false) ∧
      (ofTokens (Token.tokenize (render body words))).body = body ∧
      (ofTokens (Token.tokenize (render body words))).switches.Records
        (words.flatMap (·.1.switches)) := by
  intro body
  have hbody : ∀ c ∈ body.head?, c ≠ '/' ∧ Chunk.isDelimiter c = false := by
    rintro c ⟨⟩
    decide
  let first : SwitchWord :=
    { switches := [⟨'V', some "Off".toList, by simp⟩, ⟨'k', none, by simp⟩]
      ne_nil := by simp
      letters := by simp
      arguments := by simp [Chunk.isOrdinary, Chunk.isDelimiter, Chunk.isSpecial] }
  let last : SwitchWord :=
    { switches := [⟨'v', some "on".toList, by simp⟩]
      ne_nil := by simp
      letters := by simp
      arguments := by simp [Chunk.isOrdinary, Chunk.isDelimiter, Chunk.isSpecial] }
  refine ⟨[(first, ⟨", ,".toList, by simp, by simp⟩), (last, ⟨" ".toList, by simp, by simp⟩)],
    rfl, hbody, ?_⟩
  exact ofTokens_render _ hbody

end CmdArguments

end BatchTrace
