/-
Program names in disguise.

Carets before the letters of a name and empty strings between them do not change which
program is meant.  They do cut the name into pieces, and what a piece is read as depends
on the pieces before it: one that spells `SET` makes the rest the name of an assignment,
in which quotes are ordinary characters.  But every piece stays in the head of the command,
and a head is compared without its quotes, so the name is put together again.

Only one name is given away by how it begins.  A command whose first token is the reserved
word `SET` runs `set`, even if the word goes on after a caret or an empty string.
-/
import BatchTrace.Proofs.Program.Heads
import BatchTrace.Proofs.Text.Ascii
import BatchTrace.Proofs.Token.Alphabet
import BatchTrace.Proofs.Token.Seams

namespace BatchTrace

open Lexeme

/-! ### Letters, carets and empty strings -/

/-- `d` consists of runs of letters and digits, escaped letters and digits, and empty strings; `w`
is what is left of it without carets and quotes. -/
inductive Veiled : Text → Text → Prop
  | nil : Veiled [] []
  | run {run d w : Text} (hne : run ≠ []) (hrun : ∀ c ∈ run, c.isAlphanum = true)
      (hend : ∀ c ∈ d.head?, c = '^' ∨ c = '"') (h : Veiled d w) : Veiled (run ++ d) (run ++ w)
  | caret {c : Char} {d w : Text} (hc : c.isAlphanum = true) (h : Veiled d w) :
      Veiled ('^' :: c :: d) (c :: w)
  | string {d w : Text} (h : Veiled d w) : Veiled ('"' :: '"' :: d) w

/-- Another letter or digit in front. -/
theorem Veiled.char {c : Char} {d w : Text} (hc : c.isAlphanum = true) (h : Veiled d w) :
    Veiled (c :: d) (c :: w) := by
  have hone : ∀ e ∈ [c], e.isAlphanum = true := by simpa using hc
  cases h with
  | nil => exact @Veiled.run [c] _ _ (by simp) hone (by simp) .nil
  | @run run d w hne hrun hend h =>
    refine @Veiled.run (c :: run) _ _ (by simp) ?_ hend h
    simpa [hc] using hrun
  | caret hd h => exact @Veiled.run [c] _ _ (by simp) hone (by simp) (.caret hd h)
  | string h => exact @Veiled.run [c] _ _ (by simp) hone (by simp) (.string h)

/-! ### What they are read as -/

/-- The kinds that a piece of a name can have, other than escapes and strings. -/
def Kind.isNamePart : Kind → Bool
  | setWord | setName | setDquoteBegin | setDquoteEnd => true
  | k => k.isWord

theorem Kind.ne_of_isNamePart {k l : Kind} (hk : k.isNamePart = true) (hl : l.isNamePart = false) :
    k ≠ l := by
  rintro rfl
  rw [hk] at hl
  exact absurd hl (by simp)

/-- Lexemes that spell a name in disguise: parts of the name, escaped characters and empty strings.
`w` is what is left of them without carets and quotes. -/
inductive Veils : List Lexeme → Text → Prop
  | nil : Veils [] []
  | part {x : Lexeme} {xs : List Lexeme} {w : Text} (hx : x.kind.isNamePart = true)
      (h : Veils xs w) : Veils (x :: xs) (Program.unquoted x.text ++ w)
  | escaped {c : Char} {xs : List Lexeme} {w : Text} (hc : c ≠ '"') (h : Veils xs w) :
      Veils (⟨.escape, ['^']⟩ :: ⟨.escapedLiteral, [c]⟩ :: xs) (c :: w)
  | string {xs : List Lexeme} {w : Text} (h : Veils xs w) :
      Veils (⟨.stringDquoteBegin, ['"']⟩ :: ⟨.stringDquoteEnd, ['"']⟩ :: xs) w

theorem unquoted_of_alphanum {t : Text} (h : ∀ c ∈ t, c.isAlphanum = true) :
    Program.unquoted t = t := by
  refine List.filter_eq_self.mpr ?_
  intro c hc
  simpa using ne_of_isAlphanum (h c hc) (d := '"') (by decide)

theorem isNamePart_word (run : Text) : (Chunk.word run).kind.isNamePart = true :=
  Chunk.forall_kind_word (by decide) run

namespace Lexer

theorem next?_run {run d : Text} (hne : run ≠ []) (hrun : ∀ c ∈ run, c.isAlphanum = true)
    (hend : ∀ c ∈ d.head?, c = '^' ∨ c = '"') :
    Chunk.next? (run ++ d) = some (.word run, d) := by
  refine Chunk.next?_word_append hne (fun c hc => isOrdinary_of_isAlphanum (hrun c hc)) ?_ ?_
  · intro c hc
    rcases hend c hc with rfl | rfl <;> decide
  · intro hc
    rcases hend _ hc with h | h <;> exact absurd h (by decide)

/-- Reading a name in disguise where a command or the name of an assignment is expected. -/
theorem veils_pieces {d w : Text} (h : Veiled d w) {mode : Mode} (hmode : mode ≠ .value) :
    Veils (pieces mode d) w := by
  induction h generalizing mode with
  | nil =>
    rw [pieces_eq]
    exact .nil
  | @run run d w hne hrun hend h ih =>
    have hpart : ∀ k rest, Kind.isNamePart k = true → Veils rest w →
        Veils (⟨k, run⟩ :: rest) (run ++ w) := by
      intro k rest hk hrest
      have hveils := Veils.part (x := ⟨k, run⟩) hk hrest
      rwa [unquoted_of_alphanum hrun] at hveils
    rw [pieces_eq, next?_run hne hrun hend]
    cases mode with
    | command =>
      dsimp only [step]
      by_cases hset : (Chunk.word run).kind = .setWord
      · rw [command_setWord hset]
        exact hpart _ _ rfl (@ih .lead (by simp))
      · rw [command_word hset]
        exact hpart _ _ (isNamePart_word run) (@ih .command (by simp))
    | lead => exact hpart _ _ rfl (@ih .name (by simp))
    | name => exact hpart _ _ rfl (@ih .name (by simp))
    | value => exact absurd rfl hmode
  | @caret c d w hc h ih =>
    have hne := ne_of_isAlphanum hc (d := '"') (by decide)
    rw [pieces_eq]
    cases mode with
    | command => exact .escaped hne (@ih .command (by simp))
    | lead => exact .escaped hne (@ih .name (by simp))
    | name => exact .escaped hne (@ih .name (by simp))
    | value => exact absurd rfl hmode
  | @string d w h ih =>
    have hquote : ∀ k rest, Kind.isNamePart k = true → Veils rest w →
        Veils (⟨k, ['"']⟩ :: rest) w := fun k rest hk hrest => .part hk hrest
    rw [pieces_eq]
    cases mode with
    | command => exact .string (@ih .command (by simp))
    | lead => exact hquote _ _ rfl (hquote _ _ rfl (@ih .command (by simp)))
    | name =>
      -- The first quote leaves the reader before the second one, in the same mode.
      refine hquote .setName _ rfl ?_
      show Veils (pieces .name ('"' :: d)) w
      rw [pieces_eq]
      exact hquote .setName _ rfl (@ih .name (by simp))
    | value => exact absurd rfl hmode

end Lexer

/-- A part of the name in front can be taken off. -/
theorem Veils.tail {y : Lexeme} {ys : List Lexeme} {w : Text} (h : Veils (y :: ys) w)
    (hy : y.kind.isNamePart = true) : ∃ w', w = Program.unquoted y.text ++ w' ∧ Veils ys w' := by
  cases h with
  | @part _ _ w' _ h => exact ⟨w', rfl, h⟩
  | escaped _ _ => exact absurd hy (by decide)
  | string _ => exact absurd hy (by decide)

theorem Veils.join {xs : List Lexeme} {w : Text} (h : Veils xs w) : Veils (Lexeme.join xs) w := by
  induction h with
  | nil => exact .nil
  | @part x xs w hx h ih =>
    rw [Lexeme.join]
    cases hjoin : Lexeme.join xs with
    | nil =>
      rw [hjoin] at ih
      exact .part hx ih
    | cons y joined =>
      rw [hjoin] at ih
      dsimp only
      split
      · rename_i hsame
        simp only [Bool.and_eq_true, beq_iff_eq] at hsame
        obtain ⟨w', rfl, hrest⟩ := ih.tail (hsame.2 ▸ hx)
        rw [← List.append_assoc, Program.unquoted, Program.unquoted, ← List.filter_append]
        exact .part (x := ⟨x.kind, x.text ++ y.text⟩) hx hrest
      · exact .part hx ih
  | escaped hc h ih =>
    rw [join_cons rfl, join_cons rfl]
    exact .escaped hc ih
  | string h ih =>
    rw [join_cons rfl, join_cons rfl]
    exact .string ih

/-! ### What cleaning leaves of them -/

namespace Token

theorem stripEmptyFrom_cons {t : Token} (ht : t.kind ≠ .stringDquoteEnd) (kept rest : List Token) :
    stripEmptyFrom kept (t :: rest) = stripEmptyFrom (t :: kept) rest := by
  cases kept with
  | nil => rfl
  | cons last before => rw [stripEmptyFrom, if_neg (fun h => ht h.1)]

theorem applyEscapes_cons {t : Token} (hcaret : t.kind ≠ .escape) (rest : List Token) :
    applyEscapes (t :: rest) =
      (if t.kind = .escapedLiteral then t.withKind .literal else t) :: applyEscapes rest := by
  simp [applyEscapes, hcaret]

theorem applyEscapes_cons_escape {t : Token} (ht : t.kind = .escape) (rest : List Token) :
    applyEscapes (t :: rest) = applyEscapes rest := by
  simp [applyEscapes, ht]

/-- Tokens that are parts of the name `w`, except for quotes in them. -/
structure NameParts (us : List Token) (w : Text) : Prop where
  kinds : ∀ u ∈ us, u.kind.isNamePart = true
  text : Program.unquoted (stringify us) = w

theorem NameParts.cons {u : Token} {us : List Token} {w : Text} (hu : u.kind.isNamePart = true)
    (h : NameParts us w) : NameParts (u :: us) (Program.unquoted u.text ++ w) := by
  refine ⟨by simpa [hu] using h.kinds, ?_⟩
  rw [stringify_cons, Program.unquoted, List.filter_append, ← h.text]
  rfl

/-- Dropping carets and empty strings leaves parts of the name only. -/
theorem exists_stripEmptyFrom {ts : List Token} {w : Text} (h : Veils (ts.map lexeme) w)
    (kept : List Token) :
    ∃ us, stripEmptyFrom kept (applyEscapes ts) = kept.reverse ++ us ∧ NameParts us w := by
  generalize hxs : ts.map lexeme = xs at h
  induction h generalizing ts kept with
  | nil =>
    rw [List.map_eq_nil_iff] at hxs
    exact ⟨[], by simp [hxs, applyEscapes, stripEmptyFrom], by simp, rfl⟩
  | @part x xs w hx h ih =>
    obtain ⟨t, rest, rfl, rfl, hrest⟩ := List.map_eq_cons_iff.mp hxs
    have ht : t.kind.isNamePart = true := hx
    obtain ⟨us, hstrip, hparts⟩ := ih (t :: kept) hrest
    refine ⟨t :: us, ?_, hparts.cons ht⟩
    rw [applyEscapes_cons (Kind.ne_of_isNamePart ht rfl), if_neg (Kind.ne_of_isNamePart ht rfl),
      stripEmptyFrom_cons (Kind.ne_of_isNamePart ht rfl), hstrip]
    simp
  | @escaped c xs w hc h ih =>
    obtain ⟨t, more, rfl, ht, hmore⟩ := List.map_eq_cons_iff.mp hxs
    obtain ⟨u, rest, rfl, hu, hrest⟩ := List.map_eq_cons_iff.mp hmore
    obtain ⟨ht, -⟩ := Lexeme.mk.inj ht
    obtain ⟨hu, htext⟩ := Lexeme.mk.inj hu
    obtain ⟨us, hstrip, hparts⟩ := ih (u.withKind .literal :: kept) hrest
    have hunquoted : Program.unquoted (u.withKind .literal).text = [c] := by
      simp [withKind, htext, Program.unquoted, hc]
    refine ⟨u.withKind .literal :: us, ?_, ?_⟩
    · rw [applyEscapes_cons_escape ht, applyEscapes_cons (by simp [hu]), if_pos hu,
        stripEmptyFrom_cons (by simp [withKind]), hstrip]
      simp
    · have hcons := hparts.cons (u := u.withKind .literal) rfl
      rwa [hunquoted] at hcons
  | @string xs w h ih =>
    obtain ⟨t, more, rfl, ht, hmore⟩ := List.map_eq_cons_iff.mp hxs
    obtain ⟨u, rest, rfl, hu, hrest⟩ := List.map_eq_cons_iff.mp hmore
    obtain ⟨ht, -⟩ := Lexeme.mk.inj ht
    obtain ⟨hu, -⟩ := Lexeme.mk.inj hu
    rw [applyEscapes_cons (by simp [ht]), applyEscapes_cons (by simp [hu]),
      if_neg (by simp [ht]), if_neg (by simp [hu]), stripEmptyFrom_cons (by simp [ht]),
      stripEmptyFrom, if_pos ⟨hu, ht⟩]
    exact ih kept hrest

theorem squeezed_of_undelimited {ts : List Token} (h : ∀ t ∈ ts, t.kind ≠ .delimiter) :
    Squeezed ts := by
  have hblank : ∀ t ∈ ts, t.isBlankDelimiter = false := by
    intro t ht
    simp [isBlankDelimiter, h t ht]
  refine ⟨?_, ?_, fun t ht => hblank t (List.mem_of_mem_head? ht),
    fun t ht => hblank t (List.mem_of_mem_getLast? ht)⟩
  · refine List.Pairwise.isChain (List.pairwise_of_forall_mem_list ?_)
    intro t ht u _ hsep
    exact h t ht hsep.1
  · intro t ht hsingle
    rw [hblank t ht] at hsingle
    exact absurd hsingle (by simp)

/-- The passes after these find nothing to do but to merge neighbours, so the first part keeps its
kind. -/
theorem exists_apply_standard {ts rest : List Token} {t : Token} {w : Text}
    (hts : applyEscapes ts = t :: applyEscapes rest) (ht : t.kind.isNamePart = true)
    (h : Veils (rest.map lexeme) w) :
    ∃ v vs, Cleaning.standard.apply ts = v :: vs ∧ v.kind = t.kind ∧
      NameParts (v :: vs) (Program.unquoted t.text ++ w) := by
  obtain ⟨us, hstrip, hparts⟩ := exists_stripEmptyFrom h [t]
  have hall := hparts.cons ht
  obtain ⟨v, vs, hfuse, hkind⟩ :=
    exists_cons_fuseFrom (fun t next => t.kind == next.kind && next.kind.isMergeable) t us
  have hmerged : NameParts (v :: vs) (Program.unquoted t.text ++ w) := by
    rw [← hfuse]
    refine ⟨?_, ?_⟩
    · exact forall_fuseFrom (fun a b _ ha _ => ha) ht fun u hu => hparts.kinds u hu
    · rw [stringify_fuseFrom, ← stringify_cons, hall.text]
  refine ⟨v, vs, ?_, hkind, hmerged⟩
  show stripBlanks (widen true (fuseRuns _ (stripEmptyFrom [] (applyEscapes ts)))) = _
  rw [hts, stripEmptyFrom_cons (Kind.ne_of_isNamePart ht rfl), hstrip, List.reverse_singleton,
    List.singleton_append, fuseRuns, hfuse, widen_of_plain,
    stripBlanks_of_squeezed (squeezed_of_undelimited _)]
  · intro u hu
    exact Kind.ne_of_isNamePart (hmerged.kinds u hu) rfl
  · intro u hu
    exact Kind.ne_of_isNamePart (hmerged.kinds u hu) rfl

end Token

/-! ### The program they name -/

namespace Program

section

variable {w : Text} (h : ∀ c ∈ w, c.isAlphanum = true)
include h

theorem looksLikePath_of_alphanum : looksLikePath w = false := by
  have hhead : ∀ c ∈ w.head?, c.isAlphanum = true := fun c hc => h c (List.mem_of_mem_head? hc)
  have hdrive : hasDrive w = false := by
    unfold hasDrive
    split
    · exact absurd (h ':' (by simp)) (by decide)
    · rfl
  have hsplit : Text.splitLast isSeparator w = none := by
    rw [Text.splitLast, Text.splitFirst_eq_none_iff.mpr, Option.map_none]
    intro c hc
    exact isSeparator_of_isAlphanum (h c (List.mem_reverse.mp hc))
  have hdot : ∀ rest, List.isPrefixOf ('.' :: rest) w = false := by
    intro rest
    cases w with
    | nil => rfl
    | cons c more =>
      have hne := ne_of_isAlphanum (hhead c rfl) (d := '.') (by decide)
      simp [List.isPrefixOf, Ne.symm hne]
  have hfirst : w.head?.any isSeparator = false := by
    cases w with
    | nil => rfl
    | cons c more => exact isSeparator_of_isAlphanum (hhead c rfl)
  rw [looksLikePath, hdrive, hfirst, hsplit]
  simp [hdot]

theorem firstWord_of_alphanum : Text.firstWord w = w := by
  have hblank : ∀ c ∈ w, Text.isBlank c = false := fun c hc => isBlank_of_isAlphanum (h c hc)
  have hstart : Text.trimStart w = w := by
    rw [Text.trimStart]
    cases w with
    | nil => rfl
    | cons c rest => exact List.dropWhile_cons_of_neg (by simp [hblank c (by simp)])
  rw [Text.firstWord, hstart]
  exact List.takeWhile_eq_self_iff.mpr fun c hc => by simp [hblank c hc]

/-- A head that is a word of letters and digits, quotes apart, names that word. -/
theorem nameOfHead_of_alphanum {head : Text} (hhead : unquoted head = w) :
    nameOfHead head = normalizeName w := by
  rw [nameOfHead, hhead, looksLikePath_of_alphanum h, if_neg (by simp), firstWord_of_alphanum h]

end

/-- The program that parts of a name name. -/
theorem name_identify_of_nameParts {v : Token} {vs : List Token} {w : Text}
    (h : Token.NameParts (v :: vs) w) (hw : ∀ c ∈ w, c.isAlphanum = true) :
    (identify (v :: vs)).name =
      if v.kind = .setWord then "set".toList else normalizeName w := by
  have hloose : ∀ u ∈ v :: vs, u.kind.isLoose = true := by
    intro u hu
    have hpart := h.kinds u hu
    cases hkind : u.kind <;> first | rfl | exact absurd (hkind ▸ hpart) (by decide)
  have hundelimited : ∀ u ∈ v :: vs, u.kind ≠ .delimiter := fun u hu =>
    Kind.ne_of_isNamePart (h.kinds u hu) rfl
  by_cases hset : v.kind = .setWord
  · rw [name_identify_set hset, if_pos hset]
  · have hrun : vs.takeWhile (·.kind ≠ .delimiter) = vs := by
      refine List.takeWhile_eq_self_iff.mpr ?_
      intro u hu
      simpa using hundelimited u (List.mem_cons_of_mem v hu)
    rw [(identify_loose hloose (hundelimited v (by simp)) hset).name, if_neg hset, hrun]
    exact nameOfHead_of_alphanum hw h.text

end Program

/-! ### Names in disguise -/

/-- A character, with a caret before it if it is escaped. -/
def written (escaped : Bool) (c : Char) : Text :=
  if escaped then ['^', c] else [c]

/-- `d` is the word `w` with a caret before some of its characters and any number of empty strings
between them. -/
inductive Disguised : Text → Text → Prop
  | last (escaped : Bool) (c : Char) : Disguised (written escaped c) [c]
  | cons (escaped : Bool) (c : Char) (strings : Nat) {d w : Text} (h : Disguised d w) :
      Disguised (written escaped c ++ (List.replicate strings ['"', '"']).flatten ++ d) (c :: w)

/-- The letters and digits before the first caret or quote spell `SET`. -/
def opensSet (d : Text) : Bool :=
  Text.asciiLower (d.takeWhile Char.isAlphanum) = "set".toList

namespace Veiled

variable {d w : Text}

theorem strings (h : Veiled d w) (n : Nat) :
    Veiled ((List.replicate n ['"', '"']).flatten ++ d) w := by
  induction n with
  | zero => exact h
  | succ n ih => exact .string ih

theorem written (h : Veiled d w) (escaped : Bool) {c : Char} (hc : c.isAlphanum = true) :
    Veiled (BatchTrace.written escaped c ++ d) (c :: w) := by
  cases escaped with
  | false => exact h.char hc
  | true => exact .caret hc h

theorem of_disguised (h : Disguised d w) (hw : ∀ c ∈ w, c.isAlphanum = true) : Veiled d w := by
  induction h with
  | last escaped c =>
    have hlast := Veiled.nil.written escaped (hw c (by simp))
    rwa [List.append_nil] at hlast
  | cons escaped c strings h ih =>
    rw [List.append_assoc]
    exact ((ih fun e he => hw e (by simp [he])).strings strings).written escaped (hw c (by simp))

end Veiled

theorem setWord_iff {run : Text} :
    (Chunk.word run).kind = .setWord ↔ run.map Chunk.foldLetter = "set".toList := by
  have hset : ∀ p ∈ Chunk.reservedWords, p.2 = Kind.setWord → p.1 = "set".toList := by decide
  show (Chunk.reserved? run).getD .literal = .setWord ↔ _
  constructor
  · intro h
    cases hr : Chunk.reserved? run with
    | none => simp [hr] at h
    | some k =>
      rw [hr, Option.getD_some] at h
      subst h
      rw [Chunk.reserved?, List.lookup_eq_some_iff] at hr
      obtain ⟨before, after, heq, -⟩ := hr
      exact hset (_, _) (by rw [heq]; simp) rfl
  · intro h
    rw [Chunk.reserved?, h]
    rfl

/-- A run of letters and digits that is all there is before the first caret or quote. -/
theorem setWord_iff_opensSet {run d : Text} (hrun : ∀ c ∈ run, c.isAlphanum = true)
    (hend : ∀ c ∈ d.head?, c = '^' ∨ c = '"') :
    (Chunk.word run).kind = .setWord ↔ opensSet (run ++ d) = true := by
  have htake : (run ++ d).takeWhile Char.isAlphanum = run := by
    refine takeWhile_run hrun ?_
    intro c hc
    rcases hend c hc with rfl | rfl <;> rfl
  have hfold : run.map Chunk.foldLetter = Text.asciiLower run :=
    List.map_congr_left fun c hc => foldLetter_of_isAlphanum (hrun c hc)
  rw [setWord_iff, hfold, opensSet, htake, decide_eq_true_eq]

/-- Of a name that begins with a caret cleaning leaves a literal first. -/
theorem exists_cleaned_caret {c : Char} {d w : Text} (hc : c.isAlphanum = true) (h : Veiled d w) :
    ∃ v vs, Cleaning.standard.apply (Token.tokenize ('^' :: c :: d)) = v :: vs ∧
      v.kind = .literal ∧ Token.NameParts (v :: vs) (c :: w) := by
  have hlexemes := Token.map_lexeme_tokenize ('^' :: c :: d)
  have hread : Lexer.lexemes ('^' :: c :: d) =
      ⟨.escape, ['^']⟩ :: ⟨.escapedLiteral, [c]⟩ :: join (Lexer.pieces .command d) := by
    rw [Lexer.lexemes, Lexer.pieces_eq]
    show join (⟨.escape, ['^']⟩ :: ⟨.escapedLiteral, [c]⟩ :: Lexer.pieces .command d) = _
    rw [join_cons rfl, join_cons rfl]
  rw [hread] at hlexemes
  obtain ⟨t, more, htokens, ht, hmore⟩ := List.map_eq_cons_iff.mp hlexemes
  obtain ⟨u, rest, rfl, hu, hrest⟩ := List.map_eq_cons_iff.mp hmore
  obtain ⟨ht, -⟩ := Lexeme.mk.inj ht
  obtain ⟨hu, htext⟩ := Lexeme.mk.inj hu
  have hveils : Veils (rest.map Token.lexeme) w := hrest ▸ (Lexer.veils_pieces h (by simp)).join
  have hescapes : Token.applyEscapes (t :: u :: rest) =
      u.withKind .literal :: Token.applyEscapes rest := by
    rw [Token.applyEscapes_cons_escape ht, Token.applyEscapes_cons (by simp [hu]), if_pos hu]
  obtain ⟨v, vs, happly, hkind, hparts⟩ := Token.exists_apply_standard hescapes rfl hveils
  have hunquoted : Program.unquoted (u.withKind .literal).text = [c] := by
    simpa [Token.withKind, htext] using unquoted_of_alphanum (t := [c]) (by simpa using hc)
  rw [hunquoted] at hparts
  exact ⟨v, vs, htokens ▸ happly, hkind, hparts⟩

/-- Of any other name cleaning leaves a token of the kind of its first run first. -/
theorem exists_cleaned_run {run d w : Text} (hne : run ≠ [])
    (hrun : ∀ c ∈ run, c.isAlphanum = true) (hend : ∀ c ∈ d.head?, c = '^' ∨ c = '"')
    (h : Veiled d w) :
    ∃ v vs, Cleaning.standard.apply (Token.tokenize (run ++ d)) = v :: vs ∧
      v.kind = (Chunk.word run).kind ∧ Token.NameParts (v :: vs) (run ++ w) := by
  have hlexemes := Token.map_lexeme_tokenize (run ++ d)
  have hread : ∃ mode, mode ≠ Lexer.Mode.value ∧ Lexer.lexemes (run ++ d) =
      ⟨(Chunk.word run).kind, run⟩ :: join (Lexer.pieces mode d) := by
    rw [Lexer.lexemes, Lexer.pieces_eq, Lexer.next?_run hne hrun hend]
    dsimp only [Lexer.step]
    by_cases hset : (Chunk.word run).kind = .setWord
    · rw [Lexer.command_setWord hset, hset]
      exact ⟨.lead, by simp, join_cons rfl _⟩
    · rw [Lexer.command_word hset]
      exact ⟨.command, by simp, join_cons (isPieced_word run) _⟩
  obtain ⟨mode, hmode, hread⟩ := hread
  rw [hread] at hlexemes
  obtain ⟨t, rest, htokens, ht, hrest⟩ := List.map_eq_cons_iff.mp hlexemes
  obtain ⟨ht, htext⟩ := Lexeme.mk.inj ht
  have hpart : t.kind.isNamePart = true := ht ▸ isNamePart_word run
  have hveils : Veils (rest.map Token.lexeme) w := hrest ▸ (Lexer.veils_pieces h hmode).join
  have hescapes : Token.applyEscapes (t :: rest) = t :: Token.applyEscapes rest := by
    rw [Token.applyEscapes_cons (Kind.ne_of_isNamePart hpart rfl),
      if_neg (Kind.ne_of_isNamePart hpart rfl)]
  obtain ⟨v, vs, happly, hkind, hparts⟩ := Token.exists_apply_standard hescapes hpart hveils
  rw [htext, unquoted_of_alphanum hrun] at hparts
  exact ⟨v, vs, htokens ▸ happly, hkind.trans ht, hparts⟩

/-- The first token that cleaning leaves of a disguised name is the word `SET` just where the name
opens with it. -/
theorem exists_cleaned {d w : Text} (h : Veiled d w) (hhead : ∃ c ∈ d.head?, c ≠ '"') :
    ∃ v vs, Cleaning.standard.apply (Token.tokenize d) = v :: vs ∧
      (v.kind = .setWord ↔ opensSet d = true) ∧ Token.NameParts (v :: vs) w := by
  cases h with
  | nil => simp at hhead
  | string _ => simp at hhead
  | @caret c d w hc h =>
    obtain ⟨v, vs, happly, hkind, hparts⟩ := exists_cleaned_caret hc h
    have hplain : opensSet ('^' :: c :: d) = false := rfl
    exact ⟨v, vs, happly, by simp [hkind, hplain], hparts⟩
  | @run run d w hne hrun hend h =>
    obtain ⟨v, vs, happly, hkind, hparts⟩ := exists_cleaned_run hne hrun hend h
    exact ⟨v, vs, happly, by rw [hkind, setWord_iff_opensSet hrun hend], hparts⟩

theorem Disguised.exists_head {d w : Text} (h : Disguised d w)
    (hw : ∀ c ∈ w, c.isAlphanum = true) : ∃ c ∈ d.head?, c ≠ '"' := by
  have hwritten : ∀ (escaped : Bool) {c : Char} (rest : Text), c.isAlphanum = true →
      ∃ e ∈ (written escaped c ++ rest).head?, e ≠ '"' := by
    intro escaped c rest hc
    cases escaped with
    | false => exact ⟨c, rfl, ne_of_isAlphanum hc (by decide)⟩
    | true => exact ⟨'^', rfl, by decide⟩
  cases h with
  | last escaped c =>
    have hlast := hwritten escaped [] (hw c (by simp))
    rwa [List.append_nil] at hlast
  | cons escaped c strings h =>
    rw [List.append_assoc]
    exact hwritten escaped _ (hw c (by simp))

/--
**Carets and empty strings do not hide a program's name.**  The program of a word of letters and
digits in disguise is that of the word itself, unless the disguised word opens with `SET`: then
it is `set`, whatever follows.
-/
theorem name_identify_disguised (d w : Text) (h : Disguised d w)
    (hw : ∀ c ∈ w, c.isAlphanum = true) :
    (Program.identify (Cleaning.standard.apply (Token.tokenize d))).name =
      if opensSet d then "set".toList else Program.normalizeName w := by
  obtain ⟨v, vs, hclean, hfirst, hparts⟩ :=
    exists_cleaned (Veiled.of_disguised h hw) (h.exists_head hw)
  rw [hclean, Program.name_identify_of_nameParts hparts hw]
  by_cases hset : opensSet d = true
  · rw [if_pos (hfirst.mpr hset), if_pos hset]
  · rw [if_neg fun hkind => hset (hfirst.mp hkind), if_neg hset]

/-- A word of which a part in the middle is read as `SET`, with a caret and empty strings in what is
then taken for the name of an assignment. -/
theorem name_identify_disguised_inner :
    let d := "c\"\"SET^a\"\"\"\"lc".toList
    let w := "cSETalc".toList
    (Disguised d w ∧ (∀ c ∈ w, c.isAlphanum = true) ∧ opensSet d = false) ∧
      (Program.identify (Cleaning.standard.apply (Token.tokenize d))).name = "csetalc".toList := by
  intro d w
  have hd : Disguised d w :=
    .cons false 'c' 1 (.cons false 'S' 0 (.cons false 'E' 0 (.cons false 'T' 0
      (.cons true 'a' 2 (.cons false 'l' 0 (.last false 'c'))))))
  have hw : ∀ c ∈ w, c.isAlphanum = true :=
    List.all_eq_true.mp (by decide : w.all Char.isAlphanum = true)
  have hname : Program.normalizeName w = "csetalc".toList := by decide +kernel
  have hopens : opensSet d = false := by decide
  refine ⟨⟨hd, hw, hopens⟩, ?_⟩
  rw [name_identify_disguised d w hd hw, hopens, if_neg (by simp), hname]

/-- A disguised `setx` that opens with `SET` runs `set`. -/
theorem name_identify_disguised_set :
    let d := "set^x".toList
    let w := "setx".toList
    (Disguised d w ∧ ∀ c ∈ w, c.isAlphanum = true) ∧
      (Program.identify (Cleaning.standard.apply (Token.tokenize d))).name ≠
        Program.normalizeName w := by
  intro d w
  have hd : Disguised d w :=
    .cons false 's' 0 (.cons false 'e' 0 (.cons false 't' 0 (.last true 'x')))
  have hw : ∀ c ∈ w, c.isAlphanum = true :=
    List.all_eq_true.mp (by decide : w.all Char.isAlphanum = true)
  exact ⟨⟨hd, hw⟩, by decide +kernel⟩

end BatchTrace
