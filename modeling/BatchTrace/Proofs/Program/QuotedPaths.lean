/-
A program that is named by a quoted path.

Between two double quotes nothing has a meaning of its own, so whatever a path holds, it is one
string, and the string is the head of the command.  The quotes are not part of the name.  A path
with a drive is known by the drive alone, and its last component is what stands behind the last
separator.
-/
import BatchTrace.Proofs.Program.Collapse
import BatchTrace.Proofs.Token.Calm

namespace BatchTrace

/-! ### A string at the start of a line -/

namespace Lexer

open Lexeme

variable {body : Text} (hbody : '"' ∉ body)
include hbody

theorem lexemes_string (rest : Text) : lexemes ('"' :: (body ++ '"' :: rest)) =
    ⟨.stringDquoteBegin, ['"']⟩ ::
      (ofText .stringDquoteChar body ++ ⟨.stringDquoteEnd, ['"']⟩ :: lexemes rest) := by
  have hnext : Chunk.next? ('"' :: (body ++ '"' :: rest)) =
      some (.doubleQuote, body ++ '"' :: rest) := rfl
  have hread : doubleQuoted (body ++ '"' :: rest) =
      (ofText .stringDquoteChar body ++ [⟨.stringDquoteEnd, ['"']⟩], rest) := by
    rw [doubleQuoted_eq, upToQuote_closed hbody]
  have hstep : step .command .doubleQuote (body ++ '"' :: rest) =
      ⟨⟨.stringDquoteBegin, ['"']⟩ :: (doubleQuoted (body ++ '"' :: rest)).1, .command,
        (doubleQuoted (body ++ '"' :: rest)).2⟩ := rfl
  have hcontent : join (ofText .stringDquoteChar body) = ofText .stringDquoteChar body := by
    cases body <;> rfl
  rw [lexemes, pieces_of_next? hnext, hstep, hread, List.cons_append, join_cons rfl,
    List.append_assoc, List.singleton_append, join_append_cons _ _ rfl, hcontent]
  rfl

omit hbody in
/-- A space and the separators after it are one separator. -/
theorem lexemes_space (r : Text) : lexemes (' ' :: r) =
    ⟨.delimiter, ' ' :: r.takeWhile Chunk.isDelimiter⟩ ::
      lexemes (r.dropWhile Chunk.isDelimiter) := by
  have hsplit : ' ' :: r =
      (' ' :: r.takeWhile Chunk.isDelimiter) ++ r.dropWhile Chunk.isDelimiter := by
    rw [List.cons_append, List.takeWhile_append_dropWhile]
  have hrun : ∀ c ∈ ' ' :: r.takeWhile Chunk.isDelimiter, Chunk.isDelimiter c = true :=
    List.forall_mem_cons.mpr ⟨rfl, fun _ => List.mem_takeWhile_imp⟩
  rw [hsplit, lexemes_separated hrun fun _ => not_of_mem_head?_dropWhile]
  simp [Chunk.kind, ofText, lexemes]

end Lexer

/-- A piece of a string ends no head and may begin one. -/
theorem Kind.of_isDquotePiece {k : Kind} (h : k.isDquotePiece = true) :
    (k ≠ .delimiter ∧ k.isChain = false) ∧ k ≠ .lParen ∧ k ≠ .rParen ∧ k ≠ .setWord := by
  revert h
  cases k <;> decide

namespace Program

/-- A string and what is separated from it by a space are the parts of a command. -/
theorem exists_parts_string {body : Text} (hbody : '"' ∉ body) (r : Text) :
    ∃ p : Parts, p.tokens = Token.tokenize ('"' :: (body ++ '"' :: ' ' :: r)) ∧
      quoteOpen p.head = false ∧ Token.stringify p.head = '"' :: (body ++ ['"']) ∧
      Token.stringify p.arguments = r.dropWhile Chunk.isDelimiter := by
  have hmap := Token.map_lexeme_tokenize ('"' :: (body ++ '"' :: ' ' :: r))
  rw [Lexer.lexemes_string hbody, Lexer.lexemes_space] at hmap
  obtain ⟨opening, rest, htokens, hopening, hrest⟩ := List.map_eq_cons_iff.mp hmap
  obtain ⟨content, rest, rfl, hcontent, hrest⟩ := List.map_eq_append_iff.mp hrest
  obtain ⟨closing, rest, rfl, hclosing, hrest⟩ := List.map_eq_cons_iff.mp hrest
  obtain ⟨gap, arguments, rfl, hgap, harguments⟩ := List.map_eq_cons_iff.mp hrest
  have hbegin : opening.kind = .stringDquoteBegin := congrArg Lexeme.kind hopening
  have hend : closing.kind = .stringDquoteEnd := congrArg Lexeme.kind hclosing
  have hchar : ∀ t ∈ content, t.kind = .stringDquoteChar := by
    intro t ht
    refine Lexeme.kind_of_mem_ofText (x := t.lexeme) (t := body) ?_
    rw [← hcontent]
    exact List.mem_map_of_mem ht
  have hkind : ∀ t ∈ (opening :: content) ++ [closing], t.kind.isDquotePiece = true := by
    intro t ht
    simp only [List.mem_append, List.mem_cons, List.not_mem_nil, or_false] at ht
    rcases ht with (rfl | ht) | rfl
    · rw [hbegin]
      rfl
    · rw [hchar t ht]
      rfl
    · rw [hend]
      rfl
  refine ⟨{
    leading := []
    head := (opening :: content) ++ [closing]
    closing := []
    separator := some gap
    arguments := arguments
    leading_kind := by simp
    head_ne_nil := by simp
    first_kind := fun t ht => (Kind.of_isDquotePiece (hkind t (List.mem_of_mem_head? ht))).2
    head_kind := fun t ht => (Kind.of_isDquotePiece (hkind t ht)).1
    last_kind := fun t ht => (Kind.of_isDquotePiece (hkind t (List.mem_of_getLast? ht))).2.2.1
    closing_kind := by simp
    separator_kind := by
      rintro t ⟨⟩
      exact Or.inl (congrArg Lexeme.kind hgap)
    arguments_eq_nil := by simp }, ?_, quoteOpen_concat_closing hend, ?_, ?_⟩
  · rw [htokens]
    simp [Parts.tokens]
  · show Token.stringify ((opening :: content) ++ [closing]) = _
    rw [← Token.spell_map_lexeme, List.map_append, List.map_cons, hopening, hcontent,
      List.map_singleton, hclosing, Lexeme.spell_append, Lexeme.spell_cons,
      (Lexeme.Covers.ofText (by decide) body).spelled]
    rfl
  · show Token.stringify arguments = _
    rw [← Token.spell_map_lexeme, harguments]
    exact (Lexer.covers_lexemes _).spelled

/-! ### Paths -/

section

variable {drive separator : Char} {directory file : Text} (hdrive : drive.isAlpha = true)
  (hseparator : isSeparator separator = true)
include hdrive hseparator

/-- Only the directory and the file can bring a quote into a path. -/
theorem quote_notMem_path (hdirectory : '"' ∉ directory) (hfile : '"' ∉ file) :
    '"' ∉ drive :: ':' :: (directory ++ separator :: file) := by
  have hletter : '"' ≠ drive := by
    rintro rfl
    exact absurd hdrive (by decide)
  have hmark : '"' ≠ separator := by
    rintro rfl
    exact absurd hseparator (by decide)
  simp [hletter, hmark, hdirectory, hfile]

variable (hne : file ≠ []) (hfile : ∀ c ∈ file, isSeparator c = false)
include hne hfile

/-- The last component of a path with a drive stands behind its last separator. -/
theorem basename_drive : basename (drive :: ':' :: (directory ++ separator :: file)) = file := by
  have hstart : hasDrive (drive :: ':' :: (directory ++ separator :: file)) = true := hdrive
  -- A file name ends in no separator, so none is taken off the end.
  have htrim : (directory ++ separator :: file).rdropWhile isSeparator =
      directory ++ separator :: file := by
    refine List.rdropWhile_eq_self_iff.mpr fun h => ?_
    rw [List.getLast_append_of_ne_nil _ (by simp), List.getLast_cons hne]
    simpa using hfile _ (List.getLast_mem hne)
  have hpath : (((drive :: ':' :: (directory ++ separator :: file)).drop 2).reverse.dropWhile
      isSeparator).reverse = directory ++ separator :: file := htrim
  simp only [basename, if_pos hstart, hpath, Text.splitLast_append hfile hseparator]

theorem nameOfHead_drive {body : Text}
    (hbody : body = drive :: ':' :: (directory ++ separator :: file)) (hquote : '"' ∉ body) :
    nameOfHead ('"' :: (body ++ ['"'])) = normalizeName file := by
  have hunquoted : unquoted ('"' :: (body ++ ['"'])) = body := by
    have hself : body.filter (· ≠ '"') = body :=
      List.filter_eq_self.mpr fun c hc => by simpa using ne_of_mem_of_not_mem hc hquote
    rw [unquoted, List.filter_cons_of_neg (by simp), List.filter_append, hself]
    simp
  have hpath : looksLikePath body = true := by
    rw [hbody]
    simp [looksLikePath, hasDrive, hdrive]
  rw [nameOfHead, hunquoted, if_pos hpath, hbody, basename_drive hdrive hseparator hne hfile]

end

/--
**A quoted path names the program behind its last separator.**  The path begins with a drive and is
followed by a space.  Neither the directory nor the name of the file holds a quote, but each may
hold blanks, operators, carets and whatever else; the arguments are what stands behind the
separators.
-/
theorem identify_quotedPath (drive : Char) (directory : Text) (separator : Char) (file r : Text)
    (hdrive : drive.isAlpha = true) (hdirectory : '"' ∉ directory)
    (hseparator : separator = '\\' ∨ separator = '/') (hne : file ≠ [])
    (hfile : ∀ c ∈ file, c ≠ '"' ∧ c ≠ '\\' ∧ c ≠ '/') :
    let ts := Token.tokenize
      ('"' :: (drive :: ':' :: (directory ++ separator :: file) ++ '"' :: ' ' :: r))
    (identify ts).name = normalizeName file ∧
      Token.stringify ((identify ts).arguments ts) = r.dropWhile Chunk.isDelimiter ∧
      ((∀ c ∈ r.head?, Chunk.isDelimiter c = false) →
        Token.stringify ((identify ts).arguments ts) = r) := by
  intro ts
  have hsep : isSeparator separator = true := by
    rcases hseparator with rfl | rfl <;> rfl
  have hplain : ∀ c ∈ file, isSeparator c = false := by
    intro c hc
    simp [isSeparator, (hfile c hc).2.1, (hfile c hc).2.2]
  have hbody := quote_notMem_path hdrive hsep hdirectory fun h => (hfile _ h).1 rfl
  obtain ⟨p, htokens, hquote, hhead, harguments⟩ := exists_parts_string hbody r
  have hts : p.tokens = ts := htokens
  have hclosed : ¬ quoteOpen p.head = true := by simp [hquote]
  have hname : (identify ts).name = normalizeName file := by
    rw [← hts, Parts.identify_of_quoteClosed hclosed, hhead]
    exact nameOfHead_drive hdrive hsep hne hplain rfl hbody
  have hrest : Token.stringify ((identify ts).arguments ts) = r.dropWhile Chunk.isDelimiter := by
    rw [← hts, Parts.arguments_identify hclosed, harguments]
  refine ⟨hname, hrest, fun hfirst => hrest.trans ?_⟩
  cases r with
  | nil => rfl
  | cons c r => exact List.dropWhile_cons_of_neg (by simp [hfirst c rfl])

/-- A directory with blanks, operators, a caret and parentheses in its name, and a file with a
blank. -/
theorem identify_quotedPath_blanks :
    let ts := Token.tokenize "\"c:/Program Files (x86)\\a&b^%=.d\\My Tool.EXE\" /c x&y".toList
    (identify ts).name = "my tool".toList ∧
      Token.stringify ((identify ts).arguments ts) = "/c x&y".toList := by
  have hfile : ("My Tool.EXE".toList.all fun c => c ≠ '"' ∧ c ≠ '\\' ∧ c ≠ '/') = true := by decide
  obtain ⟨hname, -, harguments⟩ := identify_quotedPath 'c' "/Program Files (x86)\\a&b^%=.d".toList
    '\\' "My Tool.EXE".toList "/c x&y".toList (by decide) (by decide) (Or.inl rfl) (by decide)
    fun c hc => by simpa using List.all_eq_true.mp hfile c hc
  exact ⟨hname.trans (by decide +kernel), harguments (by simp; decide)⟩

end Program

end BatchTrace
