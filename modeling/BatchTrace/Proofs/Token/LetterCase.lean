/-
Reading and cleaning do not depend on the case of letters.

Every piece of data that holds text has a lower-case form: the same data with its
texts in lower case.  A stage keeps case out of its decisions when the lower-case
form of what it gives is what it gives for the lower-case form, and this is shown
stage by stage, from the chunks of a text to its tokens, their cleaning and their
blocks.  No stage looks at letters but for the reserved words, which are compared in
lower case, so each statement needs that the characters it looks for are no letters.
-/
import BatchTrace.Block
import BatchTrace.Proofs.Text.LetterCase
import BatchTrace.Proofs.Token.Spelling
import BatchTrace.Proofs.Token.Widening
import BatchTrace.Token.Cleaning

namespace BatchTrace

open Text

/-! ### Chunks -/

namespace Chunk

/-- The chunk in lower case. -/
def lowered : Chunk → Chunk
  | escape c => escape c.toLower
  | delimiter run => delimiter (asciiLower run)
  | word run => word (asciiLower run)
  | operator kind spelling => operator kind (asciiLower spelling)
  | chunk => chunk

theorem caseBlind_isDelimiter : CaseBlind isDelimiter :=
  caseBlind_of_capitals (by decide)

theorem caseBlind_isSpecial : CaseBlind isSpecial :=
  caseBlind_of_capitals (by decide)

theorem caseBlind_isOrdinary : CaseBlind isOrdinary :=
  caseBlind_of_capitals (by decide)

theorem caseBlind_foldLetter : CaseBlind foldLetter :=
  caseBlind_of_capitals (by decide)

theorem reserved?_asciiLower (run : Text) : reserved? (asciiLower run) = reserved? run := by
  have hfold : foldLetter ∘ Char.toLower = foldLetter := funext caseBlind_foldLetter
  rw [reserved?, reserved?, asciiLower, List.map_map, hfold]

theorem text_lowered (chunk : Chunk) : chunk.lowered.text = asciiLower chunk.text := by
  cases chunk <;> rfl

theorem kind_lowered (chunk : Chunk) : chunk.lowered.kind = chunk.kind := by
  cases chunk with
  | delimiter run =>
    have hrun : asciiLower run = ['=', '='] ↔ run = ['=', '='] := by
      simp [asciiLower_eq_cons_iff]
    simp only [lowered, kind, hrun]
  | word run => simp only [lowered, kind, reserved?_asciiLower]
  | _ => rfl

/-- The chunk that starts with the digit `c`: the handle of a redirection, or a word. -/
def handle (c : Char) : Text → Option (Chunk × Text)
  | '>' :: '&' :: d :: after =>
      if d.isDigit then some (operator .redirectStderrStdout [c, '>', '&', d], after)
      else some (operator .redirectOutTo [c, '>'], '&' :: d :: after)
  | '>' :: after => some (operator .redirectOutTo [c, '>'], after)
  | rest => some (word (c :: rest.takeWhile isOrdinary), rest.dropWhile isOrdinary)

section

variable {c d : Char} (rest : Text)

theorem next?_of_not_special (hc : isSpecial c = false) :
    next? (c :: rest) =
      if isDelimiter c then
        some (delimiter (c :: rest.takeWhile isDelimiter), rest.dropWhile isDelimiter)
      else if c.isDigit then handle c rest
      else some (word (c :: rest.takeWhile isOrdinary), rest.dropWhile isOrdinary) := by
  unfold next?
  split
  case h_16 =>
    rename_i heq
    obtain ⟨rfl, rfl⟩ := List.cons.inj heq
    unfold handle
    grind
  -- every other pattern starts with a special character
  all_goals simp_all [isSpecial]

theorem next?_ampersand (hd : d ≠ '&') :
    next? ('&' :: d :: rest) = some (operator .condAlways ['&'], d :: rest) := by
  unfold next?
  split <;> grind

theorem next?_pipe (hd : d ≠ '|') :
    next? ('|' :: d :: rest) = some (operator .redirectPipe ['|'], d :: rest) := by
  unfold next?
  split <;> grind

theorem next?_redirection (hgt : d ≠ '>') (hamp : d ≠ '&') :
    next? ('>' :: d :: rest) = some (operator .redirectOut ['>'], d :: rest) := by
  unfold next?
  split <;> grind

theorem handle_word (hd : d ≠ '>') : handle c (d :: rest) =
    some (word (c :: (d :: rest).takeWhile isOrdinary), (d :: rest).dropWhile isOrdinary) := by
  unfold handle
  split <;> grind

theorem handle_redirection (hd : d ≠ '&') :
    handle c ('>' :: d :: rest) = some (operator .redirectOutTo [c, '>'], d :: rest) := by
  unfold handle
  split <;> grind

end

theorem handle_asciiLower (c : Char) (rest : Text) :
    handle c.toLower (asciiLower rest) = (handle c rest).map (Prod.map lowered asciiLower) := by
  rcases rest with _ | ⟨d, rest⟩
  · rfl
  by_cases hd : d = '>'
  · subst hd
    rcases rest with _ | ⟨e, rest⟩
    · rfl
    by_cases he : e = '&'
    · subst he
      rcases rest with _ | ⟨f, rest⟩
      · rfl
      show (if f.toLower.isDigit then _ else _) = Option.map _ (if f.isDigit then _ else _)
      rw [caseBlind_isDigit f]
      split <;> rfl
    · rw [handle_redirection _ he]
      exact handle_redirection _ (toLower_ne (by decide) he)
  · have hlow : d.toLower ≠ '>' := toLower_ne (by decide) hd
    rw [handle_word _ hd, asciiLower_cons, handle_word _ hlow, ← asciiLower_cons,
      takeWhile_asciiLower _ caseBlind_isOrdinary, dropWhile_asciiLower _ caseBlind_isOrdinary]
    rfl

theorem next?_redirection_asciiLower (rest : Text) : next? ('>' :: asciiLower rest) =
    (next? ('>' :: rest)).map (Prod.map lowered asciiLower) := by
  rcases rest with _ | ⟨d, rest⟩
  · rfl
  by_cases hgt : d = '>'
  · subst hgt
    rfl
  by_cases hamp : d = '&'
  · subst hamp
    rcases rest with _ | ⟨e, rest⟩
    · rfl
    show (if e.toLower.isDigit then _ else _) = Option.map _ (if e.isDigit then _ else _)
    rw [caseBlind_isDigit e]
    split <;> rfl
  · rw [next?_redirection _ hgt hamp]
    exact next?_redirection _ (toLower_ne (by decide) hgt) (toLower_ne (by decide) hamp)

/-- The first chunk of a lower-case text. -/
theorem next?_asciiLower (t : Text) :
    next? (asciiLower t) = (next? t).map (Prod.map lowered asciiLower) := by
  rcases t with _ | ⟨c, rest⟩
  · rfl
  by_cases hc : isSpecial c = true
  · -- nine characters, of which the caret, `&`, `|` and `>` also look at what follows them
    simp only [isSpecial, Bool.or_eq_true, decide_eq_true_eq] at hc
    rcases hc with (((((((rfl | rfl) | rfl) | rfl) | rfl) | rfl) | rfl) | rfl) | rfl
    · cases rest <;> rfl
    · rfl
    · rfl
    · rfl
    · rfl
    · rcases rest with _ | ⟨d, rest⟩
      · rfl
      by_cases hd : d = '&'
      · subst hd
        rfl
      · rw [next?_ampersand _ hd]
        exact next?_ampersand _ (toLower_ne (by decide) hd)
    · rcases rest with _ | ⟨d, rest⟩
      · rfl
      by_cases hd : d = '|'
      · subst hd
        rfl
      · rw [next?_pipe _ hd]
        exact next?_pipe _ (toLower_ne (by decide) hd)
    · rfl
    · exact next?_redirection_asciiLower rest
  · rw [Bool.not_eq_true] at hc
    have hlow : isSpecial c.toLower = false := by rwa [caseBlind_isSpecial]
    rw [asciiLower_cons, next?_of_not_special _ hc, next?_of_not_special _ hlow,
      caseBlind_isDelimiter, caseBlind_isDigit, handle_asciiLower,
      takeWhile_asciiLower _ caseBlind_isDelimiter, dropWhile_asciiLower _ caseBlind_isDelimiter,
      takeWhile_asciiLower _ caseBlind_isOrdinary, dropWhile_asciiLower _ caseBlind_isOrdinary]
    split
    · rfl
    · split <;> rfl

end Chunk

/-! ### Lexemes -/

/-- The lexeme in lower case. -/
def Lexeme.lowered (x : Lexeme) : Lexeme :=
  ⟨x.kind, asciiLower x.text⟩

namespace Lexeme

theorem join_lowered (xs : List Lexeme) : join (xs.map lowered) = (join xs).map lowered := by
  induction xs with
  | nil => rfl
  | cons x rest ih =>
    rw [List.map_cons, join, join, ih]
    cases join rest with
    | nil => rfl
    | cons y joined =>
      by_cases hxy : (isPieced x.kind && x.kind == y.kind) = true
      · simp [lowered, hxy]
      · simp [lowered, hxy]

theorem ofText_asciiLower (k : Kind) (t : Text) :
    ofText k (asciiLower t) = (ofText k t).map lowered := by
  cases t <;> rfl

end Lexeme

namespace Lexer

open Lexeme

/-- What a step reads, in lower case. -/
def Step.lowered (s : Step) : Step :=
  ⟨s.out.map Lexeme.lowered, s.mode, asciiLower s.rest⟩

section

variable (t rest : Text)

theorem doubleQuoted_asciiLower : doubleQuoted (asciiLower t) =
    Prod.map (List.map Lexeme.lowered) asciiLower (doubleQuoted t) := by
  have hquote : CaseBlind fun c => decide (c ≠ '"') := caseBlind_ne (by decide)
  simp only [doubleQuoted, takeWhile_asciiLower _ hquote, dropWhile_asciiLower _ hquote,
    ofText_asciiLower]
  cases t.dropWhile (· ≠ '"') with
  | nil => rfl
  | cons q rest => simp [Lexeme.lowered]

theorem singleQuoted?_cons {c : Char} (hquote : c ≠ '\'') (hcaret : c ≠ '^') :
    singleQuoted? (c :: rest) =
      (singleQuoted? rest).map fun (out, after) => (⟨.stringSquoteChar, [c]⟩ :: out, after) := by
  rw [singleQuoted?] <;> simp_all

theorem singleQuoted?_asciiLower : singleQuoted? (asciiLower t) =
    (singleQuoted? t).map (Prod.map (List.map Lexeme.lowered) asciiLower) := by
  fun_induction singleQuoted? t with
  | case1 => rfl
  | case2 => rfl
  | case3 => rfl
  | case4 c rest ih =>
    show Option.map _ (singleQuoted? (asciiLower rest)) = _
    rw [ih, Option.map_map, Option.map_map]
    rfl
  | case5 c rest hquote hlone hcaret ih =>
    have hplain := ne_caret_of_rules hlone hcaret
    have hq := toLower_ne (d := '\'') (by decide) hquote
    have hc := toLower_ne (d := '^') (by decide) hplain
    rw [asciiLower_cons, singleQuoted?_cons _ hq hc, ih, Option.map_map, Option.map_map]
    rfl

theorem quotedAssignment_asciiLower :
    quotedAssignment (asciiLower t) = (quotedAssignment t).map Lexeme.lowered := by
  rw [quotedAssignment, quotedAssignment, splitFirst_asciiLower _ (caseBlind_eq (by decide))]
  cases Text.splitFirst (· = '=') t with
  | none => exact ofText_asciiLower .setName t
  | some parts => simp [ofText_asciiLower, Lexeme.lowered]

theorem quotedSet_asciiLower : quotedSet (asciiLower t) =
    Prod.map (List.map Lexeme.lowered) asciiLower (quotedSet t) := by
  have hquote : CaseBlind fun c => decide (c ≠ '"') := caseBlind_ne (by decide)
  simp only [quotedSet, takeWhile_asciiLower _ hquote, dropWhile_asciiLower _ hquote,
    quotedAssignment_asciiLower]
  cases t.dropWhile (· ≠ '"') with
  | nil => rfl
  | cons q rest => simp [Lexeme.lowered]

theorem assign_asciiLower (before : Kind) (stay : Mode) (run : Text) :
    assign before stay (asciiLower run) (asciiLower rest) =
      (assign before stay run rest).lowered := by
  rw [assign, assign, splitFirst_asciiLower _ (caseBlind_eq (by decide))]
  cases Text.splitFirst (· = '=') run with
  | none => rfl
  | some parts => simp [ofText_asciiLower, Lexeme.lowered, Step.lowered]

theorem command_lowered (chunk : Chunk) :
    command chunk.lowered (asciiLower rest) = (command chunk rest).lowered := by
  have hself : ∀ c : Chunk,
      (⟨[⟨c.lowered.kind, c.lowered.text⟩],
          if c.lowered.kind = .setWord then .lead else .command, asciiLower rest⟩ : Step) =
        Step.lowered
          ⟨[⟨c.kind, c.text⟩], if c.kind = .setWord then .lead else .command, rest⟩ := by
    intro c
    rw [Chunk.kind_lowered, Chunk.text_lowered]
    rfl
  cases chunk with
  | doubleQuote =>
    exact congrArg (fun read : List Lexeme × Text =>
      (⟨⟨.stringDquoteBegin, ['"']⟩ :: read.1, .command, read.2⟩ : Step))
      (doubleQuoted_asciiLower rest)
  | singleQuote =>
    show command .singleQuote (asciiLower rest) = _
    unfold command
    dsimp only
    rw [singleQuoted?_asciiLower]
    cases singleQuoted? rest <;> rfl
  | escape c => rfl
  | caret => exact hself .caret
  | lParen => exact hself .lParen
  | rParen => exact hself .rParen
  | delimiter run => exact hself (.delimiter run)
  | word run => exact hself (.word run)
  | operator kind spelling => exact hself (.operator kind spelling)

theorem lead_lowered (chunk : Chunk) :
    lead chunk.lowered (asciiLower rest) = (lead chunk rest).lowered := by
  cases chunk with
  | delimiter run => exact assign_asciiLower rest .delimiter .lead run
  | doubleQuote =>
    exact congrArg (fun read : List Lexeme × Text =>
      (⟨⟨.setDquoteBegin, ['"']⟩ :: read.1, .command, read.2⟩ : Step)) (quotedSet_asciiLower rest)
  | operator kind spelling => exact command_lowered rest (.operator kind spelling)
  | caret => exact command_lowered rest .caret
  | lParen => exact command_lowered rest .lParen
  | rParen => exact command_lowered rest .rParen
  | _ => rfl

theorem name_lowered (chunk : Chunk) :
    name chunk.lowered (asciiLower rest) = (name chunk rest).lowered := by
  cases chunk with
  | delimiter run => exact assign_asciiLower rest .setName .name run
  | operator kind spelling => exact command_lowered rest (.operator kind spelling)
  | caret => exact command_lowered rest .caret
  | _ => rfl

theorem value_lowered (chunk : Chunk) :
    value chunk.lowered (asciiLower rest) = (value chunk rest).lowered := by
  cases chunk with
  | doubleQuote =>
    exact congrArg (fun read : List Lexeme × Text =>
      (⟨⟨.stringDquoteBegin, ['"']⟩ :: read.1, .value, read.2⟩ : Step))
      (doubleQuoted_asciiLower rest)
  | operator kind spelling => exact command_lowered rest (.operator kind spelling)
  | caret => exact command_lowered rest .caret
  | _ => rfl

theorem step_lowered (mode : Mode) (chunk : Chunk) :
    step mode chunk.lowered (asciiLower rest) = (step mode chunk rest).lowered := by
  cases mode with
  | command => exact command_lowered rest chunk
  | lead => exact lead_lowered rest chunk
  | name => exact name_lowered rest chunk
  | value => exact value_lowered rest chunk

theorem pieces_eq (mode : Mode) : pieces mode t =
    match Chunk.next? t with
    | none => []
    | some (chunk, rest) =>
        (step mode chunk rest).out ++
          pieces (step mode chunk rest).mode (step mode chunk rest).rest := by
  rw [pieces]
  split <;> simp_all

@[simp] theorem pieces_nil (mode : Mode) : pieces mode [] = [] := by
  rw [pieces_eq]
  rfl

theorem pieces_of_next? {t rest : Text} {chunk : Chunk} (h : Chunk.next? t = some (chunk, rest))
    (mode : Mode) : pieces mode t = (step mode chunk rest).out ++
      pieces (step mode chunk rest).mode (step mode chunk rest).rest := by
  rw [pieces_eq, h]

theorem pieces_asciiLower (mode : Mode) :
    pieces mode (asciiLower t) = (pieces mode t).map Lexeme.lowered := by
  fun_induction pieces mode t with
  | case1 mode t h =>
    rw [pieces_eq, Chunk.next?_asciiLower, h]
    rfl
  | case2 mode t chunk rest h s ih =>
    rw [pieces_eq, Chunk.next?_asciiLower, h]
    simp only [Option.map_some, Prod.map_apply, step_lowered, List.map_append, ← ih]
    rfl

theorem lexemes_asciiLower : lexemes (asciiLower t) = (lexemes t).map Lexeme.lowered := by
  rw [lexemes, lexemes, pieces_asciiLower, join_lowered]

end

end Lexer

/-! ### Tokens -/

theorem Position.advance_asciiLower (t : Text) (here : Nat × Nat) :
    advance (asciiLower t) here = advance t here := by
  fun_induction advance t here with
  | case1 here => rfl
  | case2 rest line col ih => exact ih
  | case3 c rest line col hc ih =>
    have hlow : c.toLower ≠ '\n' := toLower_ne (by decide) hc
    rw [asciiLower_cons, advance]
    · exact ih
    · exact hlow

namespace Token

/-- The token in lower case. -/
def lowered (t : Token) : Token :=
  { t with text := asciiLower t.text }

@[simp] theorem kind_lowered (t : Token) : t.lowered.kind = t.kind := rfl

section

variable {p : Token → Bool} (hp : ∀ t, p t.lowered = p t) (ts : List Token)
include hp

theorem takeWhile_lowered : (ts.map lowered).takeWhile p = (ts.takeWhile p).map lowered := by
  rw [List.takeWhile_map, show p ∘ lowered = p from funext hp]

theorem dropWhile_lowered : (ts.map lowered).dropWhile p = (ts.dropWhile p).map lowered := by
  rw [List.dropWhile_map, show p ∘ lowered = p from funext hp]

theorem trim_lowered :
    (((ts.map lowered).dropWhile p).reverse.dropWhile p).reverse =
      (((ts.dropWhile p).reverse.dropWhile p).reverse).map lowered := by
  rw [dropWhile_lowered hp, ← List.map_reverse, dropWhile_lowered hp, List.map_reverse]

end

theorem place_lowered (start : Nat × Nat) (xs : List Lexeme) :
    Lexeme.place start (xs.map Lexeme.lowered) = (Lexeme.place start xs).map lowered := by
  induction xs generalizing start with
  | nil => rfl
  | cons x rest ih =>
    have hadvance : Position.advance x.lowered.text start = Position.advance x.text start :=
      Position.advance_asciiLower x.text start
    simp only [List.map_cons, Lexeme.place, hadvance, ih]
    simp [Lexeme.lowered, lowered]

/-- The tokens of a lower-case text. -/
theorem tokenize_asciiLower (t : Text) : tokenize (asciiLower t) = (tokenize t).map lowered := by
  rw [tokenize, tokenize, Lexer.lexemes_asciiLower, place_lowered]

theorem stringify_lowered (ts : List Token) :
    stringify (ts.map lowered) = asciiLower (stringify ts) := by
  induction ts with
  | nil => rfl
  | cons t rest ih =>
    rw [List.map_cons, stringify_cons, stringify_cons, ih, asciiLower_append]
    rfl

/-! ### Cleaning -/

theorem fuse_lowered (t next : Token) : t.lowered.fuse next.lowered = (t.fuse next).lowered := by
  simp [fuse, lowered]

theorem applyEscapes_lowered (ts : List Token) :
    applyEscapes (ts.map lowered) = (applyEscapes ts).map lowered := by
  rw [applyEscapes, applyEscapes, List.filter_map, List.map_map, List.map_map]
  refine List.map_congr_left fun t _ => ?_
  by_cases ht : t.kind = .escapedLiteral
  · simp [ht, lowered, withKind]
  · simp [ht]

theorem stripEmptyFrom_lowered (kept ts : List Token) :
    stripEmptyFrom (kept.map lowered) (ts.map lowered) = (stripEmptyFrom kept ts).map lowered := by
  fun_induction stripEmptyFrom kept ts with
  | case1 kept => simp [stripEmptyFrom]
  | case2 t rest last before h ih => simpa [stripEmptyFrom, h] using ih
  | case3 t rest last before h ih => simpa [stripEmptyFrom, h] using ih
  | case4 t rest ih => simpa [stripEmptyFrom] using ih

theorem stripEmptyStrings_lowered (ts : List Token) :
    stripEmptyStrings (ts.map lowered) = (stripEmptyStrings ts).map lowered :=
  stripEmptyFrom_lowered [] ts

theorem fuseFrom_lowered {joins : Token → Token → Bool}
    (hjoins : ∀ t u, joins t.lowered u.lowered = joins t u) (t : Token) (ts : List Token) :
    fuseFrom joins t.lowered (ts.map lowered) = (fuseFrom joins t ts).map lowered := by
  induction ts generalizing t with
  | nil => rfl
  | cons next rest ih =>
    simp only [List.map_cons, fuseFrom, hjoins, fuse_lowered, ih]
    split <;> rfl

theorem fuseRuns_lowered {joins : Token → Token → Bool}
    (hjoins : ∀ t u, joins t.lowered u.lowered = joins t u) (ts : List Token) :
    fuseRuns joins (ts.map lowered) = (fuseRuns joins ts).map lowered := by
  cases ts with
  | nil => rfl
  | cons t rest => exact fuseFrom_lowered hjoins t rest

theorem mergeLiterals_lowered (ts : List Token) :
    mergeLiterals (ts.map lowered) = (mergeLiterals ts).map lowered :=
  fuseRuns_lowered (fun _ _ => rfl) ts

namespace Quoted

/-- The string in lower case. -/
def lowered (q : Quoted) : Quoted :=
  ⟨q.opening.lowered, q.content.map Token.lowered, q.closing.map Token.lowered⟩

theorem absorb_lowered (q : Quoted) (t : Token) :
    q.lowered.absorb t.lowered = (q.absorb t).lowered := by
  rcases q with ⟨opening, _ | content, closing⟩
  · rfl
  · simp [absorb, lowered, fuse_lowered]

theorem foldl_absorb_lowered (q : Quoted) (words : List Token) :
    (words.map Token.lowered).foldl absorb q.lowered = (words.foldl absorb q).lowered := by
  rw [List.foldl_map]
  exact List.foldl_hom lowered absorb_lowered

theorem start_lowered (words : List Token) (q : Token) :
    start (words.map Token.lowered) q.lowered = (start words q).lowered := by
  cases words with
  | nil => rfl
  | cons first rest =>
    exact foldl_absorb_lowered
      ⟨{ q with
          position := ⟨first.position.line, first.position.colStart, first.position.colStart + 1⟩ },
        none, none⟩ (first :: rest)

theorem tokens_lowered (q : Quoted) : q.lowered.tokens = q.tokens.map Token.lowered := by
  rcases q with ⟨opening, _ | content, _ | closing⟩ <;> rfl

theorem extend_lowered (join : Bool) (q : Quoted) (ts : List Token) :
    q.lowered.extend join (ts.map Token.lowered) = (q.extend join ts).map Token.lowered := by
  fun_induction extend join q ts with
  | case1 q => exact tokens_lowered q
  | case2 q t rest hk hjoin ih =>
    simp only [List.map_cons, extend, kind_lowered, hk]
    rw [if_pos hjoin]
    exact ih
  | case3 q t rest hk hjoin ih =>
    simp only [List.map_cons, extend, kind_lowered, hk]
    rw [if_neg hjoin, tokens_lowered, List.map_append, ← ih]
    rfl
  | case4 q t rest hk ih =>
    simp only [List.map_cons, extend, kind_lowered, hk]
    exact ih
  | case5 q t rest hk hk' ih =>
    simp only [List.map_cons, extend, kind_lowered, absorb_lowered]
    exact ih

end Quoted

theorem widenRun_lowered (join : Bool) (run : List Token) :
    widenRun join (run.map lowered) = (widenRun join run).map lowered := by
  rw [widenRun, widenRun, takeWhile_lowered (fun _ => rfl), dropWhile_lowered (fun _ => rfl)]
  cases run.dropWhile (·.kind ≠ .stringDquoteBegin) with
  | nil => rfl
  | cons q rest =>
    have hwords : ((run.takeWhile (·.kind ≠ .stringDquoteBegin)).map lowered).filter
        (·.kind ≠ .stringDquoteEnd) =
        ((run.takeWhile (·.kind ≠ .stringDquoteBegin)).filter
          (·.kind ≠ .stringDquoteEnd)).map lowered := List.filter_map
    simp only [List.map_cons, hwords, Quoted.start_lowered, Quoted.extend_lowered]

theorem widen_lowered (join : Bool) (ts : List Token) :
    widen join (ts.map lowered) = (widen join ts).map lowered := by
  have hglued : ∀ t : Token, t.lowered.isGlued = t.isGlued := fun _ => rfl
  fun_induction widen join ts with
  | case1 => rw [List.map_nil, widen]
  | case2 t rest ht ih =>
    rw [List.map_cons, widen, hglued, if_pos ht, takeWhile_lowered hglued, dropWhile_lowered hglued,
      ih, ← List.map_cons, widenRun_lowered, List.map_append]
  | case3 t rest ht ih => rw [List.map_cons, widen, hglued, if_neg ht, ih, List.map_cons]

theorem isBlankDelimiter_lowered (t : Token) : t.lowered.isBlankDelimiter = t.isBlankDelimiter := by
  have hblank : CaseBlind fun c => !(c = ',' || c = ';' || c = '=') :=
    caseBlind_of_capitals (by decide)
  rw [isBlankDelimiter, isBlankDelimiter, kind_lowered, lowered, all_asciiLower _ hblank]

theorem singleSpace_lowered (t : Token) : t.lowered.singleSpace = t.singleSpace.lowered := by
  rw [singleSpace, singleSpace, isBlankDelimiter_lowered]
  split <;> rfl

theorem stripBlanks_lowered (ts : List Token) :
    stripBlanks (ts.map lowered) = (stripBlanks ts).map lowered := by
  have hsingle : singleSpace ∘ lowered = lowered ∘ singleSpace := funext singleSpace_lowered
  rw [stripBlanks, stripBlanks, fuseRuns_lowered (fun _ _ => rfl), List.map_map, hsingle,
    ← List.map_map]
  exact trim_lowered isBlankDelimiter_lowered _

theorem stripCommas_lowered (ts : List Token) :
    stripCommas (ts.map lowered) = (stripCommas ts).map lowered := by
  have hcomma : CaseBlind fun c => c = ',' || c = ';' := caseBlind_of_capitals (by decide)
  rw [stripCommas, stripCommas, ← stripBlanks_lowered, List.map_map, List.map_map]
  congr 1
  refine List.map_congr_left fun t _ => ?_
  by_cases ht : t.kind = .delimiter
  · simp [ht, lowered, replaceChars_asciiLower _ hcomma]
  · simp [ht]

end Token

/-- Cleaning lower-case tokens. -/
theorem Cleaning.apply_lowered (options : Cleaning) (ts : List Token) :
    options.apply (ts.map Token.lowered) = (options.apply ts).map Token.lowered := by
  have hpass : ∀ (chosen : Bool) (pass : List Token → List Token),
      (∀ us : List Token, pass (us.map Token.lowered) = (pass us).map Token.lowered) →
      ∀ us : List Token, (if chosen then pass (us.map Token.lowered) else us.map Token.lowered) =
        (if chosen then pass us else us).map Token.lowered := by
    intro chosen pass hpass us
    cases chosen
    · rfl
    · exact hpass us
  simp only [apply]
  rw [hpass _ _ Token.applyEscapes_lowered, hpass _ _ Token.stripEmptyStrings_lowered,
    hpass _ _ Token.mergeLiterals_lowered, hpass _ _ (Token.widen_lowered options.joinStrings),
    hpass _ _ Token.stripBlanks_lowered, hpass _ _ Token.stripCommas_lowered]

/-! ### Blocks -/

namespace Block

theorem ofTokens_lowered (ts : List Token) :
    ofTokens (ts.map Token.lowered) = (ofTokens ts).map (List.map Token.lowered) := by
  rw [ofTokens, ofTokens, splitOnP_map, List.filter_map]
  refine congrArg _ (List.filter_congr fun block _ => ?_)
  exact List.any_map

theorem trimDelimiters_lowered (ts : List Token) :
    trimDelimiters (ts.map Token.lowered) = (trimDelimiters ts).map Token.lowered :=
  Token.trim_lowered (fun _ => rfl) ts

theorem inner?_lowered (ts : List Token) :
    inner? (ts.map Token.lowered) = (inner? ts).map (List.map Token.lowered) := by
  cases ts with
  | nil => rfl
  | cons t rest =>
    rw [List.map_cons, inner?, inner?, List.getLast?_map, ← List.map_dropLast]
    cases rest.getLast? with
    | none => rfl
    | some last =>
      by_cases h : t.kind = .lParen ∧ last.kind = .rParen
      · simp [h]
      · simp [h]

theorem peel_eq (ts : List Token) : peel ts =
    match inner? (trimDelimiters ts) with
    | some us => peel us
    | none => trimDelimiters ts := by
  rw [peel]
  split <;> simp_all

theorem peel_lowered (ts : List Token) :
    peel (ts.map Token.lowered) = (peel ts).map Token.lowered := by
  fun_induction peel ts with
  | case1 ts us h ih =>
    rw [peel_eq, trimDelimiters_lowered, inner?_lowered, h]
    exact ih
  | case2 ts h =>
    rw [peel_eq, trimDelimiters_lowered, inner?_lowered, h]
    rfl

end Block

end BatchTrace
