/-
Chunks: the smallest pieces that a command line is read in.

At every point of a line the longest possible chunk is taken.  Quotes and carets
are chunks of their own here; what they mean depends on where they stand and is
decided by the reader of tokens.  `next?` always takes at least one character, and
the chunk's text together with the rest is the text it was taken from.
-/
import BatchTrace.Token.Basic

namespace BatchTrace

/-- A lexical unit of a command line. -/
inductive Chunk where
  /-- A caret with the character it escapes. -/
  | escape (c : Char)
  /-- A caret at the end of the text. -/
  | caret
  | doubleQuote
  | singleQuote
  /-- A run of separators. -/
  | delimiter (run : Text)
  /-- A run of ordinary characters. -/
  | word (run : Text)
  | lParen
  | rParen
  /-- A chain or redirection operator. -/
  | operator (kind : Kind) (spelling : Text)
deriving DecidableEq, Repr

namespace Chunk

/-- The characters that separate words. -/
def isDelimiter (c : Char) : Bool :=
  c = ',' || c = ';' || c = '=' || c = ' ' || c = '\t' || c = '\n' || c = '\x0b' || c = '\x0c'
    || c = 'ÿ'

/-- The characters with a meaning of their own. -/
def isSpecial (c : Char) : Bool :=
  c = '^' || c = '"' || c = '\'' || c = '(' || c = ')' || c = '&' || c = '|' || c = '<' || c = '>'

/-- Ordinary characters: all others. -/
def isOrdinary (c : Char) : Bool :=
  !isDelimiter c && !isSpecial c

/-- The small ASCII letter that `c` stands for in a reserved word, case being folded. -/
def foldLetter (c : Char) : Char :=
  if c = 'ſ' then 's' else if c = '\u212A' then 'k' else c.toLower

/-- The reserved words and their kinds. -/
def reservedWords : List (Text × Kind) :=
  [("set".toList, .setWord), ("call".toList, .callWord), ("if".toList, .ifWord),
    ("else".toList, .elseWord), ("not".toList, .notWord), ("defined".toList, .definedWord),
    ("exist".toList, .existWord), ("for".toList, .forWord), ("in".toList, .inWord),
    ("do".toList, .doWord), ("equ".toList, .ifEqu), ("neq".toList, .ifNeq),
    ("lss".toList, .ifLss), ("leq".toList, .ifLeq), ("gtr".toList, .ifGtr),
    ("geq".toList, .ifGeq)]

/-- The kind of a run that spells a reserved word. -/
def reserved? (run : Text) : Option Kind :=
  reservedWords.lookup (run.map foldLetter)

/-- The text a chunk was read from. -/
def text : Chunk → Text
  | escape c => ['^', c]
  | caret => ['^']
  | doubleQuote => ['"']
  | singleQuote => ['\'']
  | delimiter run => run
  | word run => run
  | lParen => ['(']
  | rParen => [')']
  | operator _ spelling => spelling

/-- The kind of the token that a chunk is when it stands for itself. -/
def kind : Chunk → Kind
  | escape _ => .escape
  | caret => .escape
  | doubleQuote => .stringDquoteBegin
  | singleQuote => .literal
  | delimiter run => if run = ['=', '='] then .doubleEquals else .delimiter
  | word run => (reserved? run).getD .literal
  | lParen => .lParen
  | rParen => .rParen
  | operator kind _ => kind

/-- Chunks that end the assignment of a `SET`. -/
def endsSet : Chunk → Bool
  | operator _ _ => true
  | caret => true
  | _ => false

/-- The first chunk of a text, and the text after it. -/
def next? : Text → Option (Chunk × Text)
  | [] => none
  | '^' :: c :: rest => some (escape c, rest)
  | ['^'] => some (caret, [])
  | '"' :: rest => some (doubleQuote, rest)
  | '\'' :: rest => some (singleQuote, rest)
  | '(' :: rest => some (lParen, rest)
  | ')' :: rest => some (rParen, rest)
  | '&' :: '&' :: rest => some (operator .condSuccess ['&', '&'], rest)
  | '&' :: rest => some (operator .condAlways ['&'], rest)
  | '|' :: '|' :: rest => some (operator .condOr ['|', '|'], rest)
  | '|' :: rest => some (operator .redirectPipe ['|'], rest)
  | '<' :: rest => some (operator .redirectIn ['<'], rest)
  | '>' :: '>' :: rest => some (operator .redirectOutAppend ['>', '>'], rest)
  | '>' :: '&' :: d :: rest =>
      if d.isDigit then some (operator .redirectStderrStdout ['>', '&', d], rest)
      else some (operator .redirectOut ['>'], '&' :: d :: rest)
  | '>' :: rest => some (operator .redirectOut ['>'], rest)
  | c :: rest =>
      if isDelimiter c then
        some (delimiter (c :: rest.takeWhile isDelimiter), rest.dropWhile isDelimiter)
      else
        match c.isDigit, rest with
        | true, '>' :: '&' :: d :: after =>
            if d.isDigit then some (operator .redirectStderrStdout [c, '>', '&', d], after)
            else some (operator .redirectOutTo [c, '>'], '&' :: d :: after)
        | true, '>' :: after => some (operator .redirectOutTo [c, '>'], after)
        | _, _ => some (word (c :: rest.takeWhile isOrdinary), rest.dropWhile isOrdinary)

/-- A chunk and what follows it make up the text it was read from. -/
theorem text_append_of_next? {t rest : Text} {chunk : Chunk} (h : next? t = some (chunk, rest)) :
    chunk.text ++ rest = t := by
  unfold next? at h
  split at h <;> (try split at h) <;> (try split at h) <;> (try split at h) <;>
    simp_all only [Option.some.injEq, Prod.mk.injEq, reduceCtorEq] <;>
    (obtain ⟨rfl, rfl⟩ := h; simp [text])

/-- No chunk is empty. -/
theorem text_ne_nil_of_next? {t rest : Text} {chunk : Chunk} (h : next? t = some (chunk, rest)) :
    chunk.text ≠ [] := by
  unfold next? at h
  split at h <;> (try split at h) <;> (try split at h) <;> (try split at h) <;>
    simp_all only [Option.some.injEq, Prod.mk.injEq, reduceCtorEq] <;>
    (obtain ⟨rfl, rfl⟩ := h; simp [text])

/-- Taking a chunk makes the text shorter. -/
theorem length_lt_of_next? {t rest : Text} {chunk : Chunk} (h : next? t = some (chunk, rest)) :
    rest.length < t.length := by
  have hne := List.length_pos_iff.2 (text_ne_nil_of_next? h)
  have happ := congrArg List.length (text_append_of_next? h)
  rw [List.length_append] at happ
  omega

end Chunk

end BatchTrace
