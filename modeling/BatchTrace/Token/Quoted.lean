/-
Double-quoted strings as wholes.

`widen` lets a string take in the words that touch it, so that its quotes enclose
the whole word, and on request joins strings that touch each other.  `collapse`
folds a closed string into a single token.  Both leave every token outside strings
and their neighbours alone.
-/
import BatchTrace.Token.Basic

namespace BatchTrace

namespace Token

/-- `next` appended to `t`, which keeps its start. -/
def fuse (t next : Token) : Token :=
  { t with
    text := t.text ++ next.text
    position :=
      { t.position with
        colEnd :=
          if next.position.line = t.position.line then next.position.colEnd
          else t.position.colEnd + next.text.length } }

/-- A double-quoted string while it is put together. -/
structure Quoted where
  opening : Token
  content : Option Token
  closing : Option Token

namespace Quoted

/-- The string with one more token in its content. -/
def absorb (q : Quoted) (t : Token) : Quoted :=
  { q with
    content :=
      match q.content with
      | some content => some (content.fuse t)
      | none => some (t.withKind .stringDquoteChar) }

/-- A string opened by the quote `q` after the words that touch it, which become its content. -/
def start (words : List Token) (q : Token) : Quoted :=
  let opening :=
    match words with
    | [] => q
    | first :: _ =>
        { q with
          position := ⟨first.position.line, first.position.colStart, first.position.colStart + 1⟩ }
  words.foldl absorb ⟨opening, none, none⟩

/-- The tokens of the string. -/
def tokens (q : Quoted) : List Token :=
  q.opening :: (q.content.toList ++ q.closing.toList)

/-- The rest of a run of words and string pieces after an opened string. -/
def extend (join : Bool) (q : Quoted) : List Token → List Token
  | [] => q.tokens
  | t :: rest =>
      match t.kind with
      | .stringDquoteBegin =>
          if join then extend join { q with closing := none } rest
          else q.tokens ++ extend join (start [] t) rest
      | .stringDquoteEnd => extend join { q with closing := some t } rest
      | _ => extend join (q.absorb t) rest

end Quoted

/-- Can `t` be part of a run that a string takes in? -/
def isGlued (t : Token) : Bool :=
  t.kind.isWord || t.kind.isDquotePiece

/-- A run of words and string pieces, the words taken into the strings.  A run in which no string
opens stays as it is. -/
def widenRun (join : Bool) (run : List Token) : List Token :=
  let before := run.takeWhile (·.kind ≠ .stringDquoteBegin)
  match run.dropWhile (·.kind ≠ .stringDquoteBegin) with
  | [] => run
  | q :: rest =>
      (Quoted.start (before.filter (·.kind ≠ .stringDquoteEnd)) q).extend join rest

/-- Strings take in the words that touch them; with `join`, strings that touch become one. -/
def widen (join : Bool) : List Token → List Token
  | [] => []
  | t :: rest =>
      if t.isGlued then
        widenRun join (t :: rest.takeWhile isGlued) ++ widen join (rest.dropWhile isGlued)
      else t :: widen join rest
termination_by ts => ts.length
decreasing_by
  · exact Nat.lt_succ_of_le (List.dropWhile_suffix _).length_le
  · simp

/-- A closed string as one token: its quotes and everything between them. -/
def folded (opening : Token) (content : List Token) (closing : Token) : Token :=
  ⟨.stringDquote, opening.text ++ stringify content ++ closing.text,
    { opening.position with colEnd := closing.position.colEnd }⟩

/-- Every closed string becomes one token. -/
def collapse : List Token → List Token
  | [] => []
  | t :: rest =>
      if t.kind = .stringDquoteBegin then
        match _h : rest.dropWhile (·.kind = .stringDquoteChar) with
        | closing :: after =>
            if closing.kind = .stringDquoteEnd then
              folded t (rest.takeWhile (·.kind = .stringDquoteChar)) closing :: collapse after
            else t :: collapse rest
        | [] => t :: collapse rest
      else t :: collapse rest
termination_by ts => ts.length
decreasing_by
  · have : (rest.dropWhile (·.kind = .stringDquoteChar)).length ≤ rest.length :=
      (List.dropWhile_suffix _).length_le
    rw [_h] at this
    simp only [List.length_cons] at this ⊢
    omega
  all_goals simp

end Token

end BatchTrace
