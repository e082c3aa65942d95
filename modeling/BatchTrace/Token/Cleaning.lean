/-
Cleaning: token passes that undo the ways a command line is disguised.

Six passes run in a fixed order, each of them only if it is chosen: carets are
dropped, empty strings are dropped, neighbouring literals are merged, strings take
in the words that touch them, blanks are reduced to single spaces, and commas are
read as blanks.  No pass loses or reorders what the words of a line are made of.
-/
import BatchTrace.Token.Lexer
import BatchTrace.Token.Quoted

namespace BatchTrace

namespace Token

/-- Carets disappear, and the character after one is an ordinary one. -/
def applyEscapes (ts : List Token) : List Token :=
  (ts.filter (·.kind ≠ .escape)).map fun t =>
    if t.kind = .escapedLiteral then t.withKind .literal else t

/-- `stripEmptyStrings` with the tokens kept so far, last first: a closing quote right after an
opening one takes that one away with it. -/
def stripEmptyFrom : (kept ts : List Token) → List Token
  | kept, [] => kept.reverse
  | kept, t :: rest =>
      match kept with
      | last :: before =>
          if t.kind = .stringDquoteEnd ∧ last.kind = .stringDquoteBegin then
            stripEmptyFrom before rest
          else stripEmptyFrom (t :: kept) rest
      | [] => stripEmptyFrom [t] rest

/-- Empty strings disappear, also those that are empty once others are gone. -/
def stripEmptyStrings (ts : List Token) : List Token :=
  stripEmptyFrom [] ts

/-- `fuseRuns` where `t` has been read and may still grow. -/
def fuseFrom (joins : Token → Token → Bool) : Token → List Token → List Token
  | t, [] => [t]
  | t, next :: rest =>
      if joins t next then fuseFrom joins (t.fuse next) rest
      else t :: fuseFrom joins next rest

/-- Each token is fused with the ones after it as long as they join. -/
def fuseRuns (joins : Token → Token → Bool) : List Token → List Token
  | [] => []
  | t :: rest => fuseFrom joins t rest

/-- Neighbours of one mergeable kind become one token. -/
def mergeLiterals (ts : List Token) : List Token :=
  fuseRuns (fun t next => t.kind == next.kind && next.kind.isMergeable) ts

/-- A separator run of white space only. -/
def isBlankDelimiter (t : Token) : Bool :=
  t.kind == .delimiter && t.text.all fun c => !(c = ',' || c = ';' || c = '=')

/-- A run of white space is one space. -/
def singleSpace (t : Token) : Token :=
  if t.isBlankDelimiter then
    { t with
      text := [' ']
      position := { t.position with colEnd := t.position.colStart + 1 } }
  else t

/-- Tokens without the white space at either end. -/
def trimBlanks (ts : List Token) : List Token :=
  ((ts.dropWhile isBlankDelimiter).reverse.dropWhile isBlankDelimiter).reverse

/-- White space becomes single spaces, none at either end. -/
def stripBlanks (ts : List Token) : List Token :=
  trimBlanks ((fuseRuns (fun t next => t.kind == .delimiter && next.kind == .delimiter) ts).map
    singleSpace)

/-- Commas and semicolons count as white space. -/
def stripCommas (ts : List Token) : List Token :=
  stripBlanks (ts.map fun t =>
    if t.kind = .delimiter then
      { t with text := Text.replaceChars (fun c => c = ',' || c = ';') ' ' t.text }
    else t)

end Token

/-- Which cleaning passes run. -/
structure Cleaning where
  /-- Carets are dropped. -/
  escapes : Bool := true
  /-- Empty strings are dropped. -/
  emptyStrings : Bool := true
  /-- Neighbouring literals are merged. -/
  literals : Bool := true
  /-- Strings that touch become one when they take in words. -/
  joinStrings : Bool := true
  /-- Strings take in the words that touch them. -/
  strings : Bool := true
  /-- White space becomes single spaces. -/
  blanks : Bool := true
  /-- Commas count as white space; not so by default, since they separate arguments too. -/
  commas : Bool := false
deriving DecidableEq, Repr

namespace Cleaning

/-- The passes that run unless something else is asked for. -/
def standard : Cleaning := {}

/-- The chosen passes in their order. -/
def apply (options : Cleaning) (ts : List Token) : List Token :=
  let ts := if options.escapes then Token.applyEscapes ts else ts
  let ts := if options.emptyStrings then Token.stripEmptyStrings ts else ts
  let ts := if options.literals then Token.mergeLiterals ts else ts
  let ts := if options.strings then Token.widen options.joinStrings ts else ts
  let ts := if options.blanks then Token.stripBlanks ts else ts
  if options.commas then Token.stripCommas ts else ts

/-- A text read into tokens, cleaned and written out again. -/
def deobfuscate (options : Cleaning) (t : Text) : Text :=
  Token.stringify (options.apply (Token.tokenize t))

end Cleaning

/-- The tokens of a text after the standard cleaning, with every closed string as one token. -/
def Token.tokenizeClean (t : Text) : List Token :=
  Token.collapse (Cleaning.standard.apply (Token.tokenize t))

end BatchTrace
