/-
Tokens of a command line.

A token has a kind, the text it was read from and its position.  The kinds fall
into classes that the later stages speak about: chain operators cut a line into
commands, words are what a string can swallow, and neighbours of one mergeable
kind may become one token.
-/
import BatchTrace.Text.Basic

namespace BatchTrace

/-- What a token is. -/
inductive Kind where
  /-- A run of ordinary characters outside any quotes. -/
  | literal
  /-- The caret of an escape. -/
  | escape
  /-- The character after a caret. -/
  | escapedLiteral
  | stringDquoteBegin
  | stringDquoteChar
  | stringDquoteEnd
  /-- A whole double-quoted string with its quotes. -/
  | stringDquote
  | stringSquoteBegin
  | stringSquoteChar
  | stringSquoteEnd
  /-- The reserved word `SET`. -/
  | setWord
  /-- The name in a `SET`. -/
  | setName
  /-- The equals sign between name and value in a `SET`. -/
  | setAssignment
  /-- The value in a `SET`. -/
  | setValue
  | setDquoteBegin
  | setDquoteEnd
  /-- A run of separators. -/
  | delimiter
  /-- `&`: the next command always runs. -/
  | condAlways
  /-- `&&`: the next command runs if this one succeeds. -/
  | condSuccess
  /-- `||`: the next command runs if this one fails. -/
  | condOr
  | lParen
  | rParen
  | callWord
  | ifWord
  | elseWord
  | notWord
  | definedWord
  | existWord
  | forWord
  | inWord
  | doWord
  /-- `==` -/
  | doubleEquals
  | ifEqu
  | ifNeq
  | ifLss
  | ifLeq
  | ifGtr
  | ifGeq
  /-- `<` -/
  | redirectIn
  /-- `>` -/
  | redirectOut
  /-- `>>` -/
  | redirectOutAppend
  /-- `>` after a handle, such as `2>`. -/
  | redirectOutTo
  /-- `>&` and a handle, such as `2>&1`. -/
  | redirectStderrStdout
  /-- `|` -/
  | redirectPipe
  /-- Text that belongs to no other kind. -/
  | unrecognized
deriving DecidableEq, Repr, Inhabited

namespace Kind

/-- All kinds in their order. -/
def all : List Kind :=
  [literal, escape, escapedLiteral, stringDquoteBegin, stringDquoteChar, stringDquoteEnd,
    stringDquote, stringSquoteBegin, stringSquoteChar, stringSquoteEnd, setWord, setName,
    setAssignment, setValue, setDquoteBegin, setDquoteEnd, delimiter, condAlways, condSuccess,
    condOr, lParen, rParen, callWord, ifWord, elseWord, notWord, definedWord, existWord, forWord,
    inWord, doWord, doubleEquals,
    ifEqu, ifNeq, ifLss, ifLeq, ifGtr, ifGeq, redirectIn, redirectOut, redirectOutAppend,
    redirectOutTo, redirectStderrStdout, redirectPipe, unrecognized]

/-- The name a kind is printed with. -/
def name : Kind → String
  | literal => "LITERAL"
  | escape => "ESCAPE"
  | escapedLiteral => "ESCAPED_LITERAL"
  | stringDquoteBegin => "STRING_DQUOTE_BEGIN"
  | stringDquoteChar => "STRING_DQUOTE_CHAR"
  | stringDquoteEnd => "STRING_DQUOTE_END"
  | stringDquote => "STRING_DQUOTE"
  | stringSquoteBegin => "STRING_SQUOTE_BEGIN"
  | stringSquoteChar => "STRING_SQUOTE_CHAR"
  | stringSquoteEnd => "STRING_SQUOTE_END"
  | setWord => "SET"
  | setName => "SET_NAME"
  | setAssignment => "SET_ASSIGNMENT"
  | setValue => "SET_VALUE"
  | setDquoteBegin => "SET_DQUOTE_BEGIN"
  | setDquoteEnd => "SET_DQUOTE_END"
  | delimiter => "DELIMITER"
  | condAlways => "COND_ALWAYS"
  | condSuccess => "COND_SUCCESS"
  | condOr => "COND_OR"
  | lParen => "L_PAREN"
  | rParen => "R_PAREN"
  | callWord => "CALL"
  | ifWord => "IF"
  | elseWord => "ELSE"
  | notWord => "NOT"
  | definedWord => "DEFINED"
  | existWord => "EXIST"
  | forWord => "FOR"
  | inWord => "IN"
  | doWord => "DO"
  | doubleEquals => "DOUBLE_EQUALS"
  | ifEqu => "IF_EQU"
  | ifNeq => "IF_NEQ"
  | ifLss => "IF_LSS"
  | ifLeq => "IF_LEQ"
  | ifGtr => "IF_GTR"
  | ifGeq => "IF_GEQ"
  | redirectIn => "REDIRECT_IN"
  | redirectOut => "REDIRECT_OUT"
  | redirectOutAppend => "REDIRECT_OUT_APPEND"
  | redirectOutTo => "REDIRECT_OUT_TO"
  | redirectStderrStdout => "REDIRECT_STDERR_STDOUT"
  | redirectPipe => "REDIRECT_PIPE"
  | unrecognized => "UNRECOGNIZED"

/-- The kind with a given printed name. -/
def ofName? (s : String) : Option Kind :=
  all.find? (·.name == s)

/-- Chain operators stand between the commands of a line. -/
def isChain : Kind → Bool
  | condAlways | condSuccess | condOr => true
  | _ => false

/-- Words are literals and the reserved words other than `SET`. -/
def isWord : Kind → Bool
  | literal | callWord | ifWord | elseWord | notWord | definedWord | existWord | forWord | inWord
  | doWord
  | ifEqu | ifNeq | ifLss | ifLeq | ifGtr | ifGeq => true
  | _ => false

/-- Redirections, the pipe included. -/
def isRedirection : Kind → Bool
  | redirectIn | redirectOut | redirectOutAppend | redirectOutTo | redirectStderrStdout
  | redirectPipe => true
  | _ => false

/-- Neighbours of one such kind say the same as one token. -/
def isMergeable : Kind → Bool
  | literal | stringDquoteChar | stringSquoteChar | setName | setValue => true
  | _ => false

/-- The pieces of a double-quoted string. -/
def isDquotePiece : Kind → Bool
  | stringDquoteBegin | stringDquoteChar | stringDquoteEnd => true
  | _ => false

end Kind

/-- Where a token stands: its line from 1, and its columns from 0 in characters. -/
structure Position where
  line : Nat
  colStart : Nat
  colEnd : Nat
deriving DecidableEq, Repr, Inhabited

/-- A piece of a command line. -/
structure Token where
  kind : Kind
  text : Text
  position : Position
deriving DecidableEq, Repr, Inhabited

namespace Token

/-- The text that a list of tokens spells. -/
def stringify (ts : List Token) : Text :=
  ts.flatMap (·.text)

/-- Is `t` of kind `k`? -/
def is (t : Token) (k : Kind) : Bool :=
  t.kind == k

/-- The same token with another kind. -/
def withKind (t : Token) (k : Kind) : Token :=
  { t with kind := k }

@[simp]
theorem stringify_nil : stringify [] = [] := rfl

@[simp]
theorem stringify_cons (t : Token) (ts : List Token) :
    stringify (t :: ts) = t.text ++ stringify ts := rfl

@[simp]
theorem stringify_append (ts us : List Token) :
    stringify (ts ++ us) = stringify ts ++ stringify us := by
  simp [stringify]

end Token

end BatchTrace
