/-
Reading a command line into tokens.

The line is read chunk by chunk.  What a chunk becomes depends on the mode: after
the reserved word `SET` come a name and a value, in which most characters lose
their meaning, until an operator ends the assignment.  Quotes are read ahead: a
double-quoted string runs to the next double quote or to the end of the text, a
single-quoted one only counts if it is closed.

Reading gives lexemes, a kind with a text; three kinds are read in several pieces
and joined afterwards.  Positions come last and depend on nothing but the texts
before a token, so they are added in a separate pass.

The reader never fails, and the texts of the tokens spell the line.
-/
import BatchTrace.Token.Chunk

namespace BatchTrace

/-- A token without its position. -/
structure Lexeme where
  kind : Kind
  text : Text
deriving DecidableEq, Repr

namespace Lexeme

/-- Kinds that are read in pieces, of which neighbours are joined. -/
def isPieced : Kind → Bool
  | .setName | .setValue | .stringSquoteChar => true
  | _ => false

/-- Neighbouring pieces of one name, one value or one quoted run become one lexeme. -/
def join : List Lexeme → List Lexeme
  | [] => []
  | x :: rest =>
      match join rest with
      | [] => [x]
      | y :: joined =>
          if isPieced x.kind && x.kind == y.kind then ⟨x.kind, x.text ++ y.text⟩ :: joined
          else x :: y :: joined

/-- One lexeme of kind `k` for a text that is not empty, none for an empty one. -/
def ofText (k : Kind) : Text → List Lexeme
  | [] => []
  | t => [⟨k, t⟩]

/-- The two lexemes of an escape. -/
def escaped (c : Char) : List Lexeme :=
  [⟨.escape, ['^']⟩, ⟨.escapedLiteral, [c]⟩]

end Lexeme

namespace Lexer

open Lexeme

/-- What the reader expects. -/
inductive Mode where
  /-- A command. -/
  | command
  /-- The name of an assignment, no character of which has been read. -/
  | lead
  /-- The rest of a name. -/
  | name
  /-- A value. -/
  | value
deriving DecidableEq, Repr

/-- What one step reads: lexemes, the mode after them, and the text still to be read. -/
structure Step where
  out : List Lexeme
  mode : Mode
  rest : Text

/-- The body of a double-quoted string up to its closing quote. -/
def doubleQuoted (t : Text) : List Lexeme × Text :=
  let body := t.takeWhile (· ≠ '"')
  match t.dropWhile (· ≠ '"') with
  | [] => (ofText .stringDquoteChar body, [])
  | q :: rest => (ofText .stringDquoteChar body ++ [⟨.stringDquoteEnd, [q]⟩], rest)

/-- The body of a single-quoted string up to its closing quote, if it is closed.  Carets still
escape in it. -/
def singleQuoted? : Text → Option (List Lexeme × Text)
  | [] => none
  | '\'' :: rest => some ([⟨.stringSquoteEnd, ['\'']⟩], rest)
  | ['^'] => none
  | '^' :: c :: rest => (singleQuoted? rest).map fun (out, after) => (escaped c ++ out, after)
  | c :: rest =>
      (singleQuoted? rest).map fun (out, after) => (⟨.stringSquoteChar, [c]⟩ :: out, after)

/-- The name and value between the quotes of `SET "name=value"`. -/
def quotedAssignment (body : Text) : List Lexeme :=
  match Text.splitFirst (· = '=') body with
  | some (name, value) => ofText .setName name ++ ⟨.setAssignment, ['=']⟩ :: ofText .setValue value
  | none => ofText .setName body

/-- The rest of `SET "name=value"` after its opening quote. -/
def quotedSet (t : Text) : List Lexeme × Text :=
  let body := t.takeWhile (· ≠ '"')
  match t.dropWhile (· ≠ '"') with
  | [] => (quotedAssignment body, [])
  | q :: rest => (quotedAssignment body ++ [⟨.setDquoteEnd, [q]⟩], rest)

/-- A chunk where a command is expected. -/
def command (chunk : Chunk) (rest : Text) : Step :=
  match chunk with
  | .escape c => ⟨escaped c, .command, rest⟩
  | .doubleQuote =>
      let (out, after) := doubleQuoted rest
      ⟨⟨.stringDquoteBegin, ['"']⟩ :: out, .command, after⟩
  | .singleQuote =>
      match singleQuoted? rest with
      | some (out, after) => ⟨⟨.stringSquoteBegin, ['\'']⟩ :: out, .command, after⟩
      | none => ⟨[⟨.literal, ['\'']⟩], .command, rest⟩
  | chunk => ⟨[⟨chunk.kind, chunk.text⟩], if chunk.kind = .setWord then .lead else .command, rest⟩

/-- A run of separators before or in a name: its first equals sign starts the value, and what
stands before it is of kind `before`. -/
def assign (before : Kind) (stay : Mode) (run rest : Text) : Step :=
  match Text.splitFirst (· = '=') run with
  | some (name, value) =>
      ⟨ofText before name ++ ⟨.setAssignment, ['=']⟩ :: ofText .setValue value, .value, rest⟩
  | none => ⟨[⟨before, run⟩], stay, rest⟩

/-- A chunk where the name of an assignment is expected. -/
def lead (chunk : Chunk) (rest : Text) : Step :=
  match chunk with
  | .delimiter run => assign .delimiter .lead run rest
  | .doubleQuote =>
      let (out, after) := quotedSet rest
      ⟨⟨.setDquoteBegin, ['"']⟩ :: out, .command, after⟩
  | .escape c => ⟨escaped c, .name, rest⟩
  | .lParen => command .lParen rest
  | .rParen => command .rParen rest
  | chunk => if chunk.endsSet then command chunk rest else ⟨[⟨.setName, chunk.text⟩], .name, rest⟩

/-- A chunk inside a name. -/
def name (chunk : Chunk) (rest : Text) : Step :=
  match chunk with
  | .delimiter run => assign .setName .name run rest
  | .escape c => ⟨escaped c, .name, rest⟩
  | chunk => if chunk.endsSet then command chunk rest else ⟨[⟨.setName, chunk.text⟩], .name, rest⟩

/-- A chunk inside a value. -/
def value (chunk : Chunk) (rest : Text) : Step :=
  match chunk with
  | .escape c => ⟨escaped c, .value, rest⟩
  | .doubleQuote =>
      let (out, after) := doubleQuoted rest
      ⟨⟨.stringDquoteBegin, ['"']⟩ :: out, .value, after⟩
  | .rParen => ⟨[⟨.rParen, [')']⟩], .value, rest⟩
  | chunk =>
      if chunk.endsSet then command chunk rest else ⟨[⟨.setValue, chunk.text⟩], .value, rest⟩

/-- A chunk in a given mode. -/
def step (mode : Mode) (chunk : Chunk) (rest : Text) : Step :=
  match mode with
  | .command => command chunk rest
  | .lead => lead chunk rest
  | .name => name chunk rest
  | .value => value chunk rest

theorem length_doubleQuoted (t : Text) : (doubleQuoted t).2.length ≤ t.length := by
  have h : (t.dropWhile (· ≠ '"')).length ≤ t.length := (List.dropWhile_suffix _).length_le
  unfold doubleQuoted
  split <;> simp_all
  omega

theorem length_quotedSet (t : Text) : (quotedSet t).2.length ≤ t.length := by
  have h : (t.dropWhile (· ≠ '"')).length ≤ t.length := (List.dropWhile_suffix _).length_le
  unfold quotedSet
  split <;> simp_all
  omega

theorem length_singleQuoted {t : Text} {out : List Lexeme} {after : Text}
    (h : singleQuoted? t = some (out, after)) : after.length ≤ t.length := by
  fun_induction singleQuoted? t generalizing out after with
  | case1 => simp at h
  | case2 => simp_all
  | case3 => simp at h
  | case4 c rest ih =>
    obtain ⟨⟨o, a⟩, ho, heq⟩ := Option.map_eq_some_iff.1 h
    simp only [Prod.mk.injEq] at heq
    have := ih ho
    simp only [List.length_cons, ← heq.2]
    omega
  | case5 c rest _ _ _ ih =>
    obtain ⟨⟨o, a⟩, ho, heq⟩ := Option.map_eq_some_iff.1 h
    simp only [Prod.mk.injEq] at heq
    have := ih ho
    simp only [List.length_cons, ← heq.2]
    omega

theorem length_command (chunk : Chunk) (rest : Text) :
    (command chunk rest).rest.length ≤ rest.length := by
  cases chunk with
  | doubleQuote => exact length_doubleQuoted rest
  | singleQuote =>
    unfold command
    dsimp only
    split
    · rename_i h
      exact length_singleQuoted h
    · exact Nat.le_refl _
  | _ => exact Nat.le_refl _

@[simp]
theorem rest_assign (before : Kind) (stay : Mode) (run rest : Text) :
    (assign before stay run rest).rest = rest := by
  unfold assign
  split <;> rfl

theorem length_lead (chunk : Chunk) (rest : Text) :
    (lead chunk rest).rest.length ≤ rest.length := by
  cases chunk with
  | delimiter run => exact Nat.le_of_eq (congrArg List.length (rest_assign _ _ run rest))
  | doubleQuote => exact length_quotedSet rest
  | _ => exact Nat.le_refl _

theorem length_name (chunk : Chunk) (rest : Text) :
    (name chunk rest).rest.length ≤ rest.length := by
  cases chunk with
  | delimiter run => exact Nat.le_of_eq (congrArg List.length (rest_assign _ _ run rest))
  | _ => exact Nat.le_refl _

theorem length_value (chunk : Chunk) (rest : Text) :
    (value chunk rest).rest.length ≤ rest.length := by
  cases chunk with
  | doubleQuote => exact length_doubleQuoted rest
  | _ => exact Nat.le_refl _

/-- A step never makes the text that is still to be read longer. -/
theorem length_step (mode : Mode) (chunk : Chunk) (rest : Text) :
    (step mode chunk rest).rest.length ≤ rest.length := by
  cases mode
  · exact length_command chunk rest
  · exact length_lead chunk rest
  · exact length_name chunk rest
  · exact length_value chunk rest

/-- The lexemes of a text, pieces not yet joined. -/
def pieces (mode : Mode) (t : Text) : List Lexeme :=
  match _h : Chunk.next? t with
  | none => []
  | some (chunk, rest) =>
      let s := step mode chunk rest
      s.out ++ pieces s.mode s.rest
termination_by t.length
decreasing_by
  exact Nat.lt_of_le_of_lt (length_step _ _ _) (Chunk.length_lt_of_next? _h)

/-- The lexemes of a text. -/
def lexemes (t : Text) : List Lexeme :=
  join (pieces .command t)

end Lexer

namespace Position

/-- The line and column reached after reading `t` from the given line and column. -/
def advance : Text → Nat × Nat → Nat × Nat
  | [], here => here
  | '\n' :: rest, (line, _) => advance rest (line + 1, 0)
  | _ :: rest, (line, col) => advance rest (line, col + 1)

end Position

namespace Lexeme

/-- Lexemes as tokens, the first of them at the given line and column. -/
def place (start : Nat × Nat) : List Lexeme → List Token
  | [] => []
  | x :: rest =>
      ⟨x.kind, x.text, ⟨start.1, start.2, start.2 + x.text.length⟩⟩ ::
        place (Position.advance x.text start) rest

end Lexeme

namespace Token

/-- The tokens of a text. -/
def tokenize (t : Text) : List Token :=
  Lexeme.place (1, 0) (Lexer.lexemes t)

end Token

end BatchTrace
