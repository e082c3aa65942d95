/-
Which program a command runs.

The head of a command is what stands before its first separator.  If the head
looks like a path, the program is its last component, otherwise its first word;
quotes do not count, nor does an `.exe` or `.com` at the end, and the name is in
lower case.  A head with an unclosed quote names no program.
-/
import BatchTrace.Switch
import BatchTrace.Text.Blank

namespace BatchTrace

namespace Program

/-- Is `c` a path separator? -/
def isSeparator (c : Char) : Bool :=
  c = '\\' || c = '/'

/-- Does a path start with a drive letter? -/
def hasDrive : Text → Bool
  | letter :: ':' :: _ => letter.isAlpha
  | _ => false

/-- A non-empty run of ASCII letters and digits. -/
def isPlain (t : Text) : Bool :=
  !t.isEmpty && t.all Char.isAlphanum

/-- A plain file name with at most one extension. -/
def isPlainFile (t : Text) : Bool :=
  match t.splitOnP (· = '.') with
  | [stem] => isPlain stem
  | [stem, extension] => isPlain stem && isPlain extension
  | _ => false

/-- Does a head look like a path?  It has a drive, starts like an absolute or a relative path, or
is a single word that ends in a plain file name after a separator. -/
def looksLikePath (t : Text) : Bool :=
  hasDrive t || (t.head?.any isSeparator)
    || ["./".toList, ".\\".toList, "../".toList, "..\\".toList].any (·.isPrefixOf t)
    || (!t.any Text.isBlank
      && match Text.splitLast isSeparator t with
        | some (_, last) => isPlainFile last
        | none => false)

/-- The last component of a path, its drive and the separators at its end not counted. -/
def basename (path : Text) : Text :=
  let path := if hasDrive path then path.drop 2 else path
  let path := (path.reverse.dropWhile isSeparator).reverse
  match Text.splitLast isSeparator path with
  | some (_, name) => name
  | none => path

/-- `t` without the ending `extension`, unless nothing else is left. -/
def withoutExtension? (extension t : Text) : Option Text :=
  match extension.isSuffixOf? t with
  | some [] => none
  | stem => stem

/-- The name of a program: lower case, without `.exe` or `.com`. -/
def normalizeName (word : Text) : Text :=
  let name := Text.lower word
  ((withoutExtension? ".exe".toList name).or (withoutExtension? ".com".toList name)).getD name

/-- Tokens that may stand before a command. -/
def isLeading (t : Token) : Bool :=
  t.kind = .lParen || t.kind = .rParen || t.kind = .delimiter || t.kind.isChain

/-- Tokens that end the head of a command. -/
def endsHead (t : Token) : Bool :=
  t.kind = .delimiter || t.kind.isChain

/-- Is a quote open after these tokens? -/
def quoteOpen (ts : List Token) : Bool :=
  ts.foldl
    (fun isOpen t =>
      match t.kind with
      | .stringDquoteBegin => true
      | .stringDquoteEnd => false
      | _ => isOpen)
    false

/-- `t` without its double quotes. -/
def unquoted (t : Text) : Text :=
  t.filter (· ≠ '"')

/-- The program that a head names. -/
def nameOfHead (head : Text) : Text :=
  let head := unquoted head
  normalizeName (if looksLikePath head then basename head else Text.firstWord head)

end Program

/-- The program of a command. -/
structure Program where
  /-- Its name; empty if there is none. -/
  name : Text
  /-- How many tokens stand before its arguments; none if no program could be named. -/
  offset : Option Nat
  /-- The text that names it. -/
  head : Text
  /-- The switches, read for `cmd` only. -/
  switches : Switches
deriving DecidableEq, Repr

namespace Program

/-- No program. -/
def unidentified : Program :=
  ⟨[], none, [], []⟩

/-- Has a program been named? -/
def isIdentified (p : Program) : Bool :=
  p.offset.isSome

/-- The arguments of the program among the tokens it was identified in. -/
def arguments (p : Program) (ts : List Token) : List Token :=
  match p.offset with
  | some n => ts.drop n
  | none => ts

/-- The program of a command. -/
def identify (ts : List Token) : Program :=
  let start := (ts.takeWhile isLeading).length
  match ts.dropWhile isLeading with
  | [] => unidentified
  | first :: rest =>
      if first.kind = .setWord then
        let offset := if rest.head?.any (·.kind = .delimiter) then start + 2 else start + 1
        ⟨"set".toList, some offset, first.text, []⟩
      else
        let run := first :: rest.takeWhile (!endsHead ·)
        let head := (run.reverse.dropWhile (·.kind = .rParen)).reverse
        if quoteOpen head then unidentified
        else
          let text := Token.stringify head
          let name := nameOfHead text
          let offset := min (start + run.length + 1) ts.length
          let switches :=
            if name = "cmd".toList then (CmdArguments.ofTokens (ts.drop offset)).switches else []
          ⟨name, some offset, text, switches⟩

end Program

end BatchTrace
