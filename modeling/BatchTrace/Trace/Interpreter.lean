/-
The interpreter: which commands a line would run.

A line is expanded, read into tokens and cut into blocks, and each block is a
command for a handler.  `cmd` and `call` open a frame and run their arguments as a
line in it, one level deeper; `set` assigns a variable; any other command is only
recorded.  The levels left are the measure of the recursion: at none left the line
is not run but reported.
-/
import BatchTrace.Assignment
import BatchTrace.Block
import BatchTrace.Program
import BatchTrace.Reference.Expand
import BatchTrace.Token.Cleaning
import BatchTrace.Trace.Session

namespace BatchTrace

/-- What the interpreter does with a command. -/
inductive Handler where
  /-- Run the arguments in a new interpreter. -/
  | cmd
  /-- Assign a variable. -/
  | set
  /-- Run the arguments once more in the same interpreter. -/
  | call
  /-- Record the command. -/
  | generic
deriving DecidableEq, Repr

/-- What can be chosen about a run. -/
structure Options where
  cleaning : Cleaning := .standard
  /-- Does the outermost frame expand references with exclamation marks? -/
  delayedExpansion : Bool := false
  /-- Do replacements and slices count? -/
  extensions : Bool := true
  /-- The variables that are there from the start. -/
  vars : Variables := .standard
  /-- How many levels of lines may be nested. -/
  maxDepth : Nat := 32
  /-- The programs that are recorded only, whatever handler there is for them. -/
  passthrough : List Text := []
deriving DecidableEq, Repr

/-- Why there is no interpreter for some options. -/
inductive OptionsError where
  /-- No level at all is allowed. -/
  | zeroDepth
deriving DecidableEq, Repr

namespace OptionsError

/-- What is said about options that cannot be used. -/
def message : OptionsError → Text
  | zeroDepth => "invalid options: max_depth must be at least 1".toList

end OptionsError

/-- Options with the handlers for programs. -/
structure Interpreter where
  options : Options
  /-- The handlers by the name of the program, later ones first. -/
  handlers : List (Text × Handler)
  /-- The names that were not given a handler, in order. -/
  refused : List Text
deriving DecidableEq, Repr

namespace Interpreter

/-- The interpreter with a handler for a program, unless the program is to be recorded only. -/
def register (it : Interpreter) (name : Text) (handler : Handler) : Interpreter :=
  let name := Text.lower name
  if it.options.passthrough.contains name then { it with refused := it.refused ++ [name] }
  else { it with handlers := (name, handler) :: it.handlers }

/-- The interpreter with handlers for `cmd`, `set` and `call`. -/
def builtin (options : Options) : Interpreter :=
  let bare : Interpreter := ⟨options, [], []⟩
  ((bare.register "cmd".toList .cmd).register "set".toList .set).register "call".toList .call

/-- The interpreter for some options. -/
def new (options : Options) : Except OptionsError Interpreter :=
  if options.maxDepth = 0 then .error .zeroDepth else .ok (builtin options)

/-- The handler for a program. -/
def handler (it : Interpreter) (name : Text) : Handler :=
  (it.handlers.lookup name).getD .generic

/-- What is reported about putting the interpreter together. -/
def notices (it : Interpreter) : List Event :=
  it.refused.map .passthrough

end Interpreter

/-- A command ready to be handled. -/
structure Command where
  /-- Its cleaned tokens. -/
  tokens : List Token
  program : Program
  /-- Its cleaned text, never empty. -/
  text : Text

namespace Command

/-- The cleaned tokens of a block, and the program they name. -/
def identify (cleaning : Cleaning) (block : List Token) : List Token × Program :=
  let tokens := Block.peel (cleaning.apply block)
  (tokens, Program.identify tokens)

/-- The command of a block, unless cleaning leaves nothing of it. -/
def ofBlock? (cleaning : Cleaning) (block : List Token) : Option Command :=
  let (tokens, program) := identify cleaning block
  let text := Text.trim (Token.stringify tokens)
  if text.isEmpty then none else some ⟨tokens, program, text⟩

/-- The tokens after the program. -/
def arguments (c : Command) : List Token :=
  c.program.arguments c.tokens

/-- The text after the program. -/
def line (c : Command) : Text :=
  Text.trim (Token.stringify c.arguments)

/-- The arguments of `set`, with what stands after the word inside a quoted head. -/
def setArguments (c : Command) : Text :=
  let head := Text.trimStart (Program.unquoted c.program.head)
  let inHead :=
    match Text.splitFirst Text.isBlank head with
    | some (_, after) => Text.trim after
    | none => []
  if inHead.isEmpty then c.line
  else if c.line.isEmpty then inHead
  else inHead ++ ' ' :: c.line

end Command

namespace Interpreter

/-- The body of `cmd` as a line: without a quote at either end. -/
def bodyLine (body : Text) : Text :=
  Text.trim (Text.dropLastChar '"' (Text.dropFirstChar '"' body))

/-- Is a line just `cmd`, with nothing to run? -/
def isBareCmd (it : Interpreter) (line : Text) : Bool :=
  let (tokens, program) := Command.identify it.options.cleaning (Token.tokenize line)
  program.name = "cmd".toList && (program.arguments tokens).isEmpty

/-- How a handler runs a line one level deeper, in the frame with the given index. -/
abbrev Descend := Text → Nat → Session → Session

/-- `cmd` in frame `i`: its body runs in a new frame that reads what frame `i` has assigned. -/
def runCmd (it : Interpreter) (descend : Descend) (i : Nat) (c : Command) (s : Session) : Session :=
  let arguments := CmdArguments.ofTokens c.arguments
  let body := Text.trim arguments.body
  let child := s.frames.length
  let s := s.push (.forCmd (some (s.frame i)) arguments.switches)
  let s := s.record child "cmd".toList body arguments.switches c.text
  let line := bodyLine body
  if line.isEmpty then s
  else if it.isBareCmd line then s.note .bareCmd
  else descend line child s

/-- `call` in frame `i`: its arguments run in a new frame with the tables of frame `i` swapped. -/
def runCall (descend : Descend) (i : Nat) (c : Command) (s : Session) : Session :=
  let child := s.frames.length
  let s := s.push (.forCall (s.frame i))
  let s := s.record child "call".toList c.line [] c.text
  if c.line.isEmpty then s else descend c.line child s

/-- `set` in frame `i`. -/
def runSet (i : Nat) (c : Command) (s : Session) : Session :=
  let s :=
    match Assignment.parse? c.setArguments with
    | some (name, value) => s.assign i name value
    | none => s
  s.record i "set".toList c.setArguments [] c.text

/-- Any other command in frame `i`.  One without a program is recorded whole. -/
def runGeneric (i : Nat) (c : Command) (s : Session) : Session :=
  if c.program.isIdentified then s.record i c.program.name c.line [] c.text
  else s.record i [] c.text [] c.text

/-- A command in frame `i`. -/
def runCommand (it : Interpreter) (descend : Descend) (i : Nat) (c : Command) (s : Session) :
    Session :=
  match it.handler c.program.name with
  | .cmd => it.runCmd descend i c s
  | .set => runSet i c s
  | .call => runCall descend i c s
  | .generic => runGeneric i c s

/-- A block after delayed expansion, if frame `f` has it and the block has an exclamation mark. -/
def delayedBlock (it : Interpreter) (f : Frame) (block : List Token) : List Token :=
  let text := Token.stringify block
  if f.delayedExpansion && text.contains '!' then
    let table := it.options.vars.overlay f.delayedVariables
    Token.tokenize (Expansion.expand ⟨'!', f.extensions it.options.extensions⟩ table text)
  else block

/-- A block in frame `i`. -/
def runBlock (it : Interpreter) (descend : Descend) (i : Nat) (s : Session) (block : List Token) :
    Session :=
  match Command.ofBlock? it.options.cleaning (it.delayedBlock (s.frame i) block) with
  | some c => it.runCommand descend i c s
  | none => s

/-- The outermost frame as it is opened. -/
def rootFrame (options : Options) : Frame :=
  let switches : Switches := []
  let switches :=
    if options.delayedExpansion then Switches.insert .delayedExpansion (.flag true) switches
    else switches
  let switches :=
    if options.extensions then switches
    else Switches.insert .cmdExtensions (.flag false) switches
  .forCmd none switches

/-- The session with an outermost frame. -/
def withRoot (it : Interpreter) (s : Session) : Session :=
  if s.frames.isEmpty then s.push (rootFrame it.options) else s

/-- A line with its references expanded as the given frame reads them; without one, as the
outermost frame does if it is there. -/
def expandLine (it : Interpreter) (s : Session) (frame : Option Nat) (text : Text) : Text :=
  let scope := frame.or (if s.frames.isEmpty then none else some 0)
  match scope with
  | some i =>
      Expansion.expand ⟨'%', (s.frame i).extensions it.options.extensions⟩
        (it.options.vars.overlay (s.frame i).readable) text
  | none => Expansion.expand ⟨'%', it.options.extensions⟩ it.options.vars text

/-- A line in a frame, or in the outermost one, with some levels left.  The outermost frame is
opened by the first block that needs it. -/
def runLine (it : Interpreter) : Nat → Text → Option Nat → Session → Session
  | 0, text, _, s => s.cutOff it.options.maxDepth text
  | left + 1, text, frame, s =>
      let descend : Descend := fun line child s => runLine it left line (some child) s
      (Block.ofTokens (Token.tokenize (it.expandLine s frame text))).foldl
        (fun s block =>
          match frame with
          | some i => it.runBlock descend i s block
          | none => it.runBlock descend 0 (it.withRoot s) block)
        s

/-- The session after running a line from the start. -/
def run (it : Interpreter) (text : Text) : Session :=
  it.runLine it.options.maxDepth text none .empty

/-- What a line would run. -/
def interpret (it : Interpreter) (text : Text) : Interpretation :=
  (it.run text).finish

end Interpreter

/-- What a line would run with some options. -/
def interpret (options : Options) (text : Text) : Except OptionsError Interpretation :=
  (Interpreter.new options).map fun it => it.interpret text

end BatchTrace
