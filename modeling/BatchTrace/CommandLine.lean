/-
The command line of the program.

A run is a function of the arguments and of what is around the program: its
settings file, its standard input and whether its log can be kept.  The result says
what is printed, what is logged and how the program exits.
-/
import BatchTrace.Json
import BatchTrace.Settings.Overlay
import BatchTrace.Settings.Printer

namespace BatchTrace

namespace CommandLine

/-- How the program is used. -/
def usage : String :=
  "usage: cmd-deob [OPTIONS] [COMMAND...]

Reads COMMAND from the arguments, or one command per line from stdin.

options:
  --json               print the full interpretation as JSON
  --tokens             print the filtered token stream as JSON
  --dump-config        print the merged configuration and exit
  --delayed-expansion  enable !var! expansion at the top level (cmd /V)
  -v, -vv              more logging on stderr
  -h, --help           show this help"

/-- The name under which the program reports errors. -/
def programName : String :=
  "cmd-deob"

/-- Where the settings file is, below the home directory. -/
def settingsPath : String :=
  ".config/cmd-deob/config.toml"

/-! ### Arguments -/

/-- What the arguments ask for. -/
structure Arguments where
  json : Bool := false
  tokens : Bool := false
  dumpSettings : Bool := false
  delayedExpansion : Bool := false
  /-- How often more logging was asked for, modulo 256. -/
  verbosity : UInt8 := 0
  /-- The words of the command. -/
  command : List Text := []
deriving DecidableEq, Repr

namespace Arguments

/-- The arguments after those in `a`; none if they ask for help. -/
def parseFrom? (a : Arguments) : List String → Option Arguments
  | [] => some a
  | "--json" :: rest => parseFrom? { a with json := true } rest
  | "--tokens" :: rest => parseFrom? { a with tokens := true } rest
  | "--dump-config" :: rest => parseFrom? { a with dumpSettings := true } rest
  | "--delayed-expansion" :: rest => parseFrom? { a with delayedExpansion := true } rest
  | "-v" :: rest => parseFrom? { a with verbosity := a.verbosity + 1 } rest
  | "-vv" :: rest => parseFrom? { a with verbosity := a.verbosity + 2 } rest
  | "-h" :: _ => none
  | "--help" :: _ => none
  | "--" :: rest => some { a with command := a.command ++ rest.map String.toList }
  | word :: rest => parseFrom? { a with command := a.command ++ [word.toList] } rest

/-- What some arguments ask for; none if they ask for help. -/
def parse? (words : List String) : Option Arguments :=
  parseFrom? {} words

/-- How much is logged. -/
def level (a : Arguments) (s : Settings) : LogLevel :=
  match a.verbosity with
  | 0 => s.level
  | 1 => LogLevel.max .info s.level
  | _ => .trace

end Arguments

/-! ### Surroundings -/

/-- What is around the program. -/
structure Environment where
  /-- The home directory. -/
  home : Option Text
  /-- The settings file, if there is one, or why it cannot be read. -/
  settingsFile : Option (Except Text ByteArray)
  /-- The standard input. -/
  input : ByteArray

/-- A path below a directory. -/
def joinPath (directory path : Text) : Text :=
  if directory.isEmpty || directory.getLast? = some '/' then directory ++ path
  else directory ++ '/' :: path

/-- A path with the home directory for a tilde at its start. -/
def expandHome (home : Option Text) (path : Text) : Text :=
  match home, path with
  | some home, '~' :: rest =>
      if rest.isEmpty || rest.head? = some '/' then home ++ rest else path
  | _, path => path

/-- The settings in force, and what there is to say about the settings file. -/
def loadSettings (env : Environment) : Settings × List Text :=
  match env.home, env.settingsFile with
  | some home, some file =>
      match (file.mapError SettingsError.unreadable).bind Settings.load with
      | .ok s => (s, [])
      | .error e =>
          let path := joinPath home settingsPath.toList
          (.standard, [e.message path ++ "; using defaults".toList])
  | _, _ => (.standard, [])

/-- The file that a run with these arguments would keep its log in. -/
def logPath? (env : Environment) (words : List String) : Option Text :=
  match Arguments.parse? words with
  | none => none
  | some a =>
      if a.dumpSettings then none
      else (loadSettings env).1.logFile.map (expandHome env.home)

/-- Does a run with these arguments read the standard input? -/
def readsInput (words : List String) : Bool :=
  match Arguments.parse? words with
  | none => false
  | some a => !a.dumpSettings && a.command.isEmpty

/-! ### Input -/

/-- A line of the input without its line end; none if it is not UTF-8. -/
def decodeLine (ended : Bool) (bytes : List UInt8) : Option Text :=
  (String.fromUTF8? ⟨bytes.toArray⟩).map fun s =>
    if ended then Text.dropLastChar '\r' s.toList else s.toList

/-- The lines of the input.  Only what follows the last line feed has no line end. -/
def inputLines (input : ByteArray) : List (Option Text) :=
  let pieces := input.data.toList.splitOnP (· = 10)
  let last := pieces.getLast?.getD []
  pieces.dropLast.map (decodeLine true) ++
    if last.isEmpty then [] else [decodeLine false last]

/-! ### Output -/

/-- What a run does. -/
structure Outcome where
  /-- What is printed. -/
  output : Text := []
  /-- The error messages. -/
  errors : List Text := []
  exitCode : Nat := 0
  /-- What is logged. -/
  events : List Event := []

/-- What has been done after two runs in a row, apart from the exit. -/
def Outcome.followedBy (first second : Outcome) : Outcome where
  output := first.output ++ second.output
  errors := first.errors ++ second.errors
  exitCode := max first.exitCode second.exitCode
  events := first.events ++ second.events

/-- A printed line. -/
def printed (t : Text) : Text :=
  t ++ ['\n']

/-- One command line. -/
def runInput (it : Interpreter) (a : Arguments) (input : Text) : Outcome :=
  if a.tokens then
    { output := printed (Json.compact (.array ((Token.tokenizeClean input).map Json.ofToken))) }
  else
    let session := it.run input
    let result := session.finish
    let report : Outcome :=
      { events := session.events ++ [result.summary input]
        exitCode := if result.isComplete then 0 else 1 }
    if a.json then
      { report with output := printed (Json.pretty 0 (Json.ofInterpretation result)) }
    else
      { report with
        output := result.commands.flatMap printed
        errors := result.cutOffs.map CutOff.message }

/-- The command lines of the input, up to the first line that is no text. -/
def runLines (it : Interpreter) (a : Arguments) : List (Option Text) → Outcome
  | [] => {}
  | none :: _ =>
      { errors := ["failed to read stdin: stream did not contain valid UTF-8".toList]
        exitCode := 1 }
  | some line :: rest =>
      if (Text.trim line).isEmpty then runLines it a rest
      else (runInput it a line).followedBy (runLines it a rest)

/-- A run that interprets command lines. -/
def interpretInputs (env : Environment) (a : Arguments) (s : Settings) : Outcome :=
  let options := s.options
  let options :=
    { options with delayedExpansion := options.delayedExpansion || a.delayedExpansion }
  match Interpreter.new options with
  | .error e => { errors := [e.message], exitCode := 2 }
  | .ok it =>
      let start : Outcome := { events := it.notices }
      start.followedBy
        (if a.command.isEmpty then runLines it a (inputLines env.input)
        else runInput it a (List.intercalate [' '] a.command))

/-- What a run with these arguments does, `logProblem` being why its log cannot be kept. -/
def run (env : Environment) (words : List String) (logProblem : Option Text) : Outcome :=
  match Arguments.parse? words with
  | none => { output := printed usage.toList }
  | some a =>
      let (settings, complaints) := loadSettings env
      let start : Outcome := { errors := complaints }
      if a.dumpSettings then { start with output := settings.print }
      else
        let logErrors :=
          match settings.logFile, logProblem with
          | some path, some problem =>
              ["cannot open log file ".toList ++ expandHome env.home path ++ ": ".toList ++ problem]
          | _, _ => []
        let outcome := start.followedBy
          ({ errors := logErrors : Outcome }.followedBy (interpretInputs env a settings))
        { outcome with events := outcome.events.filter (·.isShown (a.level settings)) }

/-- The error messages as they are printed. -/
def Outcome.errorOutput (o : Outcome) : Text :=
  o.errors.flatMap fun e => printed (programName.toList ++ ": ".toList ++ e)

end CommandLine

end BatchTrace
