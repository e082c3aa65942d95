/-
The log: what can be reported about a run, how it reads, and how important it is.
-/
import BatchTrace.Text.Basic
import BatchTrace.Text.Lower

namespace BatchTrace

/-- How much is logged, from nothing to everything. -/
inductive LogLevel where
  | off
  | error
  | warn
  | info
  | debug
  | trace
deriving DecidableEq, Repr

namespace LogLevel

/-- The levels from the least talkative on. -/
def all : List LogLevel :=
  [off, error, warn, info, debug, trace]

/-- The place of a level among all levels. -/
def rank : LogLevel → Nat
  | off => 0
  | error => 1
  | warn => 2
  | info => 3
  | debug => 4
  | trace => 5

/-- The name of a level. -/
def name : LogLevel → String
  | off => "OFF"
  | error => "ERROR"
  | warn => "WARN"
  | info => "INFO"
  | debug => "DEBUG"
  | trace => "TRACE"

/-- The level with a given name, in capital or small letters. -/
def ofName? (t : Text) : Option LogLevel :=
  all.find? fun level => Text.sameAscii t level.name.toList

/-- The more talkative of two levels. -/
def max (a b : LogLevel) : LogLevel :=
  if a.rank < b.rank then b else a

end LogLevel

/-- Something to report. -/
inductive Event where
  /-- A frame was opened. -/
  | entered (frame : Nat)
  /-- A command ran. -/
  | ran (frame : Nat) (name line : Text)
  /-- A variable was assigned. -/
  | assigned (frame : Nat) (name value : Text)
  /-- A `cmd` without a command of its own was not followed. -/
  | bareCmd
  /-- A line was not run because of the depth limit. -/
  | cutOff (limit : Nat) (line : Text)
  /-- A handler was not registered. -/
  | passthrough (name : Text)
  /-- A line has been interpreted. -/
  | summary (input : Text) (frames errors : Nat) (commands : List Text)
deriving DecidableEq, Repr

namespace Event

/-- How important an event is. -/
def level : Event → LogLevel
  | cutOff .. => .warn
  | summary .. => .info
  | _ => .debug

/-- The longest part of an input that a summary shows. -/
def inputLimit : Nat := 200

/-- A number as digits. -/
def digits (n : Nat) : Text :=
  Nat.toDigits 10 n

/-- What an event says. -/
def message : Event → Text
  | entered frame => "entered frame ".toList ++ digits frame
  | ran frame name line =>
      "frame ".toList ++ digits frame ++ ": ".toList ++ name ++ " ".toList ++ line
  | assigned frame name value =>
      "set ".toList ++ name ++ "=".toList ++ value ++ " in frame ".toList ++ digits frame
  | bareCmd => "cmd spawning a bare cmd, not recursing".toList
  | cutOff limit line =>
      "depth limit ".toList ++ digits limit ++ " reached, not interpreting: ".toList ++ line
  | passthrough name => name ++ " is passthrough, not registering a handler".toList
  | summary input frames errors commands =>
      "frames=".toList ++ digits frames ++ " commands=".toList ++ digits commands.length ++
        " errors=".toList ++ digits errors ++ "\t".toList ++ input.take inputLimit ++
        "\t=> ".toList ++ List.intercalate " ; ".toList commands

/-- Is the event reported at this level? -/
def isShown (threshold : LogLevel) (e : Event) : Bool :=
  e.level.rank ≤ threshold.rank

/-- An event with its level in front. -/
def line (e : Event) : Text :=
  "[".toList ++ e.level.name.toList ++ "] ".toList ++ e.message

end Event

end BatchTrace
