/-
Settings: what a user can choose once and for all.
-/
import BatchTrace.Trace.Interpreter

namespace BatchTrace

/-- The settings in force. -/
structure Settings where
  /-- How many levels of lines may be nested. -/
  maxDepth : Nat
  /-- Does the outermost frame expand references with exclamation marks? -/
  delayedExpansion : Bool
  /-- Do replacements and slices count? -/
  extensions : Bool
  /-- The name of the log level. -/
  logLevel : Text
  /-- Where the log is kept besides. -/
  logFile : Option Text
  cleaning : Cleaning
  /-- The variables that are there from the start, as they were declared. -/
  vars : List (Text × Text)
  /-- The programs that are recorded only. -/
  passthrough : List Text
deriving DecidableEq, Repr

namespace Settings

/-- The settings of a user who has chosen nothing. -/
def standard : Settings where
  maxDepth := 32
  delayedExpansion := false
  extensions := true
  logLevel := "warn".toList
  logFile := none
  cleaning := .standard
  vars := Variables.standard.toList
  passthrough := []

/-- The log level: warnings if its name is none that is known. -/
def level (s : Settings) : LogLevel :=
  (LogLevel.ofName? s.logLevel).getD .warn

/-- The names of the programs that are recorded only: in lower case, each of them once, sorted. -/
def passthroughNames (s : Settings) : List Text :=
  (s.passthrough.map Text.lower).eraseDups.mergeSort fun a b => !(b < a)

/-- The options of an interpreter with these settings. -/
def options (s : Settings) : Options where
  cleaning := s.cleaning
  delayedExpansion := s.delayedExpansion
  extensions := s.extensions
  vars := Variables.ofList s.vars
  maxDepth := s.maxDepth
  passthrough := s.passthroughNames

end Settings

end BatchTrace
