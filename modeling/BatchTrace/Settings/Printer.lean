/-
Settings written out as a settings file.
-/
import BatchTrace.Settings.Basic
import BatchTrace.Toml.Printer

namespace BatchTrace

namespace Settings

/-- A truth value. -/
def printBool (b : Bool) : Text :=
  if b then "true".toList else "false".toList

/-- A line with a key and a value. -/
def printPair (key value : Text) : Text :=
  Toml.printKey key ++ " = ".toList ++ value ++ ['\n']

/-- A section: its header and the lines in it. -/
def printSection (header : String) (pairs : List (Text × Text)) : Text :=
  '[' :: (header.toList ++ "]\n".toList ++ pairs.flatMap fun (key, value) => printPair key value)

/-- The settings as a settings file. -/
def print (s : Settings) : Text :=
  let logFile := s.logFile.toList.map fun path => ("log_file".toList, Toml.printString path)
  let flags (pairs : List (String × Bool)) : List (Text × Text) :=
    pairs.map fun (key, b) => (key.toList, printBool b)
  List.intercalate ['\n']
    [printSection "settings"
        ([("max_depth".toList, Nat.toDigits 10 s.maxDepth)] ++
          flags
            [("delayed_expansion", s.delayedExpansion), ("enable_extensions", s.extensions)] ++
          [("log_level".toList, Toml.printString s.logLevel)] ++ logFile),
      printSection "filters"
        (flags
          [("strip_escapes", s.cleaning.escapes), ("strip_empty_strings", s.cleaning.emptyStrings),
            ("merge_contiguous_literals", s.cleaning.literals),
            ("merge_contiguous_strings", s.cleaning.joinStrings),
            ("widen_strings", s.cleaning.strings), ("strip_whitespace", s.cleaning.blanks),
            ("strip_commas", s.cleaning.commas)]),
      printSection "vars.defaults"
        (s.vars.map fun (name, value) => (name, Toml.printString value)),
      printSection "commands" [("passthrough".toList, Toml.printStrings s.passthrough)]]

end Settings

end BatchTrace
