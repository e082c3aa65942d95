/-
A user's settings file and how it changes the standard settings.

The file is a TOML document with a section for each group of settings.  A single
setting replaces the standard one.  Variables and programs are added to the
standard ones after those to be removed are gone, or replace them all.  Sections
and settings that are not known are passed over, but a known setting must be of its
type.
-/
import BatchTrace.Settings.Basic
import BatchTrace.Toml.Reader

namespace BatchTrace

/-- What a settings file says. -/
structure Overlay where
  maxDepth : Option Nat
  delayedExpansion : Option Bool
  extensions : Option Bool
  logLevel : Option Text
  logFile : Option Text
  escapes : Option Bool
  emptyStrings : Option Bool
  literals : Option Bool
  joinStrings : Option Bool
  strings : Option Bool
  blanks : Option Bool
  commas : Option Bool
  /-- Are the variables all there are? -/
  replaceVariables : Bool
  vars : List (Text × Text)
  /-- The names of the variables to be removed. -/
  removedVariables : List Text
  /-- Are the programs all that are recorded only? -/
  replacePassthrough : Bool
  passthrough : List Text
  /-- The programs that are no longer recorded only. -/
  removedPassthrough : List Text

namespace Overlay

open Toml (Value)

/-! ### Reading values of a type -/

/-- A count. -/
def count? : Value → Option Nat
  | .integer n => if 0 ≤ n then some n.toNat else none
  | _ => none

/-- A truth value. -/
def bool? : Value → Option Bool
  | .boolean b => some b
  | _ => none

/-- A text. -/
def text? : Value → Option Text
  | .string t => some t
  | _ => none

/-- A list of texts. -/
def texts? : Value → Option (List Text)
  | .array vs => vs.mapM text?
  | _ => none

/-- The entries of a value that can be read as a table: a table's own, and for a date-time its text
under a reserved key. -/
def entries? : Value → Option (List (Text × Value))
  | .table entries => some entries
  | .dateTime t => some [("$__toml_private_datetime".toList, .string t)]
  | _ => none

/-- A table of texts. -/
def textTable? (v : Value) : Option (List (Text × Text)) :=
  match entries? v with
  | some entries => entries.mapM fun (key, v) => (text? v).map fun t => (key, t)
  | none => none

/-! ### Reading sections -/

/-- The values that a section gives to its settings, in the order of their names.  A section is a
table, or a list of all its values in order; a list that `mayEnd` early leaves out the last ones. -/
def sectionValues? (names : List String) (mayEnd : Bool) : Option Value → Option (List (Option Value))
  | none => some (names.map fun _ => none)
  | some (.array vs) =>
      if vs.length < names.length && !mayEnd then none
      else some ((List.range names.length).map fun i => vs[i]?)
  | some v => (entries? v).map fun entries => names.map fun name => entries.lookup name.toList

/-- A setting that need not be there. -/
def optional {α : Type} (read : Value → Option α) : Option Value → Option (Option α)
  | none => some none
  | some v => (read v).map some

/-- A setting with a value to take if it is not there. -/
def orElse {α : Type} (otherwise : α) (read : Value → Option α) : Option Value → Option α
  | none => some otherwise
  | some v => read v

/-- What a settings file with these entries says; nothing if a setting is not of its type. -/
def ofEntries? (entries : List (Text × Value)) : Option Overlay := do
  let settings ← sectionValues?
    ["max_depth", "delayed_expansion", "enable_extensions", "log_level", "log_file"] false
    (entries.lookup "settings".toList)
  let filters ← sectionValues?
    ["strip_escapes", "strip_empty_strings", "merge_contiguous_literals",
      "merge_contiguous_strings", "widen_strings", "strip_whitespace", "strip_commas"] false
    (entries.lookup "filters".toList)
  let vars ← sectionValues? ["replace", "defaults", "remove"] true (entries.lookup "vars".toList)
  let commands ← sectionValues? ["replace", "passthrough", "remove_passthrough"] true
    (entries.lookup "commands".toList)
  let setting (i : Nat) : Option Value := (settings[i]?).join
  let filter (i : Nat) : Option (Option Bool) := optional bool? (filters[i]?).join
  let var (i : Nat) : Option Value := (vars[i]?).join
  let command (i : Nat) : Option Value := (commands[i]?).join
  return {
    maxDepth := ← optional count? (setting 0)
    delayedExpansion := ← optional bool? (setting 1)
    extensions := ← optional bool? (setting 2)
    logLevel := ← optional text? (setting 3)
    logFile := ← optional text? (setting 4)
    escapes := ← filter 0
    emptyStrings := ← filter 1
    literals := ← filter 2
    joinStrings := ← filter 3
    strings := ← filter 4
    blanks := ← filter 5
    commas := ← filter 6
    replaceVariables := ← orElse false bool? (var 0)
    vars := ← orElse [] textTable? (var 1)
    removedVariables := ← orElse [] texts? (var 2)
    replacePassthrough := ← orElse false bool? (command 0)
    passthrough := ← orElse [] texts? (command 1)
    removedPassthrough := ← orElse [] texts? (command 2) }

/-- What a settings file says; nothing if it is no document or a setting is not of its type. -/
def parse? (t : Text) : Option Overlay :=
  (Toml.parse? t).bind ofEntries?

/-! ### Merging -/

/-- A table with a value assigned to a name, ASCII case being ignored: a name that is there keeps its
place and spelling. -/
def assign (name value : Text) : List (Text × Text) → List (Text × Text)
  | [] => [(name, value)]
  | (n, v) :: rest =>
      if Text.sameAscii n name then (n, value) :: rest else (n, v) :: assign name value rest

/-- A table of variables after a user's changes. -/
def mergeVariables (base added : List (Text × Text)) (removed : List Text) (replace : Bool) :
    List (Text × Text) :=
  if replace then added
  else
    added.foldl (fun table (name, value) => assign name value table)
      (base.filter fun (name, _) => !removed.any (Text.sameAscii · name))

/-- A list of names after a user's changes. -/
def mergeNames (base added removed : List Text) (replace : Bool) : List Text :=
  if replace then added
  else
    added.foldl (fun names name => if names.contains name then names else names ++ [name])
      (base.filter fun name => !removed.contains name)

/-- The settings after a user's changes. -/
def apply (o : Overlay) (s : Settings) : Settings where
  maxDepth := o.maxDepth.getD s.maxDepth
  delayedExpansion := o.delayedExpansion.getD s.delayedExpansion
  extensions := o.extensions.getD s.extensions
  logLevel := o.logLevel.getD s.logLevel
  logFile := o.logFile.or s.logFile
  cleaning := {
    escapes := o.escapes.getD s.cleaning.escapes
    emptyStrings := o.emptyStrings.getD s.cleaning.emptyStrings
    literals := o.literals.getD s.cleaning.literals
    joinStrings := o.joinStrings.getD s.cleaning.joinStrings
    strings := o.strings.getD s.cleaning.strings
    blanks := o.blanks.getD s.cleaning.blanks
    commas := o.commas.getD s.cleaning.commas }
  vars := mergeVariables s.vars o.vars o.removedVariables o.replaceVariables
  passthrough := mergeNames s.passthrough o.passthrough o.removedPassthrough o.replacePassthrough

end Overlay

/-- Why a settings file cannot be used. -/
inductive SettingsError where
  /-- It cannot be read. -/
  | unreadable (reason : Text)
  /-- It is no TOML document, or a setting is not of its type. -/
  | malformed
deriving DecidableEq, Repr

namespace SettingsError

/-- The bytes are not UTF-8. -/
def notText : SettingsError :=
  unreadable "stream did not contain valid UTF-8".toList

/-- What is said about a settings file that cannot be used. -/
def message (path : Text) : SettingsError → Text
  | unreadable reason => "cannot read ".toList ++ path ++ ": ".toList ++ reason
  | malformed => "config parse error in ".toList ++ path ++ ": not a settings document".toList

end SettingsError

/-- The standard settings changed by a user's file, of which the bytes are given. -/
def Settings.load (file : ByteArray) : Except SettingsError Settings :=
  match String.fromUTF8? file with
  | none => .error .notText
  | some content =>
      match Overlay.parse? content.toList with
      | none => .error .malformed
      | some overlay => .ok (overlay.apply .standard)

end BatchTrace
