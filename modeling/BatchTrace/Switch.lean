/-
The switches of `cmd`.

A switch is a slash and a letter, with an optional argument after a colon; several
may stand in one word.  The letters that `cmd` knows have a name, any other switch
is named by its letter.  A table of switches is kept sorted by name, and a later
switch replaces an earlier one of the same name.

`/c` and `/k` also take what is glued to them as the start of the body that they
run, so reading the switches of an argument list gives the switches and the body.
-/
import BatchTrace.Text.Lower
import BatchTrace.Token.Basic

namespace BatchTrace

/-- What a switch of `cmd` controls. -/
inductive Switch where
  /-- `/c` -/
  | runThenTerminate
  /-- `/k` -/
  | runThenContinue
  /-- `/v` -/
  | delayedExpansion
  /-- `/e` -/
  | cmdExtensions
  /-- `/f` -/
  | pathAutocomplete
  /-- `/q` -/
  | echoOff
  /-- `/d` -/
  | ignoreAutorun
  /-- `/s` -/
  | stripQuotes
  /-- Any other, by its name. -/
  | other (name : Text)
deriving DecidableEq, Repr

/-- The value of a switch: on or off, or the argument of a switch that `cmd` does not know. -/
inductive SwitchValue where
  | flag (on : Bool)
  | text (argument : Text)
deriving DecidableEq, Repr

namespace Switch

/-- The name a switch is printed with. -/
def name : Switch → Text
  | runThenTerminate => "run_then_terminate".toList
  | runThenContinue => "run_then_continue".toList
  | delayedExpansion => "delayed_expansion".toList
  | cmdExtensions => "cmd_extensions".toList
  | pathAutocomplete => "path_autocomplete".toList
  | echoOff => "echo_off".toList
  | ignoreAutorun => "ignore_autorun".toList
  | stripQuotes => "strip_quotes".toList
  | other name => name

/-- The switches that `cmd` knows. -/
def known : List Switch :=
  [runThenTerminate, runThenContinue, delayedExpansion, cmdExtensions, pathAutocomplete, echoOff,
    ignoreAutorun, stripQuotes]

/-- The switch with a given name. -/
def ofName (name : Text) : Switch :=
  (known.find? (·.name = name)).getD (other name)

/-- The switch with a given small letter. -/
def ofLetter : Char → Switch
  | 'c' => runThenTerminate
  | 'k' => runThenContinue
  | 'v' => delayedExpansion
  | 'e' => cmdExtensions
  | 'f' => pathAutocomplete
  | 'q' => echoOff
  | 'd' => ignoreAutorun
  | 's' => stripQuotes
  | c => other [c]

/-- Can the switch be turned off by its argument? -/
def takesOnOff : Switch → Bool
  | delayedExpansion | cmdExtensions | pathAutocomplete => true
  | _ => false

/-- The value that a switch has when it is written with this argument. -/
def valueOf (s : Switch) : Option Text → SwitchValue
  | none => .flag true
  | some argument =>
      match s with
      | other _ => .text argument
      | s => .flag (!(s.takesOnOff && Text.sameAscii argument "off".toList))

end Switch

/-- Switches and their values, sorted by name. -/
abbrev Switches := List (Switch × SwitchValue)

namespace Switches

/-- The value of a switch. -/
def get? (table : Switches) (s : Switch) : Option SwitchValue :=
  List.lookup s table

/-- The table with a switch added or replaced. -/
def insert (s : Switch) (v : SwitchValue) : Switches → Switches
  | [] => [(s, v)]
  | (s', v') :: rest =>
      if s = s' then (s, v) :: rest
      else if s.name < s'.name then (s, v) :: (s', v') :: rest
      else (s', v') :: insert s v rest

/-- The value of a switch that is on or off. -/
def flag? (table : Switches) (s : Switch) : Option Bool :=
  match get? table s with
  | some (.flag on) => some on
  | _ => none

end Switches

/-- A switch as it is written: its letter in lower case and its argument. -/
structure WrittenSwitch where
  letter : Char
  argument : Option Text
deriving DecidableEq, Repr

namespace WrittenSwitch

/-- The table with a written switch entered. -/
def enter (table : Switches) (w : WrittenSwitch) : Switches :=
  let s := Switch.ofLetter w.letter
  Switches.insert s (s.valueOf w.argument) table

/-- The switches of a word, and what is glued to a final `/c` or `/k`.  There are none if anything
in the word is not a switch. -/
def readWord? : Text → Option (List WrittenSwitch × Text)
  | '/' :: letter :: tail =>
      let letter := letter.toLower
      match tail with
      | [] => some ([⟨letter, none⟩], [])
      | ':' :: value =>
          let here : WrittenSwitch := ⟨letter, some (value.takeWhile (· ≠ '/'))⟩
          match _h : value.dropWhile (· ≠ '/') with
          | [] => some ([here], [])
          | c :: more => (readWord? (c :: more)).map fun (ws, glued) => (here :: ws, glued)
      | '/' :: more => (readWord? ('/' :: more)).map fun (ws, glued) => (⟨letter, none⟩ :: ws, glued)
      | glued => if letter = 'c' ∨ letter = 'k' then some ([⟨letter, none⟩], glued) else none
  | _ => none
termination_by t => t.length
decreasing_by
  · have : (value.dropWhile (· ≠ '/')).length ≤ value.length := (List.dropWhile_suffix _).length_le
    rw [_h] at this
    simp only [List.length_cons] at this ⊢
    omega
  · simp

end WrittenSwitch

/-- The arguments of `cmd`: its switches, and the text they leave. -/
structure CmdArguments where
  switches : Switches
  body : Text
deriving DecidableEq, Repr

namespace CmdArguments

/-- `ofTokens` after the switches in `table`. -/
def ofTokensFrom (table : Switches) : List Token → CmdArguments
  | [] => ⟨table, []⟩
  | t :: rest =>
      match t.kind with
      | .delimiter => ofTokensFrom table rest
      | .literal =>
          match WrittenSwitch.readWord? t.text with
          | some (ws, []) => ofTokensFrom (ws.foldl WrittenSwitch.enter table) rest
          | some (ws, glued) =>
              ⟨ws.foldl WrittenSwitch.enter table, glued ++ Token.stringify rest⟩
          | none => ⟨table, Token.stringify (t :: rest)⟩
      | _ => ⟨table, Token.stringify (t :: rest)⟩

/-- The switches at the start of an argument list, separators between them passed over, and the
text from the first token on that is none. -/
def ofTokens (ts : List Token) : CmdArguments :=
  ofTokensFrom [] ts

end CmdArguments

end BatchTrace
