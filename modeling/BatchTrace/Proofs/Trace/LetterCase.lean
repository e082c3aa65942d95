/-
Interpretation does not depend on the case of letters.

A session in lower case has the texts of its frames, cut-off lines and events in
lower case, while the names of programs, which are in lower case already, and all
numbers stay.  Each act of the interpreter commutes with this, and so does a whole
run: running the lower-case line with lower-case variables gives the session in
lower case.

Two lines that differ only in the case of letters have one lower-case form, so the
two sessions have one lower-case form too, and whatever that form shows agrees.
-/
import BatchTrace.Proofs.Program.LetterCase
import BatchTrace.Proofs.Reference.LetterCase
import BatchTrace.Proofs.Trace.Moves
import Mathlib.Data.List.Forall2

namespace BatchTrace

open Text

/-! ### Frames -/

/-- The record in lower case. -/
def Record.lowered (r : Record) : Record :=
  { r with line := asciiLower r.line, options := r.options.lowered, text := asciiLower r.text }

namespace Frame

/-- The frame in lower case. -/
def lowered (f : Frame) : Frame :=
  ⟨f.readable.lowered, f.assigned.lowered, f.options.lowered, f.commands.map Record.lowered⟩

theorem forCmd_lowered (parent : Option Frame) (options : Switches) :
    forCmd (parent.map lowered) options.lowered = (forCmd parent options).lowered := by
  cases parent <;> rfl

theorem forCall_lowered (parent : Frame) : forCall parent.lowered = (forCall parent).lowered := rfl

theorem delayedExpansion_lowered (f : Frame) : f.lowered.delayedExpansion = f.delayedExpansion := by
  rw [delayedExpansion, delayedExpansion, lowered, Switches.flag?_lowered]

theorem extensions_lowered (f : Frame) (otherwise : Bool) :
    f.lowered.extensions otherwise = f.extensions otherwise := by
  rw [extensions, extensions, lowered, Switches.flag?_lowered]

theorem delayedVariables_lowered (f : Frame) :
    f.lowered.delayedVariables = f.delayedVariables.lowered :=
  Variables.overlay_lowered f.readable f.assigned

end Frame

/-! ### Sessions -/

/-- The cut-off line in lower case. -/
def CutOff.lowered (c : CutOff) : CutOff :=
  ⟨c.limit, asciiLower c.line⟩

/-- The event in lower case. -/
def Event.lowered : Event → Event
  | ran frame name line => ran frame name (asciiLower line)
  | assigned frame name value => assigned frame (asciiLower name) (asciiLower value)
  | cutOff limit line => cutOff limit (asciiLower line)
  | e => e

namespace Session

/-- The session in lower case. -/
def lowered (s : Session) : Session :=
  ⟨s.frames.map Frame.lowered, s.cutOffs.map CutOff.lowered, s.seq, s.events.map Event.lowered⟩

theorem modify_map {α : Type} {g f f' : α → α} (hf : ∀ a, f' (g a) = g (f a)) (l : List α)
    (i : Nat) : (l.map g).modify i f' = (l.modify i f).map g := by
  refine List.ext_getElem? fun j => ?_
  simp only [List.getElem?_modify, List.getElem?_map]
  cases l[j]? with
  | none => rfl
  | some a =>
    by_cases hij : i = j
    · simp [hij, hf]
    · simp [hij]

section

variable (s : Session) (i : Nat)

@[simp] theorem length_frames_lowered : s.lowered.frames.length = s.frames.length :=
  List.length_map _

theorem frame_lowered : s.lowered.frame i = (s.frame i).lowered := by
  rw [frame, frame, lowered, List.getElem?_map]
  cases s.frames[i]? <;> rfl

theorem note_lowered (e : Event) : s.lowered.note e.lowered = (s.note e).lowered := by
  simp [note, lowered]

theorem push_lowered (f : Frame) : s.lowered.push f.lowered = (s.push f).lowered := by
  simp [push, note, lowered, Event.lowered]

theorem record_lowered (name line : Text) (options : Switches) (text : Text) :
    s.lowered.record i name (asciiLower line) options.lowered (asciiLower text) =
      (s.record i name line options text).lowered := by
  have hframes : (s.frames.map Frame.lowered).modify i (fun f =>
      { f with commands := f.commands ++
          [⟨name, asciiLower line, options.lowered, asciiLower text, s.seq⟩] }) =
      (s.frames.modify i fun f =>
        { f with commands := f.commands ++ [⟨name, line, options, text, s.seq⟩] }).map
          Frame.lowered :=
    modify_map (fun f => by simp [Frame.lowered, Record.lowered]) s.frames i
  simp only [record, note, lowered, hframes, List.map_append]
  rfl

theorem assign_lowered (name value : Text) :
    s.lowered.assign i (asciiLower name) (asciiLower value) = (s.assign i name value).lowered := by
  have hframes : (s.frames.map Frame.lowered).modify i (fun f =>
      { f with assigned := f.assigned.set (asciiLower name) (asciiLower value) }) =
      (s.frames.modify i fun f =>
        { f with assigned := f.assigned.set name value }).map Frame.lowered :=
    modify_map (fun f => by simp [Frame.lowered, Variables.set_lowered]) s.frames i
  simp only [assign, note, lowered, hframes, List.map_append]
  rfl

theorem cutOff_lowered (limit : Nat) (line : Text) :
    s.lowered.cutOff limit (asciiLower line) = (s.cutOff limit line).lowered := by
  simp [cutOff, note, lowered, Event.lowered, CutOff.lowered]

end

end Session

/-! ### Commands -/

namespace Command

/-- The command in lower case. -/
def lowered (c : Command) : Command :=
  ⟨c.tokens.map Token.lowered, c.program.lowered, asciiLower c.text⟩

theorem identify_lowered (cleaning : Cleaning) (block : List Token) :
    identify cleaning (block.map Token.lowered) =
      Prod.map (List.map Token.lowered) Program.lowered (identify cleaning block) := by
  simp only [identify, Cleaning.apply_lowered, Block.peel_lowered, Program.identify_lowered]
  rfl

theorem ofBlock?_lowered (cleaning : Cleaning) (block : List Token) :
    ofBlock? cleaning (block.map Token.lowered) = (ofBlock? cleaning block).map lowered := by
  simp only [ofBlock?, identify_lowered, Prod.map_fst, Prod.map_snd, Token.stringify_lowered,
    trim_asciiLower, isEmpty_asciiLower]
  split <;> rfl

variable (c : Command)

theorem arguments_lowered : c.lowered.arguments = c.arguments.map Token.lowered :=
  Program.arguments_lowered c.program c.tokens

theorem line_lowered : c.lowered.line = asciiLower c.line := by
  rw [line, line, arguments_lowered, Token.stringify_lowered, trim_asciiLower]

theorem body_lowered : c.lowered.body = asciiLower c.body := by
  rw [body, body, arguments_lowered, CmdArguments.ofTokens_lowered]
  exact trim_asciiLower _

theorem setArguments_lowered : c.lowered.setArguments = asciiLower c.setArguments := by
  have hhead : trimStart (Program.unquoted c.lowered.program.head) =
      asciiLower (trimStart (Program.unquoted c.program.head)) := by
    show trimStart (Program.unquoted (asciiLower c.program.head)) = _
    rw [Program.unquoted_asciiLower, trimStart_asciiLower]
  simp only [setArguments, hhead, splitFirst_asciiLower _ caseBlind_isBlank, line_lowered,
    isEmpty_asciiLower]
  rcases splitFirst isBlank (trimStart (Program.unquoted c.program.head)) with _ | ⟨word, after⟩
  · rfl
  · simp only [Option.map_some, Prod.map_apply, trim_asciiLower, isEmpty_asciiLower]
    split
    · rfl
    · split
      · rfl
      · simp

end Command

/-! ### Runs -/

/-- The options with their variables in lower case. -/
def Options.lowered (options : Options) : Options :=
  { options with vars := options.vars.lowered }

namespace Interpreter

/-- The interpreter with its variables in lower case. -/
def lowered (it : Interpreter) : Interpreter :=
  { it with options := it.options.lowered }

theorem bodyLine_asciiLower (body : Text) :
    bodyLine (asciiLower body) = asciiLower (bodyLine body) := by
  rw [bodyLine, bodyLine, dropFirstChar_asciiLower _ (by decide),
    dropLastChar_asciiLower _ (by decide), trim_asciiLower]

section

variable (it : Interpreter) (i : Nat) (c : Command) (s : Session)

theorem isBareCmd_asciiLower (line : Text) :
    it.lowered.isBareCmd (asciiLower line) = it.isBareCmd line := by
  have hcleaning : it.lowered.options.cleaning = it.options.cleaning := rfl
  rw [isBareCmd, isBareCmd, hcleaning, Token.tokenize_asciiLower, Command.identify_lowered]
  rcases Command.identify it.options.cleaning (Token.tokenize line) with ⟨tokens, program⟩
  show (decide (program.name = _) && (program.lowered.arguments _).isEmpty) = _
  rw [Program.arguments_lowered, List.isEmpty_map]
  rfl

theorem openCmd_lowered : openCmd i c.lowered s.lowered = (openCmd i c s).lowered := by
  have hframe : cmdFrame i c.lowered s.lowered = (cmdFrame i c s).lowered := by
    rw [cmdFrame, cmdFrame, Session.frame_lowered, Command.arguments_lowered,
      CmdArguments.ofTokens_lowered]
    exact Frame.forCmd_lowered (some (s.frame i)) _
  rw [openCmd, openCmd, hframe, Session.push_lowered, Session.length_frames_lowered,
    Command.body_lowered, Command.arguments_lowered, CmdArguments.ofTokens_lowered]
  exact Session.record_lowered _ _ _ _ _ _

theorem openCall_lowered : openCall i c.lowered s.lowered = (openCall i c s).lowered := by
  rw [openCall, openCall, Session.frame_lowered, Frame.forCall_lowered, Session.push_lowered,
    Session.length_frames_lowered, Command.line_lowered]
  exact Session.record_lowered _ _ _ _ [] _

theorem runSet_lowered : runSet i c.lowered s.lowered = (runSet i c s).lowered := by
  rw [runSet, runSet, Command.setArguments_lowered, Assignment.parse?_asciiLower]
  rcases Assignment.parse? c.setArguments with _ | ⟨name, value⟩
  · exact Session.record_lowered s i _ _ [] _
  · simp only [Option.map_some, Prod.map_apply, Session.assign_lowered]
    exact Session.record_lowered _ _ _ _ [] _

theorem runGeneric_lowered : runGeneric i c.lowered s.lowered = (runGeneric i c s).lowered := by
  have hidentified : c.lowered.program.isIdentified = c.program.isIdentified := rfl
  rw [runGeneric, runGeneric, hidentified, Command.line_lowered]
  split
  · exact Session.record_lowered _ _ _ _ [] _
  · exact Session.record_lowered _ _ _ _ [] _

/-- The act of a lower-case command. -/
theorem act_lowered : it.lowered.act i c.lowered s.lowered = (it.act i c s).lowered := by
  have hhandler : it.lowered.handler c.lowered.program.name = it.handler c.program.name := rfl
  simp only [act, hhandler, Command.body_lowered, bodyLine_asciiLower, isEmpty_asciiLower,
    isBareCmd_asciiLower, openCmd_lowered, openCall_lowered, runSet_lowered, runGeneric_lowered]
  cases it.handler c.program.name with
  | cmd =>
    dsimp only
    split
    · exact Session.note_lowered _ .bareCmd
    · rfl
  | _ => rfl

theorem nestedLine?_lowered :
    it.lowered.nestedLine? c.lowered = (it.nestedLine? c).map asciiLower := by
  have hhandler : it.lowered.handler c.lowered.program.name = it.handler c.program.name := rfl
  simp only [nestedLine?, hhandler, Command.body_lowered, bodyLine_asciiLower, isEmpty_asciiLower,
    isBareCmd_asciiLower, Command.line_lowered]
  cases it.handler c.program.name with
  | cmd =>
    dsimp only
    split <;> rfl
  | call =>
    dsimp only
    split <;> rfl
  | _ => rfl

theorem delayedBlock_lowered (f : Frame) (block : List Token) :
    it.lowered.delayedBlock f.lowered (block.map Token.lowered) =
      (it.delayedBlock f block).map Token.lowered := by
  have htable : it.lowered.options.vars.overlay f.lowered.delayedVariables =
      (it.options.vars.overlay f.delayedVariables).lowered := by
    rw [Frame.delayedVariables_lowered]
    exact Variables.overlay_lowered _ _
  have hextensions : f.lowered.extensions it.lowered.options.extensions =
      f.extensions it.options.extensions := Frame.extensions_lowered f _
  have hexpand : ∀ (extensions : Bool) (table : Variables) (t : Text),
      Expansion.expand ⟨'!', extensions⟩ table.lowered (asciiLower t) =
        asciiLower (Expansion.expand ⟨'!', extensions⟩ table t) := fun extensions table t =>
    Expansion.expand_lowered (e := ⟨'!', extensions⟩) t rfl table
  simp only [delayedBlock, Token.stringify_lowered, Frame.delayedExpansion_lowered,
    contains_asciiLower (d := '!') _ (by decide), htable, hextensions, hexpand,
    Token.tokenize_asciiLower]
  split <;> rfl

theorem expandLine_lowered (frame : Option Nat) (text : Text) :
    it.lowered.expandLine s.lowered frame (asciiLower text) =
      asciiLower (it.expandLine s frame text) := by
  have hexpand : ∀ (extensions : Bool) (table : Variables),
      Expansion.expand ⟨'%', extensions⟩ table.lowered (asciiLower text) =
        asciiLower (Expansion.expand ⟨'%', extensions⟩ table text) := fun extensions table =>
    Expansion.expand_lowered (e := ⟨'%', extensions⟩) text rfl table
  have hscope : s.lowered.frames.isEmpty = s.frames.isEmpty := List.isEmpty_map
  simp only [expandLine, hscope]
  rcases frame.or (if s.frames.isEmpty then none else some 0) with _ | i
  · exact hexpand it.options.extensions it.options.vars
  · simp only [Session.frame_lowered, Frame.extensions_lowered]
    show Expansion.expand _ (it.options.vars.lowered.overlay (s.frame i).readable.lowered) _ = _
    rw [Variables.overlay_lowered]
    exact hexpand _ _

/-- Do two ways of running a line below give sessions with one lower-case form? -/
def Descend.Lowers (descend descend' : Descend) : Prop :=
  ∀ line i s, descend' (asciiLower line) i s.lowered = (descend line i s).lowered

section

variable {descend descend' : Descend} (hdescend : descend.Lowers descend')
include hdescend

theorem runCommand_lowered : it.lowered.runCommand descend' i c.lowered s.lowered =
    (it.runCommand descend i c s).lowered := by
  rw [runCommand_eq, runCommand_eq, nestedLine?_lowered, act_lowered,
    Session.length_frames_lowered]
  rcases it.nestedLine? c with _ | line
  · rfl
  · exact hdescend line s.frames.length (it.act i c s)

theorem runBlock_lowered (block : List Token) :
    it.lowered.runBlock descend' i s.lowered (block.map Token.lowered) =
      (it.runBlock descend i s block).lowered := by
  have hcleaning : it.lowered.options.cleaning = it.options.cleaning := rfl
  rw [runBlock, runBlock, Session.frame_lowered, delayedBlock_lowered, hcleaning,
    Command.ofBlock?_lowered]
  rcases Command.ofBlock? it.options.cleaning (it.delayedBlock (s.frame i) block) with _ | c
  · rfl
  · exact runCommand_lowered it i c s hdescend

end

theorem rootFrame_lowered (options : Options) :
    rootFrame options.lowered = (rootFrame options).lowered := by
  rcases options with ⟨cleaning, _ | _, _ | _, vars, maxDepth, passthrough⟩ <;> rfl

theorem withRoot_lowered : it.lowered.withRoot s.lowered = (it.withRoot s).lowered := by
  have hframes : s.lowered.frames.isEmpty = s.frames.isEmpty := List.isEmpty_map
  rw [withRoot, withRoot, hframes]
  split
  · rw [← Session.push_lowered, ← rootFrame_lowered]
    rfl
  · rfl

/-- Running a lower-case line in a lower-case session. -/
theorem runLine_lowered (left : Nat) (text : Text) (frame : Option Nat) :
    it.lowered.runLine left (asciiLower text) frame s.lowered =
      (it.runLine left text frame s).lowered := by
  induction left generalizing text frame s with
  | zero => exact Session.cutOff_lowered s it.options.maxDepth text
  | succ left ih =>
    have hdescend : Descend.Lowers (fun line child s => it.runLine left line (some child) s)
        (fun line child s => it.lowered.runLine left line (some child) s) := fun line child s =>
      ih s line (some child)
    rw [runLine, runLine, expandLine_lowered, Token.tokenize_asciiLower, Block.ofTokens_lowered,
      List.foldl_map]
    refine List.foldl_hom Session.lowered fun s block => ?_
    cases frame with
    | some i => exact runBlock_lowered it i s hdescend block
    | none =>
      dsimp only
      rw [withRoot_lowered]
      exact runBlock_lowered it 0 (it.withRoot s) hdescend block

/-- The run of a lower-case line. -/
theorem run_asciiLower (text : Text) : it.lowered.run (asciiLower text) = (it.run text).lowered :=
  runLine_lowered it .empty it.options.maxDepth text none

end

end Interpreter

/-! ### Two lines that differ in case -/

namespace Interpretation

/-- The result in lower case. -/
def lowered (r : Interpretation) : Interpretation :=
  ⟨r.frames.map Frame.lowered, r.cutOffs.map CutOff.lowered⟩

theorem finish_lowered (s : Session) : s.lowered.finish = s.finish.lowered := by
  simp [Session.finish, Session.lowered, lowered]

theorem records_lowered (r : Interpretation) :
    r.lowered.records = r.records.map Record.lowered := by
  have hheld : r.lowered.frames.flatMap (·.commands) =
      (r.frames.flatMap (·.commands)).map Record.lowered := by
    rw [lowered, List.flatMap_map, List.map_flatMap]
    rfl
  rw [records, records, hheld]
  refine (List.map_mergeSort ?_).symm
  intro a _ b _
  rfl

theorem names_lowered (r : Interpretation) : r.lowered.names = r.names := by
  rw [names, names, records_lowered, List.map_map]
  rfl

theorem commands_lowered (r : Interpretation) : r.lowered.commands = r.commands.map asciiLower := by
  rw [commands, commands, records_lowered, List.map_map, List.map_map]
  rfl

end Interpretation

theorem Interpreter.interpret_lowered (it : Interpreter) (text : Text) :
    it.lowered.interpret (asciiLower text) = (it.interpret text).lowered := by
  rw [interpret, interpret, run_asciiLower, Interpretation.finish_lowered]

/-- Lines that differ only in the case of ASCII letters run the same programs, in as many frames
and with as many lines cut off, and their commands differ only in the case of ASCII letters. -/
theorem interpret_case_insensitive (options : Options) {s t : Text}
    (hdepth : 1 ≤ options.maxDepth) (hsame : sameAscii s t = true) :
    ∃ r r', interpret options s = .ok r ∧ interpret options t = .ok r' ∧
      r.names = r'.names ∧ r.frames.length = r'.frames.length ∧
      r.cutOffs.length = r'.cutOffs.length ∧
      List.Forall₂ (fun c c' => sameAscii c c' = true) r.commands r'.commands := by
  let it := Interpreter.builtin options
  have hlow : (it.interpret s).lowered = (it.interpret t).lowered := by
    rw [← it.interpret_lowered, ← it.interpret_lowered, sameAscii_iff.1 hsame]
  have hdepth' : options.maxDepth ≠ 0 := Nat.ne_of_gt hdepth
  refine ⟨it.interpret s, it.interpret t, interpret_eq_ok hdepth' s, interpret_eq_ok hdepth' t,
    ?_, ?_, ?_, ?_⟩
  · rw [← Interpretation.names_lowered, hlow, Interpretation.names_lowered]
  · have hframes := congrArg (·.frames.length) hlow
    simpa [Interpretation.lowered] using hframes
  · have hcuts := congrArg (·.cutOffs.length) hlow
    simpa [Interpretation.lowered] using hcuts
  · have hcommands := congrArg Interpretation.commands hlow
    rw [Interpretation.commands_lowered, Interpretation.commands_lowered,
      ← List.forall₂_eq_eq_eq, List.forall₂_map_left_iff, List.forall₂_map_right_iff] at hcommands
    exact hcommands.imp fun _ _ => sameAscii_iff.2

/-- Capitals in the commands, in the name of a variable and in the word `Set` make no difference. -/
theorem interpret_case_insensitive_nested :
    let s := "CMD /C \"Set Ab=x& Call ECHO %aB%\"".toList
    let t := "cmd /c \"set aB=X& call Echo %AB%\"".toList
    s ≠ t ∧ 1 ≤ Options.maxDepth {} ∧ sameAscii s t = true ∧
    ∃ r r', interpret {} s = .ok r ∧ interpret {} t = .ok r' ∧
      r.frames.length = 3 ∧ r'.frames.length = 3 ∧ r.names = r'.names ∧
      List.Forall₂ (fun c c' => sameAscii c c' = true) r.commands r'.commands := by
  intro s t
  have hsame : sameAscii s t = true := by decide
  obtain ⟨r, r', hr, hr', hnames, hframes, -, hcommands⟩ :=
    interpret_case_insensitive {} (by decide) hsame
  have hthree : (interpret {} s).toOption.map (·.frames.length) = some 3 := by decide +kernel
  rw [hr] at hthree
  have hlength : r.frames.length = 3 := by simpa [Except.toOption] using hthree
  exact ⟨by decide, by decide, hsame, r, r', hr, hr', hlength, hframes ▸ hlength, hnames,
    hcommands⟩

end BatchTrace
