/-
A line does not see its own assignments.

The whole of a line is expanded before the first of its commands runs, and what is
expanded reads the frame's readable table, which no command changes.  So, without
delayed expansion, the commands of a line are settled before anything runs, and
what they record in their own frame is a function of them alone.

`cmd` and `call` do pass the assigned table on, but to a frame of their own, and
they record there too.  Two runs that differ in that table can differ in all those
frames, in what is cut off and in the numbers of the records, and still record the
same in the frame that the line was run in.
-/
import BatchTrace.Proofs.Trace.Order

namespace BatchTrace

/-- The record whatever its place in the order. -/
def Record.unnumbered (r : Record) : Record :=
  { r with seq := 0 }

namespace Session

/-- What frame `i` has recorded, the numbers left out. -/
def recorded (s : Session) (i : Nat) : List Record :=
  (s.frame i).commands.map Record.unnumbered

theorem recorded_record {s : Session} {i : Nat} (hi : i < s.frames.length) (name line : Text)
    (options : Switches) (text : Text) :
    (s.record i name line options text).recorded i =
      s.recorded i ++ [⟨name, line, options, text, 0⟩] := by
  rw [recorded, frame_record_self hi, List.map_append]
  rfl

theorem recorded_assign {s : Session} {i : Nat} (hi : i < s.frames.length) (name value : Text) :
    (s.assign i name value).recorded i = s.recorded i := by
  rw [recorded, frame_assign_self hi]
  rfl

/-- A run in a frame that was opened above frame `i` records nothing in frame `i`. -/
theorem Runs.recorded_opened {s s' : Session} {i : Nat} {f : Frame} (hi : i < s.frames.length)
    (h : Runs s.frames.length (s.push f) s') : s'.recorded i = s.recorded i := by
  have hlt : i < (s.push f).frames.length := by
    simpa using Nat.lt_succ_of_lt hi
  rw [recorded, h.frame_eq hlt (Nat.ne_of_lt hi), frame_push_of_lt hi]
  rfl

end Session

namespace Interpreter

open Session

/-- What a command records in the frame it runs in.  `cmd` and `call` record in the frame that they
open. -/
def ownRecord? (it : Interpreter) (c : Command) : Option Record :=
  match it.handler c.program.name with
  | .cmd | .call => none
  | .set => some ⟨"set".toList, c.setArguments, [], c.text, 0⟩
  | .generic =>
      if c.program.isIdentified then some ⟨c.program.name, c.line, [], c.text, 0⟩
      else some ⟨[], c.text, [], c.text, 0⟩

variable (it : Interpreter) {i : Nat} {s : Session}

theorem recorded_runSet (hi : i < s.frames.length) (c : Command) :
    (runSet i c s).recorded i =
      s.recorded i ++ [⟨"set".toList, c.setArguments, [], c.text, 0⟩] := by
  unfold runSet
  cases Assignment.parse? c.setArguments with
  | none => exact recorded_record hi _ _ _ _
  | some assignment =>
      dsimp only
      rw [recorded_record (by simpa using hi), recorded_assign hi]

theorem recorded_runCommand {descend : Descend} (hdescend : descend.Runs)
    (hi : i < s.frames.length) (c : Command) :
    (it.runCommand descend i c s).recorded i = s.recorded i ++ (it.ownRecord? c).toList := by
  unfold runCommand ownRecord?
  cases it.handler c.program.name with
  | cmd =>
      dsimp only
      rw [(runs_cmdFrame it hdescend i c s).recorded_opened hi]
      exact (List.append_nil _).symm
  | call =>
      dsimp only
      rw [(runs_callFrame hdescend i c s).recorded_opened hi]
      exact (List.append_nil _).symm
  | set => exact recorded_runSet hi c
  | generic =>
      dsimp only
      unfold runGeneric
      split
      · exact recorded_record hi _ _ _ _
      · exact recorded_record hi _ _ _ _

theorem recorded_runCommands (left : Nat) (hi : i < s.frames.length) (cs : List Command) :
    (it.runCommands left i cs s).recorded i = s.recorded i ++ cs.filterMap it.ownRecord? := by
  induction cs generalizing s with
  | nil => exact (List.append_nil _).symm
  | cons c rest ih =>
      have hruns := runs_runCommand it (it.below_runs left) hi c
      have hrest := ih hruns.inRange
      rw [it.recorded_runCommand (it.below_runs left) hi c, List.append_assoc] at hrest
      rw [List.filterMap_cons]
      cases hown : it.ownRecord? c with
      | none =>
          rw [hown] at hrest
          exact hrest
      | some r =>
          rw [hown] at hrest
          exact hrest

/-- The commands that a line consists of in a frame like `f`, delayed expansion apart. -/
def lineCommands (it : Interpreter) (f : Frame) (text : Text) : List Command :=
  let line := Expansion.expand ⟨'%', f.extensions it.options.extensions⟩
    (it.options.vars.overlay f.readable) text
  (Block.ofTokens (Token.tokenize line)).filterMap (Command.ofBlock? it.options.cleaning)

/-- **What a line records in its frame can be told from its commands.** -/
theorem recorded_runLine (left : Nat) (text : Text) (hi : i < s.frames.length)
    (hdelayed : (s.frame i).delayedExpansion = false) :
    (it.runLine left text (some i) s).recorded i =
      s.recorded i ++
        match left with
        | 0 => []
        | _ + 1 => (it.lineCommands (s.frame i) text).filterMap it.ownRecord? := by
  cases left with
  | zero => exact (List.append_nil _).symm
  | succ left =>
      rw [runLine_succ, it.foldl_runBlock left hi hdelayed]
      exact it.recorded_runCommands left hi _

/-- A run appends to the commands of its frame, so what it has recorded can be split off. -/
theorem exists_recorded_append (left : Nat) (text : Text) (hi : i < s.frames.length)
    {rs : List Record} (h : (it.runLine left text (some i) s).recorded i = s.recorded i ++ rs) :
    ∃ added, ((it.runLine left text (some i) s).frame i).commands =
      (s.frame i).commands ++ added ∧ added.map Record.unnumbered = rs := by
  obtain ⟨g, hg, hcont⟩ := (it.runs_runLine left text hi).confined.own hi
  have hframe : (it.runLine left text (some i) s).frame i = g := by
    rw [Session.frame, hg, Option.getD_some]
  obtain ⟨added, hadded⟩ := hcont.commands
  refine ⟨added, by rw [hframe, hadded], ?_⟩
  rw [recorded, hframe, ← hadded, List.map_append] at h
  exact List.append_cancel_left h

/--
**Percent expansion does not see assignments of the same frame.**  Take two sessions
whose frames `i` differ in the assigned table at most and expand no exclamation
marks.  Whatever else the sessions hold, a line that is run in frame `i` of both
appends the same records to it, up to their numbers.
-/
theorem runLine_ignores_assigned (it : Interpreter) (left : Nat) (text : Text) (i : Nat)
    (s s' : Session) (hi : i < s.frames.length) (hi' : i < s'.frames.length) (table : Variables)
    (hframe : s'.frame i = { s.frame i with assigned := table })
    (hdelayed : (s.frame i).delayedExpansion = false) :
    ∃ added added',
      ((it.runLine left text (some i) s).frame i).commands = (s.frame i).commands ++ added ∧
      ((it.runLine left text (some i) s').frame i).commands = (s'.frame i).commands ++ added' ∧
      added.map Record.unnumbered = added'.map Record.unnumbered := by
  have hdelayed' : (s'.frame i).delayedExpansion = false := by
    rw [hframe]
    exact hdelayed
  have hcommands : it.lineCommands (s'.frame i) text = it.lineCommands (s.frame i) text := by
    rw [hframe]
    rfl
  have hline := it.recorded_runLine left text hi hdelayed
  have hline' := it.recorded_runLine left text hi' hdelayed'
  rw [hcommands] at hline'
  obtain ⟨added, hadded, hrecords⟩ := it.exists_recorded_append left text hi hline
  obtain ⟨added', hadded', hrecords'⟩ := it.exists_recorded_append left text hi' hline'
  exact ⟨added, added', hadded, hadded', hrecords.trans hrecords'.symm⟩

/-- Only the second session has assigned `a`, and it has another frame and other numbers.  The line
below `cmd` reads `a` and runs another program there, but frame 0 records the same. -/
theorem runLine_ignores_assigned_child :
    let it := Interpreter.builtin {}
    let text := "set b=1&echo %a%&cmd /c %a%&calc".toList
    let s : Session := { frames := [.empty] }
    let s' : Session :=
      { frames := [{ assigned := .ofList [("a".toList, "notepad".toList)] }, .empty], seq := 7 }
    let t := it.runLine 2 text (some 0) s
    let t' := it.runLine 2 text (some 0) s'
    (0 < s.frames.length ∧ 0 < s'.frames.length ∧
      s'.frame 0 = { s.frame 0 with assigned := .ofList [("a".toList, "notepad".toList)] } ∧
      (s.frame 0).delayedExpansion = false) ∧
    (t.frame 0).commands.length = 3 ∧
    (t.frame 1).commands.map (·.text) ≠ (t'.frame 2).commands.map (·.text) ∧
    ∃ added added', (t.frame 0).commands = (s.frame 0).commands ++ added ∧
      (t'.frame 0).commands = (s'.frame 0).commands ++ added' ∧
      added.map Record.unnumbered = added'.map Record.unnumbered := by
  intro it text s s' t t'
  have hi : 0 < s.frames.length := by decide
  have hi' : 0 < s'.frames.length := by decide
  refine ⟨⟨hi, hi', rfl, rfl⟩, by decide +kernel, by decide +kernel, ?_⟩
  exact runLine_ignores_assigned it 2 text 0 s s' hi hi' _ rfl rfl

end Interpreter

end BatchTrace
