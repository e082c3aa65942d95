/-
Every frame index is in range.

Reading a frame that is not there gives an empty one, and writing to one changes
nothing, so a wrong index would go unnoticed.  `Checked` is the same interpreter
with every access to a frame guarded: it stops, with nothing for a result, at the
first index that is out of range.  What is shown here is that it never stops and
that its result is the interpreter's own.

Only two things are needed of a run for this, and `Runs` has both: the frame of a
run is there at its start, and frames are never taken away.
-/
import BatchTrace.Proofs.Trace.Runs

namespace BatchTrace

namespace Session

/-- `a`, if frame `i` is there. -/
def within {α : Type} (s : Session) (i : Nat) (a : α) : Option α :=
  if i < s.frames.length then some a else none

theorem within_of_lt {α : Type} {s : Session} {i : Nat} (hi : i < s.frames.length) (a : α) :
    s.within i a = some a := by
  rw [within, if_pos hi]

end Session

namespace Checked

/-- How a handler runs a line one level deeper, if it can. -/
abbrev Descend := Text → Nat → Session → Option Session

def runCmd (it : Interpreter) (descend : Descend) (i : Nat) (c : Command) (s : Session) :
    Option Session := do
  let arguments := CmdArguments.ofTokens c.arguments
  let body := Text.trim arguments.body
  let child := s.frames.length
  let parent ← s.within i (s.frame i)
  let s := s.push (.forCmd (some parent) arguments.switches)
  let s ← s.within child (s.record child "cmd".toList body arguments.switches c.text)
  let line := Interpreter.bodyLine body
  if line.isEmpty then some s
  else if it.isBareCmd line then some (s.note .bareCmd)
  else descend line child s

def runCall (descend : Descend) (i : Nat) (c : Command) (s : Session) : Option Session := do
  let child := s.frames.length
  let parent ← s.within i (s.frame i)
  let s := s.push (.forCall parent)
  let s ← s.within child (s.record child "call".toList c.line [] c.text)
  if c.line.isEmpty then some s else descend c.line child s

def runSet (i : Nat) (c : Command) (s : Session) : Option Session := do
  let s ←
    match Assignment.parse? c.setArguments with
    | some (name, value) => s.within i (s.assign i name value)
    | none => some s
  s.within i (s.record i "set".toList c.setArguments [] c.text)

def runGeneric (i : Nat) (c : Command) (s : Session) : Option Session :=
  s.within i (Interpreter.runGeneric i c s)

def runCommand (it : Interpreter) (descend : Descend) (i : Nat) (c : Command) (s : Session) :
    Option Session :=
  match it.handler c.program.name with
  | .cmd => runCmd it descend i c s
  | .set => runSet i c s
  | .call => runCall descend i c s
  | .generic => runGeneric i c s

def runBlock (it : Interpreter) (descend : Descend) (i : Nat) (s : Session)
    (block : List Token) : Option Session := do
  let f ← s.within i (s.frame i)
  match Command.ofBlock? it.options.cleaning (it.delayedBlock f block) with
  | some c => runCommand it descend i c s
  | none => some s

/-- The expanded line, if the frame whose variables it reads is there. -/
def expandLine (it : Interpreter) (s : Session) (frame : Option Nat) (text : Text) : Option Text :=
  match frame.or (if s.frames.isEmpty then none else some 0) with
  | some i => s.within i (it.expandLine s frame text)
  | none => some (it.expandLine s frame text)

/-- `Interpreter.runLine` with every index checked. -/
def runLine (it : Interpreter) : Nat → Text → Option Nat → Session → Option Session
  | 0, text, _, s => some (s.cutOff it.options.maxDepth text)
  | left + 1, text, frame, s => do
      let descend : Descend := fun line child s => runLine it left line (some child) s
      let line ← expandLine it s frame text
      (Block.ofTokens (Token.tokenize line)).foldlM
        (fun s block =>
          match frame with
          | some i => runBlock it descend i s block
          | none => runBlock it descend 0 (it.withRoot s) block)
        s

/-- The checked way to run nested lines never stops, and does what the other does. -/
def Descend.Agrees (checked : Descend) (descend : Interpreter.Descend) : Prop :=
  ∀ (line : Text) (child : Nat) (s : Session), child < s.frames.length →
    checked line child s = some (descend line child s)

section

variable {it : Interpreter} {checked : Descend} {descend : Interpreter.Descend} {i : Nat}
  {s : Session}

theorem runCmd_eq (h : checked.Agrees descend) (hi : i < s.frames.length) (c : Command) :
    runCmd it checked i c s = some (it.runCmd descend i c s) := by
  simp only [runCmd, Interpreter.runCmd, Session.within_of_lt hi, Option.bind_eq_bind,
    Option.bind_some]
  rw [Session.within_of_lt (by simp), Option.bind_some]
  split
  · rfl
  · split
    · rfl
    · exact h _ _ _ (by simp)

theorem runCall_eq (h : checked.Agrees descend) (hi : i < s.frames.length) (c : Command) :
    runCall checked i c s = some (Interpreter.runCall descend i c s) := by
  simp only [runCall, Interpreter.runCall, Session.within_of_lt hi, Option.bind_eq_bind,
    Option.bind_some]
  rw [Session.within_of_lt (by simp), Option.bind_some]
  split
  · rfl
  · exact h _ _ _ (by simp)

theorem runSet_eq (hi : i < s.frames.length) (c : Command) :
    runSet i c s = some (Interpreter.runSet i c s) := by
  simp only [runSet, Interpreter.runSet, Option.bind_eq_bind]
  cases Assignment.parse? c.setArguments with
  | none => exact Session.within_of_lt hi _
  | some assignment =>
      dsimp only
      rw [Session.within_of_lt hi, Option.bind_some]
      exact Session.within_of_lt (by simpa using hi) _

theorem runCommand_eq (h : checked.Agrees descend) (hi : i < s.frames.length) (c : Command) :
    runCommand it checked i c s = some (it.runCommand descend i c s) := by
  unfold runCommand Interpreter.runCommand
  cases it.handler c.program.name with
  | cmd => exact runCmd_eq h hi c
  | set => exact runSet_eq hi c
  | call => exact runCall_eq h hi c
  | generic => exact Session.within_of_lt hi _

theorem runBlock_eq (h : checked.Agrees descend) (hi : i < s.frames.length)
    (block : List Token) :
    runBlock it checked i s block = some (it.runBlock descend i s block) := by
  rw [runBlock, Interpreter.runBlock, Session.within_of_lt hi, Option.bind_eq_bind,
    Option.bind_some]
  cases Command.ofBlock? it.options.cleaning (it.delayedBlock (s.frame i) block) with
  | none => rfl
  | some c => exact runCommand_eq h hi c

theorem foldlM_eq (h : checked.Agrees descend) (hdescend : descend.Runs)
    (blocks : List (List Token)) (hi : i < s.frames.length) :
    blocks.foldlM (runBlock it checked i) s = some (blocks.foldl (it.runBlock descend i) s) := by
  induction blocks generalizing s with
  | nil => rfl
  | cons block rest ih =>
      rw [List.foldlM_cons, runBlock_eq h hi block, Option.bind_eq_bind, Option.bind_some]
      exact ih (Interpreter.runs_runBlock it hdescend hi block).inRange

/-- In the outermost line the frame is pushed before the first block needs it. -/
theorem foldlM_root_eq (h : checked.Agrees descend) (blocks : List (List Token)) :
    blocks.foldlM (fun s block => runBlock it checked 0 (it.withRoot s) block) s =
      some (blocks.foldl (fun s block => it.runBlock descend 0 (it.withRoot s) block) s) := by
  induction blocks generalizing s with
  | nil => rfl
  | cons block rest ih =>
      rw [List.foldlM_cons, runBlock_eq h (it.withRoot_pos s) block, Option.bind_eq_bind,
        Option.bind_some]
      exact ih

end

theorem expandLine_eq (it : Interpreter) {s : Session} {frame : Option Nat}
    (hframe : ∀ i ∈ frame, i < s.frames.length) (text : Text) :
    expandLine it s frame text = some (it.expandLine s frame text) := by
  unfold expandLine
  split
  · rename_i i hscope
    refine Session.within_of_lt ?_ _
    rcases Option.or_eq_some_iff.mp hscope with hsome | ⟨-, hroot⟩
    · exact hframe i hsome
    · split at hroot
      · simp at hroot
      · rename_i hempty
        rw [← Option.some.inj hroot]
        exact List.length_pos_iff.mpr (by simpa using hempty)
  · rfl

/-- No line goes to an index that is out of range, if the frame it is to run in is there. -/
theorem runLine_eq (it : Interpreter) (left : Nat) {frame : Option Nat} {s : Session}
    (hframe : ∀ i ∈ frame, i < s.frames.length) (text : Text) :
    runLine it left text frame s = some (it.runLine left text frame s) := by
  induction left generalizing frame s text with
  | zero => rfl
  | succ left ih =>
      have hagrees : Descend.Agrees (fun line child s => runLine it left line (some child) s)
          (it.below left) := by
        intro line child s hchild
        refine ih ?_ line
        intro i hi
        rw [← Option.some.inj hi]
        exact hchild
      rw [runLine, expandLine_eq it hframe text, Option.bind_eq_bind, Option.bind_some]
      cases frame with
      | none => exact foldlM_root_eq hagrees _
      | some i => exact foldlM_eq hagrees (it.below_runs left) _ (hframe i rfl)

/-- No run from the start goes to an index that is out of range. -/
theorem run_eq (it : Interpreter) (text : Text) :
    runLine it it.options.maxDepth text none .empty = some (it.run text) :=
  runLine_eq it _ (by simp) text

end Checked

end BatchTrace
