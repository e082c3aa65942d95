/-
A run as a sequence of moves.

What a command does falls into two parts: its own act, which records it and may
open a frame or assign a variable, and the line that it runs below itself, if it
runs one.  `runCommand_eq` is that split.  Nested lines are made of commands again,
so a run is nothing but a sequence of acts, with a report wherever a line is cut
off, and `moves_below` says so.

What holds of every session on the way is then shown of one act, by a case for each
handler, and the induction over the run is the same for all of it.
-/
import BatchTrace.Proofs.Trace.Runs
import Mathlib.Logic.Relation

namespace BatchTrace

/-- The body that `cmd` is given, as it is recorded. -/
def Command.body (c : Command) : Text :=
  Text.trim (CmdArguments.ofTokens c.arguments).body

namespace Interpreter

open Session Relation

/-- `cmd` in frame `i` opens a frame and is the first to be recorded in it. -/
def openCmd (i : Nat) (c : Command) (s : Session) : Session :=
  (s.push (cmdFrame i c s)).record s.frames.length "cmd".toList c.body
    (CmdArguments.ofTokens c.arguments).switches c.text

/-- `call` in frame `i` does the same with a frame of its own kind. -/
def openCall (i : Nat) (c : Command) (s : Session) : Session :=
  (s.push (.forCall (s.frame i))).record s.frames.length "call".toList c.line [] c.text

/-- What a command in frame `i` does itself, before any line below it runs. -/
def act (it : Interpreter) (i : Nat) (c : Command) (s : Session) : Session :=
  match it.handler c.program.name with
  | .cmd =>
      if !(bodyLine c.body).isEmpty && it.isBareCmd (bodyLine c.body) then
        (openCmd i c s).note .bareCmd
      else openCmd i c s
  | .call => openCall i c s
  | .set => runSet i c s
  | .generic => runGeneric i c s

/-- The line that a command runs below itself. -/
def nestedLine? (it : Interpreter) (c : Command) : Option Text :=
  match it.handler c.program.name with
  | .cmd =>
      if (bodyLine c.body).isEmpty || it.isBareCmd (bodyLine c.body) then none
      else some (bodyLine c.body)
  | .call => if c.line.isEmpty then none else some c.line
  | _ => none

variable (it : Interpreter) {descend : Descend} {i : Nat} {s s' : Session}

/-- A command acts, and then its line runs in the frame that it has opened. -/
theorem runCommand_eq (descend : Descend) (i : Nat) (c : Command) (s : Session) :
    it.runCommand descend i c s =
      match it.nestedLine? c with
      | some line => descend line s.frames.length (it.act i c s)
      | none => it.act i c s := by
  unfold runCommand nestedLine? act
  cases it.handler c.program.name with
  | cmd =>
      show it.runCmd descend i c s = _
      have hcmd : it.runCmd descend i c s =
          if (bodyLine c.body).isEmpty then openCmd i c s
          else if it.isBareCmd (bodyLine c.body) then (openCmd i c s).note .bareCmd
          else descend (bodyLine c.body) s.frames.length (openCmd i c s) := rfl
      rw [hcmd]
      by_cases hempty : (bodyLine c.body).isEmpty = true
      · simp [hempty]
      · by_cases hbare : it.isBareCmd (bodyLine c.body) = true
        · simp [hempty, hbare]
        · simp [hempty, hbare]
  | call =>
      have hcall : runCall descend i c s =
          if c.line.isEmpty then openCall i c s
          else descend c.line s.frames.length (openCall i c s) := rfl
      show runCall descend i c s = _
      rw [hcall]
      by_cases hempty : c.line.isEmpty = true
      · simp [hempty]
      · simp [hempty]
  | set => rfl
  | generic => rfl

theorem modify_length_concat {α : Type} (l : List α) (x : α) (f : α → α) :
    (l ++ [x]).modify l.length f = l ++ [f x] := by
  induction l with
  | nil => rfl
  | cons y rest ih => simpa using ih

/-- The frame that a command opens comes last and holds that command alone. -/
theorem frames_record_push (s : Session) (f : Frame) (name line : Text) (options : Switches)
    (text : Text) :
    ((s.push f).record s.frames.length name line options text).frames =
      s.frames ++ [{ f with commands := f.commands ++ [⟨name, line, options, text, s.seq⟩] }] := by
  rw [frames_record, frames_push]
  exact modify_length_concat s.frames f _

theorem length_openCmd (i : Nat) (c : Command) (s : Session) :
    (openCmd i c s).frames.length = s.frames.length + 1 := by
  rw [openCmd, frames_record_push, List.length_append]
  rfl

theorem length_openCall (i : Nat) (c : Command) (s : Session) :
    (openCall i c s).frames.length = s.frames.length + 1 := by
  rw [openCall, frames_record_push, List.length_append]
  rfl

theorem length_runSet (i : Nat) (c : Command) (s : Session) :
    (runSet i c s).frames.length = s.frames.length := by
  unfold runSet
  cases Assignment.parse? c.setArguments <;> simp

theorem length_runGeneric (i : Nat) (c : Command) (s : Session) :
    (runGeneric i c s).frames.length = s.frames.length := by
  unfold runGeneric
  split <;> simp

/-- A command adds one frame or none. -/
theorem length_act (i : Nat) (c : Command) (s : Session) :
    (it.act i c s).frames.length =
      match it.handler c.program.name with
      | .cmd | .call => s.frames.length + 1
      | _ => s.frames.length := by
  unfold act
  cases it.handler c.program.name with
  | cmd =>
      dsimp only
      split
      · exact length_openCmd i c s
      · exact length_openCmd i c s
  | call => exact length_openCall i c s
  | set => exact length_runSet i c s
  | generic => exact length_runGeneric i c s

theorem length_le_act (i : Nat) (c : Command) (s : Session) :
    s.frames.length ≤ (it.act i c s).frames.length := by
  rw [length_act]
  cases it.handler c.program.name with
  | cmd => exact Nat.le_succ _
  | call => exact Nat.le_succ _
  | set => exact Nat.le_refl _
  | generic => exact Nat.le_refl _

/-- Where a command runs a line, the frame for it is there. -/
theorem length_lt_act {c : Command} {line : Text} (h : it.nestedLine? c = some line) (i : Nat)
    (s : Session) : s.frames.length < (it.act i c s).frames.length := by
  rw [length_act]
  unfold nestedLine? at h
  cases hhandler : it.handler c.program.name with
  | cmd => exact Nat.lt_succ_self _
  | call => exact Nat.lt_succ_self _
  | set => simp [hhandler] at h
  | generic => simp [hhandler] at h

/-- One move: a command acts in a frame that is there, or a line is not run. -/
inductive Move (it : Interpreter) : Session → Session → Prop
  | act {i : Nat} {s : Session} (hi : i < s.frames.length) (c : Command) :
      Move it s (it.act i c s)
  | cutOff (s : Session) (line : Text) : Move it s (s.cutOff it.options.maxDepth line)

/-- Some moves, one after the other. -/
abbrev Moves (it : Interpreter) : Session → Session → Prop :=
  ReflTransGen (Move it)

variable {it}

theorem Moves.length_le (h : Moves it s s') : s.frames.length ≤ s'.frames.length := by
  induction h with
  | refl => exact Nat.le_refl _
  | tail _ hmove ih =>
      cases hmove with
      | act hi c => exact Nat.le_trans ih (it.length_le_act _ c _)
      | cutOff _ line => exact ih

/-- What every move keeps, every sequence of moves keeps. -/
theorem Moves.keeps {P : Session → Prop} (h : Moves it s s')
    (hact : ∀ (i : Nat) (c : Command) (t : Session), i < t.frames.length → P t → P (it.act i c t))
    (hcut : ∀ (t : Session) (line : Text), P t → P (t.cutOff it.options.maxDepth line))
    (hs : P s) : P s' := by
  induction h with
  | refl => exact hs
  | tail _ hmove ih =>
      cases hmove with
      | act hi c => exact hact _ c _ hi ih
      | cutOff _ line => exact hcut _ line ih

/-- Nested lines are run by moves. -/
def Descend.Moves (it : Interpreter) (descend : Descend) : Prop :=
  ∀ (line : Text) (child : Nat) (s : Session), child < s.frames.length →
    it.Moves s (descend line child s)

theorem moves_runCommand (hdescend : descend.Moves it) (hi : i < s.frames.length) (c : Command) :
    it.Moves s (it.runCommand descend i c s) := by
  have hact : it.Moves s (it.act i c s) := .single (.act hi c)
  rw [runCommand_eq]
  cases hline : it.nestedLine? c with
  | none => exact hact
  | some line => exact hact.trans (hdescend line _ _ (it.length_lt_act hline i s))

theorem moves_runBlock (hdescend : descend.Moves it) (hi : i < s.frames.length)
    (block : List Token) : it.Moves s (it.runBlock descend i s block) := by
  unfold runBlock
  split
  · exact moves_runCommand hdescend hi _
  · exact .refl

theorem moves_foldl (hdescend : descend.Moves it) (blocks : List (List Token))
    (hi : i < s.frames.length) : it.Moves s (blocks.foldl (it.runBlock descend i) s) := by
  induction blocks generalizing s with
  | nil => exact .refl
  | cons block rest ih =>
      have hblock := moves_runBlock hdescend hi block
      exact hblock.trans (ih (Nat.lt_of_lt_of_le hi hblock.length_le))

theorem moves_below (it : Interpreter) (left : Nat) : (it.below left).Moves it := by
  induction left with
  | zero =>
      intro line child s _
      exact .single (.cutOff s line)
  | succ left ih =>
      intro line child s hchild
      rw [below, runLine_succ]
      exact moves_foldl ih _ hchild

/-- A run from the start does nothing at all, or opens the outermost frame and moves on. -/
theorem run_cases (it : Interpreter) (hdepth : it.options.maxDepth ≠ 0) (text : Text) :
    it.run text = .empty ∨ it.Moves (it.withRoot .empty) (it.run text) := by
  obtain ⟨left, hleft⟩ := Nat.exists_eq_succ_of_ne_zero hdepth
  unfold run
  rw [hleft]
  cases hblocks : Block.ofTokens (Token.tokenize (it.expandLine .empty none text)) with
  | nil =>
      refine Or.inl ?_
      rw [runLine, hblocks]
      rfl
  | cons block rest =>
      refine Or.inr ?_
      rw [it.runLine_succ_none left text .empty hblocks]
      exact moves_foldl (it.moves_below left) _ (it.withRoot_pos _)

/-! ### The interpreter for some options -/

@[simp] theorem options_register (it : Interpreter) (name : Text) (handler : Handler) :
    (it.register name handler).options = it.options := by
  unfold register
  dsimp only
  split <;> rfl

@[simp] theorem options_builtin (options : Options) : (builtin options).options = options := by
  simp [builtin]

end Interpreter

theorem interpret_eq_ok {options : Options} (hdepth : options.maxDepth ≠ 0) (text : Text) :
    interpret options text = .ok ((Interpreter.builtin options).interpret text) := by
  rw [interpret, Interpreter.new, if_neg hdepth]
  rfl

end BatchTrace
