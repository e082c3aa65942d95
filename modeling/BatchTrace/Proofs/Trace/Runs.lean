/-
What a run in a frame can do.

The interpreter changes its session by five primitive moves only, and it makes
them with two frame indices: the index of the frame it runs in, and the index of a
frame it has just pushed.  `Session.Runs i s s'` says this once, as a relation
between the session before and after; `Interpreter.runs_runLine` follows the code
and shows that every line run in frame `i` is such a run.

Facts about whole runs are then inductions on `Runs` with one case for each move,
and none of them has to look at the interpreter again.
-/
import BatchTrace.Trace.Interpreter
import Mathlib.Data.List.Basic

namespace BatchTrace

namespace Session

/-! ### What the moves change -/

@[simp] theorem frames_note (s : Session) (e : Event) : (s.note e).frames = s.frames := rfl

@[simp] theorem cutOffs_note (s : Session) (e : Event) : (s.note e).cutOffs = s.cutOffs := rfl

@[simp] theorem seq_note (s : Session) (e : Event) : (s.note e).seq = s.seq := rfl

@[simp] theorem frames_push (s : Session) (f : Frame) : (s.push f).frames = s.frames ++ [f] := rfl

@[simp] theorem cutOffs_push (s : Session) (f : Frame) : (s.push f).cutOffs = s.cutOffs := rfl

@[simp] theorem seq_push (s : Session) (f : Frame) : (s.push f).seq = s.seq := rfl

@[simp] theorem frames_assign (s : Session) (i : Nat) (name value : Text) :
    (s.assign i name value).frames =
      s.frames.modify i fun f => { f with assigned := f.assigned.set name value } := rfl

@[simp] theorem cutOffs_assign (s : Session) (i : Nat) (name value : Text) :
    (s.assign i name value).cutOffs = s.cutOffs := rfl

@[simp] theorem seq_assign (s : Session) (i : Nat) (name value : Text) :
    (s.assign i name value).seq = s.seq := rfl

@[simp] theorem frames_cutOff (s : Session) (limit : Nat) (line : Text) :
    (s.cutOff limit line).frames = s.frames := rfl

@[simp] theorem cutOffs_cutOff (s : Session) (limit : Nat) (line : Text) :
    (s.cutOff limit line).cutOffs = s.cutOffs ++ [⟨limit, line⟩] := rfl

@[simp] theorem seq_cutOff (s : Session) (limit : Nat) (line : Text) :
    (s.cutOff limit line).seq = s.seq := rfl

section

variable (s : Session) (i : Nat) (name line : Text) (options : Switches) (text : Text)

@[simp] theorem frames_record :
    (s.record i name line options text).frames = s.frames.modify i fun f =>
      { f with commands := f.commands ++ [⟨name, line, options, text, s.seq⟩] } := rfl

@[simp] theorem cutOffs_record : (s.record i name line options text).cutOffs = s.cutOffs := rfl

@[simp] theorem seq_record : (s.record i name line options text).seq = s.seq + 1 := rfl

end

theorem frame_eq_getElem {s : Session} {i : Nat} (hi : i < s.frames.length) :
    s.frame i = s.frames[i] := by
  rw [frame, List.getElem?_eq_getElem hi, Option.getD_some]

theorem frame_push_of_lt {s : Session} {i : Nat} (hi : i < s.frames.length) (f : Frame) :
    (s.push f).frame i = s.frame i := by
  rw [frame, frame, frames_push, List.getElem?_append_left hi]

@[simp] theorem frame_push_self (s : Session) (f : Frame) :
    (s.push f).frame s.frames.length = f := by
  simp [frame]

theorem frame_record_self {s : Session} {i : Nat} (hi : i < s.frames.length) (name line : Text)
    (options : Switches) (text : Text) :
    (s.record i name line options text).frame i =
      { s.frame i with
        commands := (s.frame i).commands ++ [⟨name, line, options, text, s.seq⟩] } := by
  simp [frame, List.getElem?_eq_getElem hi]

theorem frame_assign_self {s : Session} {i : Nat} (hi : i < s.frames.length) (name value : Text) :
    (s.assign i name value).frame i =
      { s.frame i with assigned := (s.frame i).assigned.set name value } := by
  simp [frame, List.getElem?_eq_getElem hi]

/-- A run in frame `i` turns the first session into the second. -/
inductive Runs : Nat → Session → Session → Prop
  /-- Nothing has been done yet; the frame is there. -/
  | start {i : Nat} {s : Session} (hi : i < s.frames.length) : Runs i s s
  | note {i : Nat} {s s' : Session} (e : Event) (h : Runs i s s') : Runs i s (s'.note e)
  /-- A line was not run. -/
  | cutOff {i : Nat} {s s' : Session} (limit : Nat) (line : Text) (h : Runs i s s') :
      Runs i s (s'.cutOff limit line)
  | assign {i : Nat} {s s' : Session} (name value : Text) (h : Runs i s s') :
      Runs i s (s'.assign i name value)
  | record {i : Nat} {s s' : Session} (name line : Text) (options : Switches) (text : Text)
      (h : Runs i s s') : Runs i s (s'.record i name line options text)
  /-- A new frame without commands was pushed, and then there was a run in it. -/
  | opened {i : Nat} {s s' s'' : Session} (f : Frame) (hf : f.commands = []) (h : Runs i s s')
      (hchild : Runs s'.frames.length (s'.push f) s'') : Runs i s s''

namespace Runs

variable {i : Nat} {s s' s'' : Session}

theorem trans (h : Runs i s s') (h' : Runs i s' s'') : Runs i s s'' := by
  induction h' with
  | start _ => exact h
  | note e _ ih => exact (ih h).note e
  | cutOff limit line _ ih => exact (ih h).cutOff limit line
  | assign name value _ ih => exact (ih h).assign name value
  | record name line options text _ ih => exact (ih h).record name line options text
  | opened f hf _ hchild ih _ => exact (ih h).opened f hf hchild

/-- Frames are only added. -/
theorem length_le (h : Runs i s s') : s.frames.length ≤ s'.frames.length := by
  induction h with
  | start _ => exact Nat.le_refl _
  | note _ _ ih => exact ih
  | cutOff _ _ _ ih => exact ih
  | assign _ _ _ ih => simpa using ih
  | record _ _ _ _ _ ih => simpa using ih
  | opened _ _ _ _ ih ihchild =>
      simp only [frames_push, List.length_append, List.length_singleton] at ihchild
      omega

theorem inRange_before (h : Runs i s s') : i < s.frames.length := by
  induction h with
  | start hi => exact hi
  | note _ _ ih => exact ih
  | cutOff _ _ _ ih => exact ih
  | assign _ _ _ ih => exact ih
  | record _ _ _ _ _ ih => exact ih
  | opened _ _ _ _ ih _ => exact ih

/-- The frame of a run is there at its end, as it was at its start. -/
theorem inRange (h : Runs i s s') : i < s'.frames.length :=
  Nat.lt_of_lt_of_le h.inRange_before h.length_le

/-- What has been cut off stays reported. -/
theorem cutOffs_grow (h : Runs i s s') : s.cutOffs <+: s'.cutOffs := by
  induction h with
  | start _ => exact List.prefix_refl _
  | note _ _ ih => exact ih
  | cutOff limit line _ ih => exact ih.trans (List.prefix_append _ _)
  | assign _ _ _ ih => exact ih
  | record _ _ _ _ _ ih => exact ih
  | opened f _ _ _ ih ihchild => exact ih.trans ihchild

end Runs

end Session

namespace Interpreter

open Session

/-- A way to run nested lines that stays within the frame it is given. -/
def Descend.Runs (descend : Descend) : Prop :=
  ∀ (line : Text) (child : Nat) (s : Session), child < s.frames.length →
    Session.Runs child s (descend line child s)

variable (it : Interpreter) {descend : Descend} {i : Nat} {s : Session}

/-- The frame that `cmd` opens below frame `i`. -/
def cmdFrame (i : Nat) (c : Command) (s : Session) : Frame :=
  .forCmd (some (s.frame i)) (CmdArguments.ofTokens c.arguments).switches

/-- All that `cmd` does after it has pushed a frame is a run in that frame. -/
theorem runs_cmdFrame (hdescend : descend.Runs) (i : Nat) (c : Command) (s : Session) :
    Session.Runs s.frames.length (s.push (cmdFrame i c s)) (it.runCmd descend i c s) := by
  have hopen := (Session.Runs.start (i := s.frames.length) (s := s.push (cmdFrame i c s))
    (by simp)).record "cmd".toList (Text.trim (CmdArguments.ofTokens c.arguments).body)
    (CmdArguments.ofTokens c.arguments).switches c.text
  unfold runCmd
  dsimp only
  split
  · exact hopen
  · split
    · exact hopen.note .bareCmd
    · exact hopen.trans (hdescend _ _ _ hopen.inRange)

theorem runs_callFrame (hdescend : descend.Runs) (i : Nat) (c : Command) (s : Session) :
    Session.Runs s.frames.length (s.push (.forCall (s.frame i))) (runCall descend i c s) := by
  have hopen := (Session.Runs.start (i := s.frames.length) (s := s.push (.forCall (s.frame i)))
    (by simp)).record "call".toList c.line [] c.text
  unfold runCall
  dsimp only
  split
  · exact hopen
  · exact hopen.trans (hdescend _ _ _ hopen.inRange)

theorem runs_runSet (hi : i < s.frames.length) (c : Command) :
    Session.Runs i s (runSet i c s) := by
  unfold runSet
  dsimp only
  split
  · exact ((Session.Runs.start hi).assign _ _).record _ _ _ _
  · exact (Session.Runs.start hi).record _ _ _ _

theorem runs_runGeneric (hi : i < s.frames.length) (c : Command) :
    Session.Runs i s (runGeneric i c s) := by
  unfold runGeneric
  split
  · exact (Session.Runs.start hi).record _ _ _ _
  · exact (Session.Runs.start hi).record _ _ _ _

theorem runs_runCommand (hdescend : descend.Runs) (hi : i < s.frames.length) (c : Command) :
    Session.Runs i s (it.runCommand descend i c s) := by
  unfold runCommand
  split
  · exact .opened _ rfl (.start hi) (runs_cmdFrame it hdescend i c s)
  · exact runs_runSet hi c
  · exact .opened _ rfl (.start hi) (runs_callFrame hdescend i c s)
  · exact runs_runGeneric hi c

theorem runs_runBlock (hdescend : descend.Runs) (hi : i < s.frames.length) (block : List Token) :
    Session.Runs i s (it.runBlock descend i s block) := by
  unfold runBlock
  split
  · exact runs_runCommand it hdescend hi _
  · exact .start hi

theorem runs_foldl (hdescend : descend.Runs) (blocks : List (List Token))
    (hi : i < s.frames.length) :
    Session.Runs i s (blocks.foldl (it.runBlock descend i) s) := by
  induction blocks generalizing s with
  | nil => exact .start hi
  | cons block rest ih =>
      have hblock := runs_runBlock it hdescend hi block
      exact hblock.trans (ih hblock.inRange)

/-- Once it has been asked for, the outermost frame is there. -/
theorem withRoot_pos (s : Session) : 0 < (it.withRoot s).frames.length := by
  unfold withRoot
  split
  · simp
  · rename_i h
    exact List.length_pos_iff.mpr (by simpa using h)

theorem withRoot_of_pos {s : Session} (hs : 0 < s.frames.length) : it.withRoot s = s := by
  rw [withRoot, if_neg]
  simpa using List.length_pos_iff.mp hs

theorem foldl_withRoot (hdescend : descend.Runs) (blocks : List (List Token))
    (hs : 0 < s.frames.length) :
    blocks.foldl (fun s block => it.runBlock descend 0 (it.withRoot s) block) s =
      blocks.foldl (it.runBlock descend 0) s := by
  induction blocks generalizing s with
  | nil => rfl
  | cons block rest ih =>
      rw [List.foldl_cons, List.foldl_cons, withRoot_of_pos it hs]
      exact ih (runs_runBlock it hdescend hs block).inRange

/-- How a line runs the lines nested in it, with `left` levels left for them. -/
def below (left : Nat) : Descend :=
  fun line child s => it.runLine left line (some child) s

theorem runLine_succ (left : Nat) (text : Text) (i : Nat) (s : Session) :
    it.runLine (left + 1) text (some i) s =
      (Block.ofTokens (Token.tokenize (it.expandLine s (some i) text))).foldl
        (it.runBlock (it.below left) i) s := rfl

/-- Every nested line is a run in its frame, whatever the levels left. -/
theorem below_runs (left : Nat) : (it.below left).Runs := by
  induction left with
  | zero =>
      intro line child s hchild
      exact (Session.Runs.start hchild).cutOff it.options.maxDepth line
  | succ left ih =>
      intro line child s hchild
      rw [below, runLine_succ]
      exact runs_foldl it ih _ hchild

theorem runs_runLine (left : Nat) (text : Text) (hi : i < s.frames.length) :
    Session.Runs i s (it.runLine left text (some i) s) :=
  it.below_runs left text i s hi

/-- The outermost line runs in frame 0, which is pushed if the line has any block. -/
theorem runLine_succ_none (left : Nat) (text : Text) (s : Session) {block : List Token}
    {rest : List (List Token)}
    (hblocks : Block.ofTokens (Token.tokenize (it.expandLine s none text)) = block :: rest) :
    it.runLine (left + 1) text none s =
      (block :: rest).foldl (it.runBlock (it.below left) 0) (it.withRoot s) := by
  have hfirst := runs_runBlock it (it.below_runs left) (it.withRoot_pos s) block
  rw [runLine, hblocks, List.foldl_cons, List.foldl_cons]
  exact foldl_withRoot it (it.below_runs left) rest hfirst.inRange

end Interpreter

end BatchTrace
