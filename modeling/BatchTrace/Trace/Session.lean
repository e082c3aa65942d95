/-
Sessions: the state of one run.

Frames are only ever added at the end of the list, so the index of a frame stays
the same throughout a run.
-/
import BatchTrace.Trace.Event
import BatchTrace.Trace.Frame

namespace BatchTrace

/-- A line that was not run because it was nested too deeply. -/
structure CutOff where
  limit : Nat
  line : Text
deriving DecidableEq, Repr

namespace CutOff

/-- What is said about a line that was not run. -/
def message (c : CutOff) : Text :=
  "recursion depth limit ".toList ++ Nat.toDigits 10 c.limit ++ " exceeded at: ".toList ++ c.line

end CutOff

/-- The state of a run. -/
structure Session where
  /-- The frames in the order in which they were opened. -/
  frames : List Frame := []
  /-- The lines that were not run, in order. -/
  cutOffs : List CutOff := []
  /-- How many commands have run. -/
  seq : Nat := 0
  /-- What there is to report. -/
  events : List Event := []
deriving DecidableEq, Repr

namespace Session

/-- The state before anything has run. -/
def empty : Session := {}

/-- The frame with index `i`. -/
def frame (s : Session) (i : Nat) : Frame :=
  (s.frames[i]?).getD .empty

/-- The session with one more event. -/
def note (s : Session) (e : Event) : Session :=
  { s with events := s.events ++ [e] }

/-- The session with one more frame, whose index is the number of frames before. -/
def push (s : Session) (f : Frame) : Session :=
  { s with frames := s.frames ++ [f] }.note (.entered s.frames.length)

/-- The session with one more command in frame `i`. -/
def record (s : Session) (i : Nat) (name line : Text) (options : Switches) (text : Text) :
    Session :=
  { s.note (.ran i name line) with
    frames := s.frames.modify i fun f =>
      { f with commands := f.commands ++ [⟨name, line, options, text, s.seq⟩] }
    seq := s.seq + 1 }

/-- The session after an assignment in frame `i`. -/
def assign (s : Session) (i : Nat) (name value : Text) : Session :=
  { s.note (.assigned i name value) with
    frames := s.frames.modify i fun f => { f with assigned := f.assigned.set name value } }

/-- The session after a line that was not run. -/
def cutOff (s : Session) (limit : Nat) (line : Text) : Session :=
  { s.note (.cutOff limit line) with cutOffs := s.cutOffs ++ [⟨limit, line⟩] }

end Session

/-- The result of a run. -/
structure Interpretation where
  /-- The frames, the last one opened first. -/
  frames : List Frame
  /-- The lines that were not run, in order. -/
  cutOffs : List CutOff
deriving DecidableEq, Repr

namespace Interpretation

/-- The commands that ran, in order. -/
def records (r : Interpretation) : List Record :=
  (r.frames.flatMap (·.commands)).mergeSort fun a b => a.seq ≤ b.seq

/-- The texts of the commands that ran. -/
def commands (r : Interpretation) : List Text :=
  r.records.map (·.text)

/-- The programs that ran. -/
def names (r : Interpretation) : List Text :=
  r.records.map (·.name)

/-- Was every line run? -/
def isComplete (r : Interpretation) : Bool :=
  r.cutOffs.isEmpty

/-- The event that sums up the run of an input. -/
def summary (r : Interpretation) (input : Text) : Event :=
  .summary input r.frames.length r.cutOffs.length r.commands

end Interpretation

/-- The result of a finished run. -/
def Session.finish (s : Session) : Interpretation :=
  ⟨s.frames.reverse, s.cutOffs⟩

end BatchTrace
