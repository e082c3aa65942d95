/-
Every line that is cut off is reported, and reported once.

The level of a frame is how many frames it is below the outermost one.  A line is
run with so many levels left as its frame is short of the limit, so lines are cut
off in the frames at the limit and in no others.

By then the frame is there and the command that opened it is recorded in it, and a
command without a line to run does not come that far.  So what has to be reported
can be read off the frames afterwards: `Reported` says that the reports are just
these, in the order of the frames.  It holds whenever a command has ended, which is
why the induction goes by commands with the line below them and not by single acts.
-/
import BatchTrace.Proofs.Trace.Callers
import BatchTrace.Proofs.Trace.Nesting
import Mathlib.Data.List.Induction
import Mathlib.Data.List.ReduceOption

namespace BatchTrace

namespace Frame

/-! ### Levels -/

/-- The level of a frame with the given caller, if the frames before it have these levels. -/
def levelBelow (levels : List Nat) : Option Nat → Nat
  | some i => levels.getD i 0 + 1
  | none => 0

/-- The levels of frames with the given callers. -/
def levels (callers : List (Option Nat)) : List Nat :=
  callers.foldl (fun levels caller => levels ++ [levelBelow levels caller]) []

theorem levels_concat (callers : List (Option Nat)) (caller : Option Nat) :
    levels (callers ++ [caller]) = levels callers ++ [levelBelow (levels callers) caller] :=
  List.foldl_concat ..

theorem length_levels (callers : List (Option Nat)) : (levels callers).length = callers.length := by
  induction callers using List.reverseRecOn with
  | nil => rfl
  | append_singleton callers caller ih =>
      rw [levels_concat, List.length_append, List.length_append, ih]
      rfl

/-- A frame keeps its level when more frames are opened. -/
theorem getElem?_levels_append {callers : List (Option Nat)} {i level : Nat}
    (h : (levels callers)[i]? = some level) (more : List (Option Nat)) :
    (levels (callers ++ more))[i]? = some level := by
  induction more using List.reverseRecOn with
  | nil =>
      rw [List.append_nil]
      exact h
  | append_singleton more caller ih =>
      rw [← List.append_assoc, levels_concat,
        List.getElem?_append_left (List.getElem?_eq_some_iff.mp ih).1]
      exact ih

end Frame

namespace Interpreter

open Session BatchTrace.Frame

/-! ### What has to be reported -/

/-- The line that a command runs below itself, if it is a `cmd` or `call` with this record.  There
is none if it is empty, nor if `cmd` is to run just another `cmd`. -/
def recordedLine? (it : Interpreter) (r : Record) : Option Text :=
  if r.name = "cmd".toList then
    if (bodyLine r.line).isEmpty || it.isBareCmd (bodyLine r.line) then none
    else some (bodyLine r.line)
  else if r.line.isEmpty then none
  else some r.line

/-- What is reported about a frame of some level: at the limit, the line that its first command
should have run in it. -/
def report? (it : Interpreter) (f : Frame) (level : Nat) : Option CutOff :=
  if level = it.options.maxDepth then
    (f.commands.head?.bind it.recordedLine?).map (CutOff.mk it.options.maxDepth)
  else none

/-- The reports about some frames, in order. -/
def reports (it : Interpreter) (frames : List Frame) (levels : List Nat) : List CutOff :=
  (List.zipWith it.report? frames levels).reduceOption

variable {it : Interpreter} {s s' : Session} {callers : List (Option Nat)} {i level : Nat}

theorem report?_of_ne {f : Frame} (h : level ≠ it.options.maxDepth) :
    it.report? f level = none := by
  rw [report?, if_neg h]

theorem report?_of_eq {f : Frame} {first : Record} (h : level = it.options.maxDepth)
    (hfirst : f.commands = [first]) :
    it.report? f level = (it.recordedLine? first).map (CutOff.mk it.options.maxDepth) := by
  rw [report?, if_pos h, hfirst]
  rfl

theorem reports_concat {frames : List Frame} {levels : List Nat}
    (hlength : frames.length = levels.length) (f : Frame) (level : Nat) :
    it.reports (frames ++ [f]) (levels ++ [level]) =
      it.reports frames levels ++ (it.report? f level).toList := by
  rw [reports, List.zipWith_append hlength, List.zipWith_cons_cons, List.zipWith_nil_left,
    List.reduceOption_append]
  cases it.report? f level <;> rfl

/-- Nothing is reported about a frame below the limit, whatever it holds. -/
theorem reports_modify {frames : List Frame} {levels : List Nat}
    (hlevel : levels[i]? = some level) (hne : level ≠ it.options.maxDepth) (g : Frame → Frame) :
    it.reports (frames.modify i g) levels = it.reports frames levels := by
  have hzip : List.zipWith it.report? (frames.modify i g) levels =
      List.zipWith it.report? frames levels := by
    refine List.ext_getElem? fun j => ?_
    rw [List.getElem?_zipWith, List.getElem?_zipWith, List.getElem?_modify]
    by_cases hij : i = j
    · subst hij
      cases frames[i]? with
      | none => rfl
      | some f => simp [hlevel, report?_of_ne hne]
    · simp [hij]
  rw [reports, hzip, reports]

/-- Every frame is within the limit, nothing runs in one that is at the limit, and all of those that
have a line to run are reported. -/
structure Reported (it : Interpreter) (s : Session) (callers : List (Option Nat)) : Prop where
  length : callers.length = s.frames.length
  bounded : ∀ level ∈ levels callers, level ≤ it.options.maxDepth
  /-- A frame at the limit holds the command that opened it and no other. -/
  single : ∀ (j : Nat) (f : Frame), s.frames[j]? = some f →
    (levels callers)[j]? = some it.options.maxDepth →
      ∃ first, f.commands = [first] ∧ first.opens = true
  cutOffs : s.cutOffs = it.reports s.frames (levels callers)

/-- Below the limit a frame may change in any way. -/
theorem Reported.modify (h : it.Reported s callers) {g : Frame → Frame}
    (hframes : s'.frames = s.frames.modify i g) (hcutOffs : s'.cutOffs = s.cutOffs)
    (hlevel : (levels callers)[i]? = some level) (hlt : level < it.options.maxDepth) :
    it.Reported s' callers := by
  refine ⟨by rw [h.length, hframes, List.length_modify], h.bounded, ?_, ?_⟩
  · intro j f hf hj
    have hij : i ≠ j := by
      rintro rfl
      rw [hlevel] at hj
      exact Nat.ne_of_lt hlt (Option.some.inj hj)
    rw [hframes, List.getElem?_modify_ne _ _ hij] at hf
    exact h.single j f hf hj
  · rw [hcutOffs, hframes, reports_modify hlevel (Nat.ne_of_lt hlt), h.cutOffs]

/-- A frame may be opened if the limit allows it, and what there is to report about it is reported
at once. -/
theorem Reported.opened (h : it.Reported s callers) {f : Frame} {first : Record}
    (hframes : s'.frames = s.frames ++ [f]) (hfirst : f.commands = [first])
    (hopens : first.opens = true) (hlevel : (levels callers)[i]? = some level)
    (hlt : level < it.options.maxDepth)
    (hcutOffs : s'.cutOffs = s.cutOffs ++ (it.report? f (level + 1)).toList) :
    it.Reported s' (callers ++ [some i]) := by
  have hlevels : levels (callers ++ [some i]) = levels callers ++ [level + 1] := by
    rw [levels_concat, levelBelow, List.getD_eq_getElem?_getD, hlevel, Option.getD_some]
  have hsame : s.frames.length = (levels callers).length := by rw [length_levels, h.length]
  refine ⟨?_, ?_, ?_, ?_⟩
  · rw [hframes, List.length_append, List.length_append, h.length]
    rfl
  · rw [hlevels]
    intro l hl
    rcases List.mem_append.mp hl with hl | hl
    · exact h.bounded l hl
    · rw [List.mem_singleton.mp hl]
      exact hlt
  · intro j g hg hj
    rw [hframes] at hg
    rcases getElem?_concat_cases hg with ⟨hold, hgold⟩ | ⟨-, rfl⟩
    · rw [hlevels, List.getElem?_append_left (by rw [← hsame]; exact hold)] at hj
      exact h.single j g hgold hj
    · exact ⟨first, hfirst, hopens⟩
  · rw [hcutOffs, hframes, hlevels, reports_concat hsame, h.cutOffs]

/-! ### One command with the line below it -/

/-- A command that opens a frame records itself there with the line that it is going to run. -/
theorem act_opens {c : Command} (hopening : it.opening i c = [some i]) (s : Session) :
    ∃ f first, (it.act i c s).frames = s.frames ++ [f] ∧ f.commands = [first] ∧
      first.opens = true ∧ it.recordedLine? first = it.nestedLine? c ∧
      (it.act i c s).cutOffs = s.cutOffs := by
  unfold opening at hopening
  unfold act nestedLine?
  cases hhandler : it.handler c.program.name with
  | cmd =>
      have hframes := frames_record_push s (cmdFrame i c s) "cmd".toList c.body
        (CmdArguments.ofTokens c.arguments).switches c.text
      dsimp only
      split
      · exact ⟨_, _, hframes, rfl, rfl, rfl, rfl⟩
      · exact ⟨_, _, hframes, rfl, rfl, rfl, rfl⟩
  | call =>
      have hframes := frames_record_push s (.forCall (s.frame i)) "call".toList c.line [] c.text
      exact ⟨_, _, hframes, rfl, rfl, rfl, rfl⟩
  | set => simp [hhandler] at hopening
  | generic => simp [hhandler] at hopening

/-- Any other command writes to its own frame only, and runs no line. -/
theorem act_stays {c : Command} (hopening : it.opening i c ≠ [some i]) (s : Session) :
    it.opening i c = [] ∧ it.nestedLine? c = none ∧ (it.act i c s).cutOffs = s.cutOffs ∧
      ∃ g, (it.act i c s).frames = s.frames.modify i g := by
  unfold opening at hopening
  unfold opening act nestedLine?
  cases hhandler : it.handler c.program.name with
  | cmd => simp [hhandler] at hopening
  | call => simp [hhandler] at hopening
  | set =>
      refine ⟨rfl, rfl, ?_⟩
      dsimp only
      unfold runSet
      cases Assignment.parse? c.setArguments with
      | none => exact ⟨rfl, _, frames_record ..⟩
      | some assignment =>
          refine ⟨rfl, ?_⟩
          dsimp only
          rw [frames_record, frames_assign, List.modify_modify_eq]
          exact ⟨_, rfl⟩
  | generic =>
      refine ⟨rfl, rfl, ?_⟩
      dsimp only
      unfold runGeneric
      split
      · exact ⟨rfl, _, frames_record ..⟩
      · exact ⟨rfl, _, frames_record ..⟩

/-- What has to hold of the lines below a command.  With no level left there is nothing to ask: then
the line is only reported. -/
def KeepsReported (it : Interpreter) (left : Nat) : Prop :=
  ∀ (line : Text) (child level : Nat) (t : Session) (callers : List (Option Nat)),
    child < t.frames.length → (levels callers)[child]? = some level →
    level + left = it.options.maxDepth → 0 < left → it.Reported t callers →
      it.Reported (it.runLine left line (some child) t)
        (callers ++ it.lineCallers left line child t)

/-- At the limit, a command that opens a frame has its line cut off and reported right away. -/
theorem reported_opened_last (h : it.Reported s callers) {c : Command}
    (hopening : it.opening i c = [some i]) (hlevel : (levels callers)[i]? = some level)
    (hlimit : level + 1 = it.options.maxDepth) :
    it.Reported (it.runCommand (it.below 0) i c s)
      (callers ++ it.commandCallers (it.lineCallers 0) i c s) := by
  obtain ⟨f, first, hframes, hfirst, hopens, hline, hcutOffs⟩ := act_opens hopening s
  have hreport : it.report? f (level + 1) =
      (it.nestedLine? c).map (CutOff.mk it.options.maxDepth) := by
    rw [report?_of_eq hlimit hfirst, hline]
  rw [runCommand_eq, commandCallers, hopening]
  cases hnested : it.nestedLine? c with
  | none =>
      refine h.opened hframes hfirst hopens hlevel (by omega) ?_
      rw [hcutOffs, hreport, hnested]
      exact (List.append_nil _).symm
  | some line =>
      refine h.opened hframes hfirst hopens hlevel (by omega) ?_
      rw [hreport, hnested, ← hcutOffs]
      rfl

/-- Before the limit, a command that opens a frame has nothing to report itself. -/
theorem reported_opened_before {left : Nat} (hbelow : it.KeepsReported (left + 1))
    (h : it.Reported s callers) {c : Command}
    (hopening : it.opening i c = [some i]) (hlevel : (levels callers)[i]? = some level)
    (hlimit : level + (left + 1) + 1 = it.options.maxDepth) :
    it.Reported (it.runCommand (it.below (left + 1)) i c s)
      (callers ++ it.commandCallers (it.lineCallers (left + 1)) i c s) := by
  obtain ⟨f, first, hframes, hfirst, hopens, -, hcutOffs⟩ := act_opens hopening s
  have hact : it.Reported (it.act i c s) (callers ++ [some i]) := by
    refine h.opened hframes hfirst hopens hlevel (by omega) ?_
    rw [hcutOffs, report?_of_ne (by omega)]
    exact (List.append_nil _).symm
  rw [runCommand_eq, commandCallers, hopening, ← List.append_assoc]
  cases hnested : it.nestedLine? c with
  | none =>
      rw [List.append_nil]
      exact hact
  | some line =>
      have hchild : (levels (callers ++ [some i]))[s.frames.length]? = some (level + 1) := by
        rw [levels_concat, levelBelow, List.getD_eq_getElem?_getD, hlevel, Option.getD_some,
          ← h.length, ← length_levels callers, List.getElem?_concat_length]
      exact hbelow line _ (level + 1) _ _ (it.length_lt_act hnested i s) hchild (by omega)
        (by omega) hact

theorem reported_runCommand {left : Nat} (hbelow : it.KeepsReported left)
    (h : it.Reported s callers) (hlevel : (levels callers)[i]? = some level)
    (hlimit : level + left + 1 = it.options.maxDepth) (c : Command) :
    it.Reported (it.runCommand (it.below left) i c s)
      (callers ++ it.commandCallers (it.lineCallers left) i c s) := by
  by_cases hopening : it.opening i c = [some i]
  · cases left with
    | zero => exact reported_opened_last h hopening hlevel hlimit
    | succ left => exact reported_opened_before hbelow h hopening hlevel hlimit
  · obtain ⟨hnone, hnested, hcutOffs, g, hframes⟩ := act_stays hopening s
    rw [runCommand_eq, commandCallers, hnone, hnested, List.append_nil, List.append_nil]
    exact h.modify hframes hcutOffs hlevel (by omega)

/-! ### Lines -/

theorem reported_foldl {left : Nat} (hbelow : it.KeepsReported left) (h : it.Reported s callers)
    (hi : i < s.frames.length) (hlevel : (levels callers)[i]? = some level)
    (hlimit : level + left + 1 = it.options.maxDepth) (blocks : List (List Token)) :
    it.Reported (blocks.foldl (it.runBlock (it.below left) i) s)
      (callers ++ it.blockCallers (it.lineCallers left) (it.below left) i blocks s) := by
  induction blocks generalizing s callers with
  | nil =>
      rw [blockCallers, List.append_nil]
      exact h
  | cons block rest ih =>
      have hnext := (runs_runBlock it (it.below_runs left) hi block).inRange
      rw [List.foldl_cons, blockCallers, ← List.append_assoc]
      refine ih ?_ hnext (getElem?_levels_append hlevel _)
      unfold runBlock
      cases Command.ofBlock? it.options.cleaning (it.delayedBlock (s.frame i) block) with
      | none =>
          rw [List.append_nil]
          exact h
      | some c => exact reported_runCommand hbelow h hlevel hlimit c

theorem keepsReported (it : Interpreter) (left : Nat) : it.KeepsReported left := by
  induction left with
  | zero =>
      intro _ _ _ _ _ _ _ _ hpos
      exact absurd hpos (Nat.lt_irrefl 0)
  | succ left ih =>
      intro line child level t callers hchild hlevel hlimit _ ht
      rw [runLine_succ, lineCallers]
      exact reported_foldl ih ht hchild hlevel (by omega) _

/-! ### Whole runs -/

theorem reported_empty (it : Interpreter) : it.Reported .empty [] := by
  refine ⟨rfl, by simp [levels], ?_, rfl⟩
  intro j f hf
  simp [Session.empty] at hf

theorem reported_root (it : Interpreter) (hdepth : it.options.maxDepth ≠ 0) :
    it.Reported (it.withRoot .empty) [none] := by
  have hlevels : levels [none] = [0] := rfl
  refine ⟨rfl, by simp [hlevels], ?_, ?_⟩
  · intro j f _ hj
    rw [hlevels] at hj
    cases j with
    | zero => exact absurd (Option.some.inj hj).symm hdepth
    | succ j => simp at hj
  · have hroot : it.report? (rootFrame it.options) 0 = none := report?_of_ne (Ne.symm hdepth)
    show [] = (List.zipWith it.report? [rootFrame it.options] [0]).reduceOption
    simp [hroot]

theorem reported_run (it : Interpreter) (hdepth : it.options.maxDepth ≠ 0) (text : Text) :
    it.Reported (it.run text) (it.callers text) := by
  obtain ⟨left, hleft⟩ := Nat.exists_eq_succ_of_ne_zero hdepth
  obtain ⟨hrun, hcallers⟩ | ⟨blocks, hrun, hcallers⟩ := it.run_callers_cases hleft text
  · rw [hrun, hcallers]
    exact it.reported_empty
  · rw [hrun, hcallers]
    have hlevel : (levels [none])[0]? = some 0 := rfl
    have hlimit : 0 + left + 1 = it.options.maxDepth := by omega
    exact reported_foldl (it.keepsReported left) (it.reported_root hdepth) (it.withRoot_pos _)
      hlevel hlimit blocks

end Interpreter

/--
**Every cut-off is reported exactly once.**  The levels of the frames count from 0 in
the outermost frame, and one more for each `cmd` or `call` on the way.  None is above
the limit.  A frame at the limit holds the record of the command that opened it and
no other, and the reports are, frame by frame in the order of opening, the lines that
these commands should have run: all of them but the empty ones and a `cmd` that was
to run just another `cmd`.
-/
theorem interpret_cutOffs_reported (options : Options) (text : Text)
    (hdepth : 1 ≤ options.maxDepth) :
    let it := Interpreter.builtin options
    let levels := Frame.levels (it.callers text)
    ∃ r, interpret options text = .ok r ∧ levels.length = r.frames.length ∧
      (∀ level ∈ levels, level ≤ options.maxDepth) ∧
      (∀ (j : Nat) (f : Frame), r.frames.reverse[j]? = some f →
        levels[j]? = some options.maxDepth → ∃ first, f.commands = [first] ∧ first.opens = true) ∧
      r.cutOffs = (List.zip r.frames.reverse levels).filterMap fun (f, level) =>
        if level = options.maxDepth then
          (f.commands.head?.bind it.recordedLine?).map (CutOff.mk options.maxDepth)
        else none := by
  intro it levels
  have hlimit : options.maxDepth ≠ 0 := Nat.ne_of_gt hdepth
  have hoptions : it.options = options := Interpreter.options_builtin options
  have h := it.reported_run (by rw [hoptions]; exact hlimit) text
  have hframes : (it.interpret text).frames.reverse = (it.run text).frames :=
    List.reverse_reverse _
  refine ⟨it.interpret text, interpret_eq_ok hlimit text, ?_, ?_, ?_, ?_⟩
  · rw [Frame.length_levels, h.length]
    exact List.length_reverse.symm
  · have hbounded := h.bounded
    rwa [hoptions] at hbounded
  · have hsingle := h.single
    rw [hoptions] at hsingle
    rw [hframes]
    exact hsingle
  · have hcutOffs := h.cutOffs
    rw [hframes]
    refine Eq.trans hcutOffs ?_
    rw [Interpreter.reports, List.reduceOption, ← List.map_uncurry_zip_eq_zipWith,
      List.filterMap_map]
    refine List.filterMap_congr ?_
    rintro ⟨f, level⟩ -
    show it.report? f level = _
    rw [Interpreter.report?, hoptions]

/-- With two levels, two frames are at the limit.  The line of one of them is cut off, and the other
one is of a `cmd` that was to run just another `cmd`. -/
theorem interpret_cutOffs_reported_two :
    let options : Options := { maxDepth := 2 }
    let text := "cmd /c call calc&call cmd /c cmd&notepad".toList
    let it := Interpreter.builtin options
    let levels := Frame.levels (it.callers text)
    (1 ≤ options.maxDepth ∧ levels = [0, 1, 2, 1, 2]) ∧
    ∃ r, interpret options text = .ok r ∧ r.cutOffs = [⟨2, "calc".toList⟩] ∧
      levels.length = r.frames.length ∧ (∀ level ∈ levels, level ≤ 2) ∧
      (∀ (j : Nat) (f : Frame), r.frames.reverse[j]? = some f → levels[j]? = some 2 →
        ∃ first, f.commands = [first] ∧ first.opens = true) ∧
      r.cutOffs = (List.zip r.frames.reverse levels).filterMap fun (f, level) =>
        if level = 2 then (f.commands.head?.bind it.recordedLine?).map (CutOff.mk 2) else none := by
  intro options text it levels
  have hcut : (interpret options text).toOption.map (·.cutOffs) = some [⟨2, "calc".toList⟩] := by
    decide +kernel
  obtain ⟨r, hr, hreported⟩ := interpret_cutOffs_reported options text (by decide)
  rw [hr] at hcut
  exact ⟨⟨by decide, by decide +kernel⟩, r, hr, by simpa [Except.toOption] using hcut, hreported⟩

end BatchTrace
