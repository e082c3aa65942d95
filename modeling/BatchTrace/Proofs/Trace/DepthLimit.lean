/-
The depth limit only cuts branches.

Two runs of one line with different limits drift apart at the first line that only
one of them runs: from there on their frames have other indices and their records
other numbers.  What they keep in common is `Pruned`: the frame that each of them
is in reads and expands alike, and everything the lower limit has run so far, the
higher one has run too, in the same order.

A line that is cut off in one run is run in the other, in a frame of its own.  A
run is confined to its frame, so nothing it did there can be seen from the line
that it was nested in, and `Pruned` holds again when that line goes on.  When
nothing is cut off the two runs do not drift apart at all.
-/
import BatchTrace.Proofs.Trace.History
import BatchTrace.Proofs.Trace.Isolation

namespace BatchTrace

namespace Frame

/-- What the commands of a frame can see of it: everything but the commands themselves. -/
def scope (f : Frame) : Frame :=
  { f with commands := [] }

theorem scope_eq_iff {f g : Frame} :
    f.scope = g.scope ↔
      f.readable = g.readable ∧ f.assigned = g.assigned ∧ f.options = g.options := by
  simp [scope]

/-- `cmd` opens the same frame below two frames that look the same. -/
theorem forCmd_congr {f g : Frame} (h : f.scope = g.scope) (options : Switches) :
    forCmd (some f) options = forCmd (some g) options := by
  obtain ⟨-, hassigned, -⟩ := scope_eq_iff.mp h
  simp only [forCmd, Option.map_some, hassigned]

theorem forCall_congr {f g : Frame} (h : f.scope = g.scope) : forCall f = forCall g := by
  obtain ⟨hreadable, hassigned, hoptions⟩ := scope_eq_iff.mp h
  simp only [forCall, hreadable, hassigned, hoptions]

end Frame

namespace Session

/-- The texts of the commands that have run, in order. -/
def texts (s : Session) : List Text :=
  s.history.map (·.text)

theorem Numbered.texts_eq {s s' : Session} (h : s.Numbered) (hheld : s'.held = s.held)
    (hseq : s'.seq = s.seq) : s'.texts = s.texts := by
  rw [texts, texts, h.history_eq hheld hseq]

/-- The run that has come to `s`, in frame `i`, is the run that has come to `s'`, in frame `i'`,
with some branches left out. -/
structure Pruned (i i' : Nat) (s s' : Session) : Prop where
  inRange : i < s.frames.length
  inRange' : i' < s'.frames.length
  numbered : s.Numbered
  numbered' : s'.Numbered
  /-- The two frames look the same to the commands that run in them. -/
  scope : (s.frame i).scope = (s'.frame i').scope
  /-- What has run in `s` has run in `s'`. -/
  texts : s.texts.Sublist s'.texts

namespace Pruned

variable {i i' : Nat} {s s' : Session}

theorem assign (h : Pruned i i' s s') (name value : Text) :
    Pruned i i' (s.assign i name value) (s'.assign i' name value) where
  inRange := by simpa using h.inRange
  inRange' := by simpa using h.inRange'
  numbered := h.numbered.of_held_eq (held_assign s i name value) rfl
  numbered' := h.numbered'.of_held_eq (held_assign s' i' name value) rfl
  scope := by
    obtain ⟨hreadable, hassigned, hoptions⟩ := Frame.scope_eq_iff.mp h.scope
    rw [frame_assign_self h.inRange, frame_assign_self h.inRange', Frame.scope_eq_iff]
    exact ⟨hreadable, by rw [hassigned], hoptions⟩
  texts := by
    rw [h.numbered.texts_eq (held_assign s i name value) rfl,
      h.numbered'.texts_eq (held_assign s' i' name value) rfl]
    exact h.texts

theorem record (h : Pruned i i' s s') (name line : Text) (options : Switches) (text : Text) :
    Pruned i i' (s.record i name line options text) (s'.record i' name line options text) where
  inRange := by simpa using h.inRange
  inRange' := by simpa using h.inRange'
  numbered := h.numbered.record h.inRange name line options text
  numbered' := h.numbered'.record h.inRange' name line options text
  scope := by
    rw [frame_record_self h.inRange, frame_record_self h.inRange']
    exact h.scope
  texts := by
    rw [Session.texts, Session.texts, h.numbered.history_record h.inRange,
      h.numbered'.history_record h.inRange', List.map_append, List.map_append]
    exact h.texts.append (List.Sublist.refl _)

/-- Both runs open the same frame, each at the end of its own list of frames. -/
theorem push (h : Pruned i i' s s') {f : Frame} (hf : f.commands = []) :
    Pruned s.frames.length s'.frames.length (s.push f) (s'.push f) where
  inRange := by simp
  inRange' := by simp
  numbered := h.numbered.of_held_eq (held_push s hf) rfl
  numbered' := h.numbered'.of_held_eq (held_push s' hf) rfl
  scope := by rw [frame_push_self, frame_push_self]
  texts := by
    rw [h.numbered.texts_eq (held_push s hf) rfl, h.numbered'.texts_eq (held_push s' hf) rfl]
    exact h.texts

/-- When nested runs are over, the frames they were nested in are as they were. -/
theorem returned (h : Pruned i i' s s') {f f' : Frame} (hf : f.commands = [])
    (hf' : f'.commands = []) {t t' : Session} (ht : Runs s.frames.length (s.push f) t)
    (ht' : Runs s'.frames.length (s'.push f') t') (htexts : t.texts.Sublist t'.texts) :
    Pruned i i' t t' := by
  have hi : i < (s.push f).frames.length := by
    simpa using Nat.lt_succ_of_lt h.inRange
  have hi' : i' < (s'.push f').frames.length := by
    simpa using Nat.lt_succ_of_lt h.inRange'
  refine ⟨Nat.lt_of_lt_of_le hi ht.length_le, Nat.lt_of_lt_of_le hi' ht'.length_le, ?_, ?_, ?_,
    htexts⟩
  · exact (ht.numbered (h.numbered.of_held_eq (held_push s hf) rfl)).1
  · exact (ht'.numbered (h.numbered'.of_held_eq (held_push s' hf') rfl)).1
  · rw [ht.frame_eq hi (Nat.ne_of_lt h.inRange), ht'.frame_eq hi' (Nat.ne_of_lt h.inRange'),
      frame_push_of_lt h.inRange, frame_push_of_lt h.inRange']
    exact h.scope

end Pruned

end Session

namespace Interpreter

open Session

/-- The interpreter with another limit. -/
def withLimit (it : Interpreter) (d : Nat) : Interpreter :=
  { it with options := { it.options with maxDepth := d } }

theorem builtin_withLimit (options : Options) (d : Nat) :
    builtin { options with maxDepth := d } = (builtin options).withLimit d := by
  unfold builtin register
  dsimp only
  split <;> split <;> split <;> rfl

theorem runLine_withLimit_succ (it : Interpreter) (d left : Nat) (text : Text) (i : Nat)
    (s : Session) :
    (it.withLimit d).runLine (left + 1) text (some i) s =
      (Block.ofTokens (Token.tokenize (it.expandLine s (some i) text))).foldl
        (it.runBlock ((it.withLimit d).below left) i) s := rfl

/-! ### What one limit has run, a higher one has run too -/

/-- What the first way to run nested lines runs, the second runs too. -/
def Descend.Prunes (descend descend' : Descend) : Prop :=
  ∀ (line : Text) (child child' : Nat) (s s' : Session), Pruned child child' s s' →
    (descend line child s).texts.Sublist (descend' line child' s').texts

section

variable {it : Interpreter} {descend descend' : Descend} {i i' : Nat} {s s' : Session}

theorem pruned_runCmd (hruns : descend.Runs) (hruns' : descend'.Runs)
    (hprunes : descend.Prunes descend') (h : Pruned i i' s s') (c : Command) :
    Pruned i i' (it.runCmd descend i c s) (it.runCmd descend' i' c s') := by
  refine h.returned rfl rfl (runs_cmdFrame it hruns i c s) (runs_cmdFrame it hruns' i' c s') ?_
  have hopen := (h.push (f := cmdFrame i c s) rfl).record "cmd".toList
    (Text.trim (CmdArguments.ofTokens c.arguments).body)
    (CmdArguments.ofTokens c.arguments).switches c.text
  unfold runCmd
  dsimp only
  rw [← Frame.forCmd_congr h.scope]
  split
  · exact hopen.texts
  · split
    · exact hopen.texts
    · exact hprunes _ _ _ _ _ hopen

theorem pruned_runCall (hruns : descend.Runs) (hruns' : descend'.Runs)
    (hprunes : descend.Prunes descend') (h : Pruned i i' s s') (c : Command) :
    Pruned i i' (runCall descend i c s) (runCall descend' i' c s') := by
  refine h.returned rfl rfl (runs_callFrame hruns i c s) (runs_callFrame hruns' i' c s') ?_
  have hopen := (h.push (f := .forCall (s.frame i)) rfl).record "call".toList c.line [] c.text
  unfold runCall
  dsimp only
  rw [← Frame.forCall_congr h.scope]
  split
  · exact hopen.texts
  · exact hprunes _ _ _ _ _ hopen

theorem pruned_runSet (h : Pruned i i' s s') (c : Command) :
    Pruned i i' (runSet i c s) (runSet i' c s') := by
  unfold runSet
  cases Assignment.parse? c.setArguments with
  | none => exact h.record _ _ _ _
  | some assignment => exact (h.assign assignment.1 assignment.2).record _ _ _ _

theorem pruned_runGeneric (h : Pruned i i' s s') (c : Command) :
    Pruned i i' (runGeneric i c s) (runGeneric i' c s') := by
  unfold runGeneric
  split
  · exact h.record _ _ _ _
  · exact h.record _ _ _ _

/-- A block is the same command in both runs, since both frames expand it alike. -/
theorem pruned_runBlock (hruns : descend.Runs) (hruns' : descend'.Runs)
    (hprunes : descend.Prunes descend') (h : Pruned i i' s s') (block : List Token) :
    Pruned i i' (it.runBlock descend i s block) (it.runBlock descend' i' s' block) := by
  have hblock : it.delayedBlock (s.frame i) block = it.delayedBlock (s'.frame i') block := by
    show it.delayedBlock (s.frame i).scope block = it.delayedBlock (s'.frame i').scope block
    rw [h.scope]
  rw [runBlock, runBlock, hblock]
  cases Command.ofBlock? it.options.cleaning (it.delayedBlock (s'.frame i') block) with
  | none => exact h
  | some c =>
      dsimp only
      unfold runCommand
      cases it.handler c.program.name with
      | cmd => exact pruned_runCmd hruns hruns' hprunes h c
      | set => exact pruned_runSet h c
      | call => exact pruned_runCall hruns hruns' hprunes h c
      | generic => exact pruned_runGeneric h c

theorem pruned_foldl (hruns : descend.Runs) (hruns' : descend'.Runs)
    (hprunes : descend.Prunes descend') (h : Pruned i i' s s') (blocks : List (List Token)) :
    Pruned i i' (blocks.foldl (it.runBlock descend i) s)
      (blocks.foldl (it.runBlock descend' i') s') :=
  List.foldl_rel h fun block _ _ _ ht => pruned_runBlock hruns hruns' hprunes ht block

theorem expandLine_congr (h : Pruned i i' s s') (text : Text) :
    it.expandLine s (some i) text = it.expandLine s' (some i') text := by
  obtain ⟨hreadable, -, hoptions⟩ := Frame.scope_eq_iff.mp h.scope
  simp only [expandLine, Option.some_or, Frame.extensions, hreadable, hoptions]

end

/--
With more levels left, everything is run that is run with fewer.  By induction on
the lower number of levels: where it has none left it runs nothing, and the other
run can only add to what there is.
-/
theorem below_prunes (it : Interpreter) (d : Nat) {left left' : Nat} (hle : left ≤ left') :
    (it.below left).Prunes ((it.withLimit d).below left') := by
  induction left generalizing left' with
  | zero =>
      -- The line is cut off here.  The other run goes on in `child'`, and can only append.
      intro line child child' s s' h
      have hruns := (it.withLimit d).below_runs left' line child' s' h.inRange'
      exact h.texts.trans ((hruns.numbered h.numbered').2.sublist.map _)
  | succ left ih =>
      obtain ⟨left', rfl⟩ := Nat.exists_eq_add_of_lt hle
      intro line child child' s s' h
      rw [below, below, runLine_succ, runLine_withLimit_succ, expandLine_congr h]
      exact (pruned_foldl (it.below_runs left) ((it.withLimit d).below_runs _) (ih (by omega)) h
        _).texts

/-! ### A run in which nothing is cut off does not depend on the limit -/

/-- Where the first way to run nested lines cuts nothing off, the second does the same. -/
def Descend.Completes (descend descend' : Descend) : Prop :=
  ∀ (line : Text) (child : Nat) (s : Session), child < s.frames.length →
    (descend line child s).cutOffs = s.cutOffs → descend' line child s = descend line child s

section

variable {it : Interpreter} {descend descend' : Descend} {i : Nat} {s : Session}

theorem runCmd_of_complete (hsame : descend.Completes descend') (c : Command)
    (h : (it.runCmd descend i c s).cutOffs = s.cutOffs) :
    it.runCmd descend' i c s = it.runCmd descend i c s := by
  unfold runCmd at h ⊢
  dsimp only at h ⊢
  split at h
  · rename_i hempty
    rw [if_pos hempty, if_pos hempty]
  · rename_i hempty
    rw [if_neg hempty, if_neg hempty]
    split at h
    · rename_i hbare
      rw [if_pos hbare, if_pos hbare]
    · rename_i hbare
      rw [if_neg hbare, if_neg hbare]
      exact hsame _ _ _ (by simp) h

theorem runCall_of_complete (hsame : descend.Completes descend') (c : Command)
    (h : (runCall descend i c s).cutOffs = s.cutOffs) :
    runCall descend' i c s = runCall descend i c s := by
  unfold runCall at h ⊢
  dsimp only at h ⊢
  split at h
  · rename_i hempty
    rw [if_pos hempty, if_pos hempty]
  · rename_i hempty
    rw [if_neg hempty, if_neg hempty]
    exact hsame _ _ _ (by simp) h

theorem runBlock_of_complete (hsame : descend.Completes descend') (block : List Token)
    (h : (it.runBlock descend i s block).cutOffs = s.cutOffs) :
    it.runBlock descend' i s block = it.runBlock descend i s block := by
  unfold runBlock at h ⊢
  cases hc : Command.ofBlock? it.options.cleaning (it.delayedBlock (s.frame i) block) with
  | none => rfl
  | some c =>
      rw [hc] at h
      dsimp only at h ⊢
      unfold runCommand at h ⊢
      cases hh : it.handler c.program.name with
      | cmd =>
          rw [hh] at h
          exact runCmd_of_complete hsame c h
      | set => rfl
      | call =>
          rw [hh] at h
          exact runCall_of_complete hsame c h
      | generic => rfl

/-- If nothing is cut off in the end, nothing was cut off on the way. -/
theorem foldl_of_complete (hruns : descend.Runs) (hsame : descend.Completes descend')
    (blocks : List (List Token)) (hi : i < s.frames.length)
    (h : (blocks.foldl (it.runBlock descend i) s).cutOffs = s.cutOffs) :
    blocks.foldl (it.runBlock descend' i) s = blocks.foldl (it.runBlock descend i) s := by
  induction blocks generalizing s with
  | nil => rfl
  | cons block rest ih =>
      rw [List.foldl_cons] at h
      have hfirst := runs_runBlock it hruns hi block
      have hrest := runs_foldl it hruns rest hfirst.inRange
      -- Reports are never taken back, so there is none after the first block either.
      have hmid : (it.runBlock descend i s block).cutOffs = s.cutOffs :=
        (hfirst.cutOffs_grow.eq_of_length_le (h ▸ hrest.cutOffs_grow.length_le)).symm
      rw [List.foldl_cons, List.foldl_cons, runBlock_of_complete hsame block hmid]
      exact ih hfirst.inRange (h.trans hmid.symm)

end

theorem below_completes (it : Interpreter) (d : Nat) {left left' : Nat} (hle : left ≤ left') :
    (it.below left).Completes ((it.withLimit d).below left') := by
  induction left generalizing left' with
  | zero =>
      intro line child s _ h
      simp [below, runLine] at h
  | succ left ih =>
      obtain ⟨left', rfl⟩ := Nat.exists_eq_add_of_lt hle
      intro line child s hchild h
      rw [below, runLine_succ] at h
      rw [below, below, runLine_withLimit_succ, runLine_succ]
      exact foldl_of_complete (it.below_runs left) (ih (by omega)) _ hchild h

/-! ### Whole runs -/

theorem pruned_root (it : Interpreter) :
    Pruned 0 0 (it.withRoot .empty) (it.withRoot .empty) := by
  have hnum : (it.withRoot .empty).Numbered := numbered_empty
  exact ⟨it.withRoot_pos _, it.withRoot_pos _, hnum, hnum, rfl, List.Sublist.refl _⟩

theorem run_withLimit (it : Interpreter) {d : Nat} (hpos : 0 < it.options.maxDepth)
    (hle : it.options.maxDepth ≤ d) (text : Text) :
    (it.run text).texts.Sublist ((it.withLimit d).run text).texts ∧
      ((it.run text).cutOffs = [] → (it.withLimit d).run text = it.run text) := by
  obtain ⟨left, hleft⟩ := Nat.exists_eq_succ_of_ne_zero (Nat.ne_of_gt hpos)
  obtain ⟨left', hleft'⟩ :=
    Nat.exists_eq_succ_of_ne_zero (Nat.ne_of_gt (Nat.lt_of_lt_of_le hpos hle))
  have hlevels : left ≤ left' := by omega
  have hlimit : (it.withLimit d).options.maxDepth = left' + 1 := hleft'
  unfold run
  rw [hleft, hlimit]
  cases hblocks : Block.ofTokens (Token.tokenize (it.expandLine .empty none text)) with
  | nil =>
      have hnone : ∀ (it' : Interpreter) (n : Nat),
          Block.ofTokens (Token.tokenize (it'.expandLine .empty none text)) = [] →
          it'.runLine (n + 1) text none .empty = .empty := by
        intro it' n hnil
        rw [runLine, hnil]
        rfl
      rw [hnone it left hblocks, hnone (it.withLimit d) left' hblocks]
      exact ⟨List.Sublist.refl _, fun _ => rfl⟩
  | cons block rest =>
      rw [runLine_succ_none it left text .empty hblocks,
        runLine_succ_none (it.withLimit d) left' text .empty hblocks]
      have hruns := it.below_runs left
      constructor
      · exact (pruned_foldl hruns ((it.withLimit d).below_runs left')
          (it.below_prunes d hlevels) it.pruned_root _).texts
      · intro hcomplete
        exact foldl_of_complete hruns (it.below_completes d hlevels) _ (it.withRoot_pos _) hcomplete

end Interpreter

/--
**The depth limit only cuts branches.**  Whatever is run with a limit of `d` is run,
in the same order, with any higher limit too; and if nothing was cut off at `d`, a
higher limit gives the very same result.
-/
theorem interpret_depth_limit (options : Options) (text : Text) {d d' : Nat} (hd : 1 ≤ d)
    (hle : d ≤ d') :
    ∃ r r', interpret { options with maxDepth := d } text = .ok r ∧
      interpret { options with maxDepth := d' } text = .ok r' ∧
      r.commands.Sublist r'.commands ∧ (r.cutOffs = [] → r' = r) := by
  have hok : ∀ n, 1 ≤ n → interpret { options with maxDepth := n } text =
      .ok (((Interpreter.builtin options).withLimit n).interpret text) := by
    intro n hn
    rw [interpret, Interpreter.new, if_neg (Nat.ne_of_gt hn), Interpreter.builtin_withLimit]
    rfl
  obtain ⟨htexts, hsame⟩ :=
    Interpreter.run_withLimit ((Interpreter.builtin options).withLimit d) (d := d') hd hle text
  refine ⟨_, _, hok d hd, hok d' (Nat.le_trans hd hle), htexts, ?_⟩
  intro hcomplete
  exact congrArg Session.finish (hsame hcomplete)

/-- One level cuts off the line below `cmd`, and what stands after it still runs.  Two levels cut
nothing off, so three give the same. -/
theorem interpret_depth_limit_nested :
    let text := "cmd /c calc&notepad".toList
    (1 ≤ 1 ∧ 1 ≤ 2 ∧ ∃ r r', interpret { maxDepth := 1 } text = .ok r ∧
      interpret { maxDepth := 2 } text = .ok r' ∧ r.cutOffs ≠ [] ∧
      r.commands.Sublist r'.commands) ∧
    (1 ≤ 2 ∧ 2 ≤ 3 ∧ ∃ r r', interpret { maxDepth := 2 } text = .ok r ∧
      interpret { maxDepth := 3 } text = .ok r' ∧ r.cutOffs = [] ∧ r' = r) := by
  intro text
  have hcut : (interpret { maxDepth := 1 } text).toOption.map (·.cutOffs.length) = some 1 := by
    decide +kernel
  have hcomplete : (interpret { maxDepth := 2 } text).toOption.map (·.cutOffs.length) = some 0 := by
    decide +kernel
  constructor
  · obtain ⟨r, r', hr, hr', hsublist, -⟩ :=
      interpret_depth_limit {} text (show 1 ≤ 1 by decide) (show 1 ≤ 2 by decide)
    refine ⟨by decide, by decide, r, r', hr, hr', ?_, hsublist⟩
    intro hnil
    rw [show interpret { maxDepth := 1 } text = .ok r from hr] at hcut
    simp [Except.toOption, hnil] at hcut
  · obtain ⟨r, r', hr, hr', -, hsame⟩ :=
      interpret_depth_limit {} text (show 1 ≤ 2 by decide) (show 2 ≤ 3 by decide)
    have hnil : r.cutOffs = [] := by
      rw [show interpret { maxDepth := 2 } text = .ok r from hr] at hcomplete
      simpa [Except.toOption] using hcomplete
    exact ⟨by decide, by decide, r, r', hr, hr', hnil, hsame hnil⟩

end BatchTrace
