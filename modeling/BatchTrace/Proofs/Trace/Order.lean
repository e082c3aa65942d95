/-
Every command is traced, in the order of the line.

Records are kept in the frames they belong to, so the trace of a line has to be put
together again from all of them.  What comes out is what a reader of the line would
write down: each command in turn, and right after it whatever the line below it
runs.

One command adds its own text to the history and then the texts that its nested
line records, if it runs one (`texts_runCommand`); the trace of a line is the fold
of that.  Without delayed expansion the commands are known beforehand: they are the
blocks of the expanded line that cleaning leaves anything of.
-/
import BatchTrace.Proofs.Trace.DepthLimit
import BatchTrace.Proofs.Trace.Moves

namespace BatchTrace

namespace Session

/-- The records of `s'` that have been made since `s`. -/
def since (s s' : Session) : List Record :=
  s'.history.filter fun r => s.seq ≤ r.seq

/-- A run appends to the history what has been recorded since it began. -/
theorem Runs.texts_since {i : Nat} {s s' : Session} (hruns : Runs i s s') (h : s.Numbered) :
    s'.texts = s.texts ++ (s.since s').map (·.text) := by
  obtain ⟨hnumbered, extra, hextra⟩ := hruns.numbered h
  have hnodup : ((s.history ++ extra).map (·.seq)).Nodup := by
    rw [hextra, hnumbered.seq_history]
    exact List.nodup_range
  rw [List.map_append, h.seq_history] at hnodup
  have hdisjoint := (List.nodup_append.mp hnodup).2.2
  -- The numbers below the counter are used up by what was there before.
  have hold : s.history.filter (fun r => s.seq ≤ r.seq) = [] := by
    refine List.filter_eq_nil_iff.mpr ?_
    intro r hr
    have hlt : r.seq ∈ List.range s.seq := by
      rw [← h.seq_history]
      exact List.mem_map_of_mem hr
    simpa using List.mem_range.mp hlt
  have hnew : extra.filter (fun r => s.seq ≤ r.seq) = extra := by
    refine List.filter_eq_self.mpr ?_
    intro r hr
    have hnot : ¬ r.seq < s.seq := by
      intro hlt
      exact hdisjoint _ (List.mem_range.mpr hlt) _ (List.mem_map_of_mem hr) rfl
    simpa using Nat.le_of_not_lt hnot
  rw [since, texts, texts, ← hextra, List.filter_append, hold, hnew, List.nil_append,
    List.map_append]

theorem history_of_held_nil {s : Session} (h : s.held = []) : s.history = [] := by
  have hperm := s.history_perm
  rw [h] at hperm
  exact hperm.eq_nil

theorem texts_of_held_nil {s : Session} (h : s.held = []) : s.texts = [] := by
  rw [texts, history_of_held_nil h]
  rfl

/-- A new frame begins with the record of the command that opens it. -/
theorem Numbered.history_opened {s : Session} (h : s.Numbered) {f : Frame} (hf : f.commands = [])
    (name line : Text) (options : Switches) (text : Text) :
    ((s.push f).record s.frames.length name line options text).history =
      s.history ++ [⟨name, line, options, text, s.seq⟩] := by
  have hpushed : (s.push f).Numbered := h.of_held_eq (held_push s hf) rfl
  rw [hpushed.history_record (by simp), h.history_eq (held_push s hf) rfl]
  rfl

end Session

namespace Interpreter

open Session

variable (it : Interpreter) {i : Nat} {s : Session}

/-! ### One command -/

/-- What a command is recorded as, with the number `n`. -/
def entry (it : Interpreter) (c : Command) (n : Nat) : Record :=
  match it.handler c.program.name with
  | .cmd =>
      ⟨"cmd".toList, c.body, (CmdArguments.ofTokens c.arguments).switches, c.text, n⟩
  | .call => ⟨"call".toList, c.line, [], c.text, n⟩
  | .set => ⟨"set".toList, c.setArguments, [], c.text, n⟩
  | .generic =>
      if c.program.isIdentified then ⟨c.program.name, c.line, [], c.text, n⟩
      else ⟨[], c.text, [], c.text, n⟩

/-- A command makes one record of itself. -/
theorem history_act (h : s.Numbered) (hi : i < s.frames.length) (c : Command) :
    (it.act i c s).history = s.history ++ [it.entry c s.seq] := by
  unfold act entry
  cases it.handler c.program.name with
  | cmd =>
      have hopen : (openCmd i c s).history = s.history ++
          [⟨"cmd".toList, c.body, (CmdArguments.ofTokens c.arguments).switches, c.text, s.seq⟩] :=
        h.history_opened rfl _ _ _ _
      dsimp only
      split
      · exact hopen
      · exact hopen
  | call => exact h.history_opened rfl _ _ _ _
  | set =>
      dsimp only
      unfold runSet
      cases Assignment.parse? c.setArguments with
      | none => exact h.history_record hi _ _ _ _
      | some assignment =>
          have hassign : (s.assign i assignment.1 assignment.2).Numbered :=
            h.of_held_eq (held_assign s i _ _) rfl
          dsimp only
          rw [hassign.history_record (by simpa using hi), h.history_eq (held_assign s i _ _) rfl]
          rfl
  | generic =>
      dsimp only
      unfold runGeneric
      split
      · exact h.history_record hi _ _ _ _
      · exact h.history_record hi _ _ _ _

@[simp] theorem text_entry (c : Command) (n : Nat) : (it.entry c n).text = c.text := by
  unfold entry
  cases it.handler c.program.name with
  | generic =>
      dsimp only
      split <;> rfl
  | _ => rfl

theorem texts_act (h : s.Numbered) (hi : i < s.frames.length) (c : Command) :
    (it.act i c s).texts = s.texts ++ [c.text] := by
  rw [texts, texts, it.history_act h hi c, List.map_append, List.map_singleton, text_entry]

/-- The commands that the line below a command records, with `left` levels left for it.  The
command runs in frame `i`. -/
def recordedBelow (it : Interpreter) (left i : Nat) (c : Command) (s : Session) : List Text :=
  match it.nestedLine? c with
  | some line =>
      let opened := it.act i c s
      (opened.since (it.runLine left line (some s.frames.length) opened)).map (·.text)
  | none => []

/-- Only `cmd` and `call` run a line below themselves. -/
theorem recordedBelow_eq_nil {left : Nat} {c : Command} (hcmd : it.handler c.program.name ≠ .cmd)
    (hcall : it.handler c.program.name ≠ .call) : it.recordedBelow left i c s = [] := by
  have hnone : it.nestedLine? c = none := by
    unfold nestedLine?
    cases hhandler : it.handler c.program.name with
    | cmd => exact absurd hhandler hcmd
    | call => exact absurd hhandler hcall
    | set => rfl
    | generic => rfl
  rw [recordedBelow, hnone]

theorem numbered_act (h : s.Numbered) (hi : i < s.frames.length) (c : Command) :
    (it.act i c s).Numbered := by
  -- An act is what running the command comes to when nested lines do nothing.
  have hidle : Descend.Runs fun _ _ t => t := fun _ _ _ hchild => .start hchild
  have hact : it.act i c s = it.runCommand (fun _ _ t => t) i c s := by
    rw [runCommand_eq]
    cases it.nestedLine? c <;> rfl
  rw [hact]
  exact ((runs_runCommand it hidle hi c).numbered h).1

/-- **A command is followed by what runs below it.** -/
theorem texts_runCommand (left : Nat) (h : s.Numbered) (hi : i < s.frames.length) (c : Command) :
    (it.runCommand (it.below left) i c s).texts =
      s.texts ++ c.text :: it.recordedBelow left i c s := by
  have hact := it.texts_act h hi c
  rw [runCommand_eq, recordedBelow]
  cases hline : it.nestedLine? c with
  | none => exact hact
  | some line =>
      have hruns := it.below_runs left line _ _ (it.length_lt_act hline i s)
      dsimp only
      rw [hruns.texts_since (it.numbered_act h hi c), hact, List.append_assoc]
      rfl

/-! ### Some commands in a row -/

/-- The session after some commands have run in frame `i`. -/
def runCommands (it : Interpreter) (left i : Nat) (cs : List Command) (s : Session) : Session :=
  cs.foldl (fun s c => it.runCommand (it.below left) i c s) s

/-- What the lines below some commands record, command by command. -/
def bodies (it : Interpreter) (left i : Nat) : List Command → Session → List (List Text)
  | [], _ => []
  | c :: rest, s =>
      it.recordedBelow left i c s ::
        bodies it left i rest (it.runCommand (it.below left) i c s)

theorem length_bodies (left i : Nat) (cs : List Command) (s : Session) :
    (it.bodies left i cs s).length = cs.length := by
  induction cs generalizing s with
  | nil => rfl
  | cons c rest ih => rw [bodies, List.length_cons, List.length_cons, ih]

/-- The line below a command starts from the session that the commands before it leave. -/
theorem getElem?_bodies (left i : Nat) (cs : List Command) (s : Session) (j : Nat) :
    (it.bodies left i cs s)[j]? =
      cs[j]?.map fun c => it.recordedBelow left i c (it.runCommands left i (cs.take j) s) := by
  induction cs generalizing s j with
  | nil => simp [bodies]
  | cons c rest ih =>
      cases j with
      | zero => rfl
      | succ j =>
          rw [bodies, List.getElem?_cons_succ, List.getElem?_cons_succ, ih]
          rfl

theorem texts_runCommands (left : Nat) (h : s.Numbered) (hi : i < s.frames.length)
    (cs : List Command) :
    (it.runCommands left i cs s).texts =
      s.texts ++
        (List.zipWith (fun c body => c.text :: body) cs (it.bodies left i cs s)).flatten := by
  induction cs generalizing s with
  | nil => simp [runCommands]
  | cons c rest ih =>
      have hruns := runs_runCommand it (it.below_runs left) hi c
      have hrest := ih (hruns.numbered h).1 hruns.inRange
      rw [it.texts_runCommand left h hi c, List.append_assoc] at hrest
      rw [bodies, List.zipWith_cons_cons, List.flatten_cons]
      exact hrest

/-! ### A line -/

/-- A frame without delayed expansion runs a line's blocks as they stand. -/
theorem foldl_runBlock (left : Nat) (hi : i < s.frames.length)
    (hdelayed : (s.frame i).delayedExpansion = false) (blocks : List (List Token)) :
    blocks.foldl (it.runBlock (it.below left) i) s =
      it.runCommands left i (blocks.filterMap (Command.ofBlock? it.options.cleaning)) s := by
  induction blocks generalizing s with
  | nil => rfl
  | cons block rest ih =>
      have hruns := runs_runBlock it (it.below_runs left) hi block
      have hkept : ((it.runBlock (it.below left) i s block).frame i).delayedExpansion = false := by
        obtain ⟨g, hg, hcont⟩ := hruns.confined.own hi
        rw [Session.frame, hg, Option.getD_some, Frame.delayedExpansion, hcont.options]
        exact hdelayed
      have hblock : it.delayedBlock (s.frame i) block = block := by
        simp [delayedBlock, hdelayed]
      rw [List.foldl_cons, ih hruns.inRange hkept, runBlock, hblock, List.filterMap_cons]
      cases Command.ofBlock? it.options.cleaning block with
      | none => rfl
      | some c => rfl

theorem delayedExpansion_rootFrame {options : Options} (h : options.delayedExpansion = false) :
    (rootFrame options).delayedExpansion = false := by
  unfold rootFrame
  rw [h]
  cases options.extensions <;> rfl

/-- Without delayed expansion a run from the start is a run of the commands of its blocks. -/
theorem run_eq_runCommands {left : Nat} (hlimit : it.options.maxDepth = left + 1)
    (hdelayed : it.options.delayedExpansion = false) {text : Text} {blocks : List (List Token)}
    (hblocks : Block.ofTokens (Token.tokenize (it.expandLine .empty none text)) = blocks) :
    it.run text =
      if blocks = [] then .empty
      else it.runCommands left 0 (blocks.filterMap (Command.ofBlock? it.options.cleaning))
        (it.withRoot .empty) := by
  have hframe : ((it.withRoot .empty).frame 0).delayedExpansion = false := by
    show (rootFrame it.options).delayedExpansion = false
    exact delayedExpansion_rootFrame hdelayed
  unfold run
  rw [hlimit]
  cases blocks with
  | nil =>
      rw [runLine, hblocks]
      rfl
  | cons block rest =>
      rw [it.runLine_succ_none left text .empty hblocks, if_neg (by simp),
        it.foldl_runBlock left (it.withRoot_pos _) hframe]

theorem texts_run {left : Nat} (hlimit : it.options.maxDepth = left + 1)
    (hdelayed : it.options.delayedExpansion = false) {text : Text} {blocks : List (List Token)}
    (hblocks : Block.ofTokens (Token.tokenize (it.expandLine .empty none text)) = blocks)
    {cs : List Command} (hcs : blocks.filterMap (Command.ofBlock? it.options.cleaning) = cs) :
    (it.run text).texts =
      (List.zipWith (fun c body => c.text :: body) cs
        (it.bodies left 0 cs (it.withRoot .empty))).flatten := by
  rw [it.run_eq_runCommands hlimit hdelayed hblocks, hcs]
  by_cases hnone : blocks = []
  · obtain rfl : [] = cs := by rw [← hcs, hnone]; rfl
    rw [if_pos hnone]
    exact texts_of_held_nil rfl
  · rw [if_neg hnone, it.texts_runCommands left it.pruned_root.numbered (it.withRoot_pos _) cs,
      texts_of_held_nil rfl, List.nil_append]

/-- The texts of the commands of some blocks: those that cleaning leaves something of. -/
theorem map_text_filterMap (cleaning : Cleaning) (blocks : List (List Token)) :
    (blocks.filterMap (Command.ofBlock? cleaning)).map (·.text) =
      (blocks.map fun block =>
        Text.trim (Token.stringify (Block.peel (cleaning.apply block)))).filter (· ≠ []) := by
  induction blocks with
  | nil => rfl
  | cons block rest ih =>
      have hcommand : Command.ofBlock? cleaning block =
          if (Text.trim (Token.stringify (Block.peel (cleaning.apply block)))).isEmpty then none
          else some ⟨Block.peel (cleaning.apply block),
            Program.identify (Block.peel (cleaning.apply block)),
            Text.trim (Token.stringify (Block.peel (cleaning.apply block)))⟩ := rfl
      rw [List.filterMap_cons, hcommand, List.map_cons]
      by_cases hempty : Text.trim (Token.stringify (Block.peel (cleaning.apply block))) = []
      · simpa [hempty] using ih
      · simpa [hempty] using ih

end Interpreter

/--
**The trace is complete and in order.**  Take the percent-expansion of a line and
let `cs` be the commands that cleaning leaves of its blocks.  Without delayed
expansion the result lists, for each of them in turn, its cleaned text and then what
the line below it records in the session that the commands before it have led to;
only `cmd` and `call` have such a line.
-/
theorem interpret_commands_in_order (options : Options) (text : Text)
    (hdepth : 1 ≤ options.maxDepth) (hdelayed : options.delayedExpansion = false) :
    let it := Interpreter.builtin options
    let left := options.maxDepth - 1
    let blocks :=
      Block.ofTokens (Token.tokenize (Expansion.expand ⟨'%', options.extensions⟩ options.vars text))
    let cs := blocks.filterMap (Command.ofBlock? options.cleaning)
    let before := fun j => it.runCommands left 0 (cs.take j) (it.withRoot .empty)
    cs.map (·.text) =
      (blocks.map fun block =>
        Text.trim (Token.stringify (Block.peel (options.cleaning.apply block)))).filter (· ≠ []) ∧
    ∃ (r : Interpretation) (bodies : List (List Text)),
      interpret options text = .ok r ∧
      (blocks ≠ [] → r = (before cs.length).finish) ∧
      r.commands = (List.zipWith (fun c body => c.text :: body) cs bodies).flatten ∧
      bodies.length = cs.length ∧
      ∀ (j : Nat) (c : Command) (body : List Text), cs[j]? = some c → bodies[j]? = some body →
        body = it.recordedBelow left 0 c (before j) ∧
        (it.handler c.program.name ≠ .cmd → it.handler c.program.name ≠ .call → body = []) := by
  intro it left blocks cs before
  have hoptions : it.options = options := Interpreter.options_builtin options
  have hlimit : it.options.maxDepth = left + 1 := by rw [hoptions]; omega
  have hdirect : it.options.delayedExpansion = false := by rw [hoptions]; exact hdelayed
  have hblocks : Block.ofTokens (Token.tokenize (it.expandLine .empty none text)) = blocks := by
    show Block.ofTokens (Token.tokenize
      (Expansion.expand ⟨'%', it.options.extensions⟩ it.options.vars text)) = blocks
    rw [hoptions]
  have hcs : blocks.filterMap (Command.ofBlock? it.options.cleaning) = cs := by rw [hoptions]
  refine ⟨Interpreter.map_text_filterMap _ _, (it.run text).finish,
    it.bodies left 0 cs (it.withRoot .empty), interpret_eq_ok (Nat.ne_of_gt hdepth) text, ?_,
    it.texts_run hlimit hdirect hblocks hcs, it.length_bodies left 0 cs _, ?_⟩
  · intro hne
    show _ = (it.runCommands left 0 (cs.take cs.length) _).finish
    rw [it.run_eq_runCommands hlimit hdirect hblocks, if_neg hne, hcs, List.take_length]
  · intro j c body hc hbody
    rw [Interpreter.getElem?_bodies, hc] at hbody
    obtain rfl : it.recordedBelow left 0 c (before j) = body := Option.some.inj hbody
    exact ⟨rfl, it.recordedBelow_eq_nil⟩

/-- Three commands, of which only the second has a line below it. -/
theorem interpret_commands_in_order_nested :
    let text := "echo %x% & cmd /c \"a & b\" & calc".toList
    let options : Options := { vars := .ofList [("x".toList, "1".toList)] }
    let cs := ["echo 1".toList, "cmd /c \"a & b\"".toList, "calc".toList]
    1 ≤ options.maxDepth ∧ options.delayedExpansion = false ∧
    ∃ (r : Interpretation) (bodies : List (List Text)),
      interpret options text = .ok r ∧ (r.frames.flatMap (·.commands)).length = 5 ∧
      bodies.length = 3 ∧
      r.commands = (List.zipWith (fun c body => c :: body) cs bodies).flatten := by
  intro text options cs
  obtain ⟨htexts, r, bodies, hr, -, hcommands, hlength, -⟩ :=
    interpret_commands_in_order options text (by decide) rfl
  have hfive : (interpret options text).toOption.map
      (fun r => (r.frames.flatMap (·.commands)).length) = some 5 := by
    decide +kernel
  have hcs : (Block.ofTokens (Token.tokenize
      (Expansion.expand ⟨'%', true⟩ options.vars text))).filterMap
        (fun block => (Command.ofBlock? options.cleaning block).map (·.text)) = cs := by
    decide +kernel
  rw [← List.map_filterMap] at hcs
  rw [hr] at hfive
  refine ⟨by decide, rfl, r, bodies, hr, by simpa [Except.toOption] using hfive, ?_, ?_⟩
  · rw [hlength, ← List.length_map (f := (·.text)), hcs]
    rfl
  · rw [hcommands, ← hcs, List.zipWith_map_left]

end BatchTrace
