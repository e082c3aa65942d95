/-
How records and frames fit together.

Frames are opened by `cmd` and `call` and by nothing else, and the command that
opens a frame is the first to be recorded in it.  So the records can be read as a
tree without being told which frame is below which: every frame but the outermost
begins with the one record that stands for it.

All of this is about records only, frame by frame, and those change in just two
ways.  A record that opens nothing is added to a log that is there, or a log is
added that has one record, which does.  Both keep `Nested`, and a run is a sequence
of acts, so it is an invariant of runs.
-/
import BatchTrace.Proofs.Trace.History
import BatchTrace.Proofs.Trace.Moves

namespace BatchTrace

namespace Record

/-- Is this the record of a command that opens a frame? -/
def opens (r : Record) : Bool :=
  r.name = "cmd".toList || r.name = "call".toList

/-- The first record is that of a command that opens a frame, and no other one is. -/
def Headed (log : List Record) : Prop :=
  ∃ first rest, log = first :: rest ∧ first.opens = true ∧ ∀ r ∈ rest, r.opens = false

theorem Headed.concat {log : List Record} (h : Headed log) {r : Record} (hr : r.opens = false) :
    Headed (log ++ [r]) := by
  obtain ⟨first, rest, rfl, hfirst, hrest⟩ := h
  refine ⟨first, rest ++ [r], rfl, hfirst, ?_⟩
  intro x hx
  rcases List.mem_append.mp hx with hx | hx
  · exact hrest x hx
  · rw [List.mem_singleton.mp hx]
    exact hr

theorem Headed.head?_concat {log : List Record} (h : Headed log) (r : Record) :
    (log ++ [r]).head? = log.head? := by
  obtain ⟨first, rest, rfl, -, -⟩ := h
  rfl

theorem Headed.countP {log : List Record} (h : Headed log) : log.countP opens = 1 := by
  obtain ⟨first, rest, rfl, hfirst, hrest⟩ := h
  rw [List.countP_cons_of_pos hfirst, List.countP_eq_zero.mpr (by simpa using hrest)]

end Record

namespace Session

open Record

/-- The records of each frame. -/
def logs (s : Session) : List (List Record) :=
  s.frames.map (·.commands)

theorem length_logs (s : Session) : s.logs.length = s.frames.length :=
  List.length_map _

theorem held_eq_flatten (s : Session) : s.held = s.logs.flatten :=
  List.flatMap_def

/-- Every frame but the outermost is opened by its first record, and they were opened in the order
in which they stand. -/
structure Nested (s : Session) : Prop where
  numbered : s.Numbered
  increasing : ∀ log ∈ s.logs, log.Pairwise fun a b => a.seq < b.seq
  root : ∀ log ∈ s.logs.head?, ∀ r ∈ log, r.opens = false
  headed : ∀ log ∈ s.logs.tail, Headed log
  order : (s.logs.tail.filterMap List.head?).Pairwise fun a b => a.seq < b.seq

theorem Numbered.seq_lt {s : Session} (h : s.Numbered) {log : List Record} (hlog : log ∈ s.logs)
    {r : Record} (hr : r ∈ log) : r.seq < s.seq := by
  have hheld : r ∈ s.held := by
    rw [held_eq_flatten]
    exact List.mem_flatten.mpr ⟨log, hlog, hr⟩
  exact List.mem_range.mp (h.mem_iff.mp (List.mem_map_of_mem hheld))

namespace Nested

variable {s s' : Session}

theorem of_logs_eq (h : s.Nested) (hlogs : s'.logs = s.logs) (hseq : s'.seq = s.seq) :
    s'.Nested := by
  have hheld : s'.held = s.held := by rw [held_eq_flatten, held_eq_flatten, hlogs]
  refine ⟨h.numbered.of_held_eq hheld hseq, ?_, ?_, ?_, ?_⟩
  · rw [hlogs]; exact h.increasing
  · rw [hlogs]; exact h.root
  · rw [hlogs]; exact h.headed
  · rw [hlogs]; exact h.order

theorem logs_modify {g : Frame → Frame} {k : List Record → List Record}
    (h : ∀ f, (g f).commands = k f.commands) (frames : List Frame) (i : Nat) :
    (frames.modify i g).map (·.commands) = (frames.map (·.commands)).modify i k := by
  induction frames generalizing i with
  | nil => simp
  | cons f rest ih =>
      cases i with
      | zero => simp [h]
      | succ i => simp [ih]

theorem assign (h : s.Nested) (i : Nat) (name value : Text) : (s.assign i name value).Nested := by
  refine h.of_logs_eq ?_ rfl
  have hmodify : (s.assign i name value).logs = s.logs.modify i id := by
    rw [logs, frames_assign]
    exact logs_modify (by intro f; rfl) s.frames i
  rw [hmodify, List.modify_id]

/-- What holds of every log still does after one of them has grown, if it does of that one. -/
theorem forall_grown {P : List Record → Prop} {before after : List (List Record)}
    {log log' : List Record} (h : ∀ l ∈ before ++ log :: after, P l) (hlog : P log → P log') :
    ∀ l ∈ before ++ log' :: after, P l := by
  intro l hl
  rcases List.mem_append.mp hl with hl | hl
  · exact h l (by simp [hl])
  · rcases List.mem_cons.mp hl with rfl | hl
    · exact hlog (h log (by simp))
    · exact h l (by simp [hl])

/-- A record that opens nothing may be added to any log. -/
theorem record (h : s.Nested) {i : Nat} (hi : i < s.frames.length) {name line : Text}
    {options : Switches} {text : Text}
    (hopens : (Record.mk name line options text s.seq).opens = false) :
    (s.record i name line options text).Nested := by
  have hlogs : (s.record i name line options text).logs =
      s.logs.modify i (· ++ [⟨name, line, options, text, s.seq⟩]) := by
    rw [logs, frames_record]
    exact logs_modify (by intro f; rfl) s.frames i
  obtain ⟨before, log, after, hsplit, -, hmodify⟩ :=
    List.exists_of_modify (· ++ [Record.mk name line options text s.seq])
      (by rwa [length_logs] : i < s.logs.length)
  rw [hmodify] at hlogs
  have hlog : log ∈ s.logs := by rw [hsplit]; simp
  obtain ⟨hnumbered, hincreasing, hroot, hheaded, horder⟩ := h
  rw [hsplit] at hincreasing hroot hheaded horder
  refine ⟨hnumbered.record hi name line options text, ?_, ?_, ?_, ?_⟩
  · rw [hlogs]
    refine forall_grown hincreasing fun hinc => ?_
    -- The new number is the highest one so far.
    refine List.pairwise_append.mpr ⟨hinc, List.pairwise_singleton _ _, ?_⟩
    intro a ha b hb
    rw [List.mem_singleton.mp hb]
    exact hnumbered.seq_lt hlog ha
  · rw [hlogs]
    cases before with
    | nil =>
        intro l hl r hr
        obtain rfl : log ++ [⟨name, line, options, text, s.seq⟩] = l := by simpa using hl
        rcases List.mem_append.mp hr with hr | hr
        · exact hroot log (by simp) r hr
        · rw [List.mem_singleton.mp hr]
          exact hopens
    | cons outermost more => exact hroot
  · rw [hlogs]
    cases before with
    | nil => exact hheaded
    | cons outermost more => exact forall_grown hheaded fun hlog => hlog.concat hopens
  · rw [hlogs]
    cases before with
    | nil => exact horder
    | cons outermost more =>
        -- This log has a first record already, which stays the first.
        have hhead := (hheaded log (by simp)).head?_concat ⟨name, line, options, text, s.seq⟩
        simpa [List.filterMap_cons, hhead] using horder

/-- A log may be added for a command that opens a frame. -/
theorem opened (h : s.Nested) (hs : 0 < s.frames.length) {f : Frame} (hf : f.commands = [])
    {name line : Text} {options : Switches} {text : Text}
    (hopens : (Record.mk name line options text s.seq).opens = true) :
    ((s.push f).record s.frames.length name line options text).Nested := by
  have hlogs : ((s.push f).record s.frames.length name line options text).logs =
      s.logs ++ [[⟨name, line, options, text, s.seq⟩]] := by
    rw [logs, Interpreter.frames_record_push, List.map_append, hf]
    rfl
  have hne : s.logs ≠ [] := by
    rw [← List.length_pos_iff, length_logs]
    exact hs
  have hpushed : (s.push f).Numbered := h.numbered.of_held_eq (held_push s hf) rfl
  refine ⟨hpushed.record (by simp) name line options text, ?_, ?_, ?_, ?_⟩
  · intro l hl
    rw [hlogs] at hl
    rcases List.mem_append.mp hl with hl | hl
    · exact h.increasing l hl
    · rw [List.mem_singleton.mp hl]
      exact List.pairwise_singleton _ _
  · rw [hlogs, List.head?_append_of_ne_nil _ hne]
    exact h.root
  · rw [hlogs, List.tail_append_of_ne_nil hne]
    intro l hl
    rcases List.mem_append.mp hl with hl | hl
    · exact h.headed l hl
    · rw [List.mem_singleton.mp hl]
      exact ⟨_, [], rfl, hopens, by simp⟩
  · rw [hlogs, List.tail_append_of_ne_nil hne, List.filterMap_append]
    refine List.pairwise_append.mpr ⟨h.order, by simp, ?_⟩
    intro a ha b hb
    obtain ⟨log, hlog, hhead⟩ := List.mem_filterMap.mp ha
    obtain rfl : b = ⟨name, line, options, text, s.seq⟩ := by simpa using hb
    exact h.numbered.seq_lt (List.mem_of_mem_tail hlog) (List.mem_of_mem_head? hhead)

end Nested

end Session

namespace Interpreter

open Session

variable {it : Interpreter} {s : Session}

/-- One act keeps the records nested, if what is only recorded is neither `cmd` nor `call`. -/
theorem nested_act
    (hgeneric : ∀ name, it.handler name = .generic →
      name ≠ "cmd".toList ∧ name ≠ "call".toList)
    {i : Nat} (hi : i < s.frames.length) (c : Command) (h : s.Nested) : (it.act i c s).Nested := by
  have hpos : 0 < s.frames.length := Nat.zero_lt_of_lt hi
  unfold act
  cases hhandler : it.handler c.program.name with
  | cmd =>
      have hopen : (openCmd i c s).Nested := h.opened hpos rfl rfl
      dsimp only
      split
      · exact hopen.of_logs_eq rfl rfl
      · exact hopen
  | call => exact h.opened hpos rfl rfl
  | set =>
      dsimp only
      unfold runSet
      cases Assignment.parse? c.setArguments with
      | none => exact h.record hi rfl
      | some assignment =>
          exact (h.assign i assignment.1 assignment.2).record (by simpa using hi) rfl
  | generic =>
      dsimp only
      unfold runGeneric
      split
      · obtain ⟨hcmd, hcall⟩ := hgeneric _ hhandler
        refine h.record hi ?_
        simp only [Record.opens, hcmd, hcall]
        rfl
      · exact h.record hi rfl

theorem nested_root (it : Interpreter) : (it.withRoot .empty).Nested where
  numbered := numbered_empty
  increasing := by
    intro log hlog
    obtain rfl : log = [] := List.mem_singleton.mp hlog
    exact List.Pairwise.nil
  root := by
    intro log hlog
    obtain rfl : [] = log := Option.some.inj hlog
    simp
  headed := by
    intro log hlog
    exact absurd hlog List.not_mem_nil
  order := List.Pairwise.nil

theorem nested_empty : Session.empty.Nested where
  numbered := numbered_empty
  increasing := by
    intro log hlog
    exact absurd hlog List.not_mem_nil
  root := by
    intro log hlog
    exact absurd hlog (Option.not_mem_none log)
  headed := by
    intro log hlog
    exact absurd hlog List.not_mem_nil
  order := List.Pairwise.nil

theorem register_of_empty {it : Interpreter} (h : it.options.passthrough = []) (name : Text)
    (handler : Handler) :
    it.register name handler =
      { it with handlers := (Text.lower name, handler) :: it.handlers } := by
  simp [register, h]

/-- Where nothing is exempted, three programs have handlers. -/
theorem handlers_builtin {options : Options} (hpass : options.passthrough = []) :
    (builtin options).handlers =
      [("call".toList, .call), ("set".toList, .set), ("cmd".toList, .cmd)] := by
  have hlower : Text.lower "cmd".toList = "cmd".toList ∧ Text.lower "set".toList = "set".toList ∧
      Text.lower "call".toList = "call".toList := by decide +kernel
  unfold builtin
  dsimp only
  rw [register_of_empty (by simpa using hpass), register_of_empty (by simpa using hpass),
    register_of_empty (by exact hpass), hlower.1, hlower.2.1, hlower.2.2]

/-- Where nothing is exempted, every program but the three that have handlers is only recorded. -/
theorem handler_builtin {options : Options} (hpass : options.passthrough = []) {name : Text}
    (h : (builtin options).handler name = .generic) :
    name ≠ "cmd".toList ∧ name ≠ "call".toList := by
  constructor
  · rintro rfl
    rw [handler, handlers_builtin hpass] at h
    exact absurd h (by decide)
  · rintro rfl
    rw [handler, handlers_builtin hpass] at h
    exact absurd h (by decide)

theorem ne_set_of_handler_builtin {options : Options} (hpass : options.passthrough = [])
    {name : Text} (h : (builtin options).handler name = .generic) : name ≠ "set".toList := by
  rintro rfl
  rw [handler, handlers_builtin hpass] at h
  exact absurd h (by decide)

theorem nested_run (options : Options) (hdepth : options.maxDepth ≠ 0)
    (hpass : options.passthrough = []) (text : Text) : ((builtin options).run text).Nested := by
  rcases run_cases (builtin options) (by simpa using hdepth) text with hnone | hmoves
  · rw [hnone]
    exact nested_empty
  · refine hmoves.keeps ?_ ?_ (nested_root _)
    · intro i c t hi ht
      exact nested_act (fun _ => handler_builtin hpass) hi c ht
    · intro t line ht
      exact ht.of_logs_eq rfl rfl

end Interpreter

namespace Interpretation

open Record

/-- The records of a result are numbered in the order in which they were made, and its frames are
opened by their first records. -/
structure WellNested (r : Interpretation) : Prop where
  /-- The numbers of all records are 0, 1, 2 and so on, each of them once. -/
  numbers : ((r.frames.flatMap (·.commands)).map (·.seq)).Perm (List.range r.records.length)
  increasing : ∀ f ∈ r.frames, f.commands.Pairwise fun a b => a.seq < b.seq
  /-- There is one frame for each command that opens one, and the outermost. -/
  count : r.frames ≠ [] → r.frames.length = 1 + r.records.countP opens
  /-- The outermost frame stands last. -/
  root : ∀ f ∈ r.frames.getLast?, ∀ x ∈ f.commands, x.opens = false
  headed : ∀ f ∈ r.frames.dropLast, Headed f.commands
  /-- The frame that was opened last stands first. -/
  order : (r.frames.dropLast.filterMap (·.commands.head?)).Pairwise fun a b => b.seq < a.seq

end Interpretation

namespace Session

open Record

theorem countP_flatten_of_headed {logs : List (List Record)} (h : ∀ log ∈ logs, Headed log) :
    logs.flatten.countP opens = logs.length := by
  induction logs with
  | nil => rfl
  | cons log rest ih =>
      rw [List.flatten_cons, List.countP_append, (h log (by simp)).countP,
        ih fun l hl => h l (by simp [hl]), List.length_cons]
      omega

/-- Each opened frame has one record that opens a frame, and the outermost has none. -/
theorem Nested.length_frames {s : Session} (h : s.Nested) (hs : s.frames ≠ []) :
    s.frames.length = 1 + s.held.countP opens := by
  have hroot := h.root
  have hheaded := h.headed
  rw [held_eq_flatten, ← length_logs]
  cases hlogs : s.logs with
  | nil => exact absurd (List.map_eq_nil_iff.mp hlogs) hs
  | cons outermost rest =>
      rw [hlogs] at hroot hheaded
      have hnone : outermost.countP opens = 0 :=
        List.countP_eq_zero.mpr (by simpa using hroot outermost rfl)
      have hrest : rest.flatten.countP opens = rest.length := countP_flatten_of_headed hheaded
      rw [List.flatten_cons, List.countP_append, hnone, hrest, List.length_cons]
      omega

theorem Nested.finish {s : Session} (h : s.Nested) : s.finish.WellNested := by
  have hframes : s.finish.frames = s.frames.reverse := rfl
  have hrecords : s.finish.records.Perm s.held := s.history_perm
  refine ⟨?_, ?_, ?_, ?_, ?_, ?_⟩
  · have hlength : s.finish.records.length = s.seq := by
      have hseq := congrArg List.length h.numbered.seq_history
      rwa [List.length_map, List.length_range] at hseq
    have hheld : (s.finish.frames.flatMap (·.commands)).Perm s.held :=
      (List.reverse_perm s.frames).flatMap_right _
    rw [hlength]
    exact (hheld.map _).trans h.numbered
  · intro f hf
    exact h.increasing f.commands (List.mem_map_of_mem (List.mem_reverse.mp hf))
  · intro hne
    have hs : s.frames ≠ [] := by simpa [hframes] using hne
    rw [hframes, List.length_reverse, hrecords.countP_eq, h.length_frames hs]
  · intro f hf
    rw [hframes, List.getLast?_reverse] at hf
    refine h.root f.commands ?_
    rw [logs, List.head?_map, Option.mem_def.mp hf]
    rfl
  · intro f hf
    rw [hframes, List.dropLast_reverse, List.mem_reverse] at hf
    refine h.headed f.commands ?_
    rw [logs, ← List.map_tail]
    exact List.mem_map_of_mem hf
  · have horder := h.order
    rw [logs, ← List.map_tail, List.filterMap_map] at horder
    rw [hframes, List.dropLast_reverse, List.filterMap_reverse, List.pairwise_reverse]
    exact horder

end Session

/--
**The records of a result are laid out like the calls of the run.**  Their numbers
are the numbers from 0 on, increasing in every frame.  Every frame but the outermost
starts with the `cmd` or `call` that opened it and has no other one, the outermost
has none at all, so there is one frame more than there are such records; and the
frames stand in the order in which they were opened, the last one first.
-/
theorem interpret_wellNested (options : Options) (text : Text) (hdepth : 1 ≤ options.maxDepth)
    (hpass : options.passthrough = []) :
    ∃ r, interpret options text = .ok r ∧ r.WellNested := by
  have hlimit : options.maxDepth ≠ 0 := Nat.ne_of_gt hdepth
  exact ⟨_, interpret_eq_ok hlimit text,
    (Interpreter.nested_run options hlimit hpass text).finish⟩

/-- Two commands below the outermost frame open a frame each, and the second of them opens another
one. -/
theorem interpret_wellNested_calls :
    let text := "set a=1&cmd&call cmd /c calc&notepad".toList
    1 ≤ ({} : Options).maxDepth ∧ ({} : Options).passthrough = [] ∧
      ∃ r, interpret {} text = .ok r ∧ r.frames.length = 4 ∧ r.WellNested := by
  intro text
  have hfour : (interpret {} text).toOption.map (·.frames.length) = some 4 := by decide +kernel
  obtain ⟨r, hr, hnested⟩ := interpret_wellNested {} text (by decide) rfl
  rw [hr] at hfour
  exact ⟨by decide, rfl, r, hr, by simpa [Except.toOption] using hfour, hnested⟩

end BatchTrace
