/-
The trace explains the variables.

Everything that is ever assigned is assigned by a `set`, and a `set` is recorded
with its arguments in the frame that it assigns in.  So the assigned table of a
frame can be found again from the frame's records: start from the table that the
frame was opened with and make the assignments of the recorded `set` lines.

Tables are handed from frame to frame when one is opened, and frames are opened and
written to in any order.  What keeps the two sides together is that an act writes
to one frame only, where it adds the record and the assignment at once, and that no
readable table ever changes, so that it does not matter when a callee looks at the
table of its caller.
-/
import BatchTrace.Proofs.Trace.Callers
import BatchTrace.Proofs.Trace.Nesting

namespace BatchTrace

namespace Record

/-- The table after a record: changed if it is of a `set` whose line is an assignment. -/
def assignTo (table : Variables) (r : Record) : Variables :=
  if r.name = "set".toList then
    match Assignment.parse? r.line with
    | some (name, value) => table.set name value
    | none => table
  else table

/-- The table after some records, one after the other. -/
def replay (table : Variables) (rs : List Record) : Variables :=
  rs.foldl assignTo table

theorem replay_concat (table : Variables) (rs : List Record) (r : Record) :
    replay table (rs ++ [r]) = assignTo (replay table rs) r := by
  rw [replay, List.foldl_concat]
  rfl

end Record

namespace Frame

open Record

/-- What the assigned table of a frame was when the frame was opened, given its caller.  It was
empty, unless the frame was opened by a `call`: then it was what the caller reads. -/
inductive StartsFrom (frames : List Frame) (f : Frame) : Option Nat → Variables → Prop
  | root : StartsFrom frames f none .empty
  | cmd {i : Nat} {first : Record} (hfirst : f.commands.head? = some first)
      (hname : first.name = "cmd".toList) : StartsFrom frames f (some i) .empty
  | call {i : Nat} {first : Record} {caller : Frame} (hfirst : f.commands.head? = some first)
      (hname : first.name = "call".toList) (hcaller : frames[i]? = some caller) :
      StartsFrom frames f (some i) caller.readable

/-- The assigned table of a frame is the replay of its records. -/
def IsReplay (frames : List Frame) (caller : Option Nat) (f : Frame) : Prop :=
  ∃ table, StartsFrom frames f caller table ∧ f.assigned = replay table f.commands

/-- What a frame was opened with does not depend on what happens afterwards. -/
theorem StartsFrom.mono {frames frames' : List Frame} {f f' : Frame} {caller : Option Nat}
    {table : Variables} (h : StartsFrom frames f caller table)
    (hframes : ∀ (i : Nat) (g : Frame), frames[i]? = some g →
      ∃ g', frames'[i]? = some g' ∧ g'.readable = g.readable)
    (hcommands : f.commands <+: f'.commands) : StartsFrom frames' f' caller table := by
  have hhead : ∀ r, f.commands.head? = some r → f'.commands.head? = some r := by
    obtain ⟨more, hmore⟩ := hcommands
    intro r hr
    rw [← hmore, List.head?_append, hr]
    rfl
  cases h with
  | root => exact .root
  | cmd hfirst hname => exact .cmd (hhead _ hfirst) hname
  | call hfirst hname hcaller =>
      obtain ⟨g', hg', hreadable⟩ := hframes _ _ hcaller
      rw [← hreadable]
      exact .call (hhead _ hfirst) hname hg'

/-- The frame with one more record, and with the assignment that the record stands for. -/
def extend (r : Record) (f : Frame) : Frame :=
  { f with assigned := assignTo f.assigned r, commands := f.commands ++ [r] }

theorem IsReplay.extend {frames frames' : List Frame} {caller : Option Nat} {f : Frame}
    (h : IsReplay frames caller f)
    (hframes : ∀ (i : Nat) (g : Frame), frames[i]? = some g →
      ∃ g', frames'[i]? = some g' ∧ g'.readable = g.readable) (r : Record) :
    IsReplay frames' caller (f.extend r) := by
  obtain ⟨table, hstart, hassigned⟩ := h
  refine ⟨table, hstart.mono hframes (List.prefix_append _ _), ?_⟩
  rw [Frame.extend, replay_concat, ← hassigned]

end Frame

namespace Session

open BatchTrace.Frame Record

/-- Every assigned table is the replay of the records of its frame. -/
structure Explained (s : Session) (callers : List (Option Nat)) : Prop where
  length : callers.length = s.frames.length
  replayed : ∀ (j : Nat) (f : Frame) (caller : Option Nat), s.frames[j]? = some f →
    callers[j]? = some caller → IsReplay s.frames caller f

variable {s s' : Session} {callers : List (Option Nat)}

/-- A record may be added to a frame together with its assignment. -/
theorem Explained.extend (h : s.Explained callers) {i : Nat} {r : Record}
    (hframes : s'.frames = s.frames.modify i (Frame.extend r)) : s'.Explained callers := by
  have hread : ∀ (j : Nat) (g : Frame), s.frames[j]? = some g →
      ∃ g', s'.frames[j]? = some g' ∧ g'.readable = g.readable := by
    intro j g hg
    rw [hframes, List.getElem?_modify, hg]
    by_cases hij : i = j
    · exact ⟨g.extend r, by simp [hij], rfl⟩
    · exact ⟨g, by simp [hij], rfl⟩
  refine ⟨by rw [h.length, hframes, List.length_modify], ?_⟩
  intro j f caller hf hcaller
  rw [hframes, List.getElem?_modify] at hf
  obtain ⟨g, hg, hfg⟩ := Option.map_eq_some_iff.mp hf
  have hreplay := h.replayed j g caller hg hcaller
  by_cases hij : i = j
  · rw [if_pos hij] at hfg
    rw [← hfg]
    exact hreplay.extend hread r
  · rw [if_neg hij] at hfg
    obtain ⟨table, hstart, hassigned⟩ := hreplay
    rw [← hfg]
    exact ⟨table, hstart.mono hread (List.prefix_refl _), hassigned⟩

/-- A frame may be added that is a replay of its own records. -/
theorem Explained.opened (h : s.Explained callers) {i : Nat} {f : Frame}
    (hframes : s'.frames = s.frames ++ [f]) (hf : IsReplay s'.frames (some i) f) :
    s'.Explained (callers ++ [some i]) := by
  have hread : ∀ (j : Nat) (g : Frame), s.frames[j]? = some g →
      ∃ g', s'.frames[j]? = some g' ∧ g'.readable = g.readable := by
    intro j g hg
    refine ⟨g, ?_, rfl⟩
    rw [hframes, List.getElem?_append_left (List.getElem?_eq_some_iff.mp hg).1]
    exact hg
  refine ⟨by rw [hframes, List.length_append, List.length_append, h.length]; rfl, ?_⟩
  intro j g caller hg hcaller
  rw [hframes] at hg
  rcases getElem?_concat_cases hg with ⟨hj, hold⟩ | ⟨rfl, rfl⟩
  · rw [List.getElem?_append_left (by rw [h.length]; exact hj)] at hcaller
    obtain ⟨table, hstart, hassigned⟩ := h.replayed j g caller hold hcaller
    exact ⟨table, hstart.mono hread (List.prefix_refl _), hassigned⟩
  · have hcaller' : some i = caller := by simpa [← h.length] using hcaller
    rw [← hcaller']
    exact hf

end Session

namespace Interpreter

open Session BatchTrace.Frame Record

/-! ### One act -/

theorem frames_runSet (i : Nat) (c : Command) (s : Session) :
    (runSet i c s).frames =
      s.frames.modify i (Frame.extend ⟨"set".toList, c.setArguments, [], c.text, s.seq⟩) := by
  unfold runSet
  cases hparse : Assignment.parse? c.setArguments with
  | none =>
      dsimp only
      rw [frames_record]
      congr 1
      funext f
      simp [Frame.extend, assignTo, hparse]
  | some assignment =>
      dsimp only
      rw [frames_record, frames_assign, List.modify_modify_eq]
      congr 1
      funext f
      simp [Frame.extend, assignTo, hparse]

/-- A record that is not of a `set` assigns nothing. -/
theorem frames_record_of_ne {name : Text} (hname : name ≠ "set".toList) (s : Session) (i : Nat)
    (line : Text) (options : Switches) (text : Text) :
    (s.record i name line options text).frames =
      s.frames.modify i (Frame.extend ⟨name, line, options, text, s.seq⟩) := by
  rw [frames_record]
  congr 1
  funext f
  simp only [Frame.extend, assignTo, if_neg hname]

theorem explained_openCmd {s : Session} {callers : List (Option Nat)} (h : s.Explained callers)
    (i : Nat) (c : Command) : (openCmd i c s).Explained (callers ++ [some i]) := by
  refine h.opened (frames_record_push s _ _ _ _ _) ⟨.empty, .cmd rfl rfl, ?_⟩
  rfl

theorem explained_openCall {s : Session} {callers : List (Option Nat)} (h : s.Explained callers)
    {i : Nat} (hi : i < s.frames.length) (c : Command) :
    (openCall i c s).Explained (callers ++ [some i]) := by
  have hframes := frames_record_push s (.forCall (s.frame i)) "call".toList c.line [] c.text
  refine h.opened hframes ⟨(s.frame i).readable, .call rfl rfl ?_, rfl⟩
  show ((s.push _).record _ _ _ _ _).frames[i]? = _
  rw [hframes, List.getElem?_append_left hi, frame_eq_getElem hi, List.getElem?_eq_getElem hi]

/-- One act keeps the tables explained, if what is only recorded is never named `set`. -/
theorem explained_act {it : Interpreter}
    (hgeneric : ∀ name, it.handler name = .generic → name ≠ "set".toList) (i : Nat) (c : Command)
    (s : Session) (callers : List (Option Nat)) (hi : i < s.frames.length)
    (h : s.Explained callers) : (it.act i c s).Explained (callers ++ it.opening i c) := by
  unfold act opening
  cases hhandler : it.handler c.program.name with
  | cmd =>
      have hopen := explained_openCmd h i c
      dsimp only
      split
      · exact ⟨hopen.length, hopen.replayed⟩
      · exact hopen
  | call => exact explained_openCall h hi c
  | set =>
      rw [List.append_nil]
      exact h.extend (frames_runSet i c s)
  | generic =>
      dsimp only
      rw [List.append_nil]
      unfold runGeneric
      split
      · exact h.extend (frames_record_of_ne (hgeneric _ hhandler) s i _ _ _)
      · exact h.extend (frames_record_of_ne (by decide) s i _ _ _)

/-! ### Whole runs -/

theorem explained_empty : Session.empty.Explained [] := by
  refine ⟨rfl, ?_⟩
  intro j f caller hf
  simp [Session.empty] at hf

theorem explained_root (it : Interpreter) : (it.withRoot .empty).Explained [none] := by
  refine ⟨rfl, ?_⟩
  intro j f caller hf hcaller
  have hframes : (it.withRoot .empty).frames = [rootFrame it.options] := rfl
  cases j with
  | zero =>
      obtain rfl : rootFrame it.options = f := by simpa [hframes] using hf
      obtain rfl : none = caller := by simpa using hcaller
      exact ⟨.empty, .root, rfl⟩
  | succ j => simp [hframes] at hf

theorem explained_run (options : Options) (hdepth : options.maxDepth ≠ 0)
    (hpass : options.passthrough = []) (text : Text) :
    ((builtin options).run text).Explained ((builtin options).callers text) := by
  refine keeps_run ?_ ?_ (by simpa using hdepth) explained_empty (explained_root _) text
  · intro i c t callers hi ht
    exact explained_act (fun _ => ne_set_of_handler_builtin hpass) i c t callers hi ht
  · intro t line callers ht
    exact ⟨ht.length, ht.replayed⟩

end Interpreter

/--
**The trace explains the variables.**  Whatever is run, the assigned table of every
frame, with the spelling and the order of its entries, comes from replaying the
assignments of the frame's own `set` records.  The replay starts from nothing in the
outermost frame and in frames that `cmd` opened, and from what the caller reads in
frames that `call` opened.
-/
theorem interpret_assigned_replay (options : Options) (text : Text)
    (hdepth : 1 ≤ options.maxDepth) (hpass : options.passthrough = []) :
    let callers := (Interpreter.builtin options).callers text
    ∃ r, interpret options text = .ok r ∧ callers.length = r.frames.length ∧
      ∀ (j : Nat) (f : Frame) (caller : Option Nat), r.frames.reverse[j]? = some f →
        callers[j]? = some caller → f.IsReplay r.frames.reverse caller := by
  intro callers
  have hlimit : options.maxDepth ≠ 0 := Nat.ne_of_gt hdepth
  have h := Interpreter.explained_run options hlimit hpass text
  have hframes : ((Interpreter.builtin options).interpret text).frames.reverse =
      ((Interpreter.builtin options).run text).frames := List.reverse_reverse _
  refine ⟨_, interpret_eq_ok hlimit text, h.length.trans List.length_reverse.symm, ?_⟩
  rw [hframes]
  exact h.replayed

/-- A `call` below a `cmd`: the frame of the `cmd` assigns twice, the second time by another
spelling, and the frame of the `call` starts from what the frame of the `cmd` reads. -/
theorem interpret_assigned_replay_call :
    let options : Options := {}
    let text := "set a=1&cmd /c \"set b=2&set B=3&call set c=4\"".toList
    let callers := (Interpreter.builtin options).callers text
    (1 ≤ options.maxDepth ∧ options.passthrough = [] ∧ callers = [none, some 0, some 1]) ∧
    ∃ r, interpret options text = .ok r ∧
      r.frames.reverse.map (·.assigned.toList) =
        [[("a".toList, "1".toList)], [("b".toList, "3".toList)],
          [("a".toList, "1".toList), ("c".toList, "4".toList)]] ∧
      ∀ (j : Nat) (f : Frame) (caller : Option Nat), r.frames.reverse[j]? = some f →
        callers[j]? = some caller → f.IsReplay r.frames.reverse caller := by
  intro options text callers
  have htables : (interpret options text).toOption.map
      (fun r => r.frames.reverse.map (·.assigned.toList)) =
      some [[("a".toList, "1".toList)], [("b".toList, "3".toList)],
        [("a".toList, "1".toList), ("c".toList, "4".toList)]] := by decide +kernel
  obtain ⟨r, hr, -, hreplay⟩ := interpret_assigned_replay options text (by decide) rfl
  rw [hr] at htables
  exact ⟨⟨by decide, rfl, by decide +kernel⟩, r, hr, by simpa [Except.toOption] using htables,
    hreplay⟩

end BatchTrace
