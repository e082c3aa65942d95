/-
Lines without references.

A text without percent signs and exclamation marks is its own expansion in every frame,
so the commands it consists of are known beforehand, and so are the lines that they run
below themselves, in which no such character can turn up either.  What the text adds to a
trace is therefore a function of the text and of the levels left, whatever frame it runs
in and whatever has run before.

`unroll` is that function.  It goes through the commands of a line and, below each of
them, through the line that it runs.  What is noted of a command and of a line that is cut
off is left open, and any view of a session that grows by just these notes is shown to
grow by `unroll` over a whole run.
-/
import BatchTrace.Proofs.Program.SwitchWords
import BatchTrace.Proofs.Reference.Sigils
import BatchTrace.Proofs.Token.Alphabet
import BatchTrace.Proofs.Token.Placement
import BatchTrace.Proofs.Token.Spelling
import BatchTrace.Proofs.Trace.CutOffs
import BatchTrace.Proofs.Trace.Deferral

namespace BatchTrace

/-- No reference to a variable can stand in a text. -/
def Unreferenced (t : Text) : Prop :=
  '%' ∉ t ∧ '!' ∉ t

theorem Unreferenced.of_subset {s t : Text} (h : Unreferenced t) (hsub : s ⊆ ' ' :: t) :
    Unreferenced s := by
  refine ⟨fun hmem => ?_, fun hmem => ?_⟩
  · exact h.1 (by simpa using hsub hmem)
  · exact h.2 (by simpa using hsub hmem)

/-! ### The characters of a nested line -/

namespace Text

theorem trim_subset (t : Text) : trim t ⊆ t := by
  intro c hc
  rw [trim, trimEnd, List.mem_reverse] at hc
  have hmem := List.dropWhile_subset _ hc
  rw [List.mem_reverse] at hmem
  exact List.dropWhile_subset _ hmem

theorem dropFirstChar_subset (c : Char) (t : Text) : dropFirstChar c t ⊆ t := by
  cases t with
  | nil => exact List.Subset.refl _
  | cons d rest =>
      rw [dropFirstChar]
      split
      · exact List.subset_cons_self d rest
      · exact List.Subset.refl _

theorem dropLastChar_subset (c : Char) (t : Text) : dropLastChar c t ⊆ t := by
  rw [dropLastChar]
  split
  · exact List.dropLast_subset t
  · exact List.Subset.refl _

end Text

theorem CmdArguments.body_subset (table : Switches) (ts : List Token) :
    (ofTokensFrom table ts).body ⊆ Token.stringify ts := by
  obtain ⟨taken, xs, body, htakes⟩ := exists_takes ts
  rw [htakes.ofTokensFrom_eq, htakes.stringify_eq]
  exact List.subset_append_right _ _

namespace Command

theorem stringify_arguments_subset (c : Command) :
    Token.stringify c.arguments ⊆ Token.stringify c.tokens := by
  refine Token.stringify_subset_of_subset (List.Subset.refl _) ?_
  rw [arguments, Program.arguments]
  cases c.program.offset with
  | none => exact List.Subset.refl _
  | some n => exact List.drop_subset n _

end Command

theorem Interpreter.nestedLine?_subset (it : Interpreter) {c : Command} {line : Text}
    (h : it.nestedLine? c = some line) : line ⊆ Token.stringify c.tokens := by
  refine List.Subset.trans ?_ c.stringify_arguments_subset
  unfold nestedLine? at h
  cases hhandler : it.handler c.program.name with
  | cmd =>
      simp only [hhandler] at h
      split at h
      · simp at h
      · rw [← Option.some.inj h, bodyLine, Command.body]
        refine List.Subset.trans (Text.trim_subset _) (List.Subset.trans
          (Text.dropLastChar_subset _ _) (List.Subset.trans (Text.dropFirstChar_subset _ _)
          (List.Subset.trans (Text.trim_subset _) (CmdArguments.body_subset [] _))))
  | call =>
      simp only [hhandler] at h
      split at h
      · simp at h
      · rw [← Option.some.inj h]
        exact Text.trim_subset _
  | set => simp [hhandler] at h
  | generic => simp [hhandler] at h

theorem Block.subset_of_mem_ofTokens {ts block : List Token} (h : block ∈ ofTokens ts) :
    block ⊆ ts := by
  have hsplit : block ∈ ts.splitOnP (·.kind.isChain) := List.mem_of_mem_filter h
  clear h
  induction ts generalizing block with
  | nil => simp_all [List.splitOnP_nil]
  | cons t rest ih =>
      rw [List.splitOnP_cons_eq_if_modifyHead] at hsplit
      split at hsplit
      · rcases List.mem_cons.mp hsplit with rfl | hmem
        · exact List.nil_subset _
        · exact List.Subset.trans (ih hmem) (List.subset_cons_self t rest)
      · cases hrest : rest.splitOnP (·.kind.isChain) with
        | nil => simp [hrest] at hsplit
        | cons first others =>
            rw [hrest] at ih hsplit
            rcases List.mem_cons.mp hsplit with rfl | hmem
            · exact List.cons_subset_cons t (ih (List.mem_cons_self ..))
            · exact List.Subset.trans (ih (List.mem_cons_of_mem _ hmem))
                (List.subset_cons_self t rest)

namespace Interpreter

open Session

variable {α : Type} (it : Interpreter)

/-- The commands of a line in which nothing is expanded. -/
def plainCommands (t : Text) : List Command :=
  (Block.ofTokens (Token.tokenize t)).filterMap (Command.ofBlock? it.options.cleaning)

/-- What is noted of a command: `own` of itself, and `below` of the line that it runs. -/
def noted (own : Command → List α) (below : Text → List α) (c : Command) : List α :=
  own c ++
    match it.nestedLine? c with
    | some line => below line
    | none => []

/-- What is noted of a line without references with some levels left, if `cut` is noted of a line
that is cut off. -/
def unroll (own : Command → List α) (cut : Text → List α) : Nat → Text → List α
  | 0, t => cut t
  | left + 1, t => (it.plainCommands t).flatMap (it.noted own (unroll own cut left))

/-- A view of a session that grows by `own` with every command and by `cut` with every line that is
cut off. -/
structure Observed (view : Session → List α) (own : Command → List α) (cut : Text → List α) :
    Prop where
  empty : view .empty = []
  root : view (it.withRoot .empty) = []
  act : ∀ {s : Session} {i : Nat}, s.Numbered → i < s.frames.length → ∀ c : Command,
    view (it.act i c s) = view s ++ own c
  cutOff : ∀ (s : Session) (t : Text), view (s.cutOff it.options.maxDepth t) = view s ++ cut t

/-- A block in which nothing is expanded, and whose command runs no line in which anything is. -/
structure Settled (block : List Token) : Prop where
  undelayed : '!' ∉ Token.stringify block
  below : ∀ {c : Command} {line : Text}, Command.ofBlock? it.options.cleaning block = some c →
    it.nestedLine? c = some line → Unreferenced line

variable {it} {view : Session → List α} {own : Command → List α} {cut : Text → List α}
  {s : Session} {i left : Nat}

theorem settled_of_mem {t : Text} (ht : Unreferenced t) {block : List Token}
    (h : block ∈ Block.ofTokens (Token.tokenize t)) : it.Settled block := by
  have hsub : Token.stringify block ⊆ t := by
    refine Token.stringify_subset_of_subset ?_ (Block.subset_of_mem_ofTokens h)
    rw [Token.stringify_tokenize]
    exact List.Subset.refl t
  refine ⟨fun hmem => ht.2 (hsub hmem), ?_⟩
  intro c line hc hline
  refine ht.of_subset (List.Subset.trans (it.nestedLine?_subset hline) ?_)
  rw [Command.eq_ofTokens_of_ofBlock? hc]
  refine Token.stringify_subset_of_subset ?_ (Block.peel_subset _)
  exact Token.stringify_apply_subset (by simp) _ (List.Subset.trans hsub (List.subset_cons_self ..))

theorem delayedBlock_of_settled {block : List Token} (h : it.Settled block) (f : Frame) :
    it.delayedBlock f block = block := by
  simp [delayedBlock, h.undelayed]

theorem expandLine_of_unreferenced {t : Text} (h : Unreferenced t) (frame : Option Nat) :
    it.expandLine s frame t = t := by
  unfold expandLine
  dsimp only
  split
  · exact Expansion.expand_of_not_mem _ _ h.1
  · exact Expansion.expand_of_not_mem _ _ h.1

/-- Lines with `left` levels left add to a view what `unroll` notes of them. -/
def Follows (it : Interpreter) (view : Session → List α) (own : Command → List α)
    (cut : Text → List α) (left : Nat) : Prop :=
  ∀ {t : Text} {s : Session} {i : Nat}, Unreferenced t → s.Numbered → i < s.frames.length →
    view (it.runLine left t (some i) s) = view s ++ it.unroll own cut left t

/-- One block: its command, and then what runs below it. -/
theorem Observed.runBlock (h : it.Observed view own cut) (hbelow : it.Follows view own cut left)
    (hs : s.Numbered) (hi : i < s.frames.length) {block : List Token} (hblock : it.Settled block) :
    view (it.runBlock (it.below left) i s block) =
      view s ++ (Command.ofBlock? it.options.cleaning block).toList.flatMap
        (it.noted own (it.unroll own cut left)) := by
  rw [Interpreter.runBlock, delayedBlock_of_settled hblock]
  cases hc : Command.ofBlock? it.options.cleaning block with
  | none => simp
  | some c =>
      have hact := h.act hs hi c
      rw [Option.toList_some, List.flatMap_singleton, noted, ← List.append_assoc, ← hact]
      dsimp only
      rw [runCommand_eq]
      cases hline : it.nestedLine? c with
      | none => simp
      | some line =>
          exact hbelow (hblock.below hc hline) (it.numbered_act hs hi c)
            (it.length_lt_act hline i s)

/-- A line is the fold of its blocks. -/
theorem Observed.foldl_runBlock (h : it.Observed view own cut)
    (hbelow : it.Follows view own cut left) (hs : s.Numbered) (hi : i < s.frames.length)
    {blocks : List (List Token)} (hblocks : ∀ block ∈ blocks, it.Settled block) :
    view (blocks.foldl (it.runBlock (it.below left) i) s) =
      view s ++ (blocks.filterMap (Command.ofBlock? it.options.cleaning)).flatMap
        (it.noted own (it.unroll own cut left)) := by
  induction blocks generalizing s with
  | nil => simp
  | cons block rest ih =>
      have hblock := h.runBlock hbelow hs hi (hblocks block (by simp))
      have hruns := runs_runBlock it (it.below_runs left) hi block
      rw [List.foldl_cons, ih (hruns.numbered hs).1 hruns.inRange
        fun b hb => hblocks b (List.mem_cons_of_mem _ hb), hblock, List.append_assoc,
        List.filterMap_cons]
      cases Command.ofBlock? it.options.cleaning block with
      | none => simp
      | some c => simp

/-- **A line without references adds the same to a trace wherever it runs.** -/
theorem Observed.follows (h : it.Observed view own cut) (left : Nat) :
    it.Follows view own cut left := by
  induction left with
  | zero =>
      intro t s i _ _ _
      exact h.cutOff s t
  | succ left ih =>
      intro t s i ht hs hi
      rw [runLine_succ, expandLine_of_unreferenced ht, h.foldl_runBlock ih hs hi
        fun block hblock => settled_of_mem ht hblock]
      rfl

theorem Observed.run (h : it.Observed view own cut) (hdepth : it.options.maxDepth ≠ 0) {t : Text}
    (ht : Unreferenced t) :
    view (it.run t) = it.unroll own cut it.options.maxDepth t := by
  obtain ⟨left, hleft⟩ := Nat.exists_eq_succ_of_ne_zero hdepth
  unfold Interpreter.run
  rw [hleft, unroll, plainCommands]
  cases hblocks : Block.ofTokens (Token.tokenize t) with
  | nil =>
      rw [runLine, expandLine_of_unreferenced ht, hblocks]
      exact h.empty
  | cons block rest =>
      rw [it.runLine_succ_none left t .empty (by rw [expandLine_of_unreferenced ht, hblocks]),
        h.foldl_runBlock (h.follows left) it.pruned_root.numbered (it.withRoot_pos _)
          fun b hb => settled_of_mem ht (hblocks ▸ hb), h.root]
      rfl

end Interpreter

/-! ### Two views -/

/-- What has been recorded in the order in which it ran, the numbers left out. -/
def Session.entries (s : Session) : List Record :=
  s.history.map Record.unnumbered

namespace Interpreter

variable (it : Interpreter)

theorem unnumbered_entry (c : Command) (n : Nat) : (it.entry c n).unnumbered = it.entry c 0 := by
  unfold entry
  cases it.handler c.program.name with
  | generic =>
      dsimp only
      split <;> rfl
  | _ => rfl

theorem observed_entries :
    it.Observed Session.entries (fun c => [it.entry c 0]) (fun _ => []) where
  empty := by
    rw [Session.entries, Session.history_of_held_nil rfl]
    rfl
  root := by
    rw [Session.entries, Session.history_of_held_nil rfl]
    rfl
  act hs hi c := by
    rw [Session.entries, it.history_act hs hi c, List.map_append, List.map_singleton,
      unnumbered_entry]
    rfl
  cutOff s t := (List.append_nil _).symm

theorem cutOffs_act (i : Nat) (c : Command) (s : Session) : (it.act i c s).cutOffs = s.cutOffs := by
  by_cases hopening : it.opening i c = [some i]
  · obtain ⟨_, _, _, _, _, _, hcutOffs⟩ := it.act_opens hopening s
    exact hcutOffs
  · exact (it.act_stays hopening s).2.2.1

theorem observed_cutOffs :
    it.Observed Session.cutOffs (fun _ => []) (fun t => [⟨it.options.maxDepth, t⟩]) where
  empty := rfl
  root := rfl
  act hs hi c := by rw [cutOffs_act, List.append_nil]
  cutOff s t := rfl

/-- The records of a run without references. -/
theorem entries_interpret (hdepth : it.options.maxDepth ≠ 0) {t : Text} (ht : Unreferenced t) :
    (it.interpret t).records.map Record.unnumbered =
      it.unroll (fun c => [it.entry c 0]) (fun _ => []) it.options.maxDepth t :=
  it.observed_entries.run hdepth ht

/-- The lines that such a run cuts off. -/
theorem cutOffs_interpret (hdepth : it.options.maxDepth ≠ 0) {t : Text} (ht : Unreferenced t) :
    (it.interpret t).cutOffs =
      it.unroll (fun _ => []) (fun line => [⟨it.options.maxDepth, line⟩]) it.options.maxDepth t :=
  it.observed_cutOffs.run hdepth ht

end Interpreter

theorem Interpretation.commands_eq (r : Interpretation) :
    r.commands = (r.records.map Record.unnumbered).map (·.text) := by
  rw [commands, List.map_map]
  rfl

theorem Interpretation.names_eq (r : Interpretation) :
    r.names = (r.records.map Record.unnumbered).map (·.name) := by
  rw [names, List.map_map]
  rfl

end BatchTrace
