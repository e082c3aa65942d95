/-
One command line after another.

An ampersand that stands apart cuts a line in two before anything is read, and without
references nothing that the first part does can be seen by the second one.  So the trace
of `a & b` is the trace of `a` and then the trace of `b`, both as if they had been run on
their own, and the same goes for the lines that were cut off.

The second part stands further to the right than it would on its own.  Its commands are
alike to those of `b`, and what is noted of alike commands is the same.
-/
import BatchTrace.Proofs.Token.Seams
import BatchTrace.Proofs.Trace.Unreferenced

namespace BatchTrace

/-! ### Alike commands run alike -/

theorem Command.Alike.body_eq {c d : Command} (h : c.Alike d) : c.body = d.body := by
  rw [Command.body, Command.body, h.cmdArguments_eq]

namespace Interpreter

variable {α : Type} (it : Interpreter)

theorem nestedLine?_alike {c d : Command} (h : c.Alike d) :
    it.nestedLine? c = it.nestedLine? d := by
  rw [nestedLine?, nestedLine?, h.program, h.body_eq, h.line_eq]

theorem entry_alike {c d : Command} (h : c.Alike d) (n : Nat) : it.entry c n = it.entry d n := by
  rw [entry, entry, h.program, h.body_eq, h.line_eq, h.cmdArguments_eq, h.setArguments_eq, h.text]

/-- The commands of `a & b` are those of `a`, and commands alike to those of `b`. -/
theorem plainCommands_ampersand {a b : Text} (ha : Quiet a) (hclosed : Closed a)
    (hfirst : '&' ∉ b.head?) :
    ∃ cs, it.plainCommands (a ++ '&' :: b) = it.plainCommands a ++ cs ∧
      List.Forall₂ Command.Alike cs (it.plainCommands b) := by
  obtain ⟨blocks, hblocks, halike⟩ := Block.ofTokens_ampersand ha hclosed hfirst
  refine ⟨blocks.filterMap (Command.ofBlock? it.options.cleaning), ?_, ?_⟩
  · rw [plainCommands, hblocks, List.filterMap_append]
    rfl
  · exact List.rel_filterMap (fun _ _ h => Command.ofBlock?_alike _ h) halike

section

variable {own : Command → List α} (hown : ∀ {c d : Command}, c.Alike d → own c = own d)
include hown

theorem flatMap_noted_alike (below : Text → List α) {cs ds : List Command}
    (h : List.Forall₂ Command.Alike cs ds) :
    cs.flatMap (it.noted own below) = ds.flatMap (it.noted own below) := by
  induction h with
  | nil => rfl
  | cons hhead _ ih =>
      rw [List.flatMap_cons, List.flatMap_cons, ih, noted, noted, hown hhead,
        it.nestedLine?_alike hhead]

/-- What is noted of `a & b` is what is noted of `a` and then of `b`. -/
theorem unroll_ampersand (cut : Text → List α) (left : Nat) {a b : Text} (ha : Quiet a)
    (hclosed : Closed a) (hfirst : '&' ∉ b.head?) :
    it.unroll own cut (left + 1) (a ++ '&' :: b) =
      it.unroll own cut (left + 1) a ++ it.unroll own cut (left + 1) b := by
  obtain ⟨cs, hcs, halike⟩ := it.plainCommands_ampersand ha hclosed hfirst
  rw [unroll, hcs, List.flatMap_append, it.flatMap_noted_alike hown _ halike]
  rfl

end

end Interpreter

/--
**Two command lines in sequence run one after the other.**  Neither text has a reference, a
quote or a caret in it, and the ampersand between them is not taken in by what stands
around it.  Then the records of the whole are those of the first and those of the second,
their numbers apart, and so are the lines that were cut off.
-/
theorem interpret_sequence (options : Options) (a b : Text) (hdepth : 1 ≤ options.maxDepth)
    (ha : ∀ c ∈ a, c ∉ ['%', '!', '"', '\'', '^']) (hb : ∀ c ∈ b, c ∉ ['%', '!', '"', '\'', '^'])
    (hlast : a.getLast? ≠ some '&' ∧ a.getLast? ≠ some '>') (hfirst : b.head? ≠ some '&') :
    ∃ ra rb r, interpret options a = .ok ra ∧ interpret options b = .ok rb ∧
      interpret options (a ++ '&' :: b) = .ok r ∧
      r.commands = ra.commands ++ rb.commands ∧
      r.cutOffs = ra.cutOffs ++ rb.cutOffs ∧
      r.records.map Record.unnumbered =
        ra.records.map Record.unnumbered ++ rb.records.map Record.unnumbered := by
  have hlimit : options.maxDepth ≠ 0 := Nat.ne_of_gt hdepth
  have hquiet : Quiet a := fun c hc => by
    have hnot := ha c hc
    simp only [List.mem_cons, not_or] at hnot
    exact ⟨hnot.2.2.1, hnot.2.2.2.1, hnot.2.2.2.2.1⟩
  have hclosed : Closed a := fun c hc =>
    ⟨fun heq => hlast.1 (heq ▸ hc), fun heq => hlast.2 (heq ▸ hc)⟩
  have hplain : ∀ t : Text, (∀ c ∈ t, c ∉ ['%', '!', '"', '\'', '^']) → Unreferenced t :=
    fun t ht => ⟨fun hmem => ht _ hmem (by simp), fun hmem => ht _ hmem (by simp)⟩
  have hwhole : Unreferenced (a ++ '&' :: b) := by
    refine hplain _ fun c hc => ?_
    rcases List.mem_append.mp hc with hmem | hmem
    · exact ha c hmem
    · rcases List.mem_cons.mp hmem with rfl | hmem
      · decide
      · exact hb c hmem
  obtain ⟨left, hleft⟩ := Nat.exists_eq_succ_of_ne_zero hlimit
  have hit : (Interpreter.builtin options).options.maxDepth = left + 1 := by
    rw [Interpreter.options_builtin, hleft]
  generalize hbuiltin : Interpreter.builtin options = it at hit
  have hnonzero : it.options.maxDepth ≠ 0 := by rw [hit]; exact Nat.succ_ne_zero left
  have hrecords : (it.interpret (a ++ '&' :: b)).records.map Record.unnumbered =
      (it.interpret a).records.map Record.unnumbered ++
        (it.interpret b).records.map Record.unnumbered := by
    rw [it.entries_interpret hnonzero hwhole, it.entries_interpret hnonzero (hplain a ha),
      it.entries_interpret hnonzero (hplain b hb), hit]
    exact it.unroll_ampersand (fun h => by rw [it.entry_alike h]) _ left hquiet hclosed hfirst
  have hcutOffs : (it.interpret (a ++ '&' :: b)).cutOffs =
      (it.interpret a).cutOffs ++ (it.interpret b).cutOffs := by
    rw [it.cutOffs_interpret hnonzero hwhole, it.cutOffs_interpret hnonzero (hplain a ha),
      it.cutOffs_interpret hnonzero (hplain b hb), hit]
    exact it.unroll_ampersand (fun _ => rfl) _ left hquiet hclosed hfirst
  refine ⟨it.interpret a, it.interpret b, it.interpret (a ++ '&' :: b), ?_, ?_, ?_, ?_, hcutOffs,
    hrecords⟩
  · rw [interpret_eq_ok hlimit, hbuiltin]
  · rw [interpret_eq_ok hlimit, hbuiltin]
  · rw [interpret_eq_ok hlimit, hbuiltin]
  · rw [Interpretation.commands_eq, hrecords, List.map_append, ← Interpretation.commands_eq,
      ← Interpretation.commands_eq]

/-- Both lines run a line of their own below them that is cut off, and the first one ends inside an
assignment. -/
theorem interpret_sequence_cutOffs :
    let options : Options := { maxDepth := 1 }
    let a := "call call x||set y=(1".toList
    let b := "cmd /c call z >2".toList
    ((∀ c ∈ a, c ∉ ['%', '!', '"', '\'', '^']) ∧ (∀ c ∈ b, c ∉ ['%', '!', '"', '\'', '^']) ∧
      (a.getLast? ≠ some '&' ∧ a.getLast? ≠ some '>') ∧ b.head? ≠ some '&') ∧
    ∃ ra rb r, interpret options a = .ok ra ∧ interpret options b = .ok rb ∧
      interpret options (a ++ '&' :: b) = .ok r ∧
      ra.cutOffs = [⟨1, "call x".toList⟩] ∧ rb.cutOffs = [⟨1, "call z >2".toList⟩] ∧
      r.cutOffs = ra.cutOffs ++ rb.cutOffs ∧ r.commands = ra.commands ++ rb.commands := by
  intro options a b
  have hplain : ∀ t : Text, (t.all fun c => decide (c ∉ ['%', '!', '"', '\'', '^'])) = true →
      ∀ c ∈ t, c ∉ ['%', '!', '"', '\'', '^'] := by
    intro t ht c hc
    exact of_decide_eq_true (List.all_eq_true.mp ht c hc)
  have ha := hplain a (by decide)
  have hb := hplain b (by decide)
  obtain ⟨ra, rb, r, hra, hrb, hr, hcommands, hcutOffs, -⟩ :=
    interpret_sequence options a b (by decide) ha hb (by decide) (by decide)
  have hcuta : (interpret options a).toOption.map (·.cutOffs) = some [⟨1, "call x".toList⟩] := by
    decide +kernel
  have hcutb : (interpret options b).toOption.map (·.cutOffs) = some [⟨1, "call z >2".toList⟩] := by
    decide +kernel
  rw [hra] at hcuta
  rw [hrb] at hcutb
  exact ⟨⟨ha, hb, by decide, by decide⟩, ra, rb, r, hra, hrb, hr,
    by simpa [Except.toOption] using hcuta, by simpa [Except.toOption] using hcutb, hcutOffs,
    hcommands⟩

end BatchTrace
