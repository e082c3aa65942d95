/-
Which frame was opened from which.

A frame does not say where it was opened from, and it need not: nothing reads that
again.  To speak about it, `callers` goes over a run once more and notes, for each
frame in the order of opening, the frame that the `cmd` or `call` which opened it
ran in.  It takes the sessions on the way from the run itself, so it is a second
reading of the same run and not a second run.

`keeps_run` is the induction over a run together with its callers: what every act
keeps, if the list grows by the frame that the act was in whenever it opens one,
holds at the end.
-/
import BatchTrace.Proofs.Trace.Moves

namespace BatchTrace

/-- An element of a list with one more at its end is an old one or the last one. -/
theorem getElem?_concat_cases {α : Type} {l : List α} {x y : α} {j : Nat}
    (h : (l ++ [x])[j]? = some y) : (j < l.length ∧ l[j]? = some y) ∨ (j = l.length ∧ x = y) := by
  by_cases hj : j < l.length
  · rw [List.getElem?_append_left hj] at h
    exact Or.inl ⟨hj, h⟩
  · have hlt := (List.getElem?_eq_some_iff.mp h).1
    rw [List.length_append, List.length_singleton] at hlt
    have hlast : j = l.length := by omega
    exact Or.inr ⟨hlast, by simpa [hlast] using h⟩

namespace Interpreter

open Session

/-- What the act of a command in frame `i` adds to the callers: frame `i`, if it opens a frame. -/
def opening (it : Interpreter) (i : Nat) (c : Command) : List (Option Nat) :=
  match it.handler c.program.name with
  | .cmd | .call => [some i]
  | .set | .generic => []

/-- The callers of the frames that a command in frame `i` opens: of its own, and then of those that
the line below it opens. -/
def commandCallers (it : Interpreter) (below : Text → Nat → Session → List (Option Nat)) (i : Nat)
    (c : Command) (s : Session) : List (Option Nat) :=
  it.opening i c ++
    match it.nestedLine? c with
    | some line => below line s.frames.length (it.act i c s)
    | none => []

/-- The callers of the frames that some blocks open, one block after the other in frame `i`. -/
def blockCallers (it : Interpreter) (below : Text → Nat → Session → List (Option Nat))
    (descend : Descend) (i : Nat) : List (List Token) → Session → List (Option Nat)
  | [], _ => []
  | block :: rest, s =>
      (match Command.ofBlock? it.options.cleaning (it.delayedBlock (s.frame i) block) with
        | some c => it.commandCallers below i c s
        | none => []) ++
      blockCallers it below descend i rest (it.runBlock descend i s block)

/-- The callers of the frames that a line opens, run in frame `i` with some levels left. -/
def lineCallers (it : Interpreter) : Nat → Text → Nat → Session → List (Option Nat)
  | 0, _, _, _ => []
  | left + 1, text, i, s =>
      it.blockCallers (lineCallers it left) (it.below left) i
        (Block.ofTokens (Token.tokenize (it.expandLine s (some i) text))) s

/-- The callers of all frames of a run, in the order in which they were opened.  The outermost frame
comes first and has none. -/
def callers (it : Interpreter) (text : Text) : List (Option Nat) :=
  match it.options.maxDepth, Block.ofTokens (Token.tokenize (it.expandLine .empty none text)) with
  | left + 1, block :: rest =>
      none :: it.blockCallers (it.lineCallers left) (it.below left) 0 (block :: rest)
        (it.withRoot .empty)
  | _, _ => []

theorem callers_of_blocks (it : Interpreter) {left : Nat} (hlimit : it.options.maxDepth = left + 1)
    {text : Text} {block : List Token} {rest : List (List Token)}
    (hblocks : Block.ofTokens (Token.tokenize (it.expandLine .empty none text)) = block :: rest) :
    it.callers text =
      none :: it.blockCallers (it.lineCallers left) (it.below left) 0 (block :: rest)
        (it.withRoot .empty) := by
  rw [callers, hlimit, hblocks]

/-- A run from the start does nothing at all, or opens the outermost frame and runs some blocks in
it. -/
theorem run_callers_cases (it : Interpreter) {left : Nat}
    (hlimit : it.options.maxDepth = left + 1) (text : Text) :
    (it.run text = .empty ∧ it.callers text = []) ∨
    ∃ blocks, it.run text = blocks.foldl (it.runBlock (it.below left) 0) (it.withRoot .empty) ∧
      it.callers text =
        none :: it.blockCallers (it.lineCallers left) (it.below left) 0 blocks
          (it.withRoot .empty) := by
  cases hblocks : Block.ofTokens (Token.tokenize (it.expandLine .empty none text)) with
  | nil =>
      refine Or.inl ⟨?_, ?_⟩
      · rw [run, hlimit, runLine, hblocks]
        rfl
      · rw [callers, hlimit, hblocks]
  | cons block rest =>
      refine Or.inr ⟨block :: rest, ?_, it.callers_of_blocks hlimit hblocks⟩
      rw [run, hlimit, it.runLine_succ_none left text .empty hblocks]

/-! ### What every act keeps -/

section

variable {it : Interpreter} {P : Session → List (Option Nat) → Prop}
  (hact : ∀ (i : Nat) (c : Command) (t : Session) (callers : List (Option Nat)),
    i < t.frames.length → P t callers → P (it.act i c t) (callers ++ it.opening i c))
  (hcut : ∀ (t : Session) (line : Text) (callers : List (Option Nat)),
    P t callers → P (t.cutOff it.options.maxDepth line) callers)

include hact

theorem keeps_runCommand {below : Text → Nat → Session → List (Option Nat)} {descend : Descend}
    (hbelow : ∀ (line : Text) (child : Nat) (t : Session) (callers : List (Option Nat)),
      child < t.frames.length → P t callers →
        P (descend line child t) (callers ++ below line child t))
    {i : Nat} {s : Session} {callers : List (Option Nat)} (hi : i < s.frames.length)
    (h : P s callers) (c : Command) :
    P (it.runCommand descend i c s) (callers ++ it.commandCallers below i c s) := by
  have hown := hact i c s callers hi h
  rw [runCommand_eq, commandCallers]
  cases hline : it.nestedLine? c with
  | none =>
      rw [List.append_nil]
      exact hown
  | some line =>
      rw [← List.append_assoc]
      exact hbelow line _ _ _ (it.length_lt_act hline i s) hown

theorem keeps_foldl {below : Text → Nat → Session → List (Option Nat)} {descend : Descend}
    (hmoves : descend.Moves it)
    (hbelow : ∀ (line : Text) (child : Nat) (t : Session) (callers : List (Option Nat)),
      child < t.frames.length → P t callers →
        P (descend line child t) (callers ++ below line child t))
    {i : Nat} {s : Session} {callers : List (Option Nat)} (hi : i < s.frames.length)
    (h : P s callers) (blocks : List (List Token)) :
    P (blocks.foldl (it.runBlock descend i) s)
      (callers ++ it.blockCallers below descend i blocks s) := by
  induction blocks generalizing s callers with
  | nil =>
      rw [blockCallers, List.append_nil]
      exact h
  | cons block rest ih =>
      have hnext := Nat.lt_of_lt_of_le hi (moves_runBlock hmoves hi block).length_le
      rw [List.foldl_cons, blockCallers, ← List.append_assoc]
      refine ih hnext ?_
      unfold runBlock
      cases Command.ofBlock? it.options.cleaning (it.delayedBlock (s.frame i) block) with
      | none =>
          rw [List.append_nil]
          exact h
      | some c => exact keeps_runCommand hact hbelow hi h c

include hcut

theorem keeps_runLine (left : Nat) (text : Text) {i : Nat} {s : Session}
    {callers : List (Option Nat)} (hi : i < s.frames.length) (h : P s callers) :
    P (it.runLine left text (some i) s) (callers ++ it.lineCallers left text i s) := by
  induction left generalizing text i s callers with
  | zero =>
      rw [lineCallers, List.append_nil]
      exact hcut s text callers h
  | succ left ih =>
      rw [runLine_succ, lineCallers]
      refine keeps_foldl hact (it.moves_below left) ?_ hi h _
      intro line child t callers hchild ht
      exact ih line hchild ht

/-- **What every act keeps holds at the end of a run.** -/
theorem keeps_run (hdepth : it.options.maxDepth ≠ 0) (hempty : P .empty [])
    (hroot : P (it.withRoot .empty) [none]) (text : Text) : P (it.run text) (it.callers text) := by
  obtain ⟨left, hleft⟩ := Nat.exists_eq_succ_of_ne_zero hdepth
  obtain ⟨hrun, hcallers⟩ | ⟨blocks, hrun, hcallers⟩ := it.run_callers_cases hleft text
  · rw [hrun, hcallers]
    exact hempty
  · rw [hrun, hcallers]
    refine keeps_foldl hact (it.moves_below left) ?_ (it.withRoot_pos _) hroot blocks
    intro line child t callers hchild ht
    exact keeps_runLine hact hcut left line hchild ht

end

end Interpreter

end BatchTrace
