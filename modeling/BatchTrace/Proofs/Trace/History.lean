/-
The order in which commands ran.

Records are kept in the frames they belong to, and the order over all frames is
found again by sorting them by their numbers.  `Numbered` is what makes this the
order of recording: the numbers in use are exactly those below the counter, each
of them once.  Sorting then leaves no choice, so a session's history is the one
list of its records with the numbers 0, 1, 2, …, and recording a command appends
to it wherever the command was recorded.
-/
import BatchTrace.Proofs.Trace.Runs
import Mathlib.Data.List.Perm.Basic

namespace BatchTrace

namespace Session

/-- Every record of a session, frame by frame. -/
def held (s : Session) : List Record :=
  s.frames.flatMap (·.commands)

/-- The records of a session in the order in which they were made. -/
def history (s : Session) : List Record :=
  s.finish.records

/-- The numbers of the records are those below the counter, each of them once. -/
def Numbered (s : Session) : Prop :=
  (s.held.map (·.seq)).Perm (List.range s.seq)

/-! ### Sorting by number -/

theorem history_perm (s : Session) : s.history.Perm s.held := by
  refine (List.mergeSort_perm _ _).trans ?_
  exact (List.reverse_perm s.frames).flatMap_right _

theorem history_sorted (s : Session) : (s.history.map (·.seq)).Pairwise (· ≤ ·) := by
  rw [List.pairwise_map]
  have hsorted : s.history.Pairwise fun a b => decide (a.seq ≤ b.seq) = true := by
    refine List.pairwise_mergeSort ?_ ?_ _
    · intro a b c hab hbc
      simp only [decide_eq_true_eq] at hab hbc ⊢
      omega
    · intro a b
      simp only [Bool.or_eq_true, decide_eq_true_eq]
      omega
  exact hsorted.imp (by simp)

/-- In a numbered session the history has the numbers from 0 on. -/
theorem Numbered.seq_history {s : Session} (h : s.Numbered) :
    s.history.map (·.seq) = List.range s.seq := by
  refine List.Perm.eq_of_pairwise ?_ s.history_sorted List.pairwise_le_range ?_
  · intro a b _ _ hab hba
    exact Nat.le_antisymm hab hba
  · exact (s.history_perm.map _).trans h

/-- Only one order of the records has the numbers from 0 on. -/
theorem history_unique {s : Session} (h : s.Numbered) {l : List Record} (hl : l.Perm s.held)
    (hseq : l.map (·.seq) = List.range s.seq) : s.history = l := by
  have hlt : ∀ {m : List Record}, m.map (·.seq) = List.range s.seq →
      m.Pairwise (fun a b => a.seq < b.seq) := by
    intro m hm
    rw [← List.pairwise_map (f := Record.seq) (R := (· < ·)), hm]
    exact List.pairwise_lt_range
  refine List.Perm.eq_of_pairwise (fun a b _ _ hab hba => ?_) (hlt h.seq_history) (hlt hseq)
    (s.history_perm.trans hl.symm)
  exact absurd hab (Nat.lt_asymm hba)

/-! ### What the moves do to the records -/

@[simp] theorem held_note (s : Session) (e : Event) : (s.note e).held = s.held := rfl

@[simp] theorem held_cutOff (s : Session) (limit : Nat) (line : Text) :
    (s.cutOff limit line).held = s.held := rfl

@[simp] theorem held_push (s : Session) {f : Frame} (hf : f.commands = []) :
    (s.push f).held = s.held := by
  simp [held, hf]

/-- Changing a frame in anything but its commands changes no record. -/
theorem flatMap_modify_of_eq {g : Frame → Frame} (hg : ∀ f, (g f).commands = f.commands)
    (fs : List Frame) (i : Nat) :
    (fs.modify i g).flatMap (·.commands) = fs.flatMap (·.commands) := by
  induction fs generalizing i with
  | nil => simp
  | cons f rest ih =>
      cases i with
      | zero => simp [hg]
      | succ i => simp [ih]

/-- A record that is added to some frame is added to the records of all frames. -/
theorem flatMap_modify_append {g : Frame → Frame} {r : Record}
    (hg : ∀ f, (g f).commands = f.commands ++ [r]) {fs : List Frame} {i : Nat}
    (hi : i < fs.length) :
    ((fs.modify i g).flatMap (·.commands)).Perm (fs.flatMap (·.commands) ++ [r]) := by
  induction fs generalizing i with
  | nil => simp at hi
  | cons f rest ih =>
      cases i with
      | zero =>
          simp only [List.modify_zero_cons, List.flatMap_cons, hg, List.append_assoc]
          exact List.perm_append_comm.append_left _
      | succ i =>
          simp only [List.modify_succ_cons, List.flatMap_cons, List.append_assoc]
          exact (ih (by simpa using hi)).append_left _

@[simp] theorem held_assign (s : Session) (i : Nat) (name value : Text) :
    (s.assign i name value).held = s.held := by
  refine flatMap_modify_of_eq ?_ s.frames i
  intro f
  rfl

theorem held_record {s : Session} {i : Nat} (hi : i < s.frames.length) (name line : Text)
    (options : Switches) (text : Text) :
    (s.record i name line options text).held.Perm
      (s.held ++ [⟨name, line, options, text, s.seq⟩]) :=
  flatMap_modify_append (fun _ => rfl) hi

/-! ### What they do to the history -/

theorem numbered_empty : Session.empty.Numbered :=
  List.Perm.refl _

theorem Numbered.of_held_eq {s s' : Session} (h : s.Numbered) (hheld : s'.held = s.held)
    (hseq : s'.seq = s.seq) : s'.Numbered := by
  rw [Numbered, hheld, hseq]
  exact h

theorem Numbered.history_eq {s s' : Session} (h : s.Numbered) (hheld : s'.held = s.held)
    (hseq : s'.seq = s.seq) : s'.history = s.history := by
  refine history_unique (h.of_held_eq hheld hseq) ?_ ?_
  · rw [hheld]
    exact s.history_perm
  · rw [hseq]
    exact h.seq_history

theorem Numbered.record {s : Session} {i : Nat} (h : s.Numbered) (hi : i < s.frames.length)
    (name line : Text) (options : Switches) (text : Text) :
    (s.record i name line options text).Numbered := by
  refine ((held_record hi name line options text).map (·.seq)).trans ?_
  rw [seq_record, List.range_succ, List.map_append]
  exact List.Perm.append_right [s.seq] h

/-- Recording appends to the history, whichever frame the record belongs to. -/
theorem Numbered.history_record {s : Session} {i : Nat} (h : s.Numbered)
    (hi : i < s.frames.length) (name line : Text) (options : Switches) (text : Text) :
    (s.record i name line options text).history =
      s.history ++ [⟨name, line, options, text, s.seq⟩] := by
  refine history_unique (h.record hi name line options text) ?_ ?_
  · exact (s.history_perm.append_right _).trans (held_record hi name line options text).symm
  · rw [List.map_append, h.seq_history, seq_record, List.range_succ]
    rfl

/-- A move that makes no record keeps what a run has shown so far. -/
theorem Numbered.unrecorded {s s' s'' : Session} (h : s'.Numbered ∧ s.history <+: s'.history)
    (hheld : s''.held = s'.held) (hseq : s''.seq = s'.seq) :
    s''.Numbered ∧ s.history <+: s''.history := by
  refine ⟨h.1.of_held_eq hheld hseq, ?_⟩
  rw [h.1.history_eq hheld hseq]
  exact h.2

/-- A run keeps the records numbered and only appends to the history. -/
theorem Runs.numbered {i : Nat} {s s' : Session} (hruns : Runs i s s') (h : s.Numbered) :
    s'.Numbered ∧ s.history <+: s'.history := by
  induction hruns with
  | start _ => exact ⟨h, List.prefix_refl _⟩
  | note e _ ih => exact Numbered.unrecorded (ih h) (held_note _ e) (seq_note _ e)
  | cutOff limit line _ ih =>
      exact Numbered.unrecorded (ih h) (held_cutOff _ limit line) (seq_cutOff _ limit line)
  | assign name value _ ih =>
      exact Numbered.unrecorded (ih h) (held_assign _ _ name value) (seq_assign _ _ name value)
  | record name line options text hruns ih =>
      obtain ⟨hnum, hpre⟩ := ih h
      refine ⟨hnum.record hruns.inRange name line options text, ?_⟩
      rw [hnum.history_record hruns.inRange]
      exact hpre.trans (List.prefix_append _ _)
  | opened f hf _ _ ih ihchild =>
      obtain ⟨hnum, hpre⟩ := Numbered.unrecorded (ih h) (held_push _ hf) (seq_push _ f)
      obtain ⟨hnum', hpre'⟩ := ihchild hnum
      exact ⟨hnum', hpre.trans hpre'⟩

end Session

end BatchTrace
