/-
A run stays in its own frame.

What a line run in frame `i` leaves behind is the list of frames it found, with
frame `i` replaced by a later state of itself, and then the frames it has pushed.
`Confined` says exactly that as one equation, which composes: a run of a nested
line writes only to the frame pushed for it and to frames after that, and seen
from the caller all of these are new.
-/
import BatchTrace.Proofs.Trace.Bounds

namespace BatchTrace

/-- `g` can be what has become of frame `f`: only its assignments and its commands have changed,
and commands were only added at the end. -/
structure Frame.Continues (f g : Frame) : Prop where
  readable : g.readable = f.readable
  options : g.options = f.options
  commands : f.commands <+: g.commands

namespace Frame.Continues

theorem refl (f : Frame) : f.Continues f :=
  ⟨rfl, rfl, List.prefix_refl _⟩

theorem assign {f g : Frame} (h : f.Continues g) (table : Variables) :
    f.Continues { g with assigned := table } :=
  ⟨h.readable, h.options, h.commands⟩

theorem record {f g : Frame} (h : f.Continues g) (r : Record) :
    f.Continues { g with commands := g.commands ++ [r] } :=
  ⟨h.readable, h.options, h.commands.trans (List.prefix_append _ _)⟩

end Frame.Continues

namespace Session

/-- The frames of `s'` are those of `s` with frame `i` continued, and then new ones. -/
def Confined (i : Nat) (s s' : Session) : Prop :=
  ∃ g added, s'.frames = s.frames.set i g ++ added ∧ (s.frame i).Continues g

namespace Confined

variable {i : Nat} {s s' : Session}

theorem refl (hi : i < s.frames.length) : Confined i s s := by
  refine ⟨s.frame i, [], ?_, .refl _⟩
  rw [frame_eq_getElem hi, List.set_getElem_self, List.append_nil]

theorem modify_set_append {α : Type} {l : List α} (hi : i < l.length) (x : α) (added : List α)
    (f : α → α) : (l.set i x ++ added).modify i f = l.set i (f x) ++ added := by
  induction l generalizing i with
  | nil => simp at hi
  | cons y rest ih =>
      cases i with
      | zero => rfl
      | succ i => simpa using ih (by simpa using hi)

/-- Rewriting frame `i` itself keeps a run confined. -/
theorem modify {s'' : Session} {f : Frame → Frame} (hi : i < s.frames.length)
    (h : Confined i s s') (hframes : s''.frames = s'.frames.modify i f)
    (hf : ∀ g, (s.frame i).Continues g → (s.frame i).Continues (f g)) : Confined i s s'' := by
  obtain ⟨g, added, heq, hg⟩ := h
  refine ⟨f g, added, ?_, hf g hg⟩
  rw [hframes, heq, modify_set_append hi]

/-- A run in a frame that has just been pushed is confined to what is new. -/
theorem opened {s'' : Session} {f : Frame} (h : Confined i s s')
    (hchild : Confined s'.frames.length (s'.push f) s'') : Confined i s s'' := by
  obtain ⟨g, added, heq, hg⟩ := h
  obtain ⟨child, more, hmore, -⟩ := hchild
  refine ⟨g, added ++ child :: more, ?_, hg⟩
  rw [hmore, frames_push, List.set_append_right _ _ (Nat.le_refl _), Nat.sub_self,
    List.set_cons_zero, heq]
  simp

theorem others (h : Confined i s s') {j : Nat} (hj : j < s.frames.length) (hji : j ≠ i) :
    s'.frames[j]? = s.frames[j]? := by
  obtain ⟨g, added, heq, -⟩ := h
  rw [heq, List.getElem?_append_left (by simpa using hj), List.getElem?_set_ne (Ne.symm hji)]

theorem own (hi : i < s.frames.length) (h : Confined i s s') :
    ∃ g, s'.frames[i]? = some g ∧ (s.frame i).Continues g := by
  obtain ⟨g, added, heq, hg⟩ := h
  refine ⟨g, ?_, hg⟩
  rw [heq, List.getElem?_append_left (by simpa using hi), List.getElem?_set_self hi]

end Confined

/-- Every run is confined to its frame. -/
theorem Runs.confined {i : Nat} {s s' : Session} (h : Runs i s s') : Confined i s s' := by
  induction h with
  | start hi => exact .refl hi
  | note _ _ ih => exact ih
  | cutOff _ _ _ ih => exact ih
  | assign name value h ih => exact ih.modify h.inRange_before rfl fun _ hg => hg.assign _
  | record name line options text h ih =>
      exact ih.modify h.inRange_before rfl fun _ hg => hg.record _
  | opened f _ _ _ ih ihchild => exact ih.opened ihchild

/-- A run leaves the frames that were there before, other than its own, alone. -/
theorem Runs.frame_eq {i j : Nat} {s s' : Session} (h : Runs i s s') (hj : j < s.frames.length)
    (hji : j ≠ i) : s'.frame j = s.frame j := by
  rw [frame, frame, h.confined.others hj hji]

end Session

namespace Interpreter

/--
**A line stays in its frame.**  However many levels are left, a line that is run in
frame `i` uses no frame index that is out of range, leaves every other frame that
was there as it was, and changes nothing in frame `i` but its assignments and its
commands, to which it only appends.  All other frames it leaves are new and come
after the ones that were there.
-/
theorem runLine_isolated (it : Interpreter) (left : Nat) (text : Text) (i : Nat) (s : Session)
    (hi : i < s.frames.length) :
    Checked.runLine it left text (some i) s = some (it.runLine left text (some i) s) ∧
    s.frames.length ≤ (it.runLine left text (some i) s).frames.length ∧
    (∀ j, j < s.frames.length → j ≠ i →
      (it.runLine left text (some i) s).frames[j]? = s.frames[j]?) ∧
    ∃ f g, s.frames[i]? = some f ∧ (it.runLine left text (some i) s).frames[i]? = some g ∧
      g.readable = f.readable ∧ g.options = f.options ∧ f.commands <+: g.commands := by
  have hruns := it.runs_runLine left text hi
  refine ⟨?_, hruns.length_le, ?_, ?_⟩
  · refine Checked.runLine_eq it left ?_ text
    intro j hj
    rw [← Option.some.inj hj]
    exact hi
  · intro j hj hji
    exact hruns.confined.others hj hji
  · obtain ⟨g, hg, hcont⟩ := hruns.confined.own hi
    refine ⟨s.frame i, g, ?_, hg, hcont.readable, hcont.options, hcont.commands⟩
    rw [Session.frame_eq_getElem hi, List.getElem?_eq_getElem hi]

/-- An assignment and two nested lines in the second of two frames: each line opens a frame. -/
theorem runLine_isolated_second :
    let it := Interpreter.builtin {}
    let s : Session := { frames := [.empty, .empty] }
    let s' := it.runLine 2 "set a=1&cmd /c set b=2&call calc".toList (some 1) s
    1 < s.frames.length ∧ s'.frames.length = 4 ∧
    Checked.runLine it 2 "set a=1&cmd /c set b=2&call calc".toList (some 1) s = some s' ∧
    s.frames.length ≤ s'.frames.length ∧
    (∀ j, j < s.frames.length → j ≠ 1 → s'.frames[j]? = s.frames[j]?) ∧
    ∃ f g, s.frames[1]? = some f ∧ s'.frames[1]? = some g ∧
      g.readable = f.readable ∧ g.options = f.options ∧ f.commands <+: g.commands := by
  intro it s s'
  have hi : 1 < s.frames.length := by decide
  exact ⟨hi, by decide +kernel, runLine_isolated it 2 _ 1 s hi⟩

end Interpreter

end BatchTrace
