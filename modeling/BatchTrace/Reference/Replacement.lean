/-
Replacement in a value: the reference `name:find=replacement`.

Every occurrence of `find` is replaced, from left to right and without overlaps,
case being ignored.  With a star before `find`, everything up to the end of the
first occurrence is replaced once.
-/
import BatchTrace.Text.Lower

namespace BatchTrace

namespace Replacement

/-- The first place where `pattern` occurs in a text: what stands before it, and what follows it. -/
def find? (pattern : Text) : Text → Option (Text × Text)
  | [] => none
  | c :: rest =>
      match Text.afterSame? pattern (c :: rest) with
      | some after => some ([], after)
      | none => (find? pattern rest).map fun (before, after) => (c :: before, after)

theorem length_afterSame {pattern t after : Text} (h : Text.afterSame? pattern t = some after) :
    after.length + pattern.length = t.length := by
  fun_induction Text.afterSame? pattern t with
  | case1 => simp_all
  | case2 => simp at h
  | case3 p pattern c t _ ih =>
    have := ih h
    simp only [List.length_cons]
    omega
  | case4 => simp at h

theorem length_find {pattern t before after : Text} (h : find? pattern t = some (before, after)) :
    before.length + pattern.length + after.length = t.length := by
  induction t generalizing before with
  | nil => simp [find?] at h
  | cons c rest ih =>
    rw [find?] at h
    split at h
    · rename_i a ha
      simp only [Option.some.injEq, Prod.mk.injEq] at h
      obtain ⟨rfl, rfl⟩ := h
      have := length_afterSame ha
      simp only [List.length_nil]
      omega
    · obtain ⟨⟨b, a⟩, hba, heq⟩ := Option.map_eq_some_iff.1 h
      simp only [Prod.mk.injEq] at heq
      obtain ⟨rfl, rfl⟩ := heq
      have := ih hba
      simp only [List.length_cons]
      omega

/-- Every occurrence of the pattern `p :: pattern` replaced. -/
def replaceAll (p : Char) (pattern replacement : Text) (t : Text) : Text :=
  match _h : find? (p :: pattern) t with
  | some (before, after) => before ++ replacement ++ replaceAll p pattern replacement after
  | none => t
termination_by t.length
decreasing_by
  have := length_find _h
  simp only [List.length_cons] at this
  omega

/-- What a reference with these arguments stands for: `find=replacement` or `*find=replacement`,
`find` not being empty. -/
def resolve? (value arguments : Text) : Option Text :=
  if arguments.head? = some '~' then none
  else
    match Text.splitFirst (· = '=') arguments with
    | none => none
    | some ([], _) => none
    | some (['*'], _) => none
    | some ('*' :: pattern, replacement) =>
        match find? pattern value with
        | some (_, after) => some (replacement ++ after)
        | none => some value
    | some (p :: pattern, replacement) => some (replaceAll p pattern replacement value)

end Replacement

end BatchTrace
