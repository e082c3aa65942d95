/-
Expanding references to variables.

A reference stands between two sigils: percent signs, or exclamation marks in
delayed expansion.  Expansion makes three passes over a text: plain names, then
replacements, then slices.  A pass goes through the text once and never looks at
what it has put in.  A reference that means nothing stays as it is, and its second
sigil may still open another one.
-/
import BatchTrace.Reference.Replacement
import BatchTrace.Reference.Slice
import BatchTrace.Variables

namespace BatchTrace

/-- How references are written. -/
structure Expansion where
  /-- The character around a reference. -/
  sigil : Char
  /-- Do replacements and slices count?  Without them a name may have a colon in it. -/
  extensions : Bool
deriving DecidableEq, Repr

namespace Expansion

/-- Does a name have a colon inside? -/
def hasInnerColon : Text → Bool
  | [] => false
  | _ :: rest => rest.dropLast.contains ':'

/-- Can a variable of this name be referred to by name alone? -/
def isPlainName (e : Expansion) (name : Text) : Bool :=
  !name.isEmpty && !(e.extensions && hasInnerColon name)

/-- The text after `name` and a sigil, if `t` starts with them. -/
def afterName? (e : Expansion) (name t : Text) : Option Text :=
  match Text.afterSame? name t with
  | some (c :: after) => if c = e.sigil then some after else none
  | _ => none

/-- The variable with the longest name that is referred to at the start of `t`, which follows a
sigil, with the text after the reference.  Of equally long names the later one counts. -/
def longest? (e : Expansion) (t : Text) : List Variable → Option (Variable × Text)
  | [] => none
  | v :: rest =>
      let here := if e.isPlainName v.name then e.afterName? v.name t else none
      match here, longest? e t rest with
      | none, best => best
      | some after, none => some (v, after)
      | some after, some (w, after') =>
          if w.name.length < v.name.length then some (v, after) else some (w, after')

theorem length_afterName {e : Expansion} {name t after : Text}
    (h : e.afterName? name t = some after) : after.length < t.length := by
  unfold afterName? at h
  split at h
  · rename_i c rest hc
    split at h
    · simp only [Option.some.injEq] at h
      subst h
      have := Replacement.length_afterSame hc
      simp only [List.length_cons] at this
      omega
    · simp at h
  · simp at h

theorem length_longest {e : Expansion} {t : Text} {vs : List Variable} {v : Variable} {after : Text}
    (h : e.longest? t vs = some (v, after)) : after.length < t.length := by
  induction vs generalizing v after with
  | nil => simp [longest?] at h
  | cons w rest ih =>
    rw [longest?] at h
    split at h
    · exact ih h
    · rename_i a ha _
      simp only [Option.some.injEq, Prod.mk.injEq] at h
      obtain ⟨rfl, rfl⟩ := h
      split at ha
      · exact length_afterName ha
      · simp at ha
    · rename_i a w' a' ha hw
      split at h
      · simp only [Option.some.injEq, Prod.mk.injEq] at h
        obtain ⟨rfl, rfl⟩ := h
        split at ha
        · exact length_afterName ha
        · simp at ha
      · simp only [Option.some.injEq, Prod.mk.injEq] at h
        obtain ⟨rfl, rfl⟩ := h
        exact ih hw

/-- Plain names replaced by values. -/
def expandNames (e : Expansion) (table : Variables) : Text → Text
  | [] => []
  | c :: rest =>
      if c = e.sigil then
        match _h : e.longest? rest table.entries with
        | some (v, after) => v.value ++ expandNames e table after
        | none => c :: expandNames e table rest
      else c :: expandNames e table rest
termination_by t => t.length
decreasing_by
  · have := length_longest _h
    simp only [List.length_cons]
    omega
  all_goals simp

/-- The parts of a reference `name:arguments` that follows a sigil, with the text after its second
sigil.  A name is not empty and has no sigil in it. -/
def withArguments? (e : Expansion) (t : Text) : Option (Text × Text × Text) :=
  match Text.splitFirst (· = ':') t with
  | none => none
  | some (name, rest) =>
      if name.isEmpty || name.contains e.sigil then none
      else
        (Text.splitFirst (· = e.sigil) rest).map fun (arguments, after) => (name, arguments, after)

theorem length_splitFirst {p : Char → Bool} {t before after : Text}
    (h : Text.splitFirst p t = some (before, after)) : after.length < t.length := by
  obtain ⟨c, _, _, rfl⟩ := Text.splitFirst_eq_some h
  simp
  omega

theorem length_withArguments {e : Expansion} {t name arguments after : Text}
    (h : e.withArguments? t = some (name, arguments, after)) : after.length < t.length := by
  unfold withArguments? at h
  split at h
  · simp at h
  · rename_i n rest hn
    split at h
    · simp at h
    · obtain ⟨⟨a, b⟩, hab, heq⟩ := Option.map_eq_some_iff.1 h
      simp only [Prod.mk.injEq] at heq
      obtain ⟨_, _, rfl⟩ := heq
      exact Nat.lt_trans (length_splitFirst hab) (length_splitFirst hn)

/-- References with arguments replaced by what `resolve?` makes of a value and the arguments. -/
def expandArguments (e : Expansion) (table : Variables) (resolve? : Text → Text → Option Text) :
    Text → Text
  | [] => []
  | c :: rest =>
      if c = e.sigil then
        match _h : e.withArguments? rest with
        | some (name, arguments, after) =>
            match (table.get? name).bind fun value => resolve? value arguments with
            | some value => value ++ expandArguments e table resolve? after
            | none => c :: expandArguments e table resolve? rest
        | none => c :: expandArguments e table resolve? rest
      else c :: expandArguments e table resolve? rest
termination_by t => t.length
decreasing_by
  · have := length_withArguments _h
    simp only [List.length_cons]
    omega
  all_goals simp

/-- A text with its references replaced by what they stand for. -/
def expand (e : Expansion) (table : Variables) (t : Text) : Text :=
  let named := e.expandNames table t
  if e.extensions then
    e.expandArguments table Slice.resolve? (e.expandArguments table Replacement.resolve? named)
  else named

end Expansion

end BatchTrace
