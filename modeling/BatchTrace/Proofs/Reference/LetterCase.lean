/-
Variables and references do not depend on the case of letters.

A table in lower case has the names and the values of its variables in lower case.
Names are told apart by a key that has no case, so the lower-case table finds and
assigns the same variables.  Patterns are compared without case, and the numerals of
a slice read the same in capital and in small letters.

An expansion commutes with lower-casing as long as its sigil is no letter, which
neither the percent sign nor the exclamation mark is.
-/
import BatchTrace.Assignment
import BatchTrace.Proofs.Text.LetterCase
import BatchTrace.Reference.Expand

namespace BatchTrace

open Text

/-! ### Tables -/

/-- The variable in lower case. -/
def Variable.lowered (v : Variable) : Variable :=
  ⟨asciiLower v.name, asciiLower v.value⟩

@[simp] theorem Variable.key_lowered (v : Variable) : v.lowered.key = v.key :=
  lower_asciiLower v.name

namespace Variables

/-- The table in lower case. -/
def lowered (table : Variables) : Variables :=
  ⟨table.entries.map Variable.lowered⟩

theorem get?_lowered (table : Variables) (name : Text) :
    table.lowered.get? (asciiLower name) = (table.get? name).map asciiLower := by
  have hkey : ((fun v : Variable => decide (v.key = lower (asciiLower name))) ∘ Variable.lowered) =
      fun v => decide (v.key = lower name) := by
    funext v
    simp
  rw [get?, get?, lowered, List.find?_map, hkey, Option.map_map, Option.map_map]
  rfl

theorem contains_lowered (table : Variables) (name : Text) :
    table.lowered.contains (asciiLower name) = table.contains name := by
  simp [contains, lowered, List.any_map, Function.comp_def]

theorem set_lowered (table : Variables) (name value : Text) :
    table.lowered.set (asciiLower name) (asciiLower value) = (table.set name value).lowered := by
  rw [set, set, contains_lowered]
  by_cases h : table.contains name = true
  · rw [if_pos h, if_pos h]
    simp only [lowered, List.map_map, lower_asciiLower]
    congr 1
    refine List.map_congr_left fun v _ => ?_
    simp only [Function.comp_apply, Variable.key_lowered]
    split <;> rfl
  · rw [if_neg h, if_neg h]
    simp [lowered, Variable.lowered]

theorem overlay_lowered (table top : Variables) :
    table.lowered.overlay top.lowered = (table.overlay top).lowered := by
  show (top.entries.map Variable.lowered).foldl _ _ = _
  rw [List.foldl_map]
  exact List.foldl_hom lowered fun t v => set_lowered t v.name v.value

end Variables

/-! ### Replacements -/

namespace Replacement

section

variable (pattern replacement t value : Text)

theorem find?_asciiLower : find? (asciiLower pattern) (asciiLower t) =
    (find? pattern t).map (Prod.map asciiLower asciiLower) := by
  induction t with
  | nil => rfl
  | cons c rest ih =>
    rw [asciiLower_cons, find?, find?, ← asciiLower_cons, afterSame?_asciiLower, ih]
    cases afterSame? pattern (c :: rest) with
    | some after => rfl
    | none =>
      rw [Option.map_none, Option.map_map, Option.map_map]
      rfl

theorem replaceAll_eq (p : Char) : replaceAll p pattern replacement t =
    match find? (p :: pattern) t with
    | some (before, after) => before ++ replacement ++ replaceAll p pattern replacement after
    | none => t := by
  rw [replaceAll]
  split <;> simp_all

theorem replaceAll_asciiLower (p : Char) :
    replaceAll p.toLower (asciiLower pattern) (asciiLower replacement) (asciiLower t) =
      asciiLower (replaceAll p pattern replacement t) := by
  fun_induction replaceAll p pattern replacement t with
  | case1 t before after h ih =>
    rw [replaceAll_eq, ← asciiLower_cons, find?_asciiLower, h, asciiLower_append, asciiLower_append,
      ← ih]
    rfl
  | case2 t h =>
    rw [replaceAll_eq, ← asciiLower_cons, find?_asciiLower, h]
    rfl

/-- What a reference that asks for `find` to be replaced stands for. -/
def replace? (value find replacement : Text) : Option Text :=
  match find with
  | [] => none
  | ['*'] => none
  | '*' :: pattern =>
      match find? pattern value with
      | some (_, after) => some (replacement ++ after)
      | none => some value
  | p :: pattern => some (replaceAll p pattern replacement value)

theorem replace?_of_ne {p : Char} (hp : p ≠ '*') :
    replace? value (p :: pattern) replacement = some (replaceAll p pattern replacement value) := by
  unfold replace?
  split <;> simp_all

theorem resolve?_eq (arguments : Text) : resolve? value arguments =
    if arguments.head? = some '~' then none
    else (splitFirst (· = '=') arguments).bind fun (find, replacement) =>
      replace? value find replacement := by
  unfold resolve?
  congr 1
  rcases splitFirst (· = '=') arguments with _ | ⟨_ | ⟨p, pattern⟩, replacement⟩
  · rfl
  · rfl
  by_cases hp : p = '*'
  · subst hp
    cases pattern <;> rfl
  · simp [hp, replace?_of_ne]

theorem replace?_asciiLower (find : Text) :
    replace? (asciiLower value) (asciiLower find) (asciiLower replacement) =
      (replace? value find replacement).map asciiLower := by
  rcases find with _ | ⟨p, pattern⟩
  · rfl
  by_cases hp : p = '*'
  · subst hp
    rcases pattern with _ | ⟨q, pattern⟩
    · rfl
    show (match find? (asciiLower (q :: pattern)) (asciiLower value) with
        | some (_, after) => some (asciiLower replacement ++ after)
        | none => some (asciiLower value)) = Option.map asciiLower
      (match find? (q :: pattern) value with
        | some (_, after) => some (replacement ++ after)
        | none => some value)
    rw [find?_asciiLower]
    rcases find? (q :: pattern) value with _ | ⟨before, after⟩
    · rfl
    · simp
  · rw [asciiLower_cons, replace?_of_ne _ _ _ hp, replace?_of_ne _ _ _ (toLower_ne (by decide) hp),
      replaceAll_asciiLower]
    rfl

theorem resolve?_asciiLower (arguments : Text) :
    resolve? (asciiLower value) (asciiLower arguments) =
      (resolve? value arguments).map asciiLower := by
  rw [resolve?_eq, resolve?_eq, splitFirst_asciiLower _ (caseBlind_eq (by decide))]
  simp only [head?_asciiLower_eq_some_iff (d := '~') (by decide)]
  split
  · rfl
  · rcases splitFirst (· = '=') arguments with _ | ⟨find, replacement⟩
    · rfl
    · exact replace?_asciiLower replacement value find

end

end Replacement

/-! ### Slices -/

namespace Slice

theorem caseBlind_digit? (base : Nat) : CaseBlind (digit? base) := by
  have hvalue : CaseBlind fun c =>
      if c.isDigit then some (c.toNat - '0'.toNat)
      else if 'a' ≤ c ∧ c ≤ 'f' then some (c.toNat - 'a'.toNat + 10)
      else if 'A' ≤ c ∧ c ≤ 'F' then some (c.toNat - 'A'.toNat + 10)
      else none := caseBlind_of_capitals (by decide)
  intro c
  exact congrArg (Option.filter (· < base)) (hvalue c)

theorem readDigits_asciiLower (base : Nat) (n : Int) (t : Text) :
    readDigits base n (asciiLower t) = readDigits base n t := by
  induction t generalizing n with
  | nil => rfl
  | cons c rest ih =>
    rw [asciiLower_cons, readDigits, readDigits, caseBlind_digit? base c]
    cases digit? base c with
    | none => rfl
    | some d => exact ih _

theorem readUnsigned_hex {c : Char} (hc : c = 'x' ∨ c = 'X') (t : Text) :
    readUnsigned ('0' :: c :: t) = readDigits 16 0 t := by
  rcases hc with rfl | rfl <;> rfl

theorem readUnsigned_octal {c : Char} (hc : ¬(c = 'x' ∨ c = 'X')) (t : Text) :
    readUnsigned ('0' :: c :: t) = readDigits 8 0 (c :: t) := by
  unfold readUnsigned
  split <;> simp_all

theorem readUnsigned_decimal {c : Char} (hc : c ≠ '0') (t : Text) :
    readUnsigned (c :: t) = readDigits 10 0 (c :: t) := by
  unfold readUnsigned
  split <;> simp_all

theorem readUnsigned_asciiLower (t : Text) : readUnsigned (asciiLower t) = readUnsigned t := by
  have hx : CaseBlind fun c => decide (c = 'x' ∨ c = 'X') := caseBlind_of_capitals (by decide)
  rcases t with _ | ⟨c, t⟩
  · rfl
  by_cases hc : c = '0'
  · subst hc
    rcases t with _ | ⟨d, t⟩
    · rfl
    have hd := decide_eq_decide.1 (hx d)
    show readUnsigned ('0' :: d.toLower :: asciiLower t) = _
    by_cases h : d = 'x' ∨ d = 'X'
    · rw [readUnsigned_hex h, readUnsigned_hex (hd.2 h), readDigits_asciiLower]
    · rw [readUnsigned_octal h, readUnsigned_octal (mt hd.1 h), ← asciiLower_cons,
        readDigits_asciiLower]
  · rw [asciiLower_cons, readUnsigned_decimal hc, readUnsigned_decimal (toLower_ne (by decide) hc),
      ← asciiLower_cons, readDigits_asciiLower]

theorem readIndex_asciiLower (t : Text) : readIndex (asciiLower t) = readIndex t := by
  rw [readIndex, readIndex, trimStart_asciiLower]
  rcases trimStart t with _ | ⟨c, u⟩
  · rfl
  by_cases hminus : c = '-'
  · subst hminus
    exact congrArg Neg.neg (readUnsigned_asciiLower u)
  by_cases hplus : c = '+'
  · subst hplus
    exact readUnsigned_asciiLower u
  · have hminus' : c.toLower ≠ '-' := toLower_ne (by decide) hminus
    have hplus' : c.toLower ≠ '+' := toLower_ne (by decide) hplus
    have hread := readUnsigned_asciiLower (c :: u)
    simpa [hminus, hplus, hminus', hplus'] using hread

theorem between_asciiLower (value : Text) (first last : Nat) :
    between (asciiLower value) first last = asciiLower (between value first last) := by
  rw [between, between, asciiLower, asciiLower, List.map_drop, List.map_take]

theorem slice_asciiLower (value : Text) (start : Int) (length : Option Int) :
    slice (asciiLower value) start length = asciiLower (slice value start length) := by
  simp only [slice, length_asciiLower, between_asciiLower]
  cases length with
  | none => rfl
  | some n =>
    dsimp only
    split
    · split <;> rfl
    · rfl

theorem resolve?_of_not_tilde {value t : Text} (h : t.head? ≠ some '~') :
    resolve? value t = none := by
  unfold resolve?
  split <;> simp_all

theorem resolve?_asciiLower (value arguments : Text) :
    resolve? (asciiLower value) (asciiLower arguments) =
      (resolve? value arguments).map asciiLower := by
  by_cases h : arguments.head? = some '~'
  · obtain ⟨t, rfl⟩ := List.head?_eq_some_iff.1 h
    have hcomma := splitFirst_asciiLower t (caseBlind_eq (d := ',') (by decide))
    have htilde : asciiLower ('~' :: t) = '~' :: asciiLower t := rfl
    simp only [htilde, resolve?, hcomma, trim_asciiLower, isEmpty_asciiLower, readIndex_asciiLower,
      slice_asciiLower]
    rcases splitFirst (· = ',') t with _ | ⟨start, length⟩
    · dsimp only [Option.map_none]
      split <;> rfl
    · simp only [Option.map_some, Prod.map_apply, trim_asciiLower, isEmpty_asciiLower,
        readIndex_asciiLower]
      split <;> rfl
  · rw [resolve?_of_not_tilde h,
      resolve?_of_not_tilde (mt (head?_asciiLower_eq_some_iff (by decide)).1 h)]
    rfl

end Slice

/-! ### Expansion -/

namespace Expansion

section

variable {e : Expansion} {table : Variables} {t : Text}

theorem expandNames_of_ne {c : Char} (hc : c ≠ e.sigil) :
    e.expandNames table (c :: t) = c :: e.expandNames table t := by
  rw [expandNames, if_neg hc]

theorem expandNames_sigil : e.expandNames table (e.sigil :: t) =
    match e.longest? t table.entries with
    | some (v, after) => v.value ++ e.expandNames table after
    | none => e.sigil :: e.expandNames table t := by
  rw [expandNames, if_pos rfl]
  split <;> simp_all

variable {resolve? : Text → Text → Option Text}

theorem expandArguments_of_ne {c : Char} (hc : c ≠ e.sigil) :
    e.expandArguments table resolve? (c :: t) = c :: e.expandArguments table resolve? t := by
  rw [expandArguments, if_neg hc]

theorem expandArguments_sigil : e.expandArguments table resolve? (e.sigil :: t) =
    match e.withArguments? t with
    | some (name, arguments, after) =>
        match (table.get? name).bind fun value => resolve? value arguments with
        | some value => value ++ e.expandArguments table resolve? after
        | none => e.sigil :: e.expandArguments table resolve? t
    | none => e.sigil :: e.expandArguments table resolve? t := by
  rw [expandArguments, if_pos rfl]
  split
  · rename_i name arguments after h
    rcases hv : (table.get? name).bind fun value => resolve? value arguments with _ | value
    · simp [h, hv]
    · simp [h, hv]
  · rename_i h
    simp [h]

end

section

variable (e : Expansion) (t : Text)

theorem hasInnerColon_asciiLower : hasInnerColon (asciiLower t) = hasInnerColon t := by
  cases t with
  | nil => rfl
  | cons c rest =>
    rw [asciiLower_cons, hasInnerColon, hasInnerColon, asciiLower, ← List.map_dropLast]
    exact contains_asciiLower _ (by decide)

theorem isPlainName_asciiLower : e.isPlainName (asciiLower t) = e.isPlainName t := by
  rw [isPlainName, isPlainName, isEmpty_asciiLower, hasInnerColon_asciiLower]

variable {e} (he : e.sigil.isAlpha = false)
include he

theorem afterName?_asciiLower (name : Text) :
    e.afterName? (asciiLower name) (asciiLower t) = (e.afterName? name t).map asciiLower := by
  rw [afterName?, afterName?, afterSame?_asciiLower]
  rcases afterSame? name t with _ | _ | ⟨c, after⟩
  · rfl
  · rfl
  · by_cases hc : c = e.sigil
    · simp [hc, (toLower_eq_iff he).2]
    · simp [hc, toLower_ne he hc]

theorem longest?_lowered (vs : List Variable) :
    e.longest? (asciiLower t) (vs.map Variable.lowered) =
      (e.longest? t vs).map (Prod.map Variable.lowered asciiLower) := by
  induction vs with
  | nil => rfl
  | cons v rest ih =>
    have hhere : (if e.isPlainName v.lowered.name then e.afterName? v.lowered.name (asciiLower t)
        else none) =
        (if e.isPlainName v.name then e.afterName? v.name t else none).map asciiLower := by
      rw [Variable.lowered, isPlainName_asciiLower, afterName?_asciiLower _ he]
      split <;> rfl
    rw [List.map_cons, longest?, longest?, ih, hhere]
    rcases (if e.isPlainName v.name then e.afterName? v.name t else none) with _ | after
    · rfl
    rcases e.longest? t rest with _ | ⟨w, after'⟩
    · rfl
    have hlength : ∀ u : Variable, u.lowered.name.length = u.name.length := fun u =>
      length_asciiLower u.name
    simp only [Option.map_some, Prod.map_apply, hlength]
    split <;> rfl

theorem expandNames_lowered (table : Variables) :
    e.expandNames table.lowered (asciiLower t) = asciiLower (e.expandNames table t) := by
  have hsigil : e.sigil.toLower = e.sigil := (toLower_eq_iff he).2 rfl
  have hlongest : ∀ t, e.longest? (asciiLower t) table.lowered.entries =
      (e.longest? t table.entries).map (Prod.map Variable.lowered asciiLower) := fun t =>
    longest?_lowered t he table.entries
  fun_induction expandNames e table t with
  | case1 => rw [asciiLower_nil, expandNames]
  | case2 rest v after h ih =>
    rw [asciiLower_cons, hsigil, expandNames_sigil, hlongest, h, asciiLower_append, ← ih]
    rfl
  | case3 rest h ih =>
    rw [asciiLower_cons, hsigil, expandNames_sigil, hlongest, h, asciiLower_cons, hsigil, ← ih]
    rfl
  | case4 c rest hc ih =>
    rw [asciiLower_cons, expandNames_of_ne (toLower_ne he hc), ih, asciiLower_cons]

theorem withArguments?_asciiLower : e.withArguments? (asciiLower t) =
    (e.withArguments? t).map (Prod.map asciiLower (Prod.map asciiLower asciiLower)) := by
  rw [withArguments?, withArguments?, splitFirst_asciiLower _ (caseBlind_eq (by decide))]
  rcases splitFirst (· = ':') t with _ | ⟨name, rest⟩
  · rfl
  simp only [Option.map_some, Prod.map_apply, isEmpty_asciiLower, contains_asciiLower _ he,
    splitFirst_asciiLower _ (caseBlind_eq he)]
  split
  · rfl
  · rw [Option.map_map, Option.map_map]
    rfl

theorem expandArguments_lowered (table : Variables) {resolve? : Text → Text → Option Text}
    (hresolve : ∀ value arguments, resolve? (asciiLower value) (asciiLower arguments) =
      (resolve? value arguments).map asciiLower) :
    e.expandArguments table.lowered resolve? (asciiLower t) =
      asciiLower (e.expandArguments table resolve? t) := by
  have hsigil : e.sigil.toLower = e.sigil := (toLower_eq_iff he).2 rfl
  have hvalue : ∀ name arguments,
      ((table.lowered.get? (asciiLower name)).bind fun value =>
        resolve? value (asciiLower arguments)) =
        ((table.get? name).bind fun value => resolve? value arguments).map asciiLower := by
    intro name arguments
    rw [Variables.get?_lowered]
    cases table.get? name with
    | none => rfl
    | some value => exact hresolve value arguments
  fun_induction expandArguments e table resolve? t with
  | case1 => rw [asciiLower_nil, expandArguments]
  | case2 rest name arguments after h value hv ih =>
    rw [asciiLower_cons, hsigil, expandArguments_sigil, withArguments?_asciiLower _ he, h]
    simp only [Option.map_some, Prod.map_apply, hvalue, hv, ih, asciiLower_append]
  | case3 rest name arguments after h hv ih =>
    rw [asciiLower_cons, hsigil, expandArguments_sigil, withArguments?_asciiLower _ he, h]
    simp only [Option.map_some, Prod.map_apply, hvalue, hv, Option.map_none, ih, asciiLower_cons,
      hsigil]
  | case4 rest h ih =>
    rw [asciiLower_cons, hsigil, expandArguments_sigil, withArguments?_asciiLower _ he, h]
    simp only [Option.map_none, ih, asciiLower_cons, hsigil]
  | case5 c rest hc ih =>
    rw [asciiLower_cons, expandArguments_of_ne (toLower_ne he hc), ih, asciiLower_cons]

/-- The lower-case form of an expanded text is the lower-case text, expanded in lower case. -/
theorem expand_lowered (table : Variables) :
    e.expand table.lowered (asciiLower t) = asciiLower (e.expand table t) := by
  simp only [expand, expandNames_lowered _ he,
    expandArguments_lowered _ he _ Replacement.resolve?_asciiLower,
    expandArguments_lowered _ he _ Slice.resolve?_asciiLower]
  split <;> rfl

end

end Expansion

/-! ### Assignments -/

namespace Assignment

theorem isSwitched_asciiLower (t : Text) : isSwitched (asciiLower t) = isSwitched t := by
  rcases t with _ | ⟨c, t⟩
  · rfl
  by_cases hc : c = '/'
  · subst hc
    rcases t with _ | ⟨d, t⟩
    · rfl
    · show (decide (d.toLower.toLower = 'a') || decide (d.toLower.toLower = 'p')) = _
      rw [toLower_toLower]
      rfl
  · have hlow : c.toLower ≠ '/' := toLower_ne (by decide) hc
    simp [isSwitched, hc, hlow]

theorem body_of_ne {c : Char} (hc : c ≠ '"') (t : Text) : body (c :: t) = c :: t := by
  simp [body, hc]

theorem body_asciiLower (t : Text) : body (asciiLower t) = asciiLower (body t) := by
  rcases t with _ | ⟨c, t⟩
  · rfl
  by_cases hc : c = '"'
  · subst hc
    show body ('"' :: asciiLower t) = _
    rw [body, body, splitLast_asciiLower _ (caseBlind_eq (by decide))]
    rcases splitLast (· = '"') t with _ | ⟨inside, after⟩ <;> rfl
  · rw [body_of_ne hc, asciiLower_cons, body_of_ne (toLower_ne (by decide) hc)]

theorem parse?_asciiLower (t : Text) :
    parse? (asciiLower t) = (parse? t).map (Prod.map asciiLower asciiLower) := by
  rw [parse?, parse?, trimStart_asciiLower, isSwitched_asciiLower, body_asciiLower,
    splitFirst_asciiLower _ (caseBlind_eq (by decide))]
  split
  · rfl
  · rcases splitFirst (· = '=') (body (trimStart t)) with _ | ⟨_ | ⟨c, name⟩, value⟩ <;> rfl

end Assignment

end BatchTrace
