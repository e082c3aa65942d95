/-
Expansion is local to the sigils.

A reference of any kind ends with a sigil.  So the text behind the last sigil is no part of
any reference, and although a reference with arguments looks ahead for a colon and finds one
there at times, it then looks for its second sigil in vain.  Each pass therefore does the same
with and without that text and leaves it standing at the end, where it is again behind the
last sigil for the next pass, whatever the values hold.
-/
import BatchTrace.Proofs.Reference.Slices

namespace BatchTrace

namespace Text

theorem splitFirst_append_of_some {p : Char → Bool} {t before after : Text}
    (h : splitFirst p t = some (before, after)) (c : Text) :
    splitFirst p (t ++ c) = some (before, after ++ c) := by
  obtain ⟨d, hd, hbefore, rfl⟩ := splitFirst_eq_some h
  rw [List.append_assoc, List.cons_append, splitFirst_append hbefore hd]

theorem splitFirst_append_of_none {p : Char → Bool} {t : Text} (h : splitFirst p t = none)
    (c : Text) :
    splitFirst p (t ++ c) = (splitFirst p c).map fun (before, after) => (t ++ before, after) := by
  induction t with
  | nil => simp
  | cons d t ih =>
    have hd : ¬ p d = true := by simpa using splitFirst_eq_none_iff.mp h d (by simp)
    have ht : splitFirst p t = none :=
      splitFirst_eq_none_iff.mpr fun x hx => splitFirst_eq_none_iff.mp h x (by simp [hx])
    rw [List.cons_append, splitFirst, if_neg hd, ih ht, Option.map_map]
    rfl

end Text

namespace Expansion

open Text

/-! ### Names -/

theorem afterName?_cons (e : Expansion) (p d : Char) (name t : Text) :
    e.afterName? (p :: name) (d :: t) =
      if sameLetter d p then e.afterName? name t else none := by
  rw [afterName?, afterSame?]
  by_cases hsame : sameLetter d p = true
  · rw [if_pos hsame, if_pos hsame, afterName?]
  · rw [if_neg hsame, if_neg hsame]

variable {e : Expansion} {c : Text} (hc : e.sigil ∉ c)
include hc

theorem afterName?_append (name t : Text) :
    e.afterName? name (t ++ c) = (e.afterName? name t).map (· ++ c) := by
  induction t generalizing name with
  | nil => rw [List.nil_append, afterName?_of_not_mem _ hc, afterName?_nil, Option.map_none]
  | cons d t ih =>
    cases name with
    | nil =>
      show (if d = e.sigil then some (t ++ c) else none) =
        (if d = e.sigil then some t else none).map (· ++ c)
      split <;> rfl
    | cons p name =>
      rw [List.cons_append, afterName?_cons, afterName?_cons, ih]
      split <;> rfl

theorem longest?_append (t : Text) (vs : List Variable) :
    e.longest? (t ++ c) vs = (e.longest? t vs).map (Prod.map id (· ++ c)) := by
  induction vs with
  | nil => rfl
  | cons v vs ih =>
    have hhere : (if e.isPlainName v.name then e.afterName? v.name (t ++ c) else none) =
        (if e.isPlainName v.name then e.afterName? v.name t else none).map (· ++ c) := by
      rw [afterName?_append hc]
      split <;> rfl
    rw [longest?, longest?, ih, hhere]
    rcases (if e.isPlainName v.name then e.afterName? v.name t else none) with _ | after
    · rfl
    rcases e.longest? t vs with _ | ⟨w, after'⟩
    · rfl
    simp only [Option.map_some, Prod.map_apply, id_eq]
    split <;> rfl

theorem expandNames_append_right (table : Variables) (t : Text) :
    e.expandNames table (t ++ c) = e.expandNames table t ++ c := by
  fun_induction expandNames e table t with
  | case1 => simpa [expandNames] using expandNames_append table hc []
  | case2 rest v after h ih =>
    rw [List.cons_append, expandNames_sigil, longest?_append hc, h, List.append_assoc, ← ih]
    rfl
  | case3 rest h ih =>
    rw [List.cons_append, expandNames_sigil, longest?_append hc, h, List.cons_append, ← ih]
    rfl
  | case4 d rest hd ih =>
    rw [List.cons_append, expandNames_of_ne hd, ih, List.cons_append]

/-! ### Arguments -/

theorem withArguments?_append (t : Text) :
    e.withArguments? (t ++ c) =
      (e.withArguments? t).map (Prod.map id (Prod.map id (· ++ c))) := by
  have hsigil : ∀ {s : Text}, (∀ d ∈ s, d ∈ c) → splitFirst (· = e.sigil) s = none := by
    intro s hs
    refine splitFirst_eq_none_iff.mpr fun d hd => ?_
    simpa using ne_of_mem_of_not_mem (hs d hd) hc
  rw [withArguments?, withArguments?]
  cases hcolon : splitFirst (· = ':') t with
  | none =>
    rw [splitFirst_append_of_none hcolon]
    cases hlater : splitFirst (· = ':') c with
    | none => rfl
    | some parts =>
      -- The colon stands behind the last sigil.
      obtain ⟨before, after⟩ := parts
      obtain ⟨_, _, _, hparts⟩ := splitFirst_eq_some hlater
      simp only [Option.map_some, Option.map_none]
      rw [hsigil (s := after) fun d hd => by simp [hparts, hd]]
      split <;> rfl
  | some parts =>
    obtain ⟨name, rest⟩ := parts
    rw [splitFirst_append_of_some hcolon]
    dsimp only
    split
    · rfl
    cases hend : splitFirst (· = e.sigil) rest with
    | none =>
      rw [splitFirst_append_of_none hend, hsigil fun _ hd => hd]
      rfl
    | some parts =>
      rw [splitFirst_append_of_some hend]
      rfl

theorem expandArguments_append_right (table : Variables) (resolve? : Text → Text → Option Text)
    (t : Text) :
    e.expandArguments table resolve? (t ++ c) = e.expandArguments table resolve? t ++ c := by
  fun_induction expandArguments e table resolve? t with
  | case1 => simpa [expandArguments] using expandArguments_append table hc [] resolve?
  | case2 rest name arguments after h value hv ih =>
    rw [List.cons_append, expandArguments_sigil, withArguments?_append hc, h]
    simp only [Option.map_some, Prod.map_apply, id_eq, hv, ih, List.append_assoc]
  | case3 rest name arguments after h hv ih =>
    rw [List.cons_append, expandArguments_sigil, withArguments?_append hc, h]
    simp only [Option.map_some, Prod.map_apply, id_eq, hv, ih, List.cons_append]
  | case4 rest h ih =>
    rw [List.cons_append, expandArguments_sigil, withArguments?_append hc, h]
    simp only [Option.map_none, ih, List.cons_append]
  | case5 d rest hd ih =>
    rw [List.cons_append, expandArguments_of_ne hd, ih, List.cons_append]

/-- What stands after the last sigil is passed over. -/
theorem expand_append_right (table : Variables) (t : Text) :
    e.expand table (t ++ c) = e.expand table t ++ c := by
  unfold expand
  dsimp only
  rw [expandNames_append_right hc]
  split
  · rw [expandArguments_append_right hc, expandArguments_append_right hc]
  · rfl

omit hc

/--
**Expansion is local to the sigils.**  For every table and every sigil, with or without
extensions, the texts in front of the first sigil and behind the last one are kept as they
are and have no part in what becomes of the text between them.
-/
theorem expand_local (e : Expansion) (table : Variables) (a b c : Text) (ha : e.sigil ∉ a)
    (hc : e.sigil ∉ c) : e.expand table (a ++ b ++ c) = a ++ e.expand table b ++ c := by
  rw [expand_append_right hc, expand_append table ha]

/-- The first pass leaves an open reference, and the colon for its arguments stands behind the
last sigil. -/
theorem expand_local_open :
    let e : Expansion := ⟨'%', true⟩
    let table := Variables.ofList [("x".toList, "%y".toList), ("y".toList, "yes".toList)]
    (e.sigil ∉ "!".toList ∧ e.sigil ∉ ":y=no".toList) ∧
    e.expand table ("!".toList ++ "%x%".toList ++ ":y=no".toList) = "!%y:y=no".toList := by
  intro e table
  have ha : e.sigil ∉ "!".toList := by decide
  have hc : e.sigil ∉ ":y=no".toList := by decide
  have hb : e.expand table "%x%".toList = "%y".toList := by decide +kernel
  refine ⟨⟨ha, hc⟩, ?_⟩
  rw [expand_local e table _ _ _ ha hc, hb]
  rfl

end Expansion

end BatchTrace
