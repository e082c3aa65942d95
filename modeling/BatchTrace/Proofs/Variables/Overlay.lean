/-
Tables laid over one another.

A table that is laid over another one comes first in every lookup, and last in the order of the
names: the names of the lower table keep their places and their spelling, and only those that are
new follow them.  These two facts determine the result, so the laws of overlaying are laws of
appending lists and of choosing the first value there is.
-/
import BatchTrace.Proofs.Variables.History

namespace BatchTrace

namespace Variables

variable {a b c table top : Variables}

/-! ### Lookups and names -/

theorem overlay_cons (table : Variables) (v : Variable) (l : List Variable) :
    table.overlay ⟨v :: l⟩ = (table.set v.name v.value).overlay ⟨l⟩ := rfl

theorem distinct_cons {v : Variable} {l : List Variable} (h : Distinct ⟨v :: l⟩) :
    contains ⟨l⟩ v.name = false ∧ Distinct ⟨l⟩ := by
  obtain ⟨hkey, hrest⟩ := List.nodup_cons.mp h
  refine ⟨?_, hrest⟩
  rw [← Bool.not_eq_true, contains_iff]
  rintro ⟨w, hw, hsame⟩
  exact hkey (List.mem_map.mpr ⟨w, hw, hsame⟩)

/-- The upper table comes first. -/
theorem get?_overlay (h : top.Distinct) (table : Variables) (name : Text) :
    (table.overlay top).get? name = (top.get? name).or (table.get? name) := by
  obtain ⟨l⟩ := top
  induction l generalizing table with
  | nil => rfl
  | cons v l ih =>
      obtain ⟨hnew, hrest⟩ := distinct_cons h
      rw [overlay_cons, ih _ hrest, get?_set, get?_cons, Variable.key]
      split
      · rename_i hsame
        rw [contains_eq_isSome, get?_congr _ hsame] at hnew
        rw [show get? ⟨l⟩ name = none by simpa using hnew, Option.none_or, Option.some_or]
      · rfl

theorem contains_overlay (h : top.Distinct) (table : Variables) (name : Text) :
    (table.overlay top).contains name = (table.contains name || top.contains name) := by
  rw [contains_eq_isSome, get?_overlay h, Option.isSome_or, Bool.or_comm, contains_eq_isSome,
    contains_eq_isSome]

/-- The names of the lower table come first, and then those that are new. -/
theorem names_overlay (h : top.Distinct) (table : Variables) :
    (table.overlay top).names = table.names ++ top.names.filter (!table.contains ·) := by
  obtain ⟨l⟩ := top
  induction l generalizing table with
  | nil => exact (List.append_nil _).symm
  | cons v l ih =>
      obtain ⟨hnew, hrest⟩ := distinct_cons h
      -- The name just set is none of the later ones, so these are new if they were.
      have hlater : (names ⟨l⟩).filter (!(table.set v.name v.value).contains ·) =
          (names ⟨l⟩).filter (!table.contains ·) := by
        refine List.filter_congr fun n hn => ?_
        have hother : ¬ Text.lower v.name = Text.lower n := fun hsame => by
          rw [contains_iff_names.mpr ⟨n, hn, hsame.symm⟩] at hnew
          cases hnew
        rw [contains_set, decide_eq_false hother, Bool.false_or]
      have hcons : names ⟨v :: l⟩ = v.name :: names ⟨l⟩ := rfl
      rw [overlay_cons, ih _ hrest, hlater, names_set, hcons]
      split
      · rename_i hcontains
        rw [List.filter_cons_of_neg (by simp [hcontains])]
      · rename_i hcontains
        rw [List.filter_cons_of_pos (by simpa using hcontains), List.append_assoc,
          List.singleton_append]

/-! ### The laws -/

theorem overlay_empty (table : Variables) : table.overlay empty = table := rfl

theorem empty_overlay (h : a.Distinct) : empty.overlay a = a := by
  refine (distinct_empty.overlay a).ext h ?_ fun name => ?_
  · rw [names_overlay h]
    exact List.filter_eq_self.mpr fun _ _ => rfl
  · rw [get?_overlay h]
    exact Option.or_none

theorem overlay_self (h : a.Distinct) : a.overlay a = a := by
  refine (h.overlay a).ext h ?_ fun name => ?_
  · have hnone : a.names.filter (!a.contains ·) = [] := by
      refine List.filter_eq_nil_iff.mpr fun n hn => ?_
      simp [contains_iff_names.mpr ⟨n, hn, rfl⟩]
    rw [names_overlay h, hnone, List.append_nil]
  · rw [get?_overlay h, Option.or_self]

theorem overlay_assoc (ha : a.Distinct) (hb : b.Distinct) (hc : c.Distinct) :
    (a.overlay b).overlay c = a.overlay (b.overlay c) := by
  have hbc := hb.overlay c
  refine ((ha.overlay b).overlay c).ext (ha.overlay _) ?_ fun name => ?_
  · calc
      ((a.overlay b).overlay c).names
          = a.names ++ b.names.filter (!a.contains ·) ++
              c.names.filter (!(a.overlay b).contains ·) := by
            rw [names_overlay hc, names_overlay hb]
      _ = a.names ++ (b.names ++ c.names.filter (!b.contains ·)).filter (!a.contains ·) := by
            simp only [contains_overlay hb, Bool.not_or, List.filter_append, List.filter_filter,
              List.append_assoc]
      _ = (a.overlay (b.overlay c)).names := by
            rw [names_overlay hbc, names_overlay hc]
  · rw [get?_overlay hc, get?_overlay hb, get?_overlay hbc, get?_overlay hc, Option.or_assoc]

/--
**Overlaying is a monoid.**  However three tables are grouped, laying them over one another gives
the same names in the same order and spelling, with the same values.  The empty table changes
nothing, above or below, and neither does a table that is laid over itself.  A lookup is answered
by the upper table if that has the name, and by the lower one otherwise.
-/
theorem overlay_build (bottom middle top : List Operation) :
    let a := build bottom
    let b := build middle
    let c := build top
    (a.overlay b).overlay c = a.overlay (b.overlay c) ∧
      empty.overlay a = a ∧ a.overlay empty = a ∧ a.overlay a = a ∧
      ∀ name, (a.overlay b).get? name = if b.contains name then b.get? name else a.get? name := by
  intro a b c
  have ha : a.Distinct := distinct_build bottom
  have hb : b.Distinct := distinct_build middle
  have hc : c.Distinct := distinct_build top
  refine ⟨overlay_assoc ha hb hc, empty_overlay ha, overlay_empty a, overlay_self ha, ?_⟩
  intro name
  rw [get?_overlay hb, contains_eq_isSome]
  cases b.get? name with
  | none => rfl
  | some value => rfl

end Variables

end BatchTrace
