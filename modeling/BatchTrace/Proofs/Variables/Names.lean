/-
The names of a table.

A table shows itself in two ways: by its names, in their order and as they were typed, and by
the value that a lookup finds under a name.  Every operation is described by what it does to
these two, and no later proof looks at the entries again.  Where no two variables have the same
key this says everything: tables with the same names and the same lookups are the same.
-/
import BatchTrace.Proofs.Variables.Keys

namespace BatchTrace

namespace Variables

/-- The names of a table as they were typed, in the order of their first assignment. -/
def names (table : Variables) : List Text :=
  table.entries.map (·.name)

variable {table a b : Variables}

theorem map_fst_toList (table : Variables) : table.toList.map Prod.fst = table.names := by
  simp [toList, names]

theorem length_names (table : Variables) : table.names.length = table.size := by
  simp [names, size]

theorem distinct_iff : table.Distinct ↔ (table.names.map Text.lower).Nodup := by
  rw [Distinct, names, List.map_map]
  rfl

theorem contains_iff_names {name : Text} :
    table.contains name = true ↔ ∃ n ∈ table.names, Text.lower n = Text.lower name := by
  rw [contains_iff, names]
  simp only [List.mem_map, exists_exists_and_eq_and]
  rfl

theorem contains_eq_isSome (table : Variables) (name : Text) :
    table.contains name = (table.get? name).isSome := by
  rw [get?, Option.isSome_map, Bool.eq_iff_iff, List.find?_isSome, contains, List.any_eq_true]

theorem get?_congr (table : Variables) {name other : Text}
    (h : Text.lower name = Text.lower other) : table.get? name = table.get? other := by
  rw [get?, h, get?]

theorem get?_cons (v : Variable) (l : List Variable) (name : Text) :
    get? ⟨v :: l⟩ name = if v.key = Text.lower name then some v.value else get? ⟨l⟩ name := by
  rw [get?, List.find?_cons]
  by_cases h : v.key = Text.lower name
  · simp [h]
  · simp [h, get?]

/-! ### What an assignment does -/

theorem names_set (table : Variables) (name value : Text) : (table.set name value).names =
    if table.contains name then table.names else table.names ++ [name] := by
  rw [set]
  split
  · have hname : (fun v : Variable => v.name) ∘
        (fun v => if v.key = Text.lower name then { v with value := value } else v) =
        fun v => v.name := by
      funext v
      simp only [Function.comp_apply]
      split <;> rfl
    rw [names, List.map_map, hname, names]
  · rw [names, List.map_append, names, List.map_singleton]

theorem get?_append (l m : List Variable) (name : Text) :
    get? ⟨l ++ m⟩ name = (get? ⟨l⟩ name).or (get? ⟨m⟩ name) := by
  simp only [get?, List.find?_append, Option.map_or]

theorem get?_singleton (name value other : Text) : get? ⟨[⟨name, value⟩]⟩ other =
    if Text.lower name = Text.lower other then some value else none :=
  get?_cons ⟨name, value⟩ [] other

/-- The variables of one key get another value, and no others. -/
theorem get?_map_value (l : List Variable) (name value other : Text) :
    get? ⟨l.map fun v => if v.key = Text.lower name then { v with value := value } else v⟩ other =
      (get? ⟨l⟩ other).map fun old =>
        if Text.lower name = Text.lower other then value else old := by
  induction l with
  | nil => rfl
  | cons v l ih =>
      rw [List.map_cons, get?_cons, get?_cons, ih]
      by_cases hname : v.key = Text.lower name
      · have hkey : ({ v with value := value } : Variable).key = v.key := rfl
        rw [if_pos hname, hkey, hname]
        by_cases hother : Text.lower name = Text.lower other
        · simp [hother]
        · simp [hother]
      · rw [if_neg hname]
        by_cases hother : v.key = Text.lower other
        · simp [hother, Ne.symm (hother ▸ hname)]
        · simp [hother]

theorem get?_set (table : Variables) (name value other : Text) :
    (table.set name value).get? other =
      if Text.lower name = Text.lower other then some value else table.get? other := by
  rw [set]
  split
  · rename_i hcontains
    rw [get?_map_value]
    split
    · rename_i hsame
      rw [contains_eq_isSome, get?_congr table hsame] at hcontains
      obtain ⟨old, hold⟩ := Option.isSome_iff_exists.mp hcontains
      rw [show get? ⟨table.entries⟩ other = some old from hold]
      rfl
    · exact Option.map_id'
  · rename_i hcontains
    rw [get?_append, get?_singleton]
    split
    · rename_i hsame
      rw [contains_eq_isSome, get?_congr table hsame] at hcontains
      rw [show get? ⟨table.entries⟩ other = none by simpa using hcontains, Option.none_or]
    · exact Option.or_none

theorem contains_set (table : Variables) (name value other : Text) :
    (table.set name value).contains other =
      (decide (Text.lower name = Text.lower other) || table.contains other) := by
  rw [contains_eq_isSome, contains_eq_isSome, get?_set]
  split
  · rename_i hsame
    simp [hsame]
  · rename_i hother
    simp [hother]

/-! ### What a removal does -/

theorem names_erase (table : Variables) (name : Text) : (table.erase name).names =
    table.names.filter fun n => Text.lower name ≠ Text.lower n := by
  rw [erase, names, names, List.filter_map]
  simp only [ne_comm]
  rfl

theorem get?_erase (table : Variables) (name other : Text) : (table.erase name).get? other =
    if Text.lower name = Text.lower other then none else table.get? other := by
  rw [get?, erase, List.find?_filter]
  split
  · rename_i hsame
    rw [List.find?_eq_none.mpr]
    · rfl
    · intro v _
      simp [hsame]
  · rename_i hother
    rw [get?]
    congr 2
    funext v
    by_cases hkey : v.key = Text.lower other
    · simp [hkey, Ne.symm hother]
    · simp [hkey]

/-! ### What is left to see -/

/-- Every name brings its value with it. -/
theorem Distinct.entries_eq (h : table.Distinct) :
    table.entries = table.names.filterMap fun name => (table.get? name).map (Variable.mk name) := by
  have hvalue : ∀ v ∈ table.entries, (table.get? v.name).map (Variable.mk v.name) = some v :=
    fun v hv => by rw [h.get?_of_mem hv rfl, Option.map_some]
  rw [names, List.filterMap_map]
  exact ((List.filterMap_congr hvalue).trans List.filterMap_some).symm

/-- **Names and lookups are all there is to a table.** -/
theorem Distinct.ext (ha : a.Distinct) (hb : b.Distinct) (hnames : a.names = b.names)
    (hget : ∀ name, a.get? name = b.get? name) : a = b := by
  have hentries : a.entries = b.entries := by
    rw [ha.entries_eq, hb.entries_eq, hnames]
    simp only [hget]
  exact congrArg Variables.mk hentries

end Variables

end BatchTrace
