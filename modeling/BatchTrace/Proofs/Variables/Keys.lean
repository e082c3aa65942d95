/-
The keys of a table.

An assignment looks for its variable by key before it adds one, so whatever is done with a
table, no two of its variables ever have the same key.  With that a key determines its
variable: a lookup finds the one variable there is, wherever it stands, and two tables that
have the same variables in another order answer every lookup alike.
-/
import BatchTrace.Variables
import Mathlib.Data.List.Nodup
import Mathlib.Data.List.Perm.Subperm

namespace BatchTrace

namespace Variables

/-- No two variables have the same key. -/
def Distinct (table : Variables) : Prop :=
  (table.entries.map (·.key)).Nodup

instance (table : Variables) : Decidable table.Distinct :=
  inferInstanceAs (Decidable (table.entries.map (·.key)).Nodup)

variable {table a b : Variables} {name : Text}

/-! ### What keeps the keys apart -/

theorem distinct_empty : empty.Distinct :=
  List.nodup_nil

theorem contains_iff :
    table.contains name = true ↔ ∃ v ∈ table.entries, v.key = Text.lower name := by
  simp [contains]

namespace Distinct

variable (h : table.Distinct)
include h

theorem set (name value : Text) : (table.set name value).Distinct := by
  unfold Variables.set
  split
  · have hkeys : (fun v : Variable => v.key) ∘
        (fun v => if v.key = Text.lower name then { v with value := value } else v) =
        fun v => v.key := by
      funext v
      simp only [Function.comp_apply]
      split <;> rfl
    unfold Distinct
    rwa [List.map_map, hkeys]
  · rename_i hnew
    unfold Distinct
    rw [List.map_append, List.map_singleton]
    refine List.nodup_append.mpr ⟨h, List.nodup_singleton _, ?_⟩
    rintro key hkey _ hlast rfl
    obtain ⟨v, hv, rfl⟩ := List.mem_map.mp hkey
    exact hnew (contains_iff.mpr ⟨v, hv, List.mem_singleton.mp hlast⟩)

theorem erase (name : Text) : (table.erase name).Distinct :=
  List.Nodup.sublist (List.filter_sublist.map _) h

theorem foldl_set {α : Type} (pair : α → Text × Text) (l : List α) :
    (l.foldl (fun t x => t.set (pair x).1 (pair x).2) table).Distinct := by
  induction l generalizing table with
  | nil => exact h
  | cons x l ih => exact ih (h.set _ _)

theorem overlay (top : Variables) : (table.overlay top).Distinct :=
  h.foldl_set (fun v : Variable => (v.name, v.value)) top.entries

end Distinct

theorem distinct_ofList (pairs : List (Text × Text)) : (ofList pairs).Distinct :=
  distinct_empty.foldl_set id pairs

/-! ### Looking up a key -/

section

variable (h : table.Distinct)
include h

theorem Distinct.eq_of_key_eq {v w : Variable} (hv : v ∈ table.entries) (hw : w ∈ table.entries)
    (hkey : v.key = w.key) : v = w :=
  List.inj_on_of_nodup_map h hv hw hkey

theorem Distinct.get?_eq_some_iff {value : Text} :
    table.get? name = some value ↔
      ∃ v ∈ table.entries, v.key = Text.lower name ∧ v.value = value := by
  rw [get?, Option.map_eq_some_iff]
  constructor
  · rintro ⟨v, hfind, rfl⟩
    exact ⟨v, List.mem_of_find?_eq_some hfind, by simpa using List.find?_some hfind, rfl⟩
  · rintro ⟨v, hv, hkey, rfl⟩
    obtain ⟨w, hfind⟩ : ∃ w, table.entries.find? (·.key = Text.lower name) = some w := by
      rw [← Option.isSome_iff_exists, List.find?_isSome]
      exact ⟨v, hv, by simpa using hkey⟩
    have hwkey : w.key = Text.lower name := by simpa using List.find?_some hfind
    have hsame := h.eq_of_key_eq (List.mem_of_find?_eq_some hfind) hv (hwkey.trans hkey.symm)
    exact ⟨w, hfind, by rw [hsame]⟩

/-- The variable of a key is found wherever it stands. -/
theorem Distinct.get?_of_mem {v : Variable} (hv : v ∈ table.entries)
    (hkey : v.key = Text.lower name) : table.get? name = some v.value :=
  h.get?_eq_some_iff.mpr ⟨v, hv, hkey, rfl⟩

end

/-! ### Tables in another order -/

theorem Distinct.perm_of_sameEntries (h : a.Distinct) (hsame : a.sameEntries b = true) :
    a.entries.Perm b.entries := by
  rw [sameEntries, Bool.and_eq_true, beq_iff_eq, List.all_eq_true] at hsame
  have hsubset : a.entries ⊆ b.entries := fun v hv => by simpa using hsame.2 v hv
  have hsubperm := List.subperm_of_subset (List.Nodup.of_map _ h) hsubset
  exact hsubperm.perm_of_length_le (Nat.le_of_eq hsame.1.symm)

theorem Distinct.of_perm (h : a.Distinct) (hperm : a.entries.Perm b.entries) : b.Distinct :=
  (hperm.map _).nodup_iff.mp h

theorem Distinct.get?_eq_of_perm (h : a.Distinct) (hperm : a.entries.Perm b.entries) (name : Text) :
    a.get? name = b.get? name := by
  ext value
  rw [h.get?_eq_some_iff, (h.of_perm hperm).get?_eq_some_iff]
  simp only [hperm.mem_iff]

end Variables

end BatchTrace
