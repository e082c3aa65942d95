/-
What a table remembers of its history.

A table is changed by assignments and removals; an overlay is nothing but the assignments of the
other table, one after another.  `history` lists these edits in the order in which they were
made.  It determines the table: the value of a name is that of the last edit that concerns it,
unless this is a removal, and the names are those that some edit brought in and that were not
removed since, in the order of these edits.

The induction is on the edits from the last one back, since the edits before it are the history
of the table that it changed.
-/
import BatchTrace.Proofs.Variables.Names
import Mathlib.Data.List.Induction

namespace BatchTrace

namespace Variables

/-- One change of a table. -/
inductive Edit where
  | assign (name value : Text)
  | remove (name : Text)
deriving DecidableEq, Repr

namespace Edit

/-- The key that an edit concerns. -/
def key : Edit → Text
  | assign name _ => Text.lower name
  | remove name => Text.lower name

/-- The value that an edit leaves its name with. -/
def value? : Edit → Option Text
  | assign _ value => some value
  | remove _ => none

/-- Does an edit remove the variable of this name? -/
def removes (name : Text) : Edit → Bool
  | assign _ _ => false
  | remove other => Text.lower other = Text.lower name

/-- The table after an edit. -/
def apply (table : Variables) : Edit → Variables
  | assign name value => table.set name value
  | remove name => table.erase name

end Edit

/-- What can be done with a table. -/
inductive Operation where
  | set (name value : Text)
  | erase (name : Text)
  | overlay (top : Variables)
deriving DecidableEq, Repr

namespace Operation

/-- The table after an operation. -/
def apply (table : Variables) : Operation → Variables
  | set name value => table.set name value
  | erase name => table.erase name
  | overlay top => table.overlay top

/-- The edits that an operation consists of. -/
def edits : Operation → List Edit
  | set name value => [.assign name value]
  | erase name => [.remove name]
  | overlay top => top.entries.map fun v => .assign v.name v.value

end Operation

/-- The table that some operations make of the empty one. -/
def build (operations : List Operation) : Variables :=
  operations.foldl Operation.apply empty

/-- Every edit that some operations make. -/
def history (operations : List Operation) : List Edit :=
  operations.flatMap Operation.edits

/-! ### What a history says -/

/-- The value that a history leaves a name with: that of the last edit that concerns it. -/
def latest? (edits : List Edit) (name : Text) : Option Text :=
  (edits.reverse.find? (·.key = Text.lower name)).bind Edit.value?

/-- The name that an edit adds to a table with the given history: one that is absent. -/
def Edit.adds? (before : List Edit) : Edit → Option Text
  | assign name _ => if (latest? before name).isNone then some name else none
  | remove _ => none

/-- The name that is there since the edit at place `i`: it was absent before, and no later edit
removes it. -/
def introduced? (edits : List Edit) (i : Nat) : Option Text :=
  (edits[i]?.bind (Edit.adds? (edits.take i))).filter fun name =>
    (edits.drop (i + 1)).all (!·.removes name)

section

variable {edits : List Edit} {e : Edit} {name value : Text}

theorem latest?_concat (edits : List Edit) (e : Edit) (name : Text) : latest? (edits ++ [e]) name =
    if e.key = Text.lower name then e.value? else latest? edits name := by
  rw [latest?, List.reverse_append, List.reverse_singleton, List.singleton_append, List.find?_cons]
  by_cases h : e.key = Text.lower name
  · simp [h]
  · simp [h, latest?]

/-- The last edit of a name is the latest assignment to it, and no removal follows it. -/
theorem latest?_eq_some_iff : latest? edits name = some value ↔
    ∃ before typed after, edits = before ++ .assign typed value :: after ∧
      Text.lower typed = Text.lower name ∧ ∀ e ∈ after, e.key ≠ Text.lower name := by
  rw [latest?, Option.bind_eq_some_iff]
  constructor
  · rintro ⟨e, hfind, hvalue⟩
    obtain ⟨hkey, later, earlier, hsplit, hlater⟩ := List.find?_eq_some_iff_append.mp hfind
    cases e with
    | remove other => simp [Edit.value?] at hvalue
    | assign typed last =>
        obtain rfl : last = value := Option.some.inj hvalue
        refine ⟨earlier.reverse, typed, later.reverse, ?_, of_decide_eq_true hkey, ?_⟩
        · rw [← List.reverse_reverse edits, hsplit]
          simp
        · intro e he
          simpa using hlater e (List.mem_reverse.mp he)
  · rintro ⟨before, typed, after, rfl, hkey, hafter⟩
    refine ⟨.assign typed value, ?_, rfl⟩
    refine List.find?_eq_some_iff_append.mpr
      ⟨decide_eq_true hkey, after.reverse, before.reverse, by simp, ?_⟩
    intro e he
    simpa using hafter e (List.mem_reverse.mp he)

/-- A later edit takes a name away or leaves it. -/
theorem introduced?_concat {i : Nat} (hi : i < edits.length) : introduced? (edits ++ [e]) i =
    (introduced? edits i).filter (!e.removes ·) := by
  have htake : (edits ++ [e]).take i = edits.take i :=
    List.take_append_of_le_length (Nat.le_of_lt hi)
  have hdrop : (edits ++ [e]).drop (i + 1) = edits.drop (i + 1) ++ [e] :=
    List.drop_append_of_le_length hi
  rw [introduced?, introduced?, List.getElem?_append_left hi, htake, hdrop, Option.filter_filter]
  simp only [List.all_append, List.all_cons, List.all_nil, Bool.and_true]

theorem introduced?_concat_length (edits : List Edit) (e : Edit) :
    introduced? (edits ++ [e]) edits.length = e.adds? edits := by
  have hdrop : (edits ++ [e]).drop (edits.length + 1) = [] := List.drop_eq_nil_of_le (by simp)
  rw [introduced?, List.getElem?_concat_length, List.take_left' rfl, hdrop, Option.bind_some]
  cases e.adds? edits <;> rfl

end

/-! ### The table says the same -/

theorem get?_apply (table : Variables) (e : Edit) (name : Text) : (e.apply table).get? name =
    if e.key = Text.lower name then e.value? else table.get? name := by
  cases e with
  | assign other value => exact get?_set table other value name
  | remove other => exact get?_erase table other name

theorem get?_foldl_apply (edits : List Edit) (name : Text) :
    (edits.foldl Edit.apply empty).get? name = latest? edits name := by
  induction edits using List.reverseRecOn with
  | nil => rfl
  | append_singleton edits e ih =>
      rw [List.foldl_append, List.foldl_cons, List.foldl_nil, get?_apply, latest?_concat, ih]

/-- An edit takes the names away that it removes, and adds one at the end if that is absent. -/
theorem names_apply {edits : List Edit} {table : Variables}
    (h : ∀ name, table.get? name = latest? edits name) (e : Edit) :
    (e.apply table).names = table.names.filter (!e.removes ·) ++ (e.adds? edits).toList := by
  cases e with
  | assign name value =>
      have hall : table.names.filter (!(Edit.assign name value).removes ·) = table.names :=
        List.filter_eq_self.mpr fun _ _ => rfl
      rw [hall, Edit.apply, names_set, contains_eq_isSome, h, Edit.adds?]
      cases latest? edits name with
      | some value => simp
      | none => simp
  | remove name =>
      rw [Edit.apply, names_erase, Edit.adds?, Option.toList_none, List.append_nil]
      refine List.filter_congr fun n _ => ?_
      simp [Edit.removes]

theorem names_foldl_apply (edits : List Edit) : (edits.foldl Edit.apply empty).names =
    (List.range edits.length).filterMap (introduced? edits) := by
  induction edits using List.reverseRecOn with
  | nil => rfl
  | append_singleton edits e ih =>
      have hkept : (List.range edits.length).filterMap (introduced? (edits ++ [e])) =
          (edits.foldl Edit.apply empty).names.filter (!e.removes ·) := by
        rw [ih, List.filter_filterMap]
        exact List.filterMap_congr fun i hi => introduced?_concat (List.mem_range.mp hi)
      rw [List.foldl_append, List.foldl_cons, List.foldl_nil, names_apply (get?_foldl_apply edits),
        List.length_append, List.length_singleton, List.range_succ, List.filterMap_append, hkept]
      congr 1
      rw [List.filterMap_cons, introduced?_concat_length]
      cases e.adds? edits <;> rfl

theorem foldl_edits (table : Variables) (operation : Operation) :
    operation.edits.foldl Edit.apply table = operation.apply table := by
  cases operation with
  | set name value => rfl
  | erase name => rfl
  | overlay top =>
      rw [Operation.edits, List.foldl_map]
      rfl

theorem build_eq (operations : List Operation) :
    build operations = (history operations).foldl Edit.apply empty := by
  rw [history, List.foldl_flatMap]
  simp only [foldl_edits]
  rfl

theorem distinct_foldl_apply (operations : List Operation) : ∀ {table : Variables},
    table.Distinct → (operations.foldl Operation.apply table).Distinct := by
  induction operations with
  | nil => exact id
  | cons operation operations ih =>
      intro table h
      refine ih ?_
      cases operation with
      | set name value => exact h.set name value
      | erase name => exact h.erase name
      | overlay top => exact h.overlay top

theorem distinct_build (operations : List Operation) : (build operations).Distinct :=
  distinct_foldl_apply operations distinct_empty

/--
**A table is determined by its history.**  Whatever was assigned, removed and overlaid, no two names
have the same lower case.  A lookup finds the value of the latest assignment to the name in any
spelling, unless the name was removed afterwards.  The names come in the order in which they were
assigned first since they were last absent, spelled as in that assignment, and the size of the
table is their number.
-/
theorem build_history (operations : List Operation) :
    let table := build operations
    let edits := history operations
    ((table.toList.map Prod.fst).map Text.lower).Nodup ∧
      (∀ name value, table.get? name = some value ↔
        ∃ before typed after, edits = before ++ .assign typed value :: after ∧
          Text.lower typed = Text.lower name ∧ ∀ e ∈ after, e.key ≠ Text.lower name) ∧
      table.toList.map Prod.fst = (List.range edits.length).filterMap (introduced? edits) ∧
      table.size = ((List.range edits.length).filterMap (introduced? edits)).length := by
  intro table edits
  have hnames : table.names = (List.range edits.length).filterMap (introduced? edits) := by
    rw [show table = _ from build_eq operations, names_foldl_apply]
  rw [map_fst_toList]
  refine ⟨distinct_iff.mp (distinct_build operations), fun name value => ?_, hnames, ?_⟩
  · rw [show table = _ from build_eq operations, get?_foldl_apply]
    exact latest?_eq_some_iff
  · rw [← length_names, hnames]

end Variables

end BatchTrace
