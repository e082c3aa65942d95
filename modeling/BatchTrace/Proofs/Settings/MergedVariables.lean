/-
The variables of the settings after a user's changes.

Settings list their variables with their values, and names are the same if they differ in the case
of ASCII letters only.  A user's file takes some variables out of the list and then assigns others,
one after the other.  As with tables of variables, all there is to see of such a list are its names
in their order and the value that is found under a name.

An assignment to a name that is listed changes nothing but its value, any other one adds the name
at the end.  The induction is on the assignments from the first one on: each finds the list that
those before it have left.
-/
import BatchTrace.Proofs.Text.LetterCase
import BatchTrace.Settings.Overlay

namespace BatchTrace

namespace Overlay

open Text (sameAscii)

/-- The value of a name in a list of variables. -/
def value? (table : List (Text × Text)) (name : Text) : Option Text :=
  (table.find? fun e => sameAscii e.1 name).map Prod.snd

/-- Is there a name among some others? -/
def isListed (names : List Text) (name : Text) : Bool :=
  names.any (sameAscii · name)

/-- No two names are the same. -/
def Apart (names : List Text) : Prop :=
  names.Pairwise fun a b => sameAscii a b = false

instance (names : List Text) : Decidable (Apart names) :=
  inferInstanceAs (Decidable (names.Pairwise fun a b => sameAscii a b = false))

/-- The names among `added` that are not listed yet, each in the spelling and at the place in which
it comes first. -/
def newNames (listed added : List Text) : List Text :=
  (added.filter (!isListed listed ·)).eraseDupsBy sameAscii

variable {table base : List (Text × Text)} {names : List Text} {name : Text}

theorem isListed_append (names others : List Text) (name : Text) :
    isListed (names ++ others) name = (isListed names name || isListed others name) :=
  List.any_append

theorem isListed_singleton (n name : Text) : isListed [n] name = sameAscii n name :=
  Bool.or_false _

theorem isListed_congr {a b : Text} (h : sameAscii a b = true) (names : List Text) :
    isListed names a = isListed names b := by
  simp only [isListed, Text.sameAscii_congr_right h]

theorem value?_cons (e : Text × Text) (l : List (Text × Text)) (name : Text) :
    value? (e :: l) name = if sameAscii e.1 name then some e.2 else value? l name := by
  rw [value?, List.find?_cons]
  cases h : sameAscii e.1 name with
  | true => rfl
  | false => rfl

theorem value?_append (l m : List (Text × Text)) (name : Text) :
    value? (l ++ m) name = (value? l name).or (value? m name) := by
  simp only [value?, List.find?_append, Option.map_or]

/-! ### What is removed -/

theorem names_filter (base : List (Text × Text)) (removed : List Text) :
    (base.filter fun e => !isListed removed e.1).map Prod.fst =
      (base.map Prod.fst).filter (!isListed removed ·) := by
  rw [List.filter_map]
  rfl

theorem value?_filter (base : List (Text × Text)) (removed : List Text) (name : Text) :
    value? (base.filter fun e => !isListed removed e.1) name =
      if isListed removed name then none else value? base name := by
  induction base with
  | nil =>
      rw [List.filter_nil]
      exact (ite_self none).symm
  | cons e base ih =>
      rw [List.filter_cons, value?_cons]
      cases hsame : sameAscii e.1 name with
      | true =>
          rw [isListed_congr hsame]
          cases hremoved : isListed removed name with
          | true => simpa [hremoved] using ih
          | false => simp [value?_cons, hsame]
      | false =>
          split
          · rw [value?_cons, hsame]
            exact ih
          · exact ih

/-! ### What one assignment does -/

theorem value?_assign (name value : Text) (table : List (Text × Text)) (other : Text) :
    value? (assign name value table) other =
      if sameAscii name other then some value else value? table other := by
  fun_induction assign name value table with
  | case1 => exact value?_cons (name, value) [] other
  | case2 n v rest hsame =>
      rw [value?_cons, value?_cons, Text.sameAscii_congr_left hsame]
      split <;> rfl
  | case3 n v rest hdiffer ih =>
      rw [value?_cons, value?_cons, ih]
      by_cases hother : sameAscii n other = true
      · -- The name that is looked for is another one than that which is assigned.
        have hname : ¬ sameAscii name other = true := fun h => hdiffer (by
          rw [Text.sameAscii_congr_right h]
          exact hother)
        rw [if_pos hother, if_neg hname, if_pos hother]
      · rw [if_neg hother, if_neg hother]

theorem names_assign (name value : Text) (table : List (Text × Text)) :
    (assign name value table).map Prod.fst =
      if isListed (table.map Prod.fst) name then table.map Prod.fst
      else table.map Prod.fst ++ [name] := by
  fun_induction assign name value table with
  | case1 => rfl
  | case2 n v rest hsame => simp [isListed, hsame]
  | case3 n v rest hdiffer ih =>
      have hlisted : isListed (n :: rest.map Prod.fst) name =
          isListed (rest.map Prod.fst) name := by
        rw [isListed, List.any_cons, Bool.eq_false_iff.mpr hdiffer]
        rfl
      rw [List.map_cons, ih, List.map_cons, hlisted]
      split <;> rfl

theorem Apart.concat (h : Apart names) (hnew : ¬ isListed names name = true) :
    Apart (names ++ [name]) := by
  refine List.pairwise_append.mpr ⟨h, List.pairwise_singleton _ _, fun n hn m hm => ?_⟩
  rw [List.mem_singleton.mp hm]
  exact Bool.eq_false_iff.mpr fun hsame => hnew (List.any_eq_true.mpr ⟨n, hn, hsame⟩)

theorem Apart.assign (h : Apart (table.map Prod.fst)) (name value : Text) :
    Apart ((assign name value table).map Prod.fst) := by
  rw [names_assign]
  split
  · exact h
  · rename_i hnew
    exact h.concat hnew

/-! ### What all assignments do -/

theorem newNames_cons (listed : List Text) (n : Text) (added : List Text) :
    newNames listed (n :: added) =
      if isListed listed n then newNames listed added
      else n :: newNames (listed ++ [n]) added := by
  rw [newNames, List.filter_cons]
  split
  · rename_i hnew
    rw [if_neg (by simpa using hnew), List.eraseDupsBy_cons, List.filter_filter, newNames]
    congr 2
    refine List.filter_congr fun m _ => ?_
    rw [isListed_append, isListed_singleton, Text.sameAscii_comm n m, Bool.not_or, Bool.and_comm]
    cases sameAscii m n <;> rfl
  · rename_i hlisted
    rw [if_pos (by simpa using hlisted), newNames]

/-- The assignments of `added` one after the other. -/
def assignAll (table added : List (Text × Text)) : List (Text × Text) :=
  added.foldl (fun table e => assign e.1 e.2 table) table

theorem mergeVariables_eq (base added : List (Text × Text)) (removed : List Text) :
    mergeVariables base added removed false =
      assignAll (base.filter fun e => !isListed removed e.1) added := rfl

theorem value?_assignAll (added table : List (Text × Text)) (name : Text) :
    value? (assignAll table added) name = (value? added.reverse name).or (value? table name) := by
  induction added generalizing table with
  | nil => rfl
  | cons e added ih =>
      rw [List.reverse_cons, value?_append, Option.or_assoc]
      refine (ih _).trans ?_
      rw [value?_assign, value?_cons]
      split <;> rfl

theorem names_assignAll (added table : List (Text × Text)) :
    (assignAll table added).map Prod.fst =
      table.map Prod.fst ++ newNames (table.map Prod.fst) (added.map Prod.fst) := by
  induction added generalizing table with
  | nil => exact (List.append_nil _).symm
  | cons e added ih =>
      refine (ih _).trans ?_
      rw [names_assign, List.map_cons, newNames_cons]
      split
      · rfl
      · rw [List.append_assoc, List.singleton_append]

theorem Apart.assignAll (h : Apart (table.map Prod.fst)) (added : List (Text × Text)) :
    Apart ((assignAll table added).map Prod.fst) := by
  induction added generalizing table with
  | nil => exact h
  | cons e added ih => exact ih (h.assign e.1 e.2)

/--
**A user's changes to the variables.**  Let the names of the variables be told apart.  Then they are
so after the changes.  The value of a name is the one that was assigned to it last; if there is
none, it is the old one unless the name was removed.  The names that were not removed come first, as
they were spelled and in their order, and behind them the new ones as they were first assigned.
-/
theorem mergeVariables_apart (added : List (Text × Text)) (removed : List Text)
    (h : Apart (base.map Prod.fst)) :
    let merged := mergeVariables base added removed false
    let kept := (base.map Prod.fst).filter (!isListed removed ·)
    Apart (merged.map Prod.fst) ∧
      (∀ name, value? merged name = (value? added.reverse name).or
        (if isListed removed name then none else value? base name)) ∧
      merged.map Prod.fst = kept ++ newNames kept (added.map Prod.fst) := by
  intro merged kept
  have hmerged : merged = assignAll (base.filter fun e => !isListed removed e.1) added :=
    mergeVariables_eq base added removed
  have hkept : Apart ((base.filter fun e => !isListed removed e.1).map Prod.fst) := by
    rw [names_filter]
    exact List.Pairwise.filter _ h
  rw [hmerged]
  refine ⟨hkept.assignAll added, fun name => ?_, ?_⟩
  · rw [value?_assignAll, value?_filter]
  · rw [names_assignAll, names_filter]

theorem mergeVariables_apart_readded :
    let base := [("comspec".toList, "c".toList), ("appdata".toList, "a".toList)]
    let added := [("AppData".toList, "b".toList), ("temp".toList, "t".toList),
      ("ComSpec".toList, "d".toList), ("TEMP".toList, "u".toList)]
    let removed := ["APPDATA".toList]
    let merged := mergeVariables base added removed false
    let kept := (base.map Prod.fst).filter (!isListed removed ·)
    Apart (base.map Prod.fst) ∧
      merged = [("comspec".toList, "d".toList), ("AppData".toList, "b".toList),
        ("temp".toList, "u".toList)] ∧
      Apart (merged.map Prod.fst) ∧
      (∀ name, value? merged name = (value? added.reverse name).or
        (if isListed removed name then none else value? base name)) ∧
      merged.map Prod.fst = kept ++ newNames kept (added.map Prod.fst) := by
  intro base added removed merged kept
  have hbase : Apart (base.map Prod.fst) := by decide
  exact ⟨hbase, by decide, mergeVariables_apart added removed hbase⟩

end Overlay

end BatchTrace
