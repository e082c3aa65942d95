/-
Trimming.

A list is trimmed when the elements of some sort are dropped from both of its ends.  Two facts
determine what is left: together with elements of that sort at either end it makes up the list, and
it neither begins nor ends with one.

What is trimmed at the end of a text depends on its end alone, unless nothing but blanks is
found there.
-/
import BatchTrace.Text.Blank
import Mathlib.Data.List.DropRight

namespace BatchTrace

section

variable {α : Type} {p : α → Bool}

theorem not_of_mem_head?_dropWhile {l : List α} {x : α} (h : x ∈ (l.dropWhile p).head?) :
    p x = false := by
  have hnot := List.head?_dropWhile_not p l
  rw [Option.mem_def.mp h] at hnot
  simpa using hnot

theorem exists_ends (p : α → Bool) (l : List α) :
    ∃ front back, l = front ++ ((l.dropWhile p).rdropWhile p ++ back) ∧
      (∀ x ∈ front, p x = true) ∧ ∀ x ∈ back, p x = true := by
  refine ⟨l.takeWhile p, (l.dropWhile p).rtakeWhile p, ?_, ?_, ?_⟩
  · rw [List.rdropWhile_append_rtakeWhile, List.takeWhile_append_dropWhile]
  · exact fun _ => List.mem_takeWhile_imp
  · exact fun _ => List.mem_rtakeWhile_imp

theorem not_of_mem_head?_ends {l : List α} {x : α}
    (h : x ∈ ((l.dropWhile p).rdropWhile p).head?) : p x = false := by
  obtain ⟨back, hback⟩ := List.rdropWhile_prefix p (l.dropWhile p)
  refine not_of_mem_head?_dropWhile (l := l) ?_
  rw [← hback]
  exact List.mem_head?_append_of_mem_head? h

theorem not_of_mem_getLast?_ends {l : List α} {x : α}
    (h : x ∈ ((l.dropWhile p).rdropWhile p).getLast?) : p x = false := by
  have hne : (l.dropWhile p).rdropWhile p ≠ [] := by
    intro hnil
    simp [hnil] at h
  have hlast := List.rdropWhile_last_not p (l.dropWhile p) hne
  rw [List.getLast?_eq_some_getLast hne, Option.mem_def, Option.some.injEq] at h
  rw [← h]
  exact Bool.eq_false_iff.mpr hlast

/-- Nothing else is left when a list is trimmed. -/
theorem ends_eq {front core back : List α} (hfront : ∀ x ∈ front, p x = true)
    (hback : ∀ x ∈ back, p x = true) (hhead : ∀ x ∈ core.head?, p x = false)
    (hlast : ∀ x ∈ core.getLast?, p x = false) :
    ((front ++ (core ++ back)).dropWhile p).rdropWhile p = core := by
  rw [List.dropWhile_append_of_pos hfront]
  cases core with
  | nil =>
      rw [List.nil_append, List.dropWhile_eq_nil_iff.mpr hback]
      rfl
  | cons x core =>
      have hstart : (x :: core ++ back).dropWhile p = x :: core ++ back :=
        List.dropWhile_cons_of_neg (by simp [hhead x rfl])
      have hself : (x :: core).rdropWhile p = x :: core :=
        List.rdropWhile_eq_self_iff.mpr fun hne => by
          simp [hlast _ (List.getLast?_eq_some_getLast hne)]
      rw [hstart]
      calc
        (x :: core ++ back).rdropWhile p
            = ((back.reverse ++ (x :: core).reverse).dropWhile p).reverse := by
              rw [← List.reverse_append]
              rfl
        _ = (x :: core).rdropWhile p := by
              rw [List.dropWhile_append_of_pos (by simpa using hback)]
              rfl
        _ = x :: core := hself

end

namespace Text

variable {a b : Text}

theorem trimEnd_append (a b : Text) :
    trimEnd (a ++ b) = if trimEnd b = [] then trimEnd a else a ++ trimEnd b := by
  rw [trimEnd, trimEnd, trimEnd, List.reverse_append, List.dropWhile_append]
  by_cases hnil : b.reverse.dropWhile isBlank = []
  · simp [hnil]
  · simp [hnil]

theorem trimEnd_append_of_ne_nil (h : trimEnd b ≠ []) : trimEnd (a ++ b) = a ++ trimEnd b := by
  rw [trimEnd_append, if_neg h]

theorem trimEnd_of_last (h : ∀ c ∈ a.getLast?, isBlank c = false) : trimEnd a = a := by
  refine List.rdropWhile_eq_self_iff.mpr fun hne => ?_
  simp [h _ (List.getLast?_eq_some_getLast hne)]

theorem trimEnd_append_of_last (h : ∀ c ∈ a.getLast?, isBlank c = false) (b : Text) :
    trimEnd (a ++ b) = a ++ trimEnd b := by
  rw [trimEnd_append]
  split
  · rename_i hnil
    rw [hnil, trimEnd_of_last h, List.append_nil]
  · rfl

theorem head?_trimEnd (h : ∀ c ∈ a.head?, isBlank c = false) : (trimEnd a).head? = a.head? := by
  cases a with
  | nil => rfl
  | cons c rest =>
      have hsplit := trimEnd_append_of_last (a := [c]) (by simpa using h c rfl) rest
      rw [List.singleton_append] at hsplit
      rw [hsplit]
      rfl

/-- It does not matter which end is trimmed first. -/
theorem trim_eq (t : Text) : trim t = trimStart (trimEnd t) := by
  rw [trim]
  induction t with
  | nil => rfl
  | cons c rest ih =>
      by_cases hc : isBlank c = true
      · have hstart : ∀ s : Text, trimStart (c :: s) = trimStart s := fun s =>
          List.dropWhile_cons_of_pos hc
        have hend := trimEnd_append [c] rest
        rw [List.singleton_append] at hend
        rw [hstart, ih, hend]
        split
        · rename_i hnil
          rw [hnil, show trimEnd [c] = [] by simp [trimEnd, hc]]
        · exact (hstart _).symm
      · have hstart : ∀ s : Text, trimStart (c :: s) = c :: s := fun s =>
          List.dropWhile_cons_of_neg hc
        have hend := trimEnd_append_of_last (a := [c]) (by simpa using hc) rest
        rw [List.singleton_append] at hend
        rw [hstart, hend]
        exact (hstart _).symm

theorem trimEnd_trimEnd (t : Text) : trimEnd (trimEnd t) = trimEnd t :=
  List.rdropWhile_idempotent _ _

/-- Blanks that are trimmed anyway may be trimmed before. -/
theorem trim_append_trimEnd (a b : Text) : trim (a ++ trimEnd b) = trim (a ++ b) := by
  rw [trim_eq, trim_eq, trimEnd_append, trimEnd_append a b, trimEnd_trimEnd]

theorem mem_head?_of_trimEnd {c : Char} {t : Text} (h : c ∈ (trimEnd t).head?) : c ∈ t.head? := by
  obtain ⟨blanks, hblanks⟩ : trimEnd t <+: t := List.rdropWhile_prefix _ _
  rw [← hblanks]
  exact List.mem_head?_append_of_mem_head? h

theorem trimStart_of_head? {t : Text} (h : ∀ c ∈ t.head?, isBlank c = false) : trimStart t = t := by
  cases t with
  | nil => rfl
  | cons c rest => exact List.dropWhile_cons_of_neg (by simp [h c rfl])

/-- Trimming takes blanks off the ends and nothing else. -/
theorem exists_blanks (t : Text) : ∃ front back, t = front ++ (trim t ++ back) ∧
    (∀ c ∈ front, isBlank c = true) ∧ ∀ c ∈ back, isBlank c = true :=
  exists_ends isBlank t

theorem isBlank_head?_trim (t : Text) : ∀ c ∈ (trim t).head?, isBlank c = false :=
  fun _ => not_of_mem_head?_ends

theorem isBlank_getLast?_trim (t : Text) : ∀ c ∈ (trim t).getLast?, isBlank c = false :=
  fun _ => not_of_mem_getLast?_ends

end Text

end BatchTrace
