/-
How far the reader looks ahead.

A step of the reader takes a prefix of the text, but where that prefix ends depends
on what comes after it: a word ends where a character is not an ordinary one, `>` may
be the start of `>>` or of `>&1`, and a single quote counts only if there is another.

`Front u v` collects what such a step can see of the text after it, and `Outlook u v`
the part of it that a chunk can see, which is less since a chunk is not concerned with
the quotes further on.  If a step leaves `u`, and `v` looks the same from the front, then
the step reads the same with `v` in the place of `u`.  The two texts need not be equal
there: a string may have been put in front of `v`, and white space may have become other
white space.
-/
import BatchTrace.Proofs.Token.LetterCase
import BatchTrace.Proofs.Token.Spelling

namespace BatchTrace

open Chunk

/-- `v` looks like `u` to a chunk that is read before it. -/
structure Outlook (u v : Text) : Prop where
  /-- The first character is the same, or it is a quote, or both are separators. -/
  head : ∀ c ∈ v.head?, c ∈ u.head? ∨ c = '"' ∨
    (isDelimiter c = true ∧ ∃ d ∈ u.head?, isDelimiter d = true)
  /-- No handle stands after an ampersand where none stood. -/
  handle : ∀ d more, v = '&' :: d :: more → d.isDigit = true → ∃ more', u = '&' :: d :: more'

namespace Outlook

variable {u v : Text}

/-- A character with a meaning of its own comes first only where it did. -/
theorem not_mem_head? (h : Outlook u v) {c : Char} (hquote : c ≠ '"')
    (hdelimiter : isDelimiter c = false) (hc : c ∉ u.head?) : c ∉ v.head? := by
  intro hmem
  rcases h.head c hmem with hu | rfl | ⟨hd, -⟩
  · exact hc hu
  · exact hquote rfl
  · rw [hdelimiter] at hd
    exact Bool.false_ne_true hd

theorem isDelimiter_head? (h : Outlook u v) (hu : ∀ c ∈ u.head?, isDelimiter c = false) :
    ∀ c ∈ v.head?, isDelimiter c = false := by
  intro c hc
  rcases h.head c hc with hmem | rfl | ⟨-, d, hd, hdelimiter⟩
  · exact hu c hmem
  · decide
  · rw [hu d hd] at hdelimiter
    exact absurd hdelimiter Bool.false_ne_true

theorem isOrdinary_head? (h : Outlook u v) (hu : ∀ c ∈ u.head?, isOrdinary c = false) :
    ∀ c ∈ v.head?, isOrdinary c = false := by
  intro c hc
  rcases h.head c hc with hmem | rfl | ⟨hdelimiter, -⟩
  · exact hu c hmem
  · decide
  · simp [isOrdinary, hdelimiter]

end Outlook

/-- `v` looks like `u` to whatever is read before it. -/
structure Front (u v : Text) : Prop where
  /-- Nothing follows where nothing followed. -/
  nil : u = [] → v = []
  /-- The first character is the same, or it is a quote, or both are separators. -/
  head : ∀ c ∈ v.head?, c ∈ u.head? ∨ c = '"' ∨
    (isDelimiter c = true ∧ ∃ d ∈ u.head?, isDelimiter d = true)
  /-- No handle stands after an ampersand where none stood. -/
  handle : ∀ d more, v = '&' :: d :: more → d.isDigit = true → ∃ more', u = '&' :: d :: more'
  /-- No single quote is there where none was. -/
  quote : '\'' ∈ v → '\'' ∈ u

namespace Front

variable {u v : Text}

/-- What is read before `u` looks the same from further ahead. -/
theorem append (s : Text) (h : Front u v) : Front (s ++ u) (s ++ v) := by
  cases s with
  | nil => exact h
  | cons c s =>
      refine ⟨by simp, fun d hd => Or.inl hd, ?_, ?_⟩
      · intro d more heq hd
        rw [List.cons_append] at heq ⊢
        obtain ⟨rfl, htail⟩ := List.cons.inj heq
        cases s with
        | cons e s => exact ⟨s ++ u, by rw [List.cons_append, (List.cons.inj htail).1]⟩
        | nil =>
            -- The digit is the first character of `v`, so it is the first one of `u` too.
            have hmem : d ∈ v.head? := by rw [show v = d :: more from htail]; rfl
            rcases h.head d hmem with hu | rfl | ⟨hdelimiter, -⟩
            · obtain ⟨more', rfl⟩ := List.head?_eq_some_iff.mp hu
              exact ⟨more', rfl⟩
            · exact absurd hd (by decide)
            · revert hdelimiter
              simp only [isDelimiter, Bool.or_eq_true, decide_eq_true_eq]
              rintro ((((((((rfl | rfl) | rfl) | rfl) | rfl) | rfl) | rfl) | rfl) | rfl) <;>
                exact absurd hd (by decide)
      · intro hquote
        rcases List.mem_append.mp hquote with hmem | hmem
        · exact List.mem_append_left u hmem
        · exact List.mem_append_right _ (h.quote hmem)

/-- A string in front hides everything but the single quotes after it. -/
theorem of_quote (hu : u ≠ []) (hquote : '\'' ∈ v → '\'' ∈ u) : Front u ('"' :: v) where
  nil h := absurd h hu
  head c hc := Or.inr (Or.inl (by simpa using hc.symm))
  handle d more heq := absurd (List.cons.inj heq).1 (by decide)
  quote h := by
    rcases List.mem_cons.mp h with h | h
    · exact absurd h (by decide)
    · exact hquote h

/-- So does a space, where a separator stood. -/
theorem of_space {d : Char} (hd : d ∈ u.head?) (hdelimiter : isDelimiter d = true)
    (hquote : '\'' ∈ v → '\'' ∈ u) : Front u (' ' :: v) where
  nil h := by
    subst h
    exact absurd hd (by simp)
  head c hc := by
    have hspace : c = ' ' := by simpa using hc.symm
    subst hspace
    exact Or.inr (Or.inr ⟨rfl, d, hd, hdelimiter⟩)
  handle e more heq := absurd (List.cons.inj heq).1 (by decide)
  quote h := by
    rcases List.mem_cons.mp h with h | h
    · exact absurd h (by decide)
    · exact hquote h

theorem of_nil (u : Text) : Front u [] where
  nil _ := rfl
  head c hc := absurd hc (by simp)
  handle d more heq := absurd heq (by simp)
  quote h := absurd h (by simp)

/-- A chunk sees less than a step. -/
theorem outlook (h : Front u v) : Outlook u v := ⟨h.head, h.handle⟩

end Front

/-! ### The end of a chunk -/

namespace Chunk

section

variable {c : Char} {v : Text}

theorem next?_ampersand_append (h : '&' ∉ v.head?) :
    next? ('&' :: v) = some (operator .condAlways ['&'], v) := by
  cases v with
  | nil => rfl
  | cons d more => exact next?_ampersand more (by simpa [eq_comm] using h)

theorem next?_pipe_append (h : '|' ∉ v.head?) :
    next? ('|' :: v) = some (operator .redirectPipe ['|'], v) := by
  cases v with
  | nil => rfl
  | cons d more => exact next?_pipe more (by simpa [eq_comm] using h)

theorem next?_redirection_append (hgt : '>' ∉ v.head?)
    (hhandle : ∀ d more, v = '&' :: d :: more → d.isDigit = false) :
    next? ('>' :: v) = some (operator .redirectOut ['>'], v) := by
  rcases v with _ | ⟨d, more⟩
  · rfl
  by_cases hd : d = '&'
  · subst hd
    rcases more with _ | ⟨e, more⟩
    · rfl
    exact if_neg (by simp [hhandle e more rfl])
  · exact next?_redirection more (by simpa [eq_comm] using hgt) hd

theorem handle_redirection_append (hhandle : ∀ d more, v = '&' :: d :: more → d.isDigit = false) :
    handle c ('>' :: v) = some (operator .redirectOutTo [c, '>'], v) := by
  rcases v with _ | ⟨d, more⟩
  · rfl
  by_cases hd : d = '&'
  · subst hd
    rcases more with _ | ⟨e, more⟩
    · rfl
    exact if_neg (by simp [hhandle e more rfl])
  · exact handle_redirection more hd

theorem handle_word_append (h : '>' ∉ v.head?) : handle c v =
    some (word (c :: v.takeWhile isOrdinary), v.dropWhile isOrdinary) := by
  cases v with
  | nil => rfl
  | cons d more => exact handle_word more (by simpa [eq_comm] using h)

end

/-- The part of a word after its first character, and what follows the word. -/
theorem handle_takeWhile_append {c : Char} {u v : Text} (hu : '>' ∉ u.head?)
    (h : Outlook (u.dropWhile isOrdinary) v) :
    handle c (u.takeWhile isOrdinary ++ v) = some (word (c :: u.takeWhile isOrdinary), v) := by
  have hend := h.isOrdinary_head? fun d hd => not_of_mem_head?_dropWhile hd
  have hrun : ∀ d ∈ u.takeWhile isOrdinary, isOrdinary d = true := fun d => List.mem_takeWhile_imp
  have hgt : '>' ∉ (u.takeWhile isOrdinary ++ v).head? := by
    cases htake : u.takeWhile isOrdinary with
    | cons d more =>
        have hd : isOrdinary d = true := hrun d (by simp [htake])
        rintro hmem
        have hsame : d = '>' := by simpa using hmem
        rw [hsame] at hd
        exact absurd hd (by decide)
    | nil =>
        have hdrop : u.dropWhile isOrdinary = u := by
          have hsplit := List.takeWhile_append_dropWhile (p := isOrdinary) (l := u)
          rwa [htake] at hsplit
        rw [hdrop] at h
        exact h.not_mem_head? (by decide) (by decide) hu
  rw [handle_word_append hgt, takeWhile_run hrun hend, dropWhile_run hrun hend]

theorem handle_append {c : Char} {u rest v : Text} {chunk : Chunk}
    (h : handle c u = some (chunk, rest)) (hv : Outlook rest v) :
    ∃ more, chunk.text = c :: more ∧ handle c (more ++ v) = some (chunk, v) := by
  by_cases hgt : '>' ∈ u.head?
  · obtain ⟨after, rfl⟩ := List.head?_eq_some_iff.mp hgt
    by_cases hhandle : ∀ d more, after = '&' :: d :: more → d.isDigit = false
    · rw [handle_redirection_append hhandle] at h
      obtain ⟨rfl, rfl⟩ := Prod.mk.inj (Option.some.inj h)
      refine ⟨['>'], rfl, handle_redirection_append ?_⟩
      intro d more heq
      by_contra hd
      obtain ⟨more', hsame⟩ := hv.handle d more heq (by simpa using hd)
      exact hd (hhandle d more' hsame)
    · push Not at hhandle
      obtain ⟨d, more, rfl, hd⟩ := hhandle
      have hdigit : d.isDigit = true := by simpa using hd
      have hread : ∀ w : Text, handle c ('>' :: '&' :: d :: w) =
          some (operator .redirectStderrStdout [c, '>', '&', d], w) := fun w => if_pos hdigit
      rw [hread] at h
      obtain ⟨rfl, rfl⟩ := Prod.mk.inj (Option.some.inj h)
      exact ⟨['>', '&', d], rfl, hread v⟩
  · rw [handle_word_append hgt] at h
    obtain ⟨rfl, rfl⟩ := Prod.mk.inj (Option.some.inj h)
    exact ⟨u.takeWhile isOrdinary, rfl, handle_takeWhile_append hgt hv⟩

/-- A redirection is a handle, a doubled sign or a single one. -/
theorem next?_greater_append {u rest v : Text} {chunk : Chunk}
    (h : next? ('>' :: u) = some (chunk, rest)) (hv : Outlook rest v) :
    next? (chunk.text ++ v) = some (chunk, v) := by
  by_cases hgt : '>' ∈ u.head?
  · obtain ⟨after, rfl⟩ := List.head?_eq_some_iff.mp hgt
    obtain ⟨rfl, rfl⟩ := Prod.mk.inj (Option.some.inj h)
    rfl
  · by_cases hhandle : ∀ d more, u = '&' :: d :: more → d.isDigit = false
    · rw [next?_redirection_append hgt hhandle] at h
      obtain ⟨rfl, rfl⟩ := Prod.mk.inj (Option.some.inj h)
      refine next?_redirection_append (hv.not_mem_head? (by decide) (by decide) hgt) ?_
      intro d more heq
      by_contra hd
      obtain ⟨more', hsame⟩ := hv.handle d more heq (by simpa using hd)
      exact hd (hhandle d more' hsame)
    · push Not at hhandle
      obtain ⟨d, more, rfl, hd⟩ := hhandle
      have hdigit : d.isDigit = true := by simpa using hd
      have hread : ∀ w : Text, next? ('>' :: '&' :: d :: w) =
          some (operator .redirectStderrStdout ['>', '&', d], w) := fun w => if_pos hdigit
      rw [hread] at h
      obtain ⟨rfl, rfl⟩ := Prod.mk.inj (Option.some.inj h)
      exact hread v

theorem next?_special_append {c : Char} {u rest v : Text} {chunk : Chunk}
    (hc : isSpecial c = true) (h : next? (c :: u) = some (chunk, rest)) (hcaret : '^' ∉ c :: u)
    (hv : Outlook rest v) : next? (chunk.text ++ v) = some (chunk, v) := by
  simp only [isSpecial, Bool.or_eq_true, decide_eq_true_eq] at hc
  rcases hc with (((((((rfl | rfl) | rfl) | rfl) | rfl) | rfl) | rfl) | rfl) | rfl
  · exact absurd (by simp) hcaret
  · obtain ⟨rfl, rfl⟩ := Prod.mk.inj (Option.some.inj h)
    rfl
  · obtain ⟨rfl, rfl⟩ := Prod.mk.inj (Option.some.inj h)
    rfl
  · obtain ⟨rfl, rfl⟩ := Prod.mk.inj (Option.some.inj h)
    rfl
  · obtain ⟨rfl, rfl⟩ := Prod.mk.inj (Option.some.inj h)
    rfl
  · by_cases hamp : '&' ∈ u.head?
    · obtain ⟨after, rfl⟩ := List.head?_eq_some_iff.mp hamp
      obtain ⟨rfl, rfl⟩ := Prod.mk.inj (Option.some.inj h)
      rfl
    · rw [next?_ampersand_append hamp] at h
      obtain ⟨rfl, rfl⟩ := Prod.mk.inj (Option.some.inj h)
      exact next?_ampersand_append (hv.not_mem_head? (by decide) (by decide) hamp)
  · by_cases hpipe : '|' ∈ u.head?
    · obtain ⟨after, rfl⟩ := List.head?_eq_some_iff.mp hpipe
      obtain ⟨rfl, rfl⟩ := Prod.mk.inj (Option.some.inj h)
      rfl
    · rw [next?_pipe_append hpipe] at h
      obtain ⟨rfl, rfl⟩ := Prod.mk.inj (Option.some.inj h)
      exact next?_pipe_append (hv.not_mem_head? (by decide) (by decide) hpipe)
  · obtain ⟨rfl, rfl⟩ := Prod.mk.inj (Option.some.inj h)
    rfl
  · exact next?_greater_append h hv

/-- Separators and words end where what follows cannot go on with them. -/
theorem next?_run_append {c : Char} {u rest v : Text} {chunk : Chunk}
    (hc : isSpecial c = false) (h : next? (c :: u) = some (chunk, rest)) (hv : Outlook rest v) :
    next? (chunk.text ++ v) = some (chunk, v) := by
  rw [next?_of_not_special _ hc] at h
  by_cases hdelimiter : isDelimiter c = true
  · rw [if_pos hdelimiter] at h
    obtain ⟨rfl, rfl⟩ := Prod.mk.inj (Option.some.inj h)
    have hrun : ∀ d ∈ u.takeWhile isDelimiter, isDelimiter d = true :=
      fun d => List.mem_takeWhile_imp
    have hend := hv.isDelimiter_head? fun d hd => not_of_mem_head?_dropWhile hd
    rw [text, List.cons_append, next?_of_not_special _ hc, if_pos hdelimiter,
      takeWhile_run hrun hend, dropWhile_run hrun hend]
  · rw [if_neg hdelimiter] at h
    by_cases hdigit : c.isDigit = true
    · rw [if_pos hdigit] at h
      obtain ⟨more, htext, hread⟩ := handle_append h hv
      rw [htext, List.cons_append, next?_of_not_special _ hc, if_neg hdelimiter, if_pos hdigit,
        hread]
    · rw [if_neg hdigit] at h
      obtain ⟨rfl, rfl⟩ := Prod.mk.inj (Option.some.inj h)
      have hrun : ∀ d ∈ u.takeWhile isOrdinary, isOrdinary d = true :=
        fun d => List.mem_takeWhile_imp
      have hend := hv.isOrdinary_head? fun d hd => not_of_mem_head?_dropWhile hd
      rw [text, List.cons_append, next?_of_not_special _ hc, if_neg hdelimiter, if_neg hdigit,
        takeWhile_run hrun hend, dropWhile_run hrun hend]

/-- A chunk is read again before anything that looks like what followed it. -/
theorem next?_append {t rest v : Text} {chunk : Chunk} (h : next? t = some (chunk, rest))
    (hcaret : '^' ∉ t) (hv : Outlook rest v) : next? (chunk.text ++ v) = some (chunk, v) := by
  rcases t with _ | ⟨c, u⟩
  · exact absurd h (by simp [show next? [] = none from rfl])
  cases hc : isSpecial c with
  | true => exact next?_special_append hc h hcaret hv
  | false => exact next?_run_append hc h hv

theorem isSpecial_of_isDelimiter {c : Char} (h : isDelimiter c = true) : isSpecial c = false := by
  by_contra hspecial
  simp only [isSpecial, Bool.not_eq_false, Bool.or_eq_true, decide_eq_true_eq] at hspecial
  rcases hspecial with (((((((rfl | rfl) | rfl) | rfl) | rfl) | rfl) | rfl) | rfl) | rfl <;>
    exact absurd h (by decide)

/-- A separator ends where no separator goes on. -/
theorem isDelimiter_of_next? {t run rest : Text} (h : next? t = some (delimiter run, rest)) :
    (∃ c ∈ t.head?, isDelimiter c = true) ∧ ∀ c ∈ rest.head?, isDelimiter c = false := by
  obtain ⟨hne, hrun⟩ := wellFormed_of_next? h
  have htext : run ++ rest = t := text_append_of_next? h
  cases run with
  | nil => exact absurd rfl hne
  | cons c more =>
      have hc : isDelimiter c = true := hrun c (by simp)
      rw [List.cons_append] at htext
      refine ⟨⟨c, by rw [← htext]; rfl, hc⟩, ?_⟩
      rw [← htext, next?_of_not_special _ (isSpecial_of_isDelimiter hc), if_pos hc] at h
      have hrest := (Prod.mk.inj (Option.some.inj h)).2
      intro d hd
      rw [← hrest] at hd
      exact not_of_mem_head?_dropWhile hd

end Chunk

/-! ### The end of a string -/

namespace Lexer

open Lexeme

/-- What is read up to the next double quote: the text before it, as `inner` reads it, and the quote
as a lexeme of kind `k`. -/
def upToQuote (inner : Text → List Lexeme) (k : Kind) (t : Text) : List Lexeme × Text :=
  match t.dropWhile (· ≠ '"') with
  | [] => (inner (t.takeWhile (· ≠ '"')), [])
  | q :: rest => (inner (t.takeWhile (· ≠ '"')) ++ [⟨k, [q]⟩], rest)

theorem doubleQuoted_eq (t : Text) :
    doubleQuoted t = upToQuote (ofText .stringDquoteChar) .stringDquoteEnd t := rfl

theorem quotedSet_eq (t : Text) : quotedSet t = upToQuote quotedAssignment .setDquoteEnd t := rfl

section

variable {inner : Text → List Lexeme} {k : Kind} {t v : Text}

theorem upToQuote_open (h : '"' ∉ t) : upToQuote inner k t = (inner t, []) := by
  have hall : ∀ c ∈ t, decide (c ≠ '"') = true := by
    intro c hc
    simpa using fun heq : c = '"' => h (heq ▸ hc)
  rw [upToQuote, List.dropWhile_eq_nil_iff.mpr hall, List.takeWhile_eq_self_iff.mpr hall]

theorem upToQuote_closed {body : Text} (h : '"' ∉ body) (rest : Text) :
    upToQuote inner k (body ++ '"' :: rest) = (inner body ++ [⟨k, ['"']⟩], rest) := by
  have hall : ∀ c ∈ body, decide (c ≠ '"') = true := by
    intro c hc
    simpa using fun heq : c = '"' => h (heq ▸ hc)
  rw [upToQuote, dropWhile_run hall (by simp), takeWhile_run hall (by simp)]

/-- What stands after a string does not matter to it, if it is closed. -/
theorem upToQuote_append (hv : (upToQuote inner k t).2 = [] → v = []) :
    ∃ body, t = body ++ (upToQuote inner k t).2 ∧
      upToQuote inner k (body ++ v) = ((upToQuote inner k t).1, v) := by
  by_cases h : '"' ∈ t
  · obtain ⟨body, rest, rfl, hbody⟩ := List.eq_append_cons_of_mem h
    refine ⟨body ++ ['"'], ?_, ?_⟩
    · simp [upToQuote_closed hbody]
    · simp [upToQuote_closed hbody]
  · have hnil : v = [] := hv (by rw [upToQuote_open h])
    subst hnil
    exact ⟨t, by simp [upToQuote_open h], by simp [upToQuote_open h]⟩

end

/-! ### The kinds of the lexemes -/

section

variable {p : Kind → Prop}

/-- What holds of the three kinds in an assignment holds of all its lexemes. -/
theorem forall_kind_assignment {before : Kind} (hbefore : p before) (hassign : p .setAssignment)
    (hvalue : p .setValue) (name value : Text) :
    ∀ x ∈ ofText before name ++ ⟨.setAssignment, ['=']⟩ :: ofText .setValue value, p x.kind := by
  intro x hx
  rcases List.mem_append.mp hx with hx | hx
  · rwa [kind_of_mem_ofText hx]
  · rcases List.mem_cons.mp hx with rfl | hx
    · exact hassign
    · rwa [kind_of_mem_ofText hx]

theorem forall_kind_quotedAssignment (hname : p .setName) (hassign : p .setAssignment)
    (hvalue : p .setValue) (body : Text) : ∀ x ∈ quotedAssignment body, p x.kind := by
  unfold quotedAssignment
  split
  · exact forall_kind_assignment hname hassign hvalue _ _
  · intro x hx
    rwa [kind_of_mem_ofText hx]

theorem forall_kind_assign {before : Kind} (hbefore : p before) (hassign : p .setAssignment)
    (hvalue : p .setValue) (stay : Mode) (run rest : Text) :
    ∀ x ∈ (assign before stay run rest).out, p x.kind := by
  unfold assign
  split
  · exact forall_kind_assignment hbefore hassign hvalue _ _
  · simpa using hbefore

theorem forall_kind_upToQuote {inner : Text → List Lexeme} {k : Kind} (hk : p k)
    (hinner : ∀ body, ∀ x ∈ inner body, p x.kind) (t : Text) :
    ∀ x ∈ (upToQuote inner k t).1, p x.kind := by
  by_cases h : '"' ∈ t
  · obtain ⟨body, rest, rfl, hbody⟩ := List.eq_append_cons_of_mem h
    rw [upToQuote_closed hbody]
    intro x hx
    rcases List.mem_append.mp hx with hx | hx
    · exact hinner body x hx
    · rwa [List.mem_singleton.mp hx]
  · rw [upToQuote_open h]
    exact hinner t

theorem forall_kind_quotedSet (hname : p .setName) (hassign : p .setAssignment)
    (hvalue : p .setValue) (hend : p .setDquoteEnd) (t : Text) :
    ∀ x ∈ (quotedSet t).1, p x.kind := by
  rw [quotedSet_eq]
  exact forall_kind_upToQuote hend (forall_kind_quotedAssignment hname hassign hvalue) t

/-- What holds of the three pieces of a string in double quotes holds of all its lexemes. -/
theorem forall_kind_string (hopening : p .stringDquoteBegin) (hcontent : p .stringDquoteChar)
    (hclosing : p .stringDquoteEnd) (t : Text) :
    ∀ x ∈ ⟨.stringDquoteBegin, ['"']⟩ :: (doubleQuoted t).1, p x.kind := by
  rw [List.forall_mem_cons, doubleQuoted_eq]
  refine ⟨hopening, forall_kind_upToQuote hclosing (fun body x hx => ?_) t⟩
  rwa [kind_of_mem_ofText hx]

theorem forall_kind_escaped (hcaret : p .escape) (hescaped : p .escapedLiteral) (c : Char) :
    ∀ x ∈ escaped c, p x.kind := by
  simpa [escaped] using ⟨hcaret, hescaped⟩

theorem SingleQuoted.forall_kind {t after : Text} {out : List Lexeme} (h : SingleQuoted t out after)
    (hcaret : p .escape) (hescaped : p .escapedLiteral) (hcontent : p .stringSquoteChar)
    (hclosing : p .stringSquoteEnd) : ∀ x ∈ out, p x.kind := by
  induction h with
  | close => simpa using hclosing
  | escape c _ ih =>
      exact List.forall_mem_append.mpr ⟨forall_kind_escaped hcaret hescaped c, ih⟩
  | char _ _ _ ih => exact List.forall_mem_cons.mpr ⟨hcontent, ih⟩

end

theorem SingleQuoted.append {t : Text} {out : List Lexeme} {after : Text}
    (h : SingleQuoted t out after) (v : Text) :
    ∃ body, t = body ++ after ∧ singleQuoted? (body ++ v) = some (out, v) := by
  induction h with
  | close => exact ⟨['\''], rfl, rfl⟩
  | escape c _ ih =>
      obtain ⟨body, rfl, hread⟩ := ih
      refine ⟨'^' :: c :: body, rfl, ?_⟩
      show Option.map _ (singleQuoted? (body ++ v)) = _
      rw [hread]
      rfl
  | @char c hquote hcaret _ _ _ _ ih =>
      obtain ⟨body, rfl, hread⟩ := ih
      refine ⟨c :: body, rfl, ?_⟩
      rw [List.cons_append, singleQuoted?_cons _ hquote hcaret, hread]
      rfl

theorem singleQuoted?_of_not_mem {t : Text} (h : '\'' ∉ t) : singleQuoted? t = none := by
  fun_induction singleQuoted? t with
  | case1 => rfl
  | case2 rest => simp at h
  | case3 => rfl
  | case4 c rest ih => rw [ih fun hmem => h (by simp [hmem])]; rfl
  | case5 c rest _ _ _ ih => rw [ih fun hmem => h (by simp [hmem])]; rfl

/-- Without carets a single quote counts if there is another one. -/
theorem not_mem_of_singleQuoted? {t : Text} (hcaret : '^' ∉ t) (h : singleQuoted? t = none) :
    '\'' ∉ t := by
  induction t with
  | nil => simp
  | cons c rest ih =>
      have hplain : c ≠ '^' := fun heq => hcaret (by simp [heq])
      by_cases hquote : c = '\''
      · subst hquote
        exact absurd h (by simp [singleQuoted?])
      · rw [singleQuoted?_cons _ hquote hplain, Option.map_eq_none_iff] at h
        have hrest := ih (fun hmem => hcaret (by simp [hmem])) h
        simp [Ne.symm hquote, hrest]

/-! ### The end of a step -/

/-- `read` takes a prefix of `rest`, and takes the same prefix if `v` stands after it. -/
def Local (read : Text → Step) (rest v : Text) : Prop :=
  ∃ body, rest = body ++ (read rest).rest ∧
    read (body ++ v) = ⟨(read rest).out, (read rest).mode, v⟩

/-- What takes nothing after its chunk never looks at it. -/
theorem Local.of_eq {read : Text → Step} {out : List Lexeme} {mode : Mode}
    (h : ∀ w, read w = ⟨out, mode, w⟩) (rest v : Text) : Local read rest v :=
  ⟨[], by simp [h], by simp [h]⟩

theorem Local.upToQuote {inner : Text → List Lexeme} {k : Kind} {rest v : Text} (first : Lexeme)
    (mode : Mode) (hv : Front (upToQuote inner k rest).2 v) :
    Local (fun w => ⟨first :: (Lexer.upToQuote inner k w).1, mode, (Lexer.upToQuote inner k w).2⟩)
      rest v := by
  obtain ⟨body, hrest, hread⟩ := upToQuote_append hv.nil
  exact ⟨body, hrest, by simp [hread]⟩

/-! ### Where a command is expected -/

theorem command_singleQuote_some {rest after : Text} {out : List Lexeme}
    (h : singleQuoted? rest = some (out, after)) :
    command .singleQuote rest = ⟨⟨.stringSquoteBegin, ['\'']⟩ :: out, .command, after⟩ := by
  unfold command
  dsimp only
  rw [h]

theorem command_singleQuote_none {rest : Text} (h : singleQuoted? rest = none) :
    command .singleQuote rest = ⟨[⟨.literal, ['\'']⟩], .command, rest⟩ := by
  unfold command
  dsimp only
  rw [h]

theorem command_delimiter {run : Text} (h : (Chunk.delimiter run).kind = .delimiter)
    (rest : Text) : command (.delimiter run) rest = ⟨[⟨.delimiter, run⟩], .command, rest⟩ := by
  unfold command
  dsimp only
  rw [h]
  rfl

theorem command_setWord {run : Text} (h : (Chunk.word run).kind = .setWord) (rest : Text) :
    command (.word run) rest = ⟨[⟨.setWord, run⟩], .lead, rest⟩ := by
  unfold command
  dsimp only
  rw [h]
  rfl

theorem command_word {run : Text} (h : (Chunk.word run).kind ≠ .setWord) (rest : Text) :
    command (.word run) rest = ⟨[⟨(Chunk.word run).kind, run⟩], .command, rest⟩ := by
  unfold command
  dsimp only
  rw [if_neg h]
  rfl

theorem local_command {chunk : Chunk} {rest v : Text} (hcaret : '^' ∉ rest)
    (hv : Front (command chunk rest).rest v) : Local (command chunk) rest v := by
  cases chunk with
  | doubleQuote => exact Local.upToQuote ⟨.stringDquoteBegin, ['"']⟩ .command hv
  | singleQuote =>
      cases hread : singleQuoted? rest with
      | some parts =>
          obtain ⟨out, after⟩ := parts
          obtain ⟨body, hrest, hagain⟩ := (singleQuoted_of_some hread).append v
          rw [Local, command_singleQuote_some hread]
          exact ⟨body, hrest, command_singleQuote_some hagain⟩
      | none =>
          rw [command_singleQuote_none hread] at hv
          have hnone : '\'' ∉ v :=
            fun hmem => not_mem_of_singleQuoted? hcaret hread (hv.quote hmem)
          rw [Local, command_singleQuote_none hread]
          exact ⟨[], rfl, command_singleQuote_none (singleQuoted?_of_not_mem hnone)⟩
  | _ => exact Local.of_eq (fun _ => rfl) rest v

theorem local_assign (before : Kind) (stay : Mode) (run rest v : Text) :
    Local (assign before stay run) rest v := by
  unfold assign
  cases Text.splitFirst (· = '=') run with
  | none => exact Local.of_eq (fun _ => rfl) rest v
  | some parts => exact Local.of_eq (fun _ => rfl) rest v

theorem local_step (mode : Mode) {chunk : Chunk} {rest v : Text} (hcaret : '^' ∉ rest)
    (hv : Front (step mode chunk rest).rest v) : Local (step mode chunk) rest v := by
  cases mode with
  | command => exact local_command hcaret hv
  | lead =>
      cases chunk with
      | delimiter run => exact local_assign .delimiter .lead run rest v
      | doubleQuote => exact Local.upToQuote ⟨.setDquoteBegin, ['"']⟩ .command hv
      | _ => exact Local.of_eq (fun _ => rfl) rest v
  | name =>
      cases chunk with
      | delimiter run => exact local_assign .setName .name run rest v
      | _ => exact Local.of_eq (fun _ => rfl) rest v
  | value =>
      cases chunk with
      | doubleQuote => exact Local.upToQuote ⟨.stringDquoteBegin, ['"']⟩ .value hv
      | _ => exact Local.of_eq (fun _ => rfl) rest v

/--
The first step of a text is taken again before anything that looks like what it
left, and reading goes on from there.
-/
theorem pieces_append {mode : Mode} {t rest v : Text} {chunk : Chunk}
    (h : Chunk.next? t = some (chunk, rest)) (hcaret : '^' ∉ t)
    (hv : Front (step mode chunk rest).rest v) :
    pieces mode (spell (step mode chunk rest).out ++ v) =
      (step mode chunk rest).out ++ pieces (step mode chunk rest).mode v := by
  have htext := Chunk.text_append_of_next? h
  have hcaret' : '^' ∉ rest := fun hmem => hcaret (by rw [← htext]; simp [hmem])
  obtain ⟨body, hrest, hread⟩ := local_step mode hcaret' hv
  have hspell : spell (step mode chunk rest).out = chunk.text ++ body := by
    obtain ⟨taken, htaken, heq⟩ := reads_step mode (Chunk.wellFormed_of_next? h) rest
    rw [htaken.spelled]
    nth_rewrite 2 [hrest] at heq
    rw [← List.append_assoc] at heq
    exact List.append_cancel_right heq
  have hfront : Front rest (body ++ v) := by
    rw [hrest]
    exact hv.append body
  rw [hspell, List.append_assoc, pieces_eq, Chunk.next?_append h hcaret hfront.outlook]
  simp only [hread]

end Lexer

end BatchTrace
