/-
Reading a cleaned line again.

Cleaning writes out a text, and that text may be read and cleaned once more.  Where the
first cleaning met no empty string, the second reading gives every character the role
that the first cleaning left it with, and so the second cleaning has nothing to do.

The argument goes along the line, step by step, with whole runs of words and strings
taken together.  A separator becomes a single space and a run becomes one string; each
of these is read again as what it is, because what comes after it still looks the same
from the front.  `Rereads` is what is carried along.

Taking out an empty string is different.  What stood on its two sides comes together,
and may then spell a reserved word or an operator that was not there before, or no
longer spell one that was.  Most of the time this does no harm: a character may well get
another role if cleaning leaves it alone in both.  `untidy` is what a reading says about
the blanks and strings that cleaning changes, and the main result asks that this stays
the same.  There is a line where it does not.
-/
import BatchTrace.Proofs.Token.Outcome
import Mathlib.Data.List.Flatten

namespace BatchTrace

open Reading

namespace Lexer

open Lexeme

/-! ### Runs of words and strings -/

theorem Outcome.isGlued_head? {mode : Mode} {chunk : Chunk} {s : Step} (h : Outcome mode chunk s)
    (hpart : ¬ ReadsPart mode s) : ∀ x ∈ (Lexeme.reading s.out).head?, isGlued x = false := by
  intro x hx
  cases h with
  | inert h =>
      rw [isGlued, role_of_inert h x (List.mem_of_mem_head? hx)]
      rfl
  | part h => exact absurd h hpart
  | gap blank others hblank hchunk hout hothers hspace =>
      have hne : Reading.ofText Kind.delimiter.role blank ≠ [] := by simpa using hblank
      rw [hout, Lexeme.reading_cons, List.head?_append_of_ne_nil _ hne] at hx
      rw [isGlued, role_of_mem_ofText (List.mem_of_mem_head? hx)]
      rfl

/-- The text `t` starts with the run `run`, and `rest` comes after it.  If no string opens in the
run, it is read again before anything that looks like `rest`; if one is open at its end, nothing
comes after it. -/
structure StartsWithRun (mode : Mode) (t : Text) (run : Reading) (rest : Text) : Prop where
  reading : reading mode t = run ++ reading mode rest
  glued : ∀ x ∈ run, isGlued x = true
  stops : ∀ x ∈ (Lexer.reading mode rest).head?, isGlued x = false
  content : '"' ∉ run.content
  again : (∀ x ∈ run, x.1 ≠ .opening) → ∀ v, Front rest v →
    Lexer.reading mode (run.text ++ v) = run ++ Lexer.reading mode v
  ended : openAfter false run = true → rest = []

namespace StartsWithRun

variable {mode : Mode} {t rest : Text} {run : Reading}

theorem text_append (h : StartsWithRun mode t run rest) : run.text ++ rest = t := by
  have htext := congrArg Reading.text h.reading
  rwa [Lexer.text_reading, Reading.text_append, Lexer.text_reading, eq_comm] at htext

theorem nil (hstops : ∀ x ∈ (Lexer.reading mode t).head?, isGlued x = false) :
    StartsWithRun mode t [] t where
  reading := rfl
  glued := by simp
  stops := hstops
  content := by simp
  again := fun _ _ _ => rfl
  ended := fun h => absurd h Bool.false_ne_true

/-- A step that reads a part of a run comes before a run, which may be empty. -/
theorem cons {chunk : Chunk} {after : Text} (hnext : Chunk.next? t = some (chunk, after))
    (hcaret : '^' ∉ t) (hpart : ReadsPart mode (step mode chunk after))
    (h : StartsWithRun mode (step mode chunk after).rest run rest) :
    StartsWithRun mode t (Lexeme.reading (step mode chunk after).out ++ run) rest where
  reading := by
    rw [reading_of_next? hnext, hpart.stay, h.reading, List.append_assoc]
  glued := by
    intro x hx
    rcases List.mem_append.mp hx with hx | hx
    · exact hpart.glued x hx
    · exact h.glued x hx
  stops := h.stops
  content := by
    rw [content_append, List.mem_append, not_or]
    exact ⟨hpart.content, h.content⟩
  again := by
    intro hplain v hv
    have hfront : Front (step mode chunk after).rest (run.text ++ v) := by
      rw [← h.text_append]
      exact hv.append run.text
    rw [Reading.text_append, Lexeme.text_reading, List.append_assoc,
      reading_append hnext hcaret hfront, hpart.stay,
      h.again (fun x hx => hplain x (List.mem_append_right _ hx)) v hv, List.append_assoc]
  ended := by
    intro hopen
    rw [openAfter_append] at hopen
    cases hfirst : openAfter false (Lexeme.reading (step mode chunk after).out) with
    | false =>
        rw [hfirst] at hopen
        exact h.ended hopen
    | true =>
        -- The text ends with the string that is left open.
        have hnil : run.text ++ rest = [] := by rw [h.text_append, hpart.ended hfirst]
        exact (List.append_eq_nil_iff.mp hnil).2

end StartsWithRun

/-- Every text starts with a run, which may be empty. -/
theorem exists_startsWithRun (mode : Mode) {t : Text} (hcaret : '^' ∉ t) :
    ∃ run rest, StartsWithRun mode t run rest := by
  cases hnext : Chunk.next? t with
  | none =>
      rw [Chunk.eq_nil_of_next? hnext]
      exact ⟨[], [], .nil (by simp)⟩
  | some parts =>
      obtain ⟨chunk, after⟩ := parts
      by_cases hpart : ReadsPart mode (step mode chunk after)
      · have hlt := length_rest_lt hnext mode
        obtain ⟨run, rest, hrun⟩ := exists_startsWithRun mode (not_mem_rest hnext mode hcaret)
        exact ⟨_, rest, .cons hnext hcaret hpart hrun⟩
      · refine ⟨[], t, .nil ?_⟩
        rw [reading_of_next? hnext, List.head?_append_of_ne_nil _ (reading_out_ne_nil hnext mode)]
        exact (outcome_of_next? hnext hcaret mode).isGlued_head? hpart
termination_by t.length

/-! ### The whole text -/

/-- Strings are read again as strings where strings are read at all. -/
theorem reading_ofString {mode : Mode} (hmode : mode = .command ∨ mode = .value) {body v : Text}
    {isOpen : Bool} (hbody : '"' ∉ body) (hend : isOpen = true → v = []) :
    reading mode ((ofString body isOpen).text ++ v) = ofString body isOpen ++ reading mode v := by
  have hnext : ∀ w, Chunk.next? ('"' :: w) = some (.doubleQuote, w) := fun _ => rfl
  rw [text_ofString, List.cons_append, reading_of_next? (hnext _), step_string hmode hbody hend,
    reading_stringLexemes]

/-- What `t` is settled to is read again as it is, and looks like `t` from the front. -/
structure Rereads (mode : Mode) (t : Text) : Prop where
  same : reading mode (settle (reading mode t)).text = settle (reading mode t)
  front : Front t (settle (reading mode t)).text
  caret : '^' ∉ (settle (reading mode t)).text

section

variable {mode : Mode} {t rest : Text} {chunk : Chunk}

/-- A step that reads what settling keeps. -/
theorem rereads_of_kept (hnext : Chunk.next? t = some (chunk, rest)) (hcaret : '^' ∉ t)
    (hkept : settle (reading mode t) = Lexeme.reading (step mode chunk rest).out ++
      settle (reading (step mode chunk rest).mode (step mode chunk rest).rest))
    (h : Rereads (step mode chunk rest).mode (step mode chunk rest).rest) : Rereads mode t := by
  have hspell := spell_append_rest hnext mode
  refine ⟨?_, ?_, ?_⟩
  · rw [hkept, Reading.text_append, Lexeme.text_reading, reading_append hnext hcaret h.front,
      h.same]
  · rw [hkept, Reading.text_append, Lexeme.text_reading]
    have hfront := h.front.append (spell (step mode chunk rest).out)
    rwa [hspell] at hfront
  · rw [hkept, Reading.text_append, Lexeme.text_reading, List.mem_append, not_or]
    refine ⟨fun hmem => hcaret ?_, h.caret⟩
    rw [← hspell]
    exact List.mem_append_left _ hmem

/-- A run of words and strings. -/
theorem rereads_of_run {run : Reading} (hmode : mode = .command ∨ mode = .value) (hcaret : '^' ∉ t)
    (hne : run ≠ []) (hrun : StartsWithRun mode t run rest) (h : Rereads mode rest) :
    Rereads mode t := by
  have htext := hrun.text_append
  have hrunText : ∀ c ∈ run.text, c ∈ t := fun c hc => by rw [← htext]; simp [hc]
  have hsettle : settle (reading mode t) = widenRun run ++ settle (reading mode rest) := by
    rw [hrun.reading, settle_run_append hne hrun.glued hrun.stops]
  by_cases hplain : ∀ x ∈ run, x.1 ≠ .opening
  · rw [widenRun_of_plain hplain] at hsettle
    refine ⟨?_, ?_, ?_⟩
    · rw [hsettle, Reading.text_append, hrun.again hplain _ h.front, h.same]
    · rw [hsettle, Reading.text_append]
      have hfront := h.front.append run.text
      rwa [htext] at hfront
    · rw [hsettle, Reading.text_append, List.mem_append, not_or]
      exact ⟨fun hmem => hcaret (hrunText _ hmem), h.caret⟩
  · -- The run becomes one string, and if that is left open it is the last thing in the text.
    push Not at hplain
    rw [widenRun_of_opening hplain] at hsettle
    have hend : openAfter false run = true → (settle (reading mode rest)).text = [] :=
      fun hopen => h.front.nil (hrun.ended hopen)
    have hnotNil : t ≠ [] := by
      rintro rfl
      have hnil : run.text = [] := (List.append_eq_nil_iff.mp htext).1
      exact hne (List.map_eq_nil_iff.mp hnil)
    have hmem : ∀ c, c ≠ '"' → c ∈ (run.content ++ if openAfter false run then [] else ['"']) ++
        (settle (reading mode rest)).text → c ∈ t ∨ c ∈ (settle (reading mode rest)).text := by
      intro c hc hin
      rcases List.mem_append.mp hin with hin | hin
      · rcases List.mem_append.mp hin with hin | hin
        · exact Or.inl (hrunText c (mem_text_of_mem_content hin))
        · split at hin
          · simp at hin
          · exact absurd (List.mem_singleton.mp hin) hc
      · exact Or.inr hin
    refine ⟨?_, ?_, ?_⟩
    · rw [hsettle, Reading.text_append, reading_ofString hmode hrun.content hend, h.same]
    · rw [hsettle, Reading.text_append, text_ofString, List.cons_append]
      refine Front.of_quote hnotNil fun hquote => ?_
      rcases hmem _ (by decide) hquote with hin | hin
      · exact hin
      · rw [← htext]
        exact List.mem_append_right _ (h.front.quote hin)
    · rw [hsettle, Reading.text_append, text_ofString, List.cons_append]
      intro hin
      rcases List.mem_cons.mp hin with hin | hin
      · exact absurd hin (by decide)
      · rcases hmem _ (by decide) hin with hin | hin
        · exact hcaret hin
        · exact h.caret hin

theorem rest_step_delimiter (mode : Mode) (run rest : Text) :
    (step mode (.delimiter run) rest).rest = rest := by
  cases mode with
  | command => rfl
  | lead => exact rest_assign _ _ run rest
  | name => exact rest_assign _ _ run rest
  | value => rfl

/-- Only a separator is read as one. -/
theorem isDelimiter_of_isGap (hcaret : '^' ∉ t) {x : Role × Char}
    (hx : x ∈ (reading mode t).head?) (hgap : isGap x = true) :
    ∃ c ∈ t.head?, Chunk.isDelimiter c = true := by
  cases hnext : Chunk.next? t with
  | none =>
      rw [Chunk.eq_nil_of_next? hnext] at hx
      simp at hx
  | some parts =>
      obtain ⟨chunk, rest⟩ := parts
      rw [reading_of_next? hnext,
        List.head?_append_of_ne_nil _ (reading_out_ne_nil hnext mode)] at hx
      have hmem := List.mem_of_mem_head? hx
      cases outcome_of_next? hnext hcaret mode with
      | inert h => exact absurd hgap (by simp [isGap, role_of_inert h x hmem])
      | part h => exact absurd hgap (by simp [isGap_of_isGlued (h.glued x hmem)])
      | gap blank others hblank hchunk hout hothers hspace =>
          subst hchunk
          exact (Chunk.isDelimiter_of_next? hnext).1

/-- Nothing after a separator is a separator too. -/
theorem isGap_after_delimiter {run : Text} (hnext : Chunk.next? t = some (.delimiter run, rest))
    (hcaret : '^' ∉ rest) (next : Mode) : ∀ x ∈ (reading next rest).head?, isGap x = false := by
  intro x hx
  by_contra hgap
  rw [Bool.not_eq_false] at hgap
  obtain ⟨c, hc, hdelimiter⟩ := isDelimiter_of_isGap hcaret hx hgap
  rw [(Chunk.isDelimiter_of_next? hnext).2 c hc] at hdelimiter
  exact Bool.false_ne_true hdelimiter

/-- A separator is squeezed by itself, and what the run goes on with is left alone. -/
theorem settle_reading_gap {blank : Text} {others : List Lexeme}
    (hnext : Chunk.next? t = some (.delimiter (blank ++ spell others), rest)) (hcaret : '^' ∉ t)
    (hblank : blank ≠ []) {next : Mode}
    (hstep : step mode (.delimiter (blank ++ spell others)) rest =
      ⟨⟨.delimiter, blank⟩ :: others, next, rest⟩)
    (hothers : ∀ x ∈ others, x.kind.isInert = true) :
    settle (reading mode t) =
      squeezeRun (Reading.ofText .gap blank) (Lexeme.reading others ++ reading next rest) ++
        (Lexeme.reading others ++ settle (reading next rest)) := by
  have hrest : '^' ∉ rest :=
    fun hmem => hcaret (by rw [← Chunk.text_append_of_next? hnext]; simp [hmem])
  have hread : reading mode t =
      Reading.ofText .gap blank ++ (Lexeme.reading others ++ reading next rest) := by
    rw [reading_of_next? hnext, hstep, Lexeme.reading_cons, List.append_assoc]
    rfl
  have hgaps : ∀ x ∈ Reading.ofText .gap blank, isGap x = true :=
    fun x hx => by simp [isGap, role_of_mem_ofText hx]
  have hhead : ∀ x ∈ (Lexeme.reading others ++ reading next rest).head?, isGap x = false := by
    intro x hx
    by_cases hnil : Lexeme.reading others = []
    · rw [hnil, List.nil_append] at hx
      exact isGap_after_delimiter hnext hrest next x hx
    · rw [List.head?_append_of_ne_nil _ hnil] at hx
      simp [isGap, role_of_inert hothers x (List.mem_of_mem_head? hx)]
  rw [hread, settle_gap_append (by simpa using hblank) hgaps hhead,
    settle_append_of_other (role_of_inert hothers)]

theorem rereads_of_settle_nil (h : settle (reading mode t) = []) : Rereads mode t := by
  refine ⟨?_, ?_, ?_⟩
  · rw [h]
    exact reading_nil mode
  · rw [h]
    exact Front.of_nil t
  · rw [h]
    exact List.not_mem_nil

/-- The space that a separator became is read as a separator, and the run goes on as before. -/
theorem rereads_of_space {blank : Text} {others : List Lexeme}
    (hnext : Chunk.next? t = some (.delimiter (blank ++ spell others), rest)) (hcaret : '^' ∉ t)
    {next : Mode}
    (hspace : ∀ w, step mode (.delimiter (' ' :: spell others)) w =
      ⟨⟨.delimiter, [' ']⟩ :: others, next, w⟩)
    (hsettle : settle (reading mode t) =
      (.gap, ' ') :: (Lexeme.reading others ++ settle (reading next rest)))
    (h : Rereads next rest) : Rereads mode t := by
  obtain ⟨⟨first, hfirst, hdelimiter⟩, hafter⟩ := Chunk.isDelimiter_of_next? hnext
  have htext : (blank ++ spell others) ++ rest = t := Chunk.text_append_of_next? hnext
  have hsettled : (settle (reading mode t)).text =
      ' ' :: (spell others ++ (settle (reading next rest)).text) := by
    rw [hsettle, Reading.text_cons, Reading.text_append, Lexeme.text_reading]
  have hrun : ∀ c ∈ spell others, Chunk.isDelimiter c = true :=
    fun c hc => (Chunk.wellFormed_of_next? hnext).2 c (by simp [hc])
  have hstop := h.front.outlook.isDelimiter_head? hafter
  have hagain : Chunk.next? (' ' :: (spell others ++ (settle (reading next rest)).text)) =
      some (.delimiter (' ' :: spell others), (settle (reading next rest)).text) := by
    rw [Chunk.next?_of_not_special _ rfl, if_pos (show Chunk.isDelimiter ' ' = true from rfl),
      takeWhile_run hrun hstop, dropWhile_run hrun hstop]
  have hmem : ∀ c, c ∈ spell others ++ (settle (reading next rest)).text →
      c ∈ t ∨ c ∈ (settle (reading next rest)).text := by
    intro c hc
    rcases List.mem_append.mp hc with hc | hc
    · exact Or.inl (by rw [← htext]; simp [hc])
    · exact Or.inr hc
  refine ⟨?_, ?_, ?_⟩
  · rw [hsettled, reading_of_next? hagain, hspace, h.same, hsettle]
    rfl
  · rw [hsettled]
    refine Front.of_space hfirst hdelimiter fun hquote => ?_
    rcases hmem _ hquote with hin | hin
    · exact hin
    · rw [← htext]
      exact List.mem_append_right _ (h.front.quote hin)
  · rw [hsettled]
    intro hin
    rcases List.mem_cons.mp hin with hin | hin
    · exact absurd hin (by decide)
    · rcases hmem _ hin with hin | hin
      · exact hcaret hin
      · exact h.caret hin

/-- A separator, which stays as it is, becomes a space, or was the end of the text. -/
theorem rereads_of_gap {blank : Text} {others : List Lexeme}
    (hnext : Chunk.next? t = some (.delimiter (blank ++ spell others), rest)) (hcaret : '^' ∉ t)
    (hblank : blank ≠ []) {next : Mode}
    (hstep : step mode (.delimiter (blank ++ spell others)) rest =
      ⟨⟨.delimiter, blank⟩ :: others, next, rest⟩)
    (hothers : ∀ x ∈ others, x.kind.isInert = true)
    (hspace : ∀ w, step mode (.delimiter (' ' :: spell others)) w =
      ⟨⟨.delimiter, [' ']⟩ :: others, next, w⟩)
    (h : Rereads next rest) : Rereads mode t := by
  have hsettle := settle_reading_gap hnext hcaret hblank hstep hothers
  by_cases hwhite : isBlank (Reading.ofText .gap blank) = true
  · rw [squeezeRun, if_pos hwhite] at hsettle
    by_cases hempty : Lexeme.reading others ++ reading next rest = []
    · -- The text ends with the separator.
      obtain ⟨hnil, hnil'⟩ := List.append_eq_nil_iff.mp hempty
      refine rereads_of_settle_nil ?_
      rw [hsettle, hempty, hnil, hnil', settle_nil]
      rfl
    · refine rereads_of_space hnext hcaret hspace ?_ h
      rw [hsettle, if_neg (by simpa using hempty)]
      rfl
  · refine rereads_of_kept hnext hcaret ?_ ?_
    · rw [hsettle, squeezeRun, if_neg hwhite, hstep, Lexeme.reading_cons, List.append_assoc]
      rfl
    · rw [hstep]
      exact h

end

/-- Every text without carets is read again as it was settled. -/
theorem rereads (mode : Mode) {t : Text} (hcaret : '^' ∉ t) : Rereads mode t := by
  cases hnext : Chunk.next? t with
  | none =>
      rw [Chunk.eq_nil_of_next? hnext]
      exact rereads_of_settle_nil (by simp)
  | some parts =>
      obtain ⟨chunk, rest⟩ := parts
      have hlt := length_rest_lt hnext mode
      have hrest := not_mem_rest hnext mode hcaret
      have hstep := rereads (step mode chunk rest).mode hrest
      cases outcome_of_next? hnext hcaret mode with
      | inert h =>
          refine rereads_of_kept hnext hcaret ?_ hstep
          rw [reading_of_next? hnext, settle_append_of_other (role_of_inert h)]
      | part hpart =>
          obtain ⟨run, after, hrun⟩ := exists_startsWithRun mode hrest
          have hwhole := StartsWithRun.cons hnext hcaret hpart hrun
          have hne : Lexeme.reading (step mode chunk rest).out ++ run ≠ [] :=
            List.append_ne_nil_of_left_ne_nil (reading_out_ne_nil hnext mode) _
          have hshort : after.length < t.length := by
            have hlength := congrArg List.length hrun.text_append
            rw [List.length_append] at hlength
            omega
          have hafter : '^' ∉ after :=
            fun hmem => hcaret (by rw [← hwhole.text_append]; exact List.mem_append_right _ hmem)
          exact rereads_of_run hpart.strings hcaret hne hwhole (rereads mode hafter)
      | gap blank others hblank hchunk hout hothers hspace =>
          subst hchunk
          have hsame := rest_step_delimiter mode (blank ++ spell others) rest
          have hwhole : step mode (.delimiter (blank ++ spell others)) rest =
              ⟨⟨.delimiter, blank⟩ :: others,
                (step mode (.delimiter (blank ++ spell others)) rest).mode, rest⟩ := by
            rw [← hout]
            nth_rewrite 4 [← hsame]
            rfl
          rw [hsame] at hstep
          exact rereads_of_gap hnext hcaret hblank hwhole hothers hspace hstep
termination_by t.length

/-- Without the white space in front, the rest is still read as a command. -/
theorem exists_trimStart {t : Text} (hcaret : '^' ∉ t) :
    ∃ u, '^' ∉ u ∧ trimStart (reading .command t) = reading .command u := by
  cases hnext : Chunk.next? t with
  | none =>
      refine ⟨t, hcaret, trimStart_of_not_gap ?_⟩
      rw [Chunk.eq_nil_of_next? hnext]
      simp
  | some parts =>
      obtain ⟨chunk, rest⟩ := parts
      have hsplit := reading_of_next? hnext .command
      have hout := reading_out_ne_nil hnext .command
      have hkept : (∀ x ∈ Lexeme.reading (step .command chunk rest).out, isGap x = false) →
          trimStart (reading .command t) = reading .command t := by
        intro hgap
        refine trimStart_of_not_gap fun x hx => ?_
        rw [hsplit, List.head?_append_of_ne_nil _ hout] at hx
        exact hgap x (List.mem_of_mem_head? hx)
      cases outcome_of_next? hnext hcaret .command with
      | inert h =>
          exact ⟨t, hcaret, hkept fun x hx => by simp [isGap, role_of_inert h x hx]⟩
      | part h => exact ⟨t, hcaret, hkept fun x hx => isGap_of_isGlued (h.glued x hx)⟩
      | gap blank others hblank hchunk hout hothers hspace =>
          subst hchunk
          -- In a command the whole run of separators is one separator.
          obtain ⟨-, hnil⟩ := List.cons.inj hout
          subst hnil
          have hmode := (congrArg Step.mode (hspace [])).symm
          have hrest : '^' ∉ rest :=
            fun hmem => hcaret (by rw [← Chunk.text_append_of_next? hnext]; simp [hmem])
          have hread : reading .command t = Reading.ofText .gap blank ++ reading .command rest := by
            rw [hsplit, hout, hmode, rest_step_delimiter, Lexeme.reading_cons, Lexeme.reading_nil,
              List.append_nil]
            rfl
          rw [hread, trimStart_run_append (fun x hx => by simp [isGap, role_of_mem_ofText hx])
            (isGap_after_delimiter hnext hrest .command)]
          split
          · exact ⟨rest, hrest, rfl⟩
          · exact ⟨t, hcaret, hread.symm⟩

end Lexer

/-! ### What there is to change -/

namespace Reading

variable {r : Reading}

/-- A run, or plain text if a pass makes of it what it is. -/
def mute (run changed : Reading) : Reading :=
  if changed = run then ofText .other run.text else run

/-- The reading with every run that settling leaves as it is taken for plain text. -/
def unsettled : Reading → Reading
  | [] => []
  | x :: rest =>
      if isGlued x then
        let run := x :: rest.takeWhile isGlued
        mute run (widenRun run) ++ unsettled (rest.dropWhile isGlued)
      else if isGap x then
        let run := x :: rest.takeWhile isGap
        mute run (squeezeRun run (rest.dropWhile isGap)) ++ unsettled (rest.dropWhile isGap)
      else x :: unsettled rest
termination_by r => r.length
decreasing_by
  · exact Nat.lt_succ_of_le (List.dropWhile_suffix _).length_le
  · exact Nat.lt_succ_of_le (List.dropWhile_suffix _).length_le
  · simp

/-- What tidying finds to change in a reading, and the rest of it as plain text. -/
def untidy (r : Reading) : Reading :=
  unsettled (trimStart r)

/-- The first character keeps its role, or has none that matters. -/
theorem unsettled_cons_cases (x : Role × Char) (rest : Reading) :
    ∃ more, unsettled (x :: rest) = (.other, x.2) :: more ∨ unsettled (x :: rest) = x :: more := by
  have hmute : ∀ run changed s : Reading, ∃ more,
      mute (x :: run) changed ++ s = (.other, x.2) :: more ∨
        mute (x :: run) changed ++ s = x :: more := by
    intro run changed s
    unfold mute
    split
    · exact ⟨_, Or.inl rfl⟩
    · exact ⟨_, Or.inr rfl⟩
  rw [unsettled]
  split
  · exact hmute _ _ _
  · split
    · exact hmute _ _ _
    · exact ⟨_, Or.inr rfl⟩

theorem unsettled_eq_nil : unsettled r = [] ↔ r = [] := by
  cases r with
  | nil => simp [unsettled]
  | cons x rest =>
      obtain ⟨more, h | h⟩ := unsettled_cons_cases x rest <;> simp [h]

/-- No run begins where none did. -/
theorem not_of_mem_head?_unsettled {p : Role × Char → Bool} (hp : ∀ c, p (.other, c) = false)
    (hr : ∀ x ∈ r.head?, p x = false) : ∀ x ∈ (unsettled r).head?, p x = false := by
  cases r with
  | nil => simp [unsettled]
  | cons x rest =>
      obtain ⟨more, h | h⟩ := unsettled_cons_cases x rest
      · simp [h, hp]
      · simpa [h] using hr x rfl

theorem text_settle_unsettled (r : Reading) : (settle (unsettled r)).text = (settle r).text := by
  fun_induction unsettled r with
  | case1 => rfl
  | case2 x rest hglued run ih =>
      have hsplit : x :: rest = run ++ rest.dropWhile isGlued := by simp [run]
      have hrun : ∀ y ∈ run, isGlued y = true :=
        List.forall_mem_cons.mpr ⟨hglued, fun _ hy => List.mem_takeWhile_imp hy⟩
      have hstop : ∀ y ∈ (rest.dropWhile isGlued).head?, isGlued y = false :=
        fun _ hy => not_of_mem_head?_dropWhile hy
      rw [hsplit, settle_run_append (by simp [run]) hrun hstop, text_append, ← ih, mute]
      split
      · rename_i hkept
        rw [settle_append_of_other fun _ hy => role_of_mem_ofText hy, text_append, text_ofText,
          hkept]
      · rw [settle_run_append (by simp [run]) hrun
          (not_of_mem_head?_unsettled (fun _ => rfl) hstop), text_append]
  | case3 x rest hglued hgap run ih =>
      have hsplit : x :: rest = run ++ rest.dropWhile isGap := by simp [run]
      have hrun : ∀ y ∈ run, isGap y = true :=
        List.forall_mem_cons.mpr ⟨hgap, fun _ hy => List.mem_takeWhile_imp hy⟩
      have hstop : ∀ y ∈ (rest.dropWhile isGap).head?, isGap y = false :=
        fun _ hy => not_of_mem_head?_dropWhile hy
      have hempty :
          (unsettled (rest.dropWhile isGap)).isEmpty = (rest.dropWhile isGap).isEmpty := by
        rw [Bool.eq_iff_iff, List.isEmpty_iff, List.isEmpty_iff, unsettled_eq_nil]
      rw [hsplit, settle_gap_append (by simp [run]) hrun hstop, text_append, ← ih, mute]
      split
      · rename_i hkept
        rw [settle_append_of_other fun _ hy => role_of_mem_ofText hy, text_append, text_ofText,
          hkept]
      · rw [settle_gap_append (by simp [run]) hrun
          (not_of_mem_head?_unsettled (fun _ => rfl) hstop), text_append, squeezeRun, squeezeRun,
          hempty]
  | case4 x rest hglued hgap ih =>
      have hother : ∀ y ∈ [x], y.1 = .other := by
        obtain ⟨role, c⟩ := x
        cases role <;> simp_all [isGlued, isGap, Role.isGlued]
      have hkept : ∀ s, settle (x :: s) = x :: settle s := fun _ => settle_append_of_other hother
      rw [hkept, hkept, text_cons, text_cons, ih]

/-- What is to be changed determines what a reading is tidied to. -/
theorem text_tidy_of_untidy {s : Reading} (h : untidy r = untidy s) :
    (tidy r).text = (tidy s).text := by
  rw [tidy_eq, tidy_eq, ← text_settle_unsettled, ← text_settle_unsettled (trimStart s)]
  exact congrArg (fun r => (settle r).text) h

end Reading

namespace Cleaning

open Token

theorem not_mem_stringify_stripEmptyStrings {c : Char} {ts : List Token} (h : c ∉ stringify ts) :
    c ∉ stringify (stripEmptyStrings ts) :=
  fun hc => h (((stripEmptyStrings_sublist ts).flatMap _).mem hc)

theorem plain_stripEmptyStrings {ts : List Token} (hplain : ∀ t ∈ ts, t.Plain) :
    ∀ t ∈ stripEmptyStrings ts, t.Plain :=
  fun t ht => hplain t ((stripEmptyStrings_sublist ts).mem ht)

/-- Once the empty strings are taken out, cleaning tidies what is read. -/
theorem reading_apply_stripped {ts : List Token} (hescapes : Unescaped ts)
    (hplain : ∀ t ∈ ts, t.Plain) :
    reading (standard.apply ts) = tidy (reading (stripEmptyStrings ts)) := by
  have hempty := apart_stripEmptyStrings ts
  have happly : standard.apply (stripEmptyStrings ts) = standard.apply ts := by
    rw [apply_standard, apply_standard, applyEscapes_of_unescaped hescapes,
      applyEscapes_of_unescaped hescapes.stripEmptyStrings, stripEmptyStrings_of_apart hempty]
  rw [← happly, reading_apply hescapes.stripEmptyStrings hempty (plain_stripEmptyStrings hplain)]

/-- Where there is no empty string, a cleaned text is read as it was cleaned. -/
theorem reading_deobfuscate {t : Text} (hcaret : '^' ∉ t)
    (hempty : stripEmptyStrings (tokenize t) = tokenize t) :
    '^' ∉ standard.deobfuscate t ∧
      reading (tokenize (standard.deobfuscate t)) = reading (standard.apply (tokenize t)) := by
  obtain ⟨u, hu, htrim⟩ := Lexer.exists_trimStart hcaret
  have hcleaned : reading (standard.apply (tokenize t)) = settle (Lexer.reading .command u) := by
    rw [reading_apply_stripped (unescaped_tokenize hcaret) (plain_tokenize hcaret), hempty,
      reading_tokenize, tidy_eq, htrim]
  have htext : standard.deobfuscate t = (settle (Lexer.reading .command u)).text := by
    rw [← hcleaned, text_reading]
    rfl
  have hagain := Lexer.rereads .command hu
  rw [reading_tokenize, htext, hcleaned]
  exact ⟨hagain.caret, hagain.same⟩

/-- Where there is no empty string, cleaning again changes nothing. -/
theorem deobfuscate_of_no_empty_string {t : Text} (hcaret : '^' ∉ t)
    (hempty : stripEmptyStrings (tokenize t) = tokenize t) :
    standard.deobfuscate (standard.deobfuscate t) = standard.deobfuscate t := by
  obtain ⟨hcaret', hsame⟩ := reading_deobfuscate hcaret hempty
  have hescapes := unescaped_tokenize hcaret
  have hnormal := normal_apply standard (tokenize t)
  have hplain := plain_apply hescapes (plain_tokenize hcaret)
  have hapart : Apart Kind.EmptyPair (tokenize (standard.deobfuscate t)) := by
    rw [← filled_reading (plain_tokenize hcaret'), hsame, filled_reading hplain]
    exact hnormal.emptyStrings rfl
  calc standard.deobfuscate (standard.deobfuscate t)
      = (reading (standard.apply (tokenize (standard.deobfuscate t)))).text :=
        (text_reading _).symm
    _ = (tidy (reading (tokenize (standard.deobfuscate t)))).text := by
        rw [reading_apply (unescaped_tokenize hcaret') hapart (plain_tokenize hcaret')]
    _ = (tidy (reading (standard.apply (tokenize t)))).text := by rw [hsame]
    _ = (reading (standard.apply (standard.apply (tokenize t)))).text := by
        rw [reading_apply (hnormal.escapes rfl) (hnormal.emptyStrings rfl) hplain]
    _ = standard.deobfuscate t := by rw [apply_of_normal hnormal, text_reading]; rfl

theorem deobfuscate_eq_text_tidy {t : Text} (hcaret : '^' ∉ t) :
    standard.deobfuscate t = (tidy (reading (stripEmptyStrings (tokenize t)))).text := by
  rw [← reading_apply_stripped (unescaped_tokenize hcaret) (plain_tokenize hcaret), text_reading]
  rfl

/-! ### Clean texts -/

section

variable {t : Text} (hcaret : '^' ∉ t) (hclean : standard.deobfuscate t = t)
include hcaret hclean

/-- In a text that cleaning leaves alone there is no empty string: without one it would be shorter,
and tidying does not make it longer again. -/
theorem reading_stripEmptyStrings_of_clean :
    reading (stripEmptyStrings (tokenize t)) = reading (tokenize t) := by
  have hsub : (reading (stripEmptyStrings (tokenize t))).Sublist (reading (tokenize t)) :=
    (stripEmptyStrings_sublist _).flatMap _
  refine hsub.eq_of_length_le ?_
  have hlength : ∀ r : Reading, r.text.length = r.length := fun r => List.length_map _
  calc (reading (tokenize t)).length
      = (standard.deobfuscate t).length := by
        rw [hclean, ← hlength, text_reading, stringify_tokenize]
    _ = (tidy (reading (stripEmptyStrings (tokenize t)))).length := by
        rw [deobfuscate_eq_text_tidy hcaret, hlength]
    _ ≤ (reading (stripEmptyStrings (tokenize t))).length := length_tidy_le _

theorem filled_of_clean : Filled (reading (tokenize t)) := by
  rw [← reading_stripEmptyStrings_of_clean hcaret hclean,
    filled_reading (plain_stripEmptyStrings (plain_tokenize hcaret))]
  exact apart_stripEmptyStrings _

theorem text_tidy_of_clean : (tidy (reading (tokenize t))).text = t := by
  rw [← reading_stripEmptyStrings_of_clean hcaret hclean, ← deobfuscate_eq_text_tidy hcaret, hclean]

end

/--
**Cleaned text stays as it is.**  Take a text without carets, and let `v` be what is left of it when
its empty strings are taken out.  Suppose that there is no empty string in `v`, and that cleaning
finds the same blanks and strings to change in it as in the text before.  Then cleaning the cleaned
text again, from reading it to writing it out, changes nothing.
-/
theorem deobfuscate_deobfuscate (t v : Text) (hcaret : '^' ∉ t)
    (hv : stringify (stripEmptyStrings (tokenize t)) = v)
    (hempty : stripEmptyStrings (tokenize v) = tokenize v)
    (hread : untidy (reading (tokenize v)) = untidy (reading (stripEmptyStrings (tokenize t)))) :
    standard.deobfuscate (standard.deobfuscate t) = standard.deobfuscate t := by
  have hcaret' : '^' ∉ v := by
    rw [← hv]
    exact not_mem_stringify_stripEmptyStrings (by rwa [stringify_tokenize])
  have hsame : standard.deobfuscate v = standard.deobfuscate t := by
    rw [deobfuscate_eq_text_tidy hcaret', hempty, text_tidy_of_untidy hread,
      ← deobfuscate_eq_text_tidy hcaret]
  rw [← hsame]
  exact deobfuscate_of_no_empty_string hcaret' hempty

/-- Two strings, one of them open, an empty one between them, a `SET` with blanks in its value, and
one that is made of its letters only when an empty string is gone. -/
theorem deobfuscate_deobfuscate_strings :
    let t := "p\"\"ower\"shell  -c\"  a \"\" &s\"\"et b=c &set x = \" b  & set y  ".toList
    let v := "power\"shell  -c\"  a  &set b=c &set x = \" b  & set y  ".toList
    '^' ∉ t ∧ stringify (stripEmptyStrings (tokenize t)) = v ∧
      stripEmptyStrings (tokenize v) = tokenize v ∧
      untidy (reading (tokenize v)) = untidy (reading (stripEmptyStrings (tokenize t))) ∧
      standard.deobfuscate (standard.deobfuscate t) = standard.deobfuscate t := by
  intro t v
  have hcaret : '^' ∉ t := by decide
  have hv : stringify (stripEmptyStrings (tokenize t)) = v := by decide +kernel
  have hempty : stripEmptyStrings (tokenize v) = tokenize v := by decide +kernel
  have hread : untidy (reading (tokenize v)) =
      untidy (reading (stripEmptyStrings (tokenize t))) := by decide +kernel
  exact ⟨hcaret, hv, hempty, hread, deobfuscate_deobfuscate t v hcaret hv hempty hread⟩

/-- Taking out an empty string can take a `SET` with it: the blanks after it, which were part of a
name, are blanks between words when the text is read again. -/
theorem deobfuscate_deobfuscate_ne :
    let t := "x\"\"set a  b".toList
    '^' ∉ t ∧ standard.deobfuscate t = "xset a  b".toList ∧
      standard.deobfuscate (standard.deobfuscate t) = "xset a b".toList := by
  decide +kernel

end Cleaning

end BatchTrace
