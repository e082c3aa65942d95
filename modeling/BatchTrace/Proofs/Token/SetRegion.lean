/-
What is read after `SET`.

Operators are read from the characters that they are made of and from no others.  In a text
without these characters and without carets there is no chain operator, and an assignment that
has begun runs to the end.  Its name and its value are left alone by cleaning, whatever blanks,
parentheses, single quotes and reserved words there are in them; only strings in a value can
change, and they do not if no two quotes stand side by side in it.  A quote or a parenthesis
right after `SET` leads back to a command, and there it matters whether a command would be clean.
-/
import BatchTrace.Proofs.Token.Calm
import BatchTrace.Proofs.Token.Rereading
import Mathlib.Data.List.Infix

namespace BatchTrace

open Reading

/-! ### Operators -/

namespace Chunk

/-- An operator is spelled with one of the four characters, and with them and digits only. -/
theorem mem_operator {t rest spelling : Text} {kind : Kind}
    (h : next? t = some (operator kind spelling, rest)) :
    (∃ c ∈ spelling, c ∈ ['&', '|', '<', '>']) ∧
      ∀ c ∈ spelling, c.isDigit = true ∨ c ∈ ['&', '|', '<', '>'] := by
  unfold next? at h
  split at h <;> (try split at h) <;> (try split at h) <;> (try split at h) <;>
    simp_all only [Option.some.injEq, Prod.mk.injEq, reduceCtorEq, operator.injEq, false_and] <;>
    (obtain ⟨⟨rfl, rfl⟩, rfl⟩ := h; simp_all)

theorem not_mem_operator {t rest spelling : Text} {kind : Kind} {c : Char}
    (h : next? t = some (operator kind spelling, rest))
    (hc : (c.isDigit || decide (c ∈ ['&', '|', '<', '>'])) = false) : c ∉ spelling := by
  intro hmem
  rcases (mem_operator h).2 c hmem with hdigit | hsign
  · simp [hdigit] at hc
  · simp [hsign] at hc

end Chunk

/-- No operator and no caret stands in a text. -/
def Flat (t : Text) : Prop :=
  ∀ c ∈ t, c ∉ ['&', '|', '<', '>', '^']

namespace Flat

variable {s t : Text}

theorem of_subset (h : Flat t) (hsub : s ⊆ t) : Flat s :=
  fun c hc => h c (hsub hc)

theorem not_mem_caret (h : Flat t) : '^' ∉ t := fun hmem => h _ hmem (by simp)

/-- Nothing in a flat text ends an assignment. -/
theorem endsSet (h : Flat t) {chunk : Chunk} {rest : Text}
    (hnext : Chunk.next? t = some (chunk, rest)) : chunk.endsSet = false := by
  have htext : chunk.text ⊆ t := by
    rw [← Chunk.text_append_of_next? hnext]
    exact List.subset_append_left _ _
  cases chunk with
  | caret => exact absurd (htext (by simp [Chunk.text])) h.not_mem_caret
  | operator kind spelling =>
      obtain ⟨⟨c, hc, hmem⟩, -⟩ := Chunk.mem_operator hnext
      exact absurd (List.mem_append_left ['^'] hmem) (h c (htext hc))
  | _ => rfl

end Flat

namespace Lexer

open Lexeme

theorem isChain_word (run : Text) : (Chunk.word run).kind.isChain = false := by
  have hnot := Chunk.forall_kind_word (p := fun k => !k.isChain) (by decide) run
  simpa using hnot

theorem isChain_delimiter (run : Text) : (Chunk.delimiter run).kind.isChain = false := by
  have hnot := forall_kind_gap (p := fun k => !k.isChain) (by decide) run
  simpa using hnot

theorem isChain_single {k : Kind} (hk : k.isChain = false) (t : Text) :
    ∀ x ∈ ([⟨k, t⟩] : List Lexeme), x.kind.isChain = false := by
  simp [hk]

theorem isChain_string (rest : Text) :
    ∀ x ∈ ⟨.stringDquoteBegin, ['"']⟩ :: (doubleQuoted rest).1, x.kind.isChain = false :=
  forall_kind_string (p := (·.isChain = false)) rfl rfl rfl rest

theorem isChain_escaped (c : Char) : ∀ x ∈ escaped c, x.kind.isChain = false :=
  forall_kind_escaped (p := (·.isChain = false)) rfl rfl c

theorem isChain_command {chunk : Chunk} (h : chunk.endsSet = false) (rest : Text) :
    ∀ x ∈ (command chunk rest).out, x.kind.isChain = false := by
  cases chunk with
  | escape c => exact isChain_escaped c
  | caret => simp [Chunk.endsSet] at h
  | operator kind spelling => simp [Chunk.endsSet] at h
  | doubleQuote => exact isChain_string rest
  | singleQuote =>
      cases hread : singleQuoted? rest with
      | some parts =>
          rw [command_singleQuote_some hread, List.forall_mem_cons]
          exact ⟨rfl, (singleQuoted_of_some hread).forall_kind (p := (·.isChain = false))
            rfl rfl rfl rfl⟩
      | none =>
          rw [command_singleQuote_none hread]
          exact isChain_single rfl _
  | delimiter run => exact isChain_single (isChain_delimiter run) _
  | word run => exact isChain_single (isChain_word run) _
  | lParen => exact isChain_single rfl _
  | rParen => exact isChain_single rfl _

/-- A chain operator is read only where it is a chunk of its own. -/
theorem isChain_step (mode : Mode) {chunk : Chunk} (h : chunk.endsSet = false) (rest : Text) :
    ∀ x ∈ (step mode chunk rest).out, x.kind.isChain = false := by
  cases mode with
  | command => exact isChain_command h rest
  | lead =>
      cases chunk with
      | escape c => exact isChain_escaped c
      | caret => simp [Chunk.endsSet] at h
      | operator kind spelling => simp [Chunk.endsSet] at h
      | delimiter run =>
          exact forall_kind_assign (p := (·.isChain = false)) rfl rfl rfl _ run rest
      | doubleQuote =>
          show ∀ x ∈ ⟨.setDquoteBegin, ['"']⟩ :: (quotedSet rest).1, x.kind.isChain = false
          exact List.forall_mem_cons.mpr
            ⟨rfl, forall_kind_quotedSet (p := (·.isChain = false)) rfl rfl rfl rfl rest⟩
      | lParen => exact isChain_single rfl _
      | rParen => exact isChain_single rfl _
      | singleQuote => exact isChain_single rfl _
      | word run => exact isChain_single rfl _
  | name =>
      cases chunk with
      | escape c => exact isChain_escaped c
      | caret => simp [Chunk.endsSet] at h
      | operator kind spelling => simp [Chunk.endsSet] at h
      | delimiter run =>
          exact forall_kind_assign (p := (·.isChain = false)) rfl rfl rfl _ run rest
      | _ => exact isChain_single rfl _
  | value =>
      cases chunk with
      | escape c => exact isChain_escaped c
      | caret => simp [Chunk.endsSet] at h
      | operator kind spelling => simp [Chunk.endsSet] at h
      | doubleQuote => exact isChain_string rest
      | _ => exact isChain_single rfl _

/-- A chain operator is a chunk of its own and is read alone. -/
theorem eq_operator_of_isChain {mode : Mode} {chunk : Chunk} {rest : Text} {x : Lexeme}
    (hx : x ∈ (step mode chunk rest).out) (h : x.kind.isChain = true) :
    chunk = .operator x.kind x.text ∧ (step mode chunk rest).out = [x] := by
  cases hends : chunk.endsSet with
  | false => simp [isChain_step mode hends rest x hx] at h
  | true =>
      cases chunk with
      | caret =>
          have hout : (step mode .caret rest).out = [⟨.escape, ['^']⟩] := by cases mode <;> rfl
          rw [hout, List.mem_singleton] at hx
          rw [hx] at h
          cases h
      | operator kind spelling =>
          have hout : (step mode (.operator kind spelling) rest).out = [⟨kind, spelling⟩] := by
            cases mode <;> rfl
          rw [hout, List.mem_singleton] at hx
          rw [hx]
          exact ⟨rfl, hout⟩
      | _ => cases hends

theorem isChain_pieces (mode : Mode) {t : Text} (ht : Flat t) :
    ∀ x ∈ pieces mode t, x.kind.isChain = false := by
  fun_induction pieces mode t with
  | case1 mode t hnone => simp
  | case2 mode t chunk rest hnext s ih =>
      intro x hx
      rcases List.mem_append.mp hx with hx | hx
      · exact isChain_step mode (ht.endsSet hnext) rest x hx
      · refine ih (ht.of_subset ?_) x hx
        rw [← spell_append_rest hnext mode]
        exact List.subset_append_right _ _

end Lexer

/-! ### Readings that are left alone -/

/-- Cleaning leaves a reading alone. -/
structure Reading.Clean (r : Reading) : Prop where
  settled : settle r = r
  filled : Token.Filled r

theorem Reading.clean_nil : Clean [] :=
  ⟨settle_nil, List.isChain_nil⟩

theorem Reading.Clean.append_of_other {run r : Reading} (hrun : ∀ x ∈ run, x.1 = .other)
    (h : Clean r) : Clean (run ++ r) where
  settled := by rw [settle_append_of_other hrun, h.settled]
  filled := by
    induction run with
    | nil => exact h.filled
    | cons x run ih =>
        refine List.isChain_cons.mpr ⟨fun y _ hempty => ?_, ih fun y hy => hrun y (by simp [hy])⟩
        rw [hrun x (by simp)] at hempty
        cases hempty.1

theorem Reading.widenRun_ofString (body : Text) (isOpen : Bool) :
    widenRun (ofString body isOpen) = ofString body isOpen := by
  rw [widenRun_of_opening ⟨(.opening, '"'), by simp [ofString], rfl⟩, content_ofString,
    openAfter_ofString]

/-- Nothing stands in a string after its closing quote. -/
theorem Reading.ne_closing_of_mem_dropLast {body : Text} {isOpen : Bool} {r : Reading}
    (h : ofString body isOpen = r) : ∀ x ∈ r.dropLast, x.1 ≠ .closing := by
  intro x hx
  rw [← h] at hx
  have hmem : x ∈ (.opening, '"') :: ofText .inside body := by
    cases isOpen with
    | true => simpa [ofString] using List.mem_of_mem_dropLast hx
    | false => rwa [ofString, if_neg (by simp), ← List.cons_append, List.dropLast_concat] at hx
  rcases List.mem_cons.mp hmem with rfl | hmem
  · simp
  · simp [role_of_mem_ofText hmem]

/-- A string takes in what touches it, so where it is left alone nothing does. -/
theorem Reading.Clean.of_string_append {body : Text} {isOpen : Bool} {r : Reading}
    (hend : isOpen = true → r = []) (h : Clean (ofString body isOpen ++ r)) : Clean r := by
  have hopening : ∀ s : Reading, ∃ x ∈ ofString body isOpen ++ s, x.1 = .opening :=
    fun s => ⟨(.opening, '"'), by simp [ofString], rfl⟩
  have hstop : ∀ x ∈ r.head?, isGlued x = false := by
    intro x hx
    by_contra hglued
    rw [Bool.not_eq_false] at hglued
    obtain ⟨more, rfl⟩ := List.head?_eq_some_iff.mp hx
    have hsplit : ofString body isOpen ++ x :: more =
        ofString body isOpen ++ x :: more.takeWhile isGlued ++ more.dropWhile isGlued := by simp
    have hrun : ∀ y ∈ ofString body isOpen ++ x :: more.takeWhile isGlued, isGlued y = true :=
      List.forall_mem_append.mpr ⟨isGlued_of_mem_ofString,
        List.forall_mem_cons.mpr ⟨hglued, fun _ hy => List.mem_takeWhile_imp hy⟩⟩
    have hsettled := h.settled
    rw [hsplit] at hsettled
    have hwiden := (settled_run_append (by simp) hrun
      (fun _ hy => not_of_mem_head?_dropWhile hy) hsettled).1
    rw [widenRun_of_opening (hopening _)] at hwiden
    -- The string is closed before `x`, and the run is a single string.
    have hclosed : isOpen = false := by
      cases isOpen with
      | true => simp at hend
      | false => rfl
    subst hclosed
    refine ne_closing_of_mem_dropLast hwiden (.closing, '"') ?_ rfl
    rw [List.dropLast_append_of_ne_nil (by simp)]
    simp [ofString]
  exact ⟨(settled_run_append (by simp [ofString]) isGlued_of_mem_ofString hstop h.settled).2,
    List.IsChain.right_of_append h.filled⟩

/-! ### Names and values -/

/-- No two quotes stand side by side. -/
def QuotesApart (t : Text) : Prop :=
  ¬ ['"', '"'] <:+: t

theorem QuotesApart.mono {s t : Text} (h : QuotesApart t) (hs : s <:+: t) : QuotesApart s :=
  fun hquotes => h (hquotes.trans hs)

/-- After a string that is closed no other one follows at once. -/
theorem QuotesApart.not_mem_head? {body after : Text} {isOpen : Bool}
    (h : QuotesApart ((ofString body isOpen).text ++ after)) (hend : isOpen = true → after = []) :
    '"' ∉ after.head? := by
  cases isOpen with
  | true => simp [hend rfl]
  | false =>
      intro hmem
      obtain ⟨more, rfl⟩ := List.head?_eq_some_iff.mp hmem
      refine h ⟨'"' :: body, more, ?_⟩
      simp [text_ofString]

theorem Token.filled_of_quotesApart {r : Reading} (hquotes : QuotesApart r.text)
    (h : ∀ x ∈ r, x.1 = .opening ∨ x.1 = .closing → x.2 = '"') : Filled r := by
  induction r with
  | nil => exact List.isChain_nil
  | cons x rest ih =>
      have hrest : Filled rest :=
        ih (hquotes.mono (List.suffix_cons _ _).isInfix) fun y hy => h y (by simp [hy])
      cases rest with
      | nil => exact List.isChain_singleton x
      | cons y rest =>
          refine List.isChain_cons_cons.mpr ⟨?_, hrest⟩
          rintro ⟨hopening, hclosing⟩
          refine hquotes ⟨[], Reading.text rest, ?_⟩
          rw [text_cons, text_cons, h x (by simp) (Or.inl hopening),
            h y (by simp) (Or.inr hclosing)]
          rfl

/-- A text from its first equals sign on, where the value begins. -/
def fromEquals (t : Text) : Text :=
  t.dropWhile (· ≠ '=')

theorem fromEquals_append {s : Text} (h : '=' ∉ s) (t : Text) :
    fromEquals (s ++ t) = fromEquals t := by
  refine List.dropWhile_append_of_pos fun c hc => ?_
  rw [decide_eq_true_eq]
  rintro rfl
  exact h hc

theorem suffix_fromEquals {s t : Text} (h : '=' ∈ s) : t <:+ fromEquals (s ++ t) := by
  obtain ⟨before, after, rfl, hbefore⟩ := List.eq_append_cons_of_mem h
  rw [List.append_assoc, fromEquals_append hbefore]
  exact ⟨'=' :: after, by simp [fromEquals]⟩

theorem fromEquals_suffix {s t : Text} (h : s <:+ t) : fromEquals s <:+ fromEquals t := by
  obtain ⟨before, rfl⟩ := h
  by_cases hbefore : '=' ∈ before
  · exact (List.dropWhile_suffix _).trans (suffix_fromEquals hbefore)
  · rw [fromEquals_append hbefore]

namespace Lexer

open Lexeme

/-- Every quote of a string is a quote. -/
theorem quote_of_mem_reading (mode : Mode) {t : Text} (hcaret : '^' ∉ t) {x : Role × Char}
    (hx : x ∈ reading mode t) (hquote : x.1 = .opening ∨ x.1 = .closing) : x.2 = '"' := by
  obtain ⟨y, hy, hxy⟩ := List.mem_flatMap.mp hx
  obtain ⟨c, hc, rfl⟩ := List.mem_map.mp hxy
  have htext := (plain_pieces mode hcaret y hy).quote
    (hquote.imp Kind.role_eq_opening.mp Kind.role_eq_closing.mp)
  rw [htext] at hc
  exact List.mem_singleton.mp hc

/-- A quote opens a string, which is closed unless the text ends before. -/
theorem exists_string (rest : Text) :
    ∃ body isOpen after, '"' ∉ body ∧ (isOpen = true → after = []) ∧
      '"' :: rest = (ofString body isOpen).text ++ after := by
  by_cases h : '"' ∈ rest
  · obtain ⟨body, after, rfl, hbody⟩ := List.eq_append_cons_of_mem h
    exact ⟨body, false, after, hbody, by simp, by simp [text_ofString]⟩
  · exact ⟨rest, true, [], h, by simp, by simp [text_ofString]⟩

section

variable {t rest : Text} {chunk : Chunk} (ht : Flat t)
  (hnext : Chunk.next? t = some (chunk, rest))
include ht hnext

/-- In a value everything but a string is left alone by cleaning. -/
theorem step_value : chunk = .doubleQuote ∨
    ((∀ x ∈ (step .value chunk rest).out, x.kind.isInert = true) ∧
      (step .value chunk rest).mode = .value) := by
  have hends := ht.endsSet hnext
  cases chunk with
  | escape c =>
      refine absurd ?_ ht.not_mem_caret
      rw [← Chunk.text_append_of_next? hnext]
      simp [Chunk.text]
  | caret => simp [Chunk.endsSet] at hends
  | operator kind spelling => simp [Chunk.endsSet] at hends
  | doubleQuote => exact Or.inl rfl
  | _ => exact Or.inr ⟨fun x hx => by rw [List.mem_singleton.mp hx]; rfl, rfl⟩

/-- In a name everything is left alone, and an equals sign ends it. -/
theorem step_name : (∀ x ∈ (step .name chunk rest).out, x.kind.isInert = true) ∧
    (step .name chunk rest).rest = rest ∧
    ((step .name chunk rest).mode = .name ∨
      (step .name chunk rest).mode = .value ∧ '=' ∈ chunk.text) := by
  have hends := ht.endsSet hnext
  cases chunk with
  | escape c =>
      refine absurd ?_ ht.not_mem_caret
      rw [← Chunk.text_append_of_next? hnext]
      simp [Chunk.text]
  | caret => simp [Chunk.endsSet] at hends
  | operator kind spelling => simp [Chunk.endsSet] at hends
  | delimiter run =>
      refine ⟨forall_kind_assign (p := (·.isInert = true)) rfl rfl rfl .name run rest, ?_⟩
      show (assign .setName .name run rest).rest = rest ∧
        ((assign .setName .name run rest).mode = .name ∨
          (assign .setName .name run rest).mode = .value ∧ '=' ∈ run)
      unfold assign
      split
      · rename_i hsplit
        obtain ⟨c, hc, -, hrun⟩ := Text.splitFirst_eq_some hsplit
        obtain rfl : c = '=' := by simpa using hc
        exact ⟨rfl, Or.inr ⟨rfl, by simp [hrun]⟩⟩
      · exact ⟨rfl, Or.inl rfl⟩
  | _ => exact ⟨fun x hx => by rw [List.mem_singleton.mp hx]; rfl, rfl, Or.inl rfl⟩

end

/-- Cleaning leaves a text alone that is read in a given mode, and there are no separators in it. -/
structure Kept (mode : Mode) (t : Text) : Prop where
  clean : Clean (reading mode t)
  ungapped : ∀ x ∈ reading mode t, isGap x = false

theorem kept_nil (mode : Mode) : Kept mode [] where
  clean := by rw [reading_nil]; exact clean_nil
  ungapped := by simp

theorem Kept.append_of_inert {mode next : Mode} {t rest : Text} {xs : List Lexeme}
    (hread : reading mode t = Lexeme.reading xs ++ reading next rest)
    (hxs : ∀ x ∈ xs, x.kind.isInert = true) (h : Kept next rest) : Kept mode t where
  clean := by rw [hread]; exact h.clean.append_of_other (role_of_inert hxs)
  ungapped x hx := by
    rw [hread] at hx
    rcases List.mem_append.mp hx with hx | hx
    · simp [isGap, role_of_inert hxs x hx]
    · exact h.ungapped x hx

/-- Where no quote stands first in a value, no string begins. -/
theorem isGlued_head?_value {t : Text} (ht : Flat t) (hhead : '"' ∉ t.head?) :
    ∀ x ∈ (reading .value t).head?, isGlued x = false := by
  intro x hx
  cases hnext : Chunk.next? t with
  | none => simp [Chunk.eq_nil_of_next? hnext] at hx
  | some parts =>
      obtain ⟨chunk, rest⟩ := parts
      rw [reading_of_next? hnext,
        List.head?_append_of_ne_nil _ (reading_out_ne_nil hnext .value)] at hx
      rcases step_value ht hnext with rfl | ⟨hinert, -⟩
      · refine absurd ?_ hhead
        rw [← Chunk.text_append_of_next? hnext]
        simp [Chunk.text]
      · rw [isGlued, role_of_inert hinert x (List.mem_of_mem_head? hx)]
        rfl

/-- **What is read in a value is left alone by cleaning.** -/
theorem kept_value {t : Text} (ht : Flat t) (hquotes : QuotesApart t) : Kept .value t := by
  cases hnext : Chunk.next? t with
  | none =>
      rw [Chunk.eq_nil_of_next? hnext]
      exact kept_nil .value
  | some parts =>
      obtain ⟨chunk, rest⟩ := parts
      rcases step_value ht hnext with rfl | ⟨hinert, hmode⟩
      · obtain ⟨body, isOpen, after, hbody, hend, heq⟩ := exists_string rest
        have htext : (ofString body isOpen).text ++ after = t := by
          rw [← heq]
          exact Chunk.text_append_of_next? hnext
        have hread : reading .value ((ofString body isOpen).text ++ after) =
            ofString body isOpen ++ reading .value after :=
          reading_ofString (Or.inr rfl) hbody hend
        subst htext
        have hflat : Flat after := ht.of_subset (List.subset_append_right _ _)
        have hshort : after.length < ((ofString body isOpen).text ++ after).length := by
          simp [text_ofString]
          omega
        have h : Kept .value after :=
          kept_value hflat (hquotes.mono (List.suffix_append _ _).isInfix)
        refine ⟨⟨?_, ?_⟩, ?_⟩
        · rw [hread, settle_run_append (by simp [ofString]) isGlued_of_mem_ofString
            (isGlued_head?_value hflat (hquotes.not_mem_head? hend)), widenRun_ofString,
            h.clean.settled]
        · exact Token.filled_of_quotesApart (by rwa [text_reading])
            fun _ hx => quote_of_mem_reading .value ht.not_mem_caret hx
        · intro x hx
          rw [hread] at hx
          rcases List.mem_append.mp hx with hx | hx
          · exact isGap_of_isGlued (isGlued_of_mem_ofString x hx)
          · exact h.ungapped x hx
      · have hshort := length_rest_lt hnext .value
        have hsuffix : (step .value chunk rest).rest <:+ t := ⟨_, spell_append_rest hnext .value⟩
        have hread := reading_of_next? hnext .value
        rw [hmode] at hread
        exact .append_of_inert hread hinert
          (kept_value (ht.of_subset hsuffix.subset) (hquotes.mono hsuffix.isInfix))
termination_by t.length

/-- **What is read in a name, and in the value after it, is left alone by cleaning.** -/
theorem kept_name {t : Text} (ht : Flat t) (hquotes : QuotesApart (fromEquals t)) :
    Kept .name t := by
  cases hnext : Chunk.next? t with
  | none =>
      rw [Chunk.eq_nil_of_next? hnext]
      exact kept_nil .name
  | some parts =>
      obtain ⟨chunk, rest⟩ := parts
      obtain ⟨hinert, hrest, hmode⟩ := step_name ht hnext
      have htext := Chunk.text_append_of_next? hnext
      have hsuffix : rest <:+ t := ⟨_, htext⟩
      have hflat := ht.of_subset hsuffix.subset
      have hshort : rest.length < t.length := by
        have hlt := length_rest_lt hnext .name
        rwa [hrest] at hlt
      have hread := reading_of_next? hnext .name
      rw [hrest] at hread
      refine .append_of_inert hread hinert ?_
      rcases hmode with hmode | ⟨hmode, hequals⟩
      · rw [hmode]
        exact kept_name hflat (hquotes.mono (fromEquals_suffix hsuffix).isInfix)
      · rw [hmode]
        rw [← htext] at hquotes
        exact kept_value hflat (hquotes.mono (suffix_fromEquals hequals).isInfix)
termination_by t.length

/-- A text that begins with a word is a name and a value. -/
theorem kept_lead {t : Text} (ht : Flat t) (hquotes : QuotesApart (fromEquals t))
    (hhead : ∀ c ∈ t.head?, Chunk.isDelimiter c = false ∧ c ∉ ['"', '(', ')']) :
    Kept .lead t := by
  cases hnext : Chunk.next? t with
  | none =>
      rw [Chunk.eq_nil_of_next? hnext]
      exact kept_nil .lead
  | some parts =>
      obtain ⟨chunk, rest⟩ := parts
      have htext := Chunk.text_append_of_next? hnext
      have hends := ht.endsSet hnext
      have hname : step .lead chunk rest = ⟨[⟨.setName, chunk.text⟩], .name, rest⟩ := by
        cases chunk with
        | escape c => exact absurd (by simp [← htext, Chunk.text]) ht.not_mem_caret
        | caret => simp [Chunk.endsSet] at hends
        | operator kind spelling => simp [Chunk.endsSet] at hends
        | doubleQuote => exact absurd (by simp) (hhead '"' (by simp [← htext, Chunk.text])).2
        | lParen => exact absurd (by simp) (hhead '(' (by simp [← htext, Chunk.text])).2
        | rParen => exact absurd (by simp) (hhead ')' (by simp [← htext, Chunk.text])).2
        | delimiter run =>
            obtain ⟨⟨c, hc, hdelimiter⟩, -⟩ := Chunk.isDelimiter_of_next? hnext
            exact absurd hdelimiter (by simp [(hhead c hc).1])
        | singleQuote => rfl
        | word run => rfl
      have hsuffix : rest <:+ t := ⟨_, htext⟩
      have hread := reading_of_next? hnext .lead
      rw [hname] at hread
      exact .append_of_inert hread (by simp [Kind.isInert, Kind.role, Kind.isWord])
        (kept_name (ht.of_subset hsuffix.subset)
          (hquotes.mono (fromEquals_suffix hsuffix).isInfix))

/-! ### Texts that are assigned as they stand -/

/-- Separators are made of separators only. -/
theorem isDelimiter_of_mem_reading (mode : Mode) {t : Text} (hcaret : '^' ∉ t) {x : Role × Char}
    (hx : x ∈ reading mode t) (hgap : isGap x = true) : Chunk.isDelimiter x.2 = true := by
  cases hnext : Chunk.next? t with
  | none => simp [Chunk.eq_nil_of_next? hnext] at hx
  | some parts =>
      obtain ⟨chunk, rest⟩ := parts
      have hshort := length_rest_lt hnext mode
      rw [reading_of_next? hnext] at hx
      rcases List.mem_append.mp hx with hx | hx
      · cases outcome_of_next? hnext hcaret mode with
        | inert h => simp [isGap, role_of_inert h x hx] at hgap
        | part h => simp [isGap_of_isGlued (h.glued x hx)] at hgap
        | gap blank others hblank hchunk hout hothers hspace =>
            rw [hout, Lexeme.reading_cons] at hx
            rcases List.mem_append.mp hx with hx | hx
            · have hformed := Chunk.wellFormed_of_next? hnext
              rw [hchunk] at hformed
              obtain ⟨c, hc, rfl⟩ := List.mem_map.mp hx
              exact hformed.2 c (List.mem_append_left _ hc)
            · simp [isGap, role_of_inert hothers x hx] at hgap
      · exact isDelimiter_of_mem_reading _ (not_mem_rest hnext mode hcaret) hx hgap
termination_by t.length

/-- Where no separator stands first, none is read first. -/
theorem isGap_head?_reading (mode : Mode) {t : Text} (hcaret : '^' ∉ t)
    (hhead : ∀ c ∈ t.head?, Chunk.isDelimiter c = false) :
    ∀ x ∈ (reading mode t).head?, isGap x = false := by
  intro x hx
  by_contra hgap
  obtain ⟨c, hc, hdelimiter⟩ := isDelimiter_of_isGap hcaret hx (by simpa using hgap)
  simp [hhead c hc] at hdelimiter

/-- What stands after `SET` in such a text is left alone by cleaning. -/
structure Verbatim (u : Text) : Prop where
  head : ∀ c ∈ u.head?, Chunk.isDelimiter c = false
  plain : ∀ x ∈ pieces .lead u, x.Plain
  unchained : ∀ x ∈ pieces .lead u, x.kind.isChain = false
  clean : Clean (reading .lead u)
  first : ∀ x ∈ (reading .lead u).head?, isGap x = false

section

variable {u : Text}

theorem verbatim_of_flat (ht : Flat u) (hhead : ∀ c ∈ u.head?, Chunk.isDelimiter c = false)
    (hclean : Clean (reading .lead u)) : Verbatim u where
  head := hhead
  plain := plain_pieces .lead ht.not_mem_caret
  unchained := isChain_pieces .lead ht
  clean := hclean
  first := isGap_head?_reading .lead ht.not_mem_caret hhead

/-- A quoted assignment, after which the reader expects a command. -/
theorem exists_pieces_lead_string {body : Text} (hbody : '"' ∉ body) {isOpen : Bool} {after : Text}
    (hend : isOpen = true → after = []) :
    ∃ xs, (∀ x ∈ xs, x.kind.isInert = true) ∧ (∀ x ∈ xs, x.kind.isChain = false) ∧
      pieces .lead ((ofString body isOpen).text ++ after) = xs ++ pieces .command after := by
  have hnext : Chunk.next? ((ofString body isOpen).text ++ after) =
      some (.doubleQuote, body ++ (if isOpen then [] else ['"']) ++ after) := by
    rw [text_ofString, List.cons_append]
    rfl
  have hrest : (quotedSet (body ++ (if isOpen then [] else ['"']) ++ after)).2 = after := by
    rw [quotedSet_eq]
    cases isOpen with
    | true => simp [hend rfl, upToQuote_open hbody]
    | false => simp [upToQuote_closed hbody]
  generalize body ++ (if isOpen then [] else ['"']) ++ after = rest at hnext hrest
  refine ⟨(step .lead .doubleQuote rest).out, ?_, isChain_step .lead rfl rest, ?_⟩
  · exact List.forall_mem_cons.mpr ⟨rfl, isInert_quotedSet _⟩
  · rw [pieces_of_next? hnext]
    show _ ++ pieces .command (quotedSet _).2 = _
    rw [hrest]

/-- A quoted assignment and nothing else, whatever it holds. -/
theorem exists_pieces_quoted {body : Text} (hbody : '"' ∉ body) :
    ∃ xs, (∀ x ∈ xs, x.kind.isInert = true) ∧ (∀ x ∈ xs, x.kind.isChain = false) ∧
      pieces .lead ('"' :: (body ++ ['"'])) = xs := by
  obtain ⟨xs, hinert, hchain, hpieces⟩ := exists_pieces_lead_string hbody
    (show false = true → ([] : Text) = [] by simp)
  refine ⟨xs, hinert, hchain, ?_⟩
  simpa [text_ofString] using hpieces

theorem role_of_mem_quoted {body : Text} (hbody : '"' ∉ body) :
    ∀ x ∈ reading .lead ('"' :: (body ++ ['"'])), x.1 = .other := by
  obtain ⟨xs, hinert, -, hpieces⟩ := exists_pieces_quoted hbody
  rw [reading, hpieces]
  exact role_of_inert hinert

theorem verbatim_quoted {body : Text} (hbody : '"' ∉ body) : Verbatim ('"' :: (body ++ ['"'])) := by
  obtain ⟨xs, hinert, hchain, hpieces⟩ := exists_pieces_quoted hbody
  have hother := role_of_mem_quoted hbody
  refine ⟨by simp [Chunk.isDelimiter], ?_, ?_, ?_, ?_⟩
  · rw [hpieces]
    exact fun x hx => plain_of_isInert (hinert x hx)
  · rwa [hpieces]
  · rw [← List.append_nil (reading _ _)]
    exact clean_nil.append_of_other hother
  · intro x hx
    simp [isGap, hother x (List.mem_of_mem_head? hx)]

/-- Separators without an equals sign are read as separators. -/
theorem reading_separated {g : Text} (hg : ∀ c ∈ g, Chunk.isDelimiter c = true) (hequals : '=' ∉ g)
    (hu : ∀ c ∈ u.head?, Chunk.isDelimiter c = false) :
    reading .command (g ++ u) = Reading.ofText .gap g ++ reading .command u := by
  have hkind : (Chunk.delimiter g).kind = .delimiter := by
    rcases kind_gap g with h | ⟨rfl, -⟩
    · exact h
    · simp at hequals
  have hjoin : ∀ t, reading .command t = Lexeme.reading (lexemes t) := fun _ =>
    (Lexeme.reading_join _).symm
  rw [hjoin, lexemes_separated hg hu, Lexeme.reading_append, Lexeme.reading_ofText, hkind, hjoin]
  rfl

/-- What follows the separators in front of a clean text is read in a command as it is, if they are
more than white space. -/
theorem clean_command {g : Text} (hg : ∀ c ∈ g, Chunk.isDelimiter c = true) (hequals : '=' ∉ g)
    (hblank : isBlank (Reading.ofText .gap g) = true → g = [])
    (hu : ∀ c ∈ u.head?, Chunk.isDelimiter c = false) (hcaret : '^' ∉ g ++ u)
    (hclean : Cleaning.standard.deobfuscate (g ++ u) = g ++ u) : Clean (reading .command u) := by
  have hread := reading_separated hg hequals hu
  have hcaret' : '^' ∉ u := fun hmem => hcaret (List.mem_append_right g hmem)
  have hfilled := Cleaning.filled_of_clean hcaret hclean
  have htext := Cleaning.text_tidy_of_clean hcaret hclean
  rw [Token.reading_tokenize, hread] at hfilled htext
  refine ⟨?_, List.IsChain.right_of_append hfilled⟩
  have hgap : ∀ x ∈ Reading.ofText .gap g, isGap x = true :=
    fun x hx => by simp [isGap, role_of_mem_ofText hx]
  have hsettled : (settle (reading .command u)).text = u := by
    rw [tidy_gap_append hgap (isGap_head?_reading .command hcaret' hu)] at htext
    split at htext
    · rename_i hwhite
      rw [htext, hblank hwhite, List.nil_append]
    · rw [Reading.text_append, Reading.text_ofText] at htext
      exact List.append_cancel_left htext
  have hsame := (rereads .command hcaret').same
  rw [hsettled] at hsame
  exact hsame.symm

/-- A parenthesis after `SET` is read as in a command. -/
theorem reading_lead_of_step {chunk : Chunk} {rest : Text}
    (hnext : Chunk.next? u = some (chunk, rest))
    (hstep : step .lead chunk rest = step .command chunk rest) :
    reading .lead u = reading .command u := by
  rw [reading_of_next? hnext, reading_of_next? hnext, hstep]

/-- After a quote or a parenthesis, what is clean in a command is clean after `SET` too. -/
theorem clean_lead {c : Char} (hc : c ∈ ['"', '(', ')']) {rest : Text}
    (h : Clean (reading .command (c :: rest))) : Clean (reading .lead (c :: rest)) := by
  rcases List.mem_cons.mp hc with rfl | hc
  · -- A quoted assignment is kept whole, and a command follows it.
    obtain ⟨body, isOpen, after, hbody, hend, heq⟩ := exists_string rest
    rw [heq] at h ⊢
    obtain ⟨xs, hinert, -, hpieces⟩ := exists_pieces_lead_string hbody hend
    have hread : reading .lead ((ofString body isOpen).text ++ after) =
        Lexeme.reading xs ++ reading .command after := by
      rw [reading, hpieces, Lexeme.reading_append]
      rfl
    rw [reading_ofString (Or.inl rfl) hbody hend] at h
    rw [hread]
    refine (h.of_string_append fun hopen => ?_).append_of_other (role_of_inert hinert)
    rw [hend hopen, reading_nil]
  · rcases List.mem_cons.mp hc with rfl | hc
    · rwa [@reading_lead_of_step _ .lParen _ rfl rfl]
    · obtain rfl := List.mem_singleton.mp hc
      rwa [@reading_lead_of_step _ .rParen _ rfl rfl]

/-- **What stands after `SET` stays as it is**: a name and a value in which no two quotes stand side
by side, or a quote or parenthesis and what is clean in a command. -/
theorem verbatim (ht : Flat u) (hhead : ∀ c ∈ u.head?, Chunk.isDelimiter c = false)
    (hname : (∀ c ∈ u.head?, c ∉ ['"', '(', ')']) → QuotesApart (fromEquals u))
    (hcommand : (∃ c ∈ u.head?, c ∈ ['"', '(', ')']) → Clean (reading .command u)) :
    Verbatim u := by
  refine verbatim_of_flat ht hhead ?_
  by_cases hbracket : ∃ c ∈ u.head?, c ∈ ['"', '(', ')']
  · have hclean := hcommand hbracket
    obtain ⟨c, hc, hmem⟩ := hbracket
    obtain ⟨rest, rfl⟩ := List.head?_eq_some_iff.mp hc
    exact clean_lead hmem hclean
  · push Not at hbracket
    exact (kept_lead ht (hname hbracket) fun c hc => ⟨hhead c hc, hbracket c hc⟩).clean

end

end Lexer

end BatchTrace
