/-
What a step of the reader can be.

For cleaning there are three cases.  A step reads a part of a run of words and strings,
or a separator, or something that cleaning leaves alone.  `Outcome` says so, with what
matters about each case: a string is closed unless the text ends with it, and a space
in the place of a separator would be read as a separator too.

Whatever holds of the tokens of a text, or of the roles of its characters, follows from
these cases by going along the text.  The first such facts are here: where there are no
carets no token is part of an escape, and the quotes of strings are double quotes.
-/
import BatchTrace.Proofs.Token.Lookahead
import BatchTrace.Proofs.Token.Tidying

namespace BatchTrace

open Reading

/-- Kinds that no pass of a cleaning looks at. -/
def Kind.isInert (k : Kind) : Bool :=
  k.role = .other && k ≠ .escape && k ≠ .escapedLiteral

namespace Kind

variable {k : Kind}

theorem role_of_isInert (h : k.isInert = true) : k.role = .other := by
  simp only [isInert, Bool.and_eq_true, decide_eq_true_eq] at h
  exact h.1.1

theorem isInert_of_isPieced (h : Lexeme.isPieced k = true) : k.isInert = true := by
  revert h
  cases k <;> decide

theorem isInert_of_operator (h : (k.isChain || k.isRedirection) = true) : k.isInert = true := by
  revert h
  cases k <;> decide

end Kind

/-- A word is the reserved word `SET`, or cleaning takes it for a word. -/
theorem Chunk.kind_word (run : Text) :
    (word run).kind = .setWord ∨ (word run).kind.role = .word := by
  have hwords : ∀ p ∈ reservedWords, p.2 = Kind.setWord ∨ p.2.role = .word := by decide
  show (reserved? run).getD .literal = .setWord ∨ ((reserved? run).getD .literal).role = .word
  cases hr : reserved? run with
  | none => exact Or.inr rfl
  | some k =>
      rw [reserved?, List.lookup_eq_some_iff] at hr
      obtain ⟨before, after, heq, -⟩ := hr
      exact hwords (run.map foldLetter, k) (by rw [heq]; simp)

namespace Lexeme

/-- The roles of the characters that lexemes spell. -/
def reading (xs : List Lexeme) : Reading :=
  xs.flatMap fun x => Reading.ofText x.kind.role x.text

@[simp] theorem reading_nil : reading [] = [] := rfl

@[simp] theorem reading_cons (x : Lexeme) (xs : List Lexeme) :
    reading (x :: xs) = Reading.ofText x.kind.role x.text ++ reading xs := rfl

@[simp] theorem reading_append (xs ys : List Lexeme) :
    reading (xs ++ ys) = reading xs ++ reading ys := by
  simp [reading]

@[simp] theorem reading_ofText (k : Kind) (t : Text) :
    reading (ofText k t) = Reading.ofText k.role t := by
  cases t with
  | nil => rfl
  | cons c rest => simp [ofText]

@[simp] theorem text_reading (xs : List Lexeme) : (reading xs).text = spell xs := by
  induction xs with
  | nil => rfl
  | cons x rest ih => simp [ih]

theorem reading_join (xs : List Lexeme) : reading (join xs) = reading xs := by
  induction xs with
  | nil => rfl
  | cons x rest ih =>
      rw [join, reading_cons, ← ih]
      split
      · rename_i hnil
        simp [hnil]
      · rename_i y joined hcons
        rw [hcons]
        split
        · rename_i hsame
          have hkind : x.kind = y.kind := by simpa using (Bool.and_eq_true_iff.mp hsame).2
          simp [hkind]
        · rfl

theorem reading_place (start : Nat × Nat) (xs : List Lexeme) :
    Token.reading (place start xs) = reading xs := by
  induction xs generalizing start with
  | nil => rfl
  | cons x rest ih => simp [place, ih]

/-- The lexeme is no part of an escape, and if it is a quote of a string it spells one. -/
structure Plain (x : Lexeme) : Prop where
  unescaped : x.kind ≠ .escape ∧ x.kind ≠ .escapedLiteral
  quote : x.kind = .stringDquoteBegin ∨ x.kind = .stringDquoteEnd → x.text = ['"']

theorem plain_of_isInert {x : Lexeme} (h : x.kind.isInert = true) : x.Plain := by
  have hkinds : ∀ k : Kind, k.isInert = true → (k ≠ .escape ∧ k ≠ .escapedLiteral) ∧
      ¬ (k = .stringDquoteBegin ∨ k = .stringDquoteEnd) := by
    intro k
    cases k <;> decide
  exact ⟨(hkinds _ h).1, fun hquote => absurd hquote (hkinds _ h).2⟩

theorem plain_of_word {x : Lexeme} (h : x.kind.role = .word) : x.Plain := by
  have hkinds : ∀ k : Kind, k.role = .word → (k ≠ .escape ∧ k ≠ .escapedLiteral) ∧
      ¬ (k = .stringDquoteBegin ∨ k = .stringDquoteEnd) := by
    intro k
    cases k <;> decide
  exact ⟨(hkinds _ h).1, fun hquote => absurd hquote (hkinds _ h).2⟩

/-- A property of lexemes that does not depend on the texts of pieced ones outlasts joining. -/
theorem forall_join {P : Lexeme → Prop} (hpieced : ∀ k s, isPieced k = true → P ⟨k, s⟩)
    {xs : List Lexeme} (h : ∀ x ∈ xs, P x) : ∀ x ∈ join xs, P x := by
  induction xs with
  | nil => exact h
  | cons x rest ih =>
      have hx := h x (by simp)
      have hrest := ih fun y hy => h y (by simp [hy])
      rw [join]
      split
      · intro y hy
        rw [List.mem_singleton.mp hy]
        exact hx
      · rename_i y joined hcons
        rw [hcons] at hrest
        split
        · rename_i hsame
          intro z hz
          rcases List.mem_cons.mp hz with rfl | hz
          · exact hpieced _ _ (Bool.and_eq_true_iff.mp hsame).1
          · exact hrest z (by simp [hz])
        · intro z hz
          rcases List.mem_cons.mp hz with rfl | hz
          · exact hx
          · exact hrest z hz

theorem role_of_inert {xs : List Lexeme} (h : ∀ x ∈ xs, x.kind.isInert = true) :
    ∀ y ∈ reading xs, y.1 = .other := by
  intro y hy
  obtain ⟨x, hx, hyx⟩ := List.mem_flatMap.mp hy
  rw [role_of_mem_ofText hyx, Kind.role_of_isInert (h x hx)]

end Lexeme

namespace Lexer

open Lexeme

/-- The roles of the characters of a text, read from the given mode on. -/
def reading (mode : Mode) (t : Text) : Reading :=
  Lexeme.reading (pieces mode t)

@[simp] theorem text_reading (mode : Mode) (t : Text) : (reading mode t).text = t := by
  rw [reading, Lexeme.text_reading, (covers_pieces mode t).spelled]

@[simp] theorem reading_nil (mode : Mode) : reading mode [] = [] := by
  rw [reading, pieces_eq]
  rfl

theorem reading_eq_nil {mode : Mode} {t : Text} : reading mode t = [] ↔ t = [] := by
  constructor
  · intro hnil
    rw [← text_reading mode t, hnil]
    rfl
  · rintro rfl
    exact reading_nil mode

theorem reading_of_next? {t rest : Text} {chunk : Chunk} (h : Chunk.next? t = some (chunk, rest))
    (mode : Mode) : reading mode t = Lexeme.reading (step mode chunk rest).out ++
      reading (step mode chunk rest).mode (step mode chunk rest).rest := by
  rw [reading, pieces_eq, h]
  exact Lexeme.reading_append _ _

theorem reading_append {mode : Mode} {t rest v : Text} {chunk : Chunk}
    (h : Chunk.next? t = some (chunk, rest)) (hcaret : '^' ∉ t)
    (hv : Front (step mode chunk rest).rest v) :
    reading mode (spell (step mode chunk rest).out ++ v) =
      Lexeme.reading (step mode chunk rest).out ++ reading (step mode chunk rest).mode v := by
  rw [reading, pieces_append h hcaret hv]
  exact Lexeme.reading_append _ _

/-! ### What a step can be -/

/-- The step `s` reads a part of a run of words and strings.  If it leaves a string open, the text
has ended. -/
structure ReadsPart (mode : Mode) (s : Step) : Prop where
  strings : mode = .command ∨ mode = .value
  stay : s.mode = mode
  plain : ∀ x ∈ s.out, x.Plain
  glued : ∀ x ∈ Lexeme.reading s.out, isGlued x = true
  content : '"' ∉ (Lexeme.reading s.out).content
  ended : openAfter false (Lexeme.reading s.out) = true → s.rest = []

/-- What the step `s` reads, where it starts with `chunk`. -/
inductive Outcome (mode : Mode) (chunk : Chunk) (s : Step) : Prop
  /-- Nothing that cleaning looks at. -/
  | inert (h : ∀ x ∈ s.out, x.kind.isInert = true)
  /-- A word or a part of one, or a string. -/
  | part (h : ReadsPart mode s)
  /-- A separator, after which the run may go on with an equals sign.  A space in the place of the
  separator would be read as one. -/
  | gap (blank : Text) (others : List Lexeme) (hblank : blank ≠ [])
      (hchunk : chunk = .delimiter (blank ++ spell others))
      (hout : s.out = ⟨.delimiter, blank⟩ :: others)
      (hothers : ∀ x ∈ others, x.kind.isInert = true)
      (hspace : ∀ w, step mode (.delimiter (' ' :: spell others)) w =
        ⟨⟨.delimiter, [' ']⟩ :: others, s.mode, w⟩)

theorem readsPart_word {k : Kind} (hk : k.role = .word) {run : Text} (hquote : '"' ∉ run)
    (rest : Text) : ReadsPart .command ⟨[⟨k, run⟩], .command, rest⟩ := by
  have hread : Lexeme.reading [⟨k, run⟩] = Reading.ofText .word run := by simp [hk]
  refine ⟨Or.inl rfl, rfl, ?_, ?_, ?_, ?_⟩
  · intro x hx
    rw [List.mem_singleton.mp hx]
    exact plain_of_word hk
  · intro x hx
    rw [hread] at hx
    rw [isGlued, role_of_mem_ofText hx]
    rfl
  · rw [hread, content_ofText]
    exact hquote
  · rw [hread, openAfter_of_not_quote false fun x hx => by simp [role_of_mem_ofText hx]]
    exact fun h => absurd h Bool.false_ne_true

/-- The lexemes of a string. -/
def stringLexemes (body : Text) (isOpen : Bool) : List Lexeme :=
  ⟨.stringDquoteBegin, ['"']⟩ :: (ofText .stringDquoteChar body ++
    if isOpen then [] else [⟨.stringDquoteEnd, ['"']⟩])

theorem reading_stringLexemes (body : Text) (isOpen : Bool) :
    Lexeme.reading (stringLexemes body isOpen) = ofString body isOpen := by
  rw [stringLexemes, Lexeme.reading_cons, Lexeme.reading_append, Lexeme.reading_ofText]
  cases isOpen <;> rfl

/-- Where a string opens, it is read up to its closing quote or to the end of the text. -/
theorem step_string {mode : Mode} (hmode : mode = .command ∨ mode = .value) {body : Text}
    (hbody : '"' ∉ body) {isOpen : Bool} {rest : Text} (hend : isOpen = true → rest = []) :
    step mode .doubleQuote (body ++ (if isOpen then [] else ['"']) ++ rest) =
      ⟨stringLexemes body isOpen, mode, rest⟩ := by
  have hstep : ∀ w, step mode .doubleQuote w =
      ⟨⟨.stringDquoteBegin, ['"']⟩ :: (doubleQuoted w).1, mode, (doubleQuoted w).2⟩ := by
    intro w
    rcases hmode with rfl | rfl <;> rfl
  rw [hstep, doubleQuoted_eq]
  cases isOpen with
  | false =>
      have hsplit : (body ++ if false = true then [] else ['"']) ++ rest = body ++ '"' :: rest := by
        simp
      rw [hsplit, upToQuote_closed hbody]
      rfl
  | true =>
      rw [hend rfl, if_pos rfl, List.append_nil, List.append_nil, upToQuote_open hbody]
      simp [stringLexemes]

theorem readsPart_string {mode : Mode} (hmode : mode = .command ∨ mode = .value) {body : Text}
    (hbody : '"' ∉ body) {isOpen : Bool} {rest : Text} (hend : isOpen = true → rest = []) :
    ReadsPart mode ⟨stringLexemes body isOpen, mode, rest⟩ := by
  refine ⟨hmode, rfl, ?_, ?_, ?_, ?_⟩
  · intro x hx
    rcases List.mem_cons.mp hx with rfl | hx
    · exact ⟨by simp, fun _ => rfl⟩
    rcases List.mem_append.mp hx with hx | hx
    · have hkind := kind_of_mem_ofText hx
      exact ⟨by simp [hkind], by simp [hkind]⟩
    · split at hx
      · simp at hx
      · rw [List.mem_singleton.mp hx]
        exact ⟨by simp, fun _ => rfl⟩
  · rw [reading_stringLexemes]
    exact isGlued_of_mem_ofString
  · rw [reading_stringLexemes, content_ofString]
    exact hbody
  · rw [reading_stringLexemes, openAfter_ofString]
    exact hend

theorem outcome_string {mode : Mode} (hmode : mode = .command ∨ mode = .value) (rest : Text) :
    Outcome mode .doubleQuote (step mode .doubleQuote rest) := by
  by_cases h : '"' ∈ rest
  · obtain ⟨body, after, rfl, hbody⟩ := List.eq_append_cons_of_mem h
    have hend : false = true → after = [] := by simp
    have hstep := step_string hmode hbody hend
    rw [if_neg Bool.false_ne_true, List.append_assoc] at hstep
    rw [show body ++ '"' :: after = body ++ (['"'] ++ after) from rfl, hstep]
    exact .part (readsPart_string hmode hbody hend)
  · have hend : true = true → ([] : Text) = [] := fun _ => rfl
    have hstep := step_string hmode h hend
    rw [if_pos rfl, List.append_nil, List.append_nil] at hstep
    rw [hstep]
    exact .part (readsPart_string hmode h hend)

theorem Outcome.single {mode : Mode} {chunk : Chunk} {k : Kind} (hk : k.isInert = true) (t : Text)
    (next : Mode) (rest : Text) : Outcome mode chunk ⟨[⟨k, t⟩], next, rest⟩ := by
  refine .inert fun x hx => ?_
  rw [List.mem_singleton.mp hx]
  exact hk

theorem SingleQuoted.isInert {t after : Text} {out : List Lexeme} (h : SingleQuoted t out after)
    (hcaret : '^' ∉ t) : ∀ x ∈ out, x.kind.isInert = true := by
  induction h with
  | close => exact List.forall_mem_singleton.mpr rfl
  | escape => exact absurd (by simp) hcaret
  | char _ _ _ ih =>
      exact List.forall_mem_cons.mpr ⟨rfl, ih fun hmem => hcaret (List.mem_cons_of_mem _ hmem)⟩

theorem outcome_command {chunk : Chunk} (hchunk : chunk.WellFormed) {rest : Text}
    (hcaret : '^' ∉ chunk.text ++ rest) : Outcome .command chunk (command chunk rest) := by
  cases chunk with
  | escape c => exact absurd (by simp [Chunk.text]) hcaret
  | caret => exact absurd (by simp [Chunk.text]) hcaret
  | doubleQuote => exact outcome_string (Or.inl rfl) rest
  | singleQuote =>
      have hcaret' : '^' ∉ rest := fun hmem => hcaret (by simp [hmem])
      cases hread : singleQuoted? rest with
      | some parts =>
          obtain ⟨out, after⟩ := parts
          rw [command_singleQuote_some hread]
          refine .inert fun x hx => ?_
          rcases List.mem_cons.mp hx with rfl | hx
          · rfl
          · exact (singleQuoted_of_some hread).isInert hcaret' x hx
      | none =>
          rw [command_singleQuote_none hread]
          exact .part (readsPart_word rfl (by simp) rest)
  | delimiter run =>
      by_cases hequals : run = ['=', '=']
      · subst hequals
        exact .single (show Kind.doubleEquals.isInert = true from rfl) _ _ _
      · have hkind : (Chunk.delimiter run).kind = .delimiter := if_neg hequals
        rw [command_delimiter hkind]
        exact .gap run [] hchunk.1 (by simp) rfl (by simp) fun w => command_delimiter rfl w
  | word run =>
      have hquote : '"' ∉ run := fun hmem => absurd (hchunk.2 _ hmem) (by decide)
      rcases Chunk.kind_word run with hset | hword
      · rw [command_setWord hset]
        exact .single rfl run .lead rest
      · have hset : (Chunk.word run).kind ≠ .setWord := by
          intro hset
          rw [hset] at hword
          exact absurd hword (by decide)
        rw [command_word hset]
        exact .part (readsPart_word hword hquote rest)
  | lParen => exact .single (show Kind.lParen.isInert = true from rfl) _ _ _
  | rParen => exact .single (show Kind.rParen.isInert = true from rfl) _ _ _
  | operator kind spelling => exact .single (Kind.isInert_of_operator hchunk.1) spelling _ rest

theorem outcome_assign (run rest : Text) (hrun : run ≠ []) :
    Outcome .lead (.delimiter run) (assign .delimiter .lead run rest) := by
  cases hsplit : Text.splitFirst (· = '=') run with
  | none =>
      have hstep : assign .delimiter .lead run rest = ⟨[⟨.delimiter, run⟩], .lead, rest⟩ := by
        simp [assign, hsplit]
      rw [hstep]
      exact .gap run [] hrun (by simp) rfl (by simp) fun _ => rfl
  | some parts =>
      obtain ⟨name, value⟩ := parts
      obtain ⟨c, hc, -, rfl⟩ := Text.splitFirst_eq_some hsplit
      have hequals : c = '=' := by simpa using hc
      subst hequals
      have hstep : assign .delimiter .lead (name ++ '=' :: value) rest =
          ⟨ofText .delimiter name ++ ⟨.setAssignment, ['=']⟩ :: ofText .setValue value, .value,
            rest⟩ := by
        simp [assign, hsplit]
      have hothers : ∀ x ∈ (⟨.setAssignment, ['=']⟩ :: ofText .setValue value : List Lexeme),
          x.kind.isInert = true :=
        forall_kind_assignment (p := (·.isInert = true)) (show Kind.setName.isInert = true from rfl)
          rfl rfl [] value
      have hspell : spell (⟨.setAssignment, ['=']⟩ :: ofText .setValue value) = '=' :: value := by
        rw [spell_cons, (Covers.ofText (by simp) value).spelled]
        rfl
      rw [hstep]
      cases name with
      | nil => exact .inert hothers
      | cons d name =>
          refine .gap (d :: name) (⟨.setAssignment, ['=']⟩ :: ofText .setValue value) (by simp) ?_
            rfl hothers ?_
          · rw [hspell]
          · intro w
            rw [hspell]
            rfl

theorem isInert_quotedSet (t : Text) : ∀ x ∈ (quotedSet t).1, x.kind.isInert = true :=
  forall_kind_quotedSet (p := (·.isInert = true)) rfl rfl rfl rfl t

theorem outcome_step (mode : Mode) {chunk : Chunk} (hchunk : chunk.WellFormed) {rest : Text}
    (hcaret : '^' ∉ chunk.text ++ rest) : Outcome mode chunk (step mode chunk rest) := by
  have hname : Kind.setName.isInert = true := rfl
  have hvalue : Kind.setValue.isInert = true := rfl
  cases mode with
  | command => exact outcome_command hchunk hcaret
  | lead =>
      cases chunk with
      | escape c => exact absurd (by simp [Chunk.text]) hcaret
      | caret => exact absurd (by simp [Chunk.text]) hcaret
      | delimiter run => exact outcome_assign run rest hchunk.1
      | doubleQuote =>
          refine .inert fun x hx => ?_
          rcases List.mem_cons.mp hx with rfl | hx
          · rfl
          · exact isInert_quotedSet rest x hx
      | lParen => exact .single (show Kind.lParen.isInert = true from rfl) _ _ _
      | rParen => exact .single (show Kind.rParen.isInert = true from rfl) _ _ _
      | operator kind spelling => exact .single (Kind.isInert_of_operator hchunk.1) _ _ _
      | singleQuote => exact .single hname _ _ _
      | word run => exact .single hname _ _ _
  | name =>
      cases chunk with
      | escape c => exact absurd (by simp [Chunk.text]) hcaret
      | caret => exact absurd (by simp [Chunk.text]) hcaret
      | delimiter run =>
          exact .inert
            (forall_kind_assign (p := (·.isInert = true)) hname rfl hvalue .name run rest)
      | operator kind spelling => exact .single (Kind.isInert_of_operator hchunk.1) _ _ _
      | _ => exact .single hname _ _ _
  | value =>
      cases chunk with
      | escape c => exact absurd (by simp [Chunk.text]) hcaret
      | caret => exact absurd (by simp [Chunk.text]) hcaret
      | doubleQuote => exact outcome_string (Or.inr rfl) rest
      | rParen => exact .single (show Kind.rParen.isInert = true from rfl) _ _ _
      | operator kind spelling => exact .single (Kind.isInert_of_operator hchunk.1) _ _ _
      | _ => exact .single hvalue _ _ _

section

variable {t rest : Text} {chunk : Chunk}

theorem outcome_of_next? (h : Chunk.next? t = some (chunk, rest)) (hcaret : '^' ∉ t) (mode : Mode) :
    Outcome mode chunk (step mode chunk rest) := by
  refine outcome_step mode (Chunk.wellFormed_of_next? h) ?_
  rwa [Chunk.text_append_of_next? h]

/-- What a step reads and what it leaves are the text. -/
theorem spell_append_rest (h : Chunk.next? t = some (chunk, rest)) (mode : Mode) :
    spell (step mode chunk rest).out ++ (step mode chunk rest).rest = t := by
  obtain ⟨taken, htaken, heq⟩ := reads_step mode (Chunk.wellFormed_of_next? h) rest
  rw [htaken.spelled, heq, Chunk.text_append_of_next? h]

theorem length_rest_lt (h : Chunk.next? t = some (chunk, rest)) (mode : Mode) :
    (step mode chunk rest).rest.length < t.length :=
  Nat.lt_of_le_of_lt (length_step mode chunk rest) (Chunk.length_lt_of_next? h)

theorem reading_out_ne_nil (h : Chunk.next? t = some (chunk, rest)) (mode : Mode) :
    Lexeme.reading (step mode chunk rest).out ≠ [] := by
  intro hnil
  have hspell : spell (step mode chunk rest).out = [] := by rw [← Lexeme.text_reading, hnil]; rfl
  have hlength := length_rest_lt h mode
  have happ := spell_append_rest h mode
  rw [hspell, List.nil_append] at happ
  rw [happ] at hlength
  exact Nat.lt_irrefl _ hlength

theorem not_mem_rest (h : Chunk.next? t = some (chunk, rest)) (mode : Mode) {c : Char}
    (hc : c ∉ t) : c ∉ (step mode chunk rest).rest :=
  fun hmem => hc (by rw [← spell_append_rest h mode]; exact List.mem_append_right _ hmem)

end

/-! ### Tokens without carets -/

theorem Outcome.plain {mode : Mode} {chunk : Chunk} {s : Step} (h : Outcome mode chunk s) :
    ∀ x ∈ s.out, x.Plain := by
  cases h with
  | inert h => exact fun x hx => plain_of_isInert (h x hx)
  | part h => exact h.plain
  | gap blank others hblank hchunk hout hothers hspace =>
      rw [hout]
      intro x hx
      rcases List.mem_cons.mp hx with rfl | hx
      · exact ⟨by simp, by simp⟩
      · exact plain_of_isInert (hothers x hx)

theorem plain_pieces (mode : Mode) {t : Text} (hcaret : '^' ∉ t) :
    ∀ x ∈ pieces mode t, x.Plain := by
  fun_induction pieces mode t with
  | case1 mode t h => simp
  | case2 mode t chunk rest h s ih =>
      intro x hx
      rcases List.mem_append.mp hx with hx | hx
      · exact (outcome_of_next? h hcaret mode).plain x hx
      · exact ih (not_mem_rest h mode hcaret) x hx

end Lexer

namespace Token

theorem reading_tokenize (t : Text) : reading (tokenize t) = Lexer.reading .command t := by
  rw [tokenize, Lexeme.reading_place, Lexer.lexemes, Lexeme.reading_join]
  rfl

theorem plain_lexemes {t : Text} (hcaret : '^' ∉ t) : ∀ x ∈ Lexer.lexemes t, x.Plain := by
  refine Lexeme.forall_join ?_ (Lexer.plain_pieces .command hcaret)
  intro k s hk
  exact Lexeme.plain_of_isInert (Kind.isInert_of_isPieced hk)

theorem unescaped_tokenize {t : Text} (hcaret : '^' ∉ t) : Unescaped (tokenize t) := by
  intro tok htok
  obtain ⟨x, hx, hkind, -⟩ := Lexeme.exists_of_mem_place htok
  rw [← hkind]
  exact (plain_lexemes hcaret x hx).unescaped

theorem plain_tokenize {t : Text} (hcaret : '^' ∉ t) : ∀ tok ∈ tokenize t, tok.Plain := by
  intro tok htok
  obtain ⟨x, hx, hkind, htext⟩ := Lexeme.exists_of_mem_place htok
  refine ⟨?_, ?_⟩
  · rw [← htext]
    exact (Lexer.covers_lexemes t).nonempty x hx
  · rw [← htext, ← hkind]
    exact (plain_lexemes hcaret x hx).quote

end Token

end BatchTrace
