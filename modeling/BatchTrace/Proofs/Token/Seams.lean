/-
Where a line can be cut before it is read.

Without quotes and carets a chunk never reaches over an ampersand, unless it ends in a
character that takes the ampersand in: another ampersand, or the sign of a redirection.
An ampersand ends whatever assignment is being read, so after it the reader expects a
command again, as at the start of a line.  The lexemes of `a & b` are thus those of `a`,
the ampersand, and those of `b`, and its blocks are the blocks of `a` and of `b`.
-/
import BatchTrace.Proofs.Token.Lookahead
import BatchTrace.Proofs.Token.Placement

namespace BatchTrace

/-- Neither a quote nor a caret stands in a text. -/
def Quiet (t : Text) : Prop :=
  ∀ c ∈ t, c ≠ '"' ∧ c ≠ '\'' ∧ c ≠ '^'

/-- An ampersand after this text is not taken in by what stands before it. -/
def Closed (t : Text) : Prop :=
  ∀ c ∈ t.getLast?, c ≠ '&' ∧ c ≠ '>'

namespace Quiet

variable {s t : Text}

theorem of_append_right (h : Quiet (s ++ t)) : Quiet t :=
  fun c hc => h c (List.mem_append_right s hc)

theorem not_mem_caret (h : Quiet t) : '^' ∉ t := fun hmem => (h _ hmem).2.2 rfl

end Quiet

theorem Closed.of_append {s t : Text} (h : Closed (s ++ t)) : Closed t := by
  intro c hc
  exact h c (by simp [List.getLast?_append, Option.mem_def.mp hc])

/-! ### Chunks -/

namespace Chunk

section

variable {run v : Text} (hne : run ≠ [])
include hne

/-- A run of ordinary characters is a word, unless it may be the handle of a redirection. -/
theorem next?_word_append (hrun : ∀ c ∈ run, isOrdinary c = true)
    (hend : ∀ c ∈ v.head?, isOrdinary c = false) (hgt : '>' ∉ v.head?) :
    next? (run ++ v) = some (word run, v) := by
  obtain ⟨c, more, rfl⟩ := List.exists_cons_of_ne_nil hne
  have hmore : ∀ d ∈ more, isOrdinary d = true := fun d hd => hrun d (by simp [hd])
  have hc : isDelimiter c = false ∧ isSpecial c = false := by
    have hordinary := hrun c (by simp)
    simpa [isOrdinary] using hordinary
  rw [List.cons_append, next?_of_not_special _ hc.2, if_neg (by simp [hc.1])]
  have hafter : '>' ∉ (more ++ v).head? := by
    cases more with
    | nil => exact hgt
    | cons d more =>
        intro hmem
        have hd := hmore d (by simp)
        rw [show d = '>' by simpa using hmem] at hd
        exact absurd hd (by decide)
  rw [handle_word_append hafter, takeWhile_run hmore hend, dropWhile_run hmore hend, ite_self]

/-- A run of separators is a chunk up to the next other character. -/
theorem next?_delimiter_append (hrun : ∀ c ∈ run, isDelimiter c = true)
    (hend : ∀ c ∈ v.head?, isDelimiter c = false) :
    next? (run ++ v) = some (delimiter run, v) := by
  obtain ⟨c, more, rfl⟩ := List.exists_cons_of_ne_nil hne
  have hmore : ∀ d ∈ more, isDelimiter d = true := fun d hd => hrun d (by simp [hd])
  have hc : isDelimiter c = true := hrun c (by simp)
  rw [List.cons_append, next?_of_not_special _ (isSpecial_of_isDelimiter hc), if_pos hc,
    takeWhile_run hmore hend, dropWhile_run hmore hend]

end

/-- What holds of literals and of every reserved word holds of all words. -/
theorem forall_kind_word {p : Kind → Bool}
    (h : ((Kind.literal :: reservedWords.map Prod.snd).all p) = true) (run : Text) :
    p (word run).kind = true := by
  rw [List.all_cons, Bool.and_eq_true, List.all_eq_true] at h
  show p ((reserved? run).getD .literal) = true
  cases hr : reserved? run with
  | none => exact h.1
  | some k =>
      rw [reserved?, List.lookup_eq_some_iff] at hr
      obtain ⟨before, after, heq, -⟩ := hr
      refine h.2 k (List.mem_map_of_mem (f := Prod.snd) (a := (run.map foldLetter, k)) ?_)
      rw [heq]
      simp

variable {b : Text}

theorem handle_ampersand {c : Char} {u : Text} {chunk : Chunk}
    (h : handle c u = some (chunk, [])) (hclosed : Closed (c :: u)) :
    handle c (u ++ '&' :: b) = some (chunk, '&' :: b) := by
  by_cases hgt : '>' ∈ u.head?
  · obtain ⟨after, rfl⟩ := List.head?_eq_some_iff.mp hgt
    by_cases hhandle : ∀ d more, after = '&' :: d :: more → d.isDigit = false
    · rw [handle_redirection_append hhandle] at h
      obtain ⟨-, rfl⟩ := Prod.mk.inj (Option.some.inj h)
      exact absurd rfl (hclosed '>' rfl).2
    · push Not at hhandle
      obtain ⟨d, more, rfl, hd⟩ := hhandle
      have hdigit : d.isDigit = true := by simpa using hd
      have hread : ∀ w : Text, handle c ('>' :: '&' :: d :: w) =
          some (operator .redirectStderrStdout [c, '>', '&', d], w) := fun w => if_pos hdigit
      rw [hread] at h
      obtain ⟨rfl, rfl⟩ := Prod.mk.inj (Option.some.inj h)
      exact hread ('&' :: b)
  · rw [handle_word_append hgt] at h
    obtain ⟨rfl, hnil⟩ := Prod.mk.inj (Option.some.inj h)
    have hall := List.dropWhile_eq_nil_iff.mp hnil
    have hafter : '>' ∉ (u ++ '&' :: b).head? := by
      cases u with
      | nil => simp
      | cons d more => exact hgt
    rw [handle_word_append hafter, takeWhile_run hall (by simp; decide),
      dropWhile_run hall (by simp; decide), List.takeWhile_eq_self_iff.mpr hall]

theorem next?_special_ampersand {c : Char} {u : Text} {chunk : Chunk} (hc : isSpecial c = true)
    (h : next? (c :: u) = some (chunk, [])) (hquiet : Quiet (c :: u)) (hclosed : Closed (c :: u)) :
    next? (c :: u ++ '&' :: b) = some (chunk, '&' :: b) := by
  simp only [isSpecial, Bool.or_eq_true, decide_eq_true_eq] at hc
  rcases hc with (((((((rfl | rfl) | rfl) | rfl) | rfl) | rfl) | rfl) | rfl) | rfl
  · exact absurd rfl (hquiet '^' (by simp)).2.2
  · exact absurd rfl (hquiet '"' (by simp)).1
  · exact absurd rfl (hquiet '\'' (by simp)).2.1
  · obtain ⟨rfl, rfl⟩ := Prod.mk.inj (Option.some.inj h)
    rfl
  · obtain ⟨rfl, rfl⟩ := Prod.mk.inj (Option.some.inj h)
    rfl
  · by_cases hamp : '&' ∈ u.head?
    · obtain ⟨after, rfl⟩ := List.head?_eq_some_iff.mp hamp
      obtain ⟨rfl, rfl⟩ := Prod.mk.inj (Option.some.inj h)
      rfl
    · rw [next?_ampersand_append hamp] at h
      obtain ⟨-, rfl⟩ := Prod.mk.inj (Option.some.inj h)
      exact absurd rfl (hclosed '&' rfl).1
  · by_cases hpipe : '|' ∈ u.head?
    · obtain ⟨after, rfl⟩ := List.head?_eq_some_iff.mp hpipe
      obtain ⟨rfl, rfl⟩ := Prod.mk.inj (Option.some.inj h)
      rfl
    · rw [next?_pipe_append hpipe] at h
      obtain ⟨rfl, rfl⟩ := Prod.mk.inj (Option.some.inj h)
      rfl
  · obtain ⟨rfl, rfl⟩ := Prod.mk.inj (Option.some.inj h)
    rfl
  · by_cases hgt : '>' ∈ u.head?
    · obtain ⟨after, rfl⟩ := List.head?_eq_some_iff.mp hgt
      obtain ⟨rfl, rfl⟩ := Prod.mk.inj (Option.some.inj h)
      rfl
    by_cases hhandle : ∀ d more, u = '&' :: d :: more → d.isDigit = false
    · rw [next?_redirection_append hgt hhandle] at h
      obtain ⟨-, rfl⟩ := Prod.mk.inj (Option.some.inj h)
      exact absurd rfl (hclosed '>' rfl).2
    · push Not at hhandle
      obtain ⟨d, more, rfl, hd⟩ := hhandle
      have hdigit : d.isDigit = true := by simpa using hd
      have hread : ∀ w : Text, next? ('>' :: '&' :: d :: w) =
          some (operator .redirectStderrStdout ['>', '&', d], w) := fun w => if_pos hdigit
      rw [hread] at h
      obtain ⟨rfl, rfl⟩ := Prod.mk.inj (Option.some.inj h)
      exact hread ('&' :: b)

theorem next?_run_ampersand {c : Char} {u : Text} {chunk : Chunk} (hc : isSpecial c = false)
    (h : next? (c :: u) = some (chunk, [])) (hclosed : Closed (c :: u)) :
    next? (c :: u ++ '&' :: b) = some (chunk, '&' :: b) := by
  have htext : chunk.text = c :: u := by simpa using text_append_of_next? h
  have hformed := wellFormed_of_next? h
  rw [next?_of_not_special _ hc] at h
  by_cases hdelimiter : isDelimiter c = true
  · rw [if_pos hdelimiter] at h
    obtain ⟨rfl, -⟩ := Prod.mk.inj (Option.some.inj h)
    rw [← htext]
    exact next?_delimiter_append hformed.1 hformed.2 (by simp; decide)
  rw [if_neg hdelimiter] at h
  by_cases hdigit : c.isDigit = true
  · rw [if_pos hdigit] at h
    rw [List.cons_append, next?_of_not_special _ hc, if_neg hdelimiter, if_pos hdigit,
      handle_ampersand h hclosed]
  · rw [if_neg hdigit] at h
    obtain ⟨rfl, -⟩ := Prod.mk.inj (Option.some.inj h)
    rw [← htext]
    exact next?_word_append hformed.1 hformed.2 (by simp; decide) (by simp)

/-- Chunks are read in the same way before an ampersand that stands apart. -/
theorem next?_ampersand_after {t rest : Text} {chunk : Chunk} (h : next? t = some (chunk, rest))
    (hquiet : Quiet t) (hclosed : Closed t) :
    next? (t ++ '&' :: b) = some (chunk, rest ++ '&' :: b) := by
  rcases t with _ | ⟨c, u⟩
  · exact absurd h (by simp [show next? [] = none from rfl])
  by_cases hrest : rest = []
  · subst hrest
    cases hc : isSpecial c with
    | true => exact next?_special_ampersand hc h hquiet hclosed
    | false => exact next?_run_ampersand hc h hclosed
  · have htext := text_append_of_next? h
    have hfront : Outlook rest (rest ++ '&' :: b) := by
      refine ⟨?_, ?_⟩
      · intro d hd
        exact Or.inl (by rwa [List.head?_append_of_ne_nil _ hrest] at hd)
      · -- A lone ampersand at the end of `rest` would be followed by another one, not by a digit.
        intro d more heq hd
        rcases rest with _ | ⟨e, _ | ⟨f, rest⟩⟩
        · exact absurd rfl hrest
        · obtain ⟨-, hsame⟩ := List.cons.inj heq
          rw [← (List.cons.inj hsame).1] at hd
          exact absurd hd (by decide)
        · obtain ⟨rfl, hsame⟩ := List.cons.inj heq
          exact ⟨rest, by rw [(List.cons.inj hsame).1]⟩
    rw [← htext, List.append_assoc]
    exact next?_append h hquiet.not_mem_caret hfront

end Chunk

/-! ### Steps -/

namespace Lexer

open Lexeme

theorem exists_assign_eq (before : Kind) (stay : Mode) (run : Text) :
    ∃ out after, ∀ w, assign before stay run w = ⟨out, after, w⟩ := by
  unfold assign
  cases Text.splitFirst (· = '=') run with
  | none => exact ⟨_, _, fun _ => rfl⟩
  | some parts => exact ⟨_, _, fun _ => rfl⟩

/-- Only quotes make a step look at what follows its chunk. -/
theorem exists_step_eq (mode : Mode) {t rest : Text} {chunk : Chunk}
    (h : Chunk.next? t = some (chunk, rest)) (hquiet : Quiet t) :
    ∃ out after, ∀ w, step mode chunk w = ⟨out, after, w⟩ := by
  have hmem : ∀ c ∈ chunk.text, c ≠ '"' ∧ c ≠ '\'' ∧ c ≠ '^' := by
    intro c hc
    exact hquiet c (by rw [← Chunk.text_append_of_next? h]; exact List.mem_append_left rest hc)
  cases chunk with
  | doubleQuote => exact absurd rfl (hmem '"' (by simp [Chunk.text])).1
  | singleQuote => exact absurd rfl (hmem '\'' (by simp [Chunk.text])).2.1
  | delimiter run =>
      cases mode with
      | command => exact ⟨_, _, fun _ => rfl⟩
      | lead => exact exists_assign_eq .delimiter .lead run
      | name => exact exists_assign_eq .setName .name run
      | value => exact ⟨_, _, fun _ => rfl⟩
  | _ => cases mode <;> exact ⟨_, _, fun _ => rfl⟩

/-- Reading over an ampersand that stands apart: it ends what was being read. -/
theorem pieces_ampersand (mode : Mode) {a b : Text} (ha : Quiet a) (hclosed : Closed a)
    (hfirst : '&' ∉ b.head?) :
    pieces mode (a ++ '&' :: b) =
      pieces mode a ++ ⟨.condAlways, ['&']⟩ :: pieces .command b := by
  fun_induction pieces mode a with
  | case1 mode t hnone =>
      rw [Chunk.eq_nil_of_next? hnone, List.nil_append, List.nil_append, pieces_eq,
        Chunk.next?_ampersand_append hfirst]
      cases mode <;> rfl
  | case2 mode t chunk rest hnext s ih =>
      have htext := Chunk.text_append_of_next? hnext
      obtain ⟨out, after, hstep⟩ := exists_step_eq mode hnext ha
      rw [← htext] at ha hclosed
      have hrest := ih
      simp only [s, hstep] at hrest
      rw [pieces_eq, ← htext, Chunk.next?_ampersand_after (htext ▸ hnext) ha hclosed]
      simp only [s, hstep]
      rw [hrest ha.of_append_right hclosed.of_append, List.append_assoc]

end Lexer

/-! ### Lexemes and blocks -/

namespace Lexeme

theorem isPieced_word (run : Text) : isPieced (Chunk.word run).kind = false := by
  have hnot := Chunk.forall_kind_word (p := fun k => !isPieced k) (by decide) run
  simpa using hnot

theorem join_cons {y : Lexeme} (h : isPieced y.kind = false) (ys : List Lexeme) :
    join (y :: ys) = y :: join ys := by
  rw [join]
  cases join ys with
  | nil => rfl
  | cons z joined => simp [h]

theorem join_append_cons (xs ys : List Lexeme) {y : Lexeme} (h : isPieced y.kind = false) :
    join (xs ++ y :: ys) = join xs ++ y :: join ys := by
  induction xs with
  | nil => exact join_cons h ys
  | cons x xs ih =>
      rw [List.cons_append, join, ih, join]
      cases join xs with
      | nil =>
          have hneq : (isPieced x.kind && x.kind == y.kind) = false := by
            by_cases hsame : x.kind = y.kind
            · simp [hsame, h]
            · simp [hsame]
          simp [hneq]
      | cons z joined =>
          rw [List.cons_append]
          dsimp only
          split <;> rfl

end Lexeme

theorem Lexer.lexemes_ampersand {a b : Text} (ha : Quiet a) (hclosed : Closed a)
    (hfirst : '&' ∉ b.head?) :
    lexemes (a ++ '&' :: b) = lexemes a ++ ⟨.condAlways, ['&']⟩ :: lexemes b := by
  rw [lexemes, pieces_ampersand .command ha hclosed hfirst, Lexeme.join_append_cons _ _ rfl,
    lexemes, lexemes]

/-- Without chain operators there is one block. -/
theorem Block.ofTokens_of_unchained {ts : List Token} (h : ∀ t ∈ ts, t.kind.isChain = false)
    (hne : ∃ t ∈ ts, t.kind ≠ .delimiter) : ofTokens ts = [ts] := by
  obtain ⟨t, ht, hkind⟩ := hne
  have hany : (ts.any fun t => decide (t.kind ≠ .delimiter)) = true :=
    List.any_eq_true.mpr ⟨t, ht, by simpa using hkind⟩
  rw [ofTokens, List.splitOnP_eq_singleton h, List.filter_singleton, hany, cond_true]

/-- The blocks of two commands with an ampersand between them are those of the one and, except for
their positions, those of the other. -/
theorem Block.ofTokens_ampersand {a b : Text} (ha : Quiet a) (hclosed : Closed a)
    (hfirst : '&' ∉ b.head?) :
    ∃ blocks, ofTokens (Token.tokenize (a ++ '&' :: b)) = ofTokens (Token.tokenize a) ++ blocks ∧
      List.Forall₂ Token.AllAlike blocks (ofTokens (Token.tokenize b)) := by
  let middle := Position.advance (Lexeme.spell (Lexer.lexemes a)) (1, 0)
  refine ⟨ofTokens (Lexeme.place (Position.advance ['&'] middle) (Lexer.lexemes b)), ?_,
    (Token.allAlike_place _ _ _).blocks⟩
  rw [Token.tokenize, Lexer.lexemes_ampersand ha hclosed hfirst, Lexeme.place_append,
    Lexeme.place, ofTokens, List.splitOnP_append_cons _ _ rfl, List.filter_append]
  rfl

/--
**An ampersand starts the reader anew.**  Neither a quote nor a caret stands in front of it, and
the ampersand is not taken in by what stands around it.  Then the tokens of the whole are those of
the text in front, the ampersand, and those that the text behind has on its own, whatever that
holds.  Only their positions differ.
-/
theorem Token.tokenize_ampersand (a b : Text) (ha : ∀ c ∈ a, c ∉ ['"', '\'', '^'])
    (hlast : a.getLast? ≠ some '&' ∧ a.getLast? ≠ some '>') (hfirst : b.head? ≠ some '&') :
    (tokenize (a ++ '&' :: b)).map lexeme =
      (tokenize a).map lexeme ++ ⟨.condAlways, ['&']⟩ :: (tokenize b).map lexeme := by
  have hquiet : Quiet a := fun c hc => by simpa using ha c hc
  have hclosed : Closed a := fun c hc =>
    ⟨fun heq => hlast.1 (heq ▸ hc), fun heq => hlast.2 (heq ▸ hc)⟩
  rw [map_lexeme_tokenize, map_lexeme_tokenize, map_lexeme_tokenize,
    Lexer.lexemes_ampersand hquiet hclosed hfirst]

/-- The text in front ends inside a value and with a digit, and the one behind begins with a
redirection and has all three marks in it, the last string of which stays open. -/
theorem Token.tokenize_ampersand_value :
    let a := "x|set n=(1".toList
    let b := ">&2 'it^'s' ^& \"y&z".toList
    ((∀ c ∈ a, c ∉ ['"', '\'', '^']) ∧ (a.getLast? ≠ some '&' ∧ a.getLast? ≠ some '>') ∧
      b.head? ≠ some '&') ∧
    (tokenize (a ++ '&' :: b)).map lexeme =
      (tokenize a).map lexeme ++ ⟨.condAlways, ['&']⟩ :: (tokenize b).map lexeme ∧
    ((tokenize b).map (·.kind)).take 6 = [.redirectStderrStdout, .delimiter, .stringSquoteBegin,
      .stringSquoteChar, .escape, .escapedLiteral] := by
  intro a b
  have ha : ∀ c ∈ a, c ∉ ['"', '\'', '^'] := by
    have hall : (a.all fun c => decide (c ∉ ['"', '\'', '^'])) = true := by decide
    intro c hc
    exact of_decide_eq_true (List.all_eq_true.mp hall c hc)
  exact ⟨⟨ha, by decide, by decide⟩, tokenize_ampersand a b ha (by decide) (by decide),
    by decide +kernel⟩

end BatchTrace
