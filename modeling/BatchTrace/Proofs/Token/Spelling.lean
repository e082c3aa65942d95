/-
The tokens of a text spell it.

`Covers xs t` is the invariant of the reader: the lexemes `xs` spell `t` without a
gap or an overlap, none of them is empty, and each of them has a kind that some
rule gives.  Every part of the reader takes a prefix of what is left and covers
exactly that prefix, which is `Reads`; so the lexemes of a text cover it by
induction on how much of it is left.  Joining pieces moves a text from one lexeme
to its neighbour and placing them adds positions only, so neither can lose
anything.
-/
import BatchTrace.Proofs.Text.Trimming
import BatchTrace.Token.Lexer
import Mathlib.Data.List.TakeWhile

namespace BatchTrace

section

variable {α : Type} {p : α → Bool} {run rest : List α}

theorem takeWhile_run (hrun : ∀ x ∈ run, p x = true) (hrest : ∀ x ∈ rest.head?, p x = false) :
    (run ++ rest).takeWhile p = run := by
  rw [List.takeWhile_append_of_pos hrun]
  cases rest with
  | nil => simp
  | cons x more => rw [List.takeWhile_cons_of_neg (by simp [hrest x rfl]), List.append_nil]

theorem dropWhile_run (hrun : ∀ x ∈ run, p x = true) (hrest : ∀ x ∈ rest.head?, p x = false) :
    (run ++ rest).dropWhile p = rest := by
  rw [List.dropWhile_append_of_pos hrun]
  cases rest with
  | nil => rfl
  | cons x more => rw [List.dropWhile_cons_of_neg (by simp [hrest x rfl])]

/-- The front of a list does not reach up to something that is not in it. -/
theorem exists_append_of_not_mem_left {a : α} {l m front : List α} (ha : a ∉ front)
    (h : l ++ a :: m = front ++ rest) : ∃ l', l = front ++ l' ∧ rest = l' ++ a :: m := by
  rcases List.append_eq_append_iff.mp h with ⟨as, rfl, hrest⟩ | ⟨bs, rfl, rfl⟩
  · cases as with
    | nil => exact ⟨[], by simp, hrest.symm⟩
    | cons b as =>
        obtain ⟨rfl, -⟩ := List.cons.inj hrest
        simp at ha
  · exact ⟨bs, rfl, rfl⟩

theorem exists_append_of_not_mem_right {a : α} {l m back : List α} (ha : a ∉ back)
    (h : l ++ a :: m = rest ++ back) : ∃ m', m = m' ++ back ∧ rest = l ++ a :: m' := by
  rcases List.append_eq_append_iff.mp h with ⟨as, rfl, hback⟩ | ⟨bs, rfl, rfl⟩
  · cases as with
    | nil =>
        rw [← List.nil_append back, ← hback] at ha
        simp at ha
    | cons b as =>
        obtain ⟨rfl, rfl⟩ := List.cons.inj hback
        exact ⟨as, rfl, rfl⟩
  · simp at ha

end

namespace Lexeme

/-- The text that a list of lexemes spells. -/
def spell (xs : List Lexeme) : Text :=
  xs.flatMap (·.text)

@[simp] theorem spell_nil : spell [] = [] := rfl

@[simp] theorem spell_cons (x : Lexeme) (xs : List Lexeme) :
    spell (x :: xs) = x.text ++ spell xs := rfl

@[simp] theorem spell_append (xs ys : List Lexeme) :
    spell (xs ++ ys) = spell xs ++ spell ys := by
  simp [spell]

/-- Joining keeps what the lexemes of some kinds spell, for it joins lexemes of one kind only. -/
theorem spell_filter_join {p : Kind → Bool} (xs : List Lexeme) :
    spell ((join xs).filter (p ·.kind)) = spell (xs.filter (p ·.kind)) := by
  induction xs with
  | nil => rfl
  | cons x rest ih =>
      rw [join, List.filter_cons]
      split
      · rename_i hnil
        rw [hnil] at ih
        split <;> simp_all
      · rename_i y joined hcons
        rw [hcons] at ih
        split
        · rename_i hsame
          have hkind : x.kind = y.kind := by simpa using (Bool.and_eq_true_iff.mp hsame).2
          cases hp : p y.kind <;> simp_all
        · rw [List.filter_cons]
          split <;> simp_all

theorem kind_of_mem_ofText {k : Kind} {t : Text} {x : Lexeme} (h : x ∈ ofText k t) :
    x.kind = k := by
  cases t with
  | nil => exact absurd h List.not_mem_nil
  | cons c rest => rw [List.mem_singleton.mp h]

/-- The lexemes `xs` are a reading of the whole of `t`. -/
structure Covers (xs : List Lexeme) (t : Text) : Prop where
  /-- No character of `t` is missing, doubled or out of order. -/
  spelled : spell xs = t
  /-- Every lexeme holds at least one character. -/
  nonempty : ∀ x ∈ xs, x.text ≠ []
  /-- Every lexeme was made by a rule of the reader. -/
  recognized : ∀ x ∈ xs, x.kind ≠ .unrecognized

namespace Covers

theorem nil : Covers [] [] :=
  ⟨rfl, by simp, by simp⟩

theorem singleton {k : Kind} {t : Text} (ht : t ≠ []) (hk : k ≠ .unrecognized) :
    Covers [⟨k, t⟩] t :=
  ⟨by simp, by simpa using ht, by simpa using hk⟩

theorem append {xs ys : List Lexeme} {s t : Text} (hx : Covers xs s) (hy : Covers ys t) :
    Covers (xs ++ ys) (s ++ t) := by
  refine ⟨by rw [spell_append, hx.spelled, hy.spelled], ?_, ?_⟩
  · intro x hmem
    rcases List.mem_append.mp hmem with h | h
    · exact hx.nonempty x h
    · exact hy.nonempty x h
  · intro x hmem
    rcases List.mem_append.mp hmem with h | h
    · exact hx.recognized x h
    · exact hy.recognized x h

theorem cons {k : Kind} {s t : Text} {xs : List Lexeme} (hs : s ≠ []) (hk : k ≠ .unrecognized)
    (h : Covers xs t) : Covers (⟨k, s⟩ :: xs) (s ++ t) :=
  (singleton hs hk).append h

theorem tail {x : Lexeme} {xs : List Lexeme} {t : Text} (h : Covers (x :: xs) t) :
    Covers xs (spell xs) :=
  ⟨rfl, fun y hy => h.nonempty y (by simp [hy]), fun y hy => h.recognized y (by simp [hy])⟩

theorem ofText {k : Kind} (hk : k ≠ .unrecognized) (t : Text) : Covers (ofText k t) t := by
  cases t with
  | nil => exact nil
  | cons c rest => exact singleton (by simp) hk

theorem escaped (c : Char) : Covers (escaped c) ['^', c] :=
  cons (s := ['^']) (by simp) (by simp) (singleton (by simp) (by simp))

/-- Joining neighbours only moves texts from one lexeme to the one before it. -/
theorem join {xs : List Lexeme} {t : Text} (h : Covers xs t) : Covers (join xs) t := by
  induction xs generalizing t with
  | nil => exact h
  | cons x rest ih =>
      have htail := ih h.tail
      have hx : x.text ≠ [] := h.nonempty x (by simp)
      have hk : x.kind ≠ .unrecognized := h.recognized x (by simp)
      have ht : t = x.text ++ spell rest := h.spelled.symm
      subst ht
      rw [Lexeme.join]
      split
      · rename_i hnil
        rw [hnil] at htail
        rw [← htail.spelled, spell_nil, List.append_nil]
        exact singleton hx hk
      · rename_i y joined hcons
        rw [hcons] at htail
        split
        · -- `y` is swallowed: what it spelled now stands at the end of `x`.
          rw [← htail.spelled, spell_cons, ← List.append_assoc]
          exact cons (by simp [hx]) hk htail.tail
        · exact cons hx hk htail

end Covers

/-- The lexemes `xs` are a reading of `t` up to `rest`. -/
def Reads (xs : List Lexeme) (rest t : Text) : Prop :=
  ∃ taken, Covers xs taken ∧ taken ++ rest = t

theorem Covers.reads {xs : List Lexeme} {t : Text} (h : Covers xs t) (rest : Text) :
    Reads xs rest (t ++ rest) :=
  ⟨t, h, rfl⟩

theorem Reads.prepend {xs ys : List Lexeme} {s rest t : Text} (hx : Covers xs s)
    (hy : Reads ys rest t) : Reads (xs ++ ys) rest (s ++ t) := by
  obtain ⟨taken, htaken, rfl⟩ := hy
  exact ⟨s ++ taken, hx.append htaken, List.append_assoc ..⟩

end Lexeme

namespace Chunk

/-- What a chunk that is read from a text can hold. -/
def WellFormed : Chunk → Prop
  | delimiter run => run ≠ [] ∧ ∀ c ∈ run, isDelimiter c = true
  | word run => run ≠ [] ∧ ∀ c ∈ run, isOrdinary c = true
  | operator kind spelling => (kind.isChain || kind.isRedirection) = true ∧ spelling ≠ []
  | _ => True

theorem run_of_takeWhile {p : Char → Bool} {c : Char} (hc : p c = true) (rest : Text) :
    c :: rest.takeWhile p ≠ [] ∧ ∀ d ∈ c :: rest.takeWhile p, p d = true := by
  refine ⟨by simp, ?_⟩
  intro d hd
  rcases List.mem_cons.mp hd with rfl | hd
  · exact hc
  · exact List.mem_takeWhile_imp hd

/-- A chunk is there for every text but the empty one, and it is well formed. -/
theorem exists_next? {t : Text} (ht : t ≠ []) :
    ∃ chunk rest, next? t = some (chunk, rest) ∧ chunk.WellFormed := by
  unfold next?
  split
  case h_1 => exact absurd rfl ht
  case h_2 | h_3 | h_4 | h_5 | h_6 | h_7 => exact ⟨_, _, rfl, trivial⟩
  case h_14 =>
    split
    · exact ⟨_, _, rfl, rfl, by simp⟩
    · exact ⟨_, _, rfl, rfl, by simp⟩
  case h_16 c after _ _ _ _ _ _ _ _ _ _ _ _ _ _ =>
    split
    · rename_i hdelimiter
      exact ⟨_, _, rfl, run_of_takeWhile hdelimiter after⟩
    · rename_i hdelimiter
      -- The earlier rules take every special character, so `c` is an ordinary one.
      have hspecial : isSpecial c = false := by cases after <;> simp_all [isSpecial]
      have hordinary : isOrdinary c = true := by simpa [isOrdinary, hspecial] using hdelimiter
      split
      · split
        · exact ⟨_, _, rfl, rfl, by simp⟩
        · exact ⟨_, _, rfl, rfl, by simp⟩
      · exact ⟨_, _, rfl, rfl, by simp⟩
      · exact ⟨_, _, rfl, run_of_takeWhile hordinary _⟩
  all_goals exact ⟨_, _, rfl, rfl, by simp⟩

theorem eq_nil_of_next? {t : Text} (h : next? t = none) : t = [] := by
  by_contra ht
  obtain ⟨chunk, rest, hsome, -⟩ := exists_next? ht
  simp [hsome] at h

theorem wellFormed_of_next? {t rest : Text} {chunk : Chunk}
    (h : next? t = some (chunk, rest)) : chunk.WellFormed := by
  have ht : t ≠ [] := by
    rintro rfl
    exact Option.some_ne_none _ h.symm
  obtain ⟨chunk', rest', hsome, hwell⟩ := exists_next? ht
  obtain ⟨rfl, -⟩ := Prod.mk.inj (Option.some.inj (h.symm.trans hsome))
  exact hwell

theorem WellFormed.text_ne_nil {chunk : Chunk} (h : chunk.WellFormed) : chunk.text ≠ [] := by
  cases chunk with
  | delimiter run => exact h.1
  | word run => exact h.1
  | operator kind spelling => exact h.2
  | _ => simp [text]

theorem reserved?_ne_unrecognized (run : Text) : reserved? run ≠ some .unrecognized := by
  intro h
  have hwords : ∀ p ∈ reservedWords, p.2 ≠ Kind.unrecognized := by decide
  rw [reserved?, List.lookup_eq_some_iff] at h
  obtain ⟨before, after, heq, -⟩ := h
  exact hwords (run.map foldLetter, .unrecognized) (by rw [heq]; simp) rfl

/-- No chunk is of the kind for text that no rule reads. -/
theorem WellFormed.recognized {chunk : Chunk} (h : chunk.WellFormed) :
    chunk.kind ≠ .unrecognized := by
  cases chunk with
  | delimiter run =>
      simp only [kind]
      split <;> simp
  | word run =>
      simp only [kind]
      cases hr : reserved? run with
      | none => simp
      | some k =>
          rintro rfl
          exact reserved?_ne_unrecognized run hr
  | operator kind spelling =>
      rintro rfl
      exact absurd h.1 (by decide)
  | _ => simp [kind]

end Chunk

namespace Lexer

open Lexeme

/-! ### What stands between quotes -/

theorem reads_doubleQuoted (t : Text) : Reads (doubleQuoted t).1 (doubleQuoted t).2 t := by
  have hsplit := List.takeWhile_append_dropWhile (p := (· ≠ '"')) (l := t)
  unfold doubleQuoted
  split
  · rename_i hdrop
    rw [hdrop] at hsplit
    exact ⟨_, .ofText (by simp) _, hsplit⟩
  · rename_i q rest hdrop
    rw [hdrop] at hsplit
    refine ⟨_, (Covers.ofText (by simp) _).append (.singleton (t := [q]) (by simp) (by simp)), ?_⟩
    rw [List.append_assoc]
    exact hsplit

/-- A caret is read by a rule of its own, at the end of the text as well as before it. -/
theorem ne_caret_of_rules {c : Char} {rest : Text} (hlone : c = '^' → rest = [] → False)
    (hcaret : ∀ d more, c = '^' → rest = d :: more → False) : c ≠ '^' := by
  intro hc
  cases rest with
  | nil => exact hlone hc rfl
  | cons d more => exact hcaret d more hc rfl

/-- How the body of a string in single quotes is read: up to its closing quote, escapes in pairs and
all else character by character. -/
inductive SingleQuoted : Text → List Lexeme → Text → Prop
  | close (rest : Text) : SingleQuoted ('\'' :: rest) [⟨.stringSquoteEnd, ['\'']⟩] rest
  | escape (c : Char) {rest : Text} {out : List Lexeme} {after : Text}
      (h : SingleQuoted rest out after) : SingleQuoted ('^' :: c :: rest) (escaped c ++ out) after
  | char {c : Char} (hquote : c ≠ '\'') (hcaret : c ≠ '^') {rest : Text} {out : List Lexeme}
      {after : Text} (h : SingleQuoted rest out after) :
      SingleQuoted (c :: rest) (⟨.stringSquoteChar, [c]⟩ :: out) after

theorem singleQuoted_of_some {t : Text} {out : List Lexeme} {after : Text}
    (h : singleQuoted? t = some (out, after)) : SingleQuoted t out after := by
  fun_induction singleQuoted? t generalizing out after with
  | case1 => simp at h
  | case2 rest =>
      obtain ⟨rfl, rfl⟩ := Prod.mk.inj (Option.some.inj h)
      exact .close rest
  | case3 => simp at h
  | case4 c rest ih =>
      obtain ⟨⟨inner, a⟩, hinner, heq⟩ := Option.map_eq_some_iff.mp h
      obtain ⟨rfl, rfl⟩ := Prod.mk.inj heq
      exact .escape c (ih hinner)
  | case5 c rest hquote hlone hcaret ih =>
      obtain ⟨⟨inner, a⟩, hinner, heq⟩ := Option.map_eq_some_iff.mp h
      obtain ⟨rfl, rfl⟩ := Prod.mk.inj heq
      exact .char hquote (ne_caret_of_rules hlone hcaret) (ih hinner)

theorem SingleQuoted.reads {t : Text} {out : List Lexeme} {after : Text}
    (h : SingleQuoted t out after) : Reads out after t := by
  induction h with
  | close rest => exact (Covers.singleton (by simp) (by simp)).reads rest
  | escape c _ ih => exact ih.prepend (Covers.escaped c)
  | @char c _ _ _ _ _ _ ih =>
      exact ih.prepend (Covers.singleton (t := [c]) (by simp) (by simp))

/-- Cutting a text at its first equals sign keeps all of it. -/
theorem covers_assignment {before : Kind} (hb : before ≠ .unrecognized) {t name value : Text}
    (h : Text.splitFirst (· = '=') t = some (name, value)) :
    Covers (ofText before name ++ ⟨.setAssignment, ['=']⟩ :: ofText .setValue value) t := by
  obtain ⟨c, hc, -, rfl⟩ := Text.splitFirst_eq_some h
  have hc' : c = '=' := by simpa using hc
  subst hc'
  exact (Covers.ofText hb name).append
    (.cons (s := ['=']) (by simp) (by simp) (.ofText (by simp) value))

theorem covers_quotedAssignment (body : Text) : Covers (quotedAssignment body) body := by
  unfold quotedAssignment
  split
  · rename_i name value h
    exact covers_assignment (by simp) h
  · exact .ofText (by simp) body

theorem reads_quotedSet (t : Text) : Reads (quotedSet t).1 (quotedSet t).2 t := by
  have hsplit := List.takeWhile_append_dropWhile (p := (· ≠ '"')) (l := t)
  unfold quotedSet
  split
  · rename_i hdrop
    rw [hdrop] at hsplit
    exact ⟨_, covers_quotedAssignment _, hsplit⟩
  · rename_i q rest hdrop
    rw [hdrop] at hsplit
    refine ⟨_, (covers_quotedAssignment _).append (.singleton (t := [q]) (by simp) (by simp)), ?_⟩
    rw [List.append_assoc]
    exact hsplit

/-! ### A step in each mode -/

/-- What a step has read, and the text it leaves, make up `t`. -/
def Step.Reads (s : Step) (t : Text) : Prop :=
  Lexeme.Reads s.out s.rest t

theorem reads_command {chunk : Chunk} (h : chunk.WellFormed) (rest : Text) :
    (command chunk rest).Reads (chunk.text ++ rest) := by
  have hchunk := Covers.singleton h.text_ne_nil h.recognized
  cases chunk with
  | escape c => exact (Covers.escaped c).reads rest
  | doubleQuote => exact (reads_doubleQuoted rest).prepend (.singleton (by simp) (by simp))
  | singleQuote =>
      unfold command
      dsimp only
      split
      · rename_i out after hout
        exact (singleQuoted_of_some hout).reads.prepend (.singleton (by simp) (by simp))
      · exact (Covers.singleton (by simp) (by simp)).reads rest
  | _ => exact hchunk.reads rest

theorem reads_assign {before : Kind} (hb : before ≠ .unrecognized) (stay : Mode) {run : Text}
    (hrun : run ≠ []) (rest : Text) : (assign before stay run rest).Reads (run ++ rest) := by
  unfold assign
  split
  · rename_i name value h
    exact (covers_assignment hb h).reads rest
  · exact (Covers.singleton hrun hb).reads rest

theorem reads_lead {chunk : Chunk} (h : chunk.WellFormed) (rest : Text) :
    (lead chunk rest).Reads (chunk.text ++ rest) := by
  have hname : Covers [⟨.setName, chunk.text⟩] chunk.text :=
    .singleton h.text_ne_nil (by simp)
  cases chunk with
  | delimiter run => exact reads_assign (by simp) _ h.1 rest
  | doubleQuote => exact (reads_quotedSet rest).prepend (.singleton (by simp) (by simp))
  | escape c => exact (Covers.escaped c).reads rest
  | singleQuote => exact hname.reads rest
  | word run => exact hname.reads rest
  | lParen => exact reads_command h rest
  | rParen => exact reads_command h rest
  | caret => exact reads_command h rest
  | operator kind spelling => exact reads_command h rest

theorem reads_name {chunk : Chunk} (h : chunk.WellFormed) (rest : Text) :
    (name chunk rest).Reads (chunk.text ++ rest) := by
  have hname : Covers [⟨.setName, chunk.text⟩] chunk.text :=
    .singleton h.text_ne_nil (by simp)
  cases chunk with
  | delimiter run => exact reads_assign (by simp) _ h.1 rest
  | escape c => exact (Covers.escaped c).reads rest
  | caret => exact reads_command h rest
  | operator kind spelling => exact reads_command h rest
  | _ => exact hname.reads rest

theorem reads_value {chunk : Chunk} (h : chunk.WellFormed) (rest : Text) :
    (value chunk rest).Reads (chunk.text ++ rest) := by
  have hvalue : Covers [⟨.setValue, chunk.text⟩] chunk.text :=
    .singleton h.text_ne_nil (by simp)
  cases chunk with
  | escape c => exact (Covers.escaped c).reads rest
  | doubleQuote => exact (reads_doubleQuoted rest).prepend (.singleton (by simp) (by simp))
  | rParen => exact (Covers.singleton (by simp) (by simp)).reads rest
  | caret => exact reads_command h rest
  | operator kind spelling => exact reads_command h rest
  | _ => exact hvalue.reads rest

/-- Every step reads a prefix of what is left, starting with its chunk. -/
theorem reads_step (mode : Mode) {chunk : Chunk} (h : chunk.WellFormed) (rest : Text) :
    (step mode chunk rest).Reads (chunk.text ++ rest) := by
  cases mode with
  | command => exact reads_command h rest
  | lead => exact reads_lead h rest
  | name => exact reads_name h rest
  | value => exact reads_value h rest

/-! ### The whole text -/

theorem covers_pieces (mode : Mode) (t : Text) : Covers (pieces mode t) t := by
  fun_induction pieces mode t with
  | case1 mode t hnext =>
      rw [Chunk.eq_nil_of_next? hnext]
      exact .nil
  | case2 mode t chunk rest hnext s ih =>
      rw [← Chunk.text_append_of_next? hnext]
      obtain ⟨taken, htaken, hrest⟩ := reads_step mode (Chunk.wellFormed_of_next? hnext) rest
      rw [← hrest]
      exact htaken.append ih

theorem covers_lexemes (t : Text) : Covers (lexemes t) t :=
  (covers_pieces .command t).join

end Lexer

theorem Position.advance_append (s t : Text) (here : Nat × Nat) :
    advance (s ++ t) here = advance t (advance s here) := by
  fun_induction advance s here with
  | case1 => rfl
  | case2 rest line col ih => simpa [advance] using ih
  | case3 c rest line col hc ih => simpa [advance, hc] using ih

namespace Lexeme

@[simp] theorem stringify_place (start : Nat × Nat) (xs : List Lexeme) :
    Token.stringify (place start xs) = spell xs := by
  induction xs generalizing start with
  | nil => rfl
  | cons x rest ih => simp [place, ih]

/-- What comes later is placed behind the text of what comes before. -/
theorem place_append (start : Nat × Nat) (xs ys : List Lexeme) :
    place start (xs ++ ys) = place start xs ++ place (Position.advance (spell xs) start) ys := by
  induction xs generalizing start with
  | nil => rfl
  | cons x rest ih =>
      rw [List.cons_append, place, ih, ← Position.advance_append]
      rfl

/-- Every token comes from a lexeme of the same kind and text. -/
theorem exists_of_mem_place {start : Nat × Nat} {xs : List Lexeme} {tok : Token}
    (h : tok ∈ place start xs) : ∃ x ∈ xs, x.kind = tok.kind ∧ x.text = tok.text := by
  induction xs generalizing start with
  | nil => simp [place] at h
  | cons x rest ih =>
      rw [place] at h
      rcases List.mem_cons.mp h with rfl | hrest
      · exact ⟨x, by simp, rfl, rfl⟩
      · obtain ⟨y, hy, hsame⟩ := ih hrest
        exact ⟨y, by simp [hy], hsame⟩

end Lexeme

namespace Token

theorem stringify_tokenize (t : Text) : stringify (tokenize t) = t := by
  rw [tokenize, Lexeme.stringify_place, (Lexer.covers_lexemes t).spelled]

/--
**Reading loses nothing.**  The tokens of a text spell exactly that text, none of
them is empty, and none is of the kind for text that no rule reads.
-/
theorem tokenize_spells (t : Text) :
    stringify (tokenize t) = t ∧
      ∀ tok ∈ tokenize t, tok.text ≠ [] ∧ tok.kind ≠ .unrecognized := by
  have hcovers := Lexer.covers_lexemes t
  refine ⟨stringify_tokenize t, ?_⟩
  intro tok htok
  obtain ⟨x, hx, hkind, htext⟩ := Lexeme.exists_of_mem_place htok
  rw [← hkind, ← htext]
  exact ⟨hcovers.nonempty x hx, hcovers.recognized x hx⟩

end Token

end BatchTrace
