/-
All closed strings are folded, and nothing else is changed.

A closed string is an opening quote, its content and a closing quote.  No two of them overlap, for
a string has no opening quote but its first token; so a list of tokens is cut into parts in one way
only, each of them a closed string or a single token that belongs to none.  Folding takes the parts
one by one: a closed string becomes a token, any other token stays what it is.

A folded string is no piece of a string.  So nothing that was not closed gets closed by folding, and
no closed string is found afterwards.
-/
import BatchTrace.Proofs.Token.Collapse

namespace BatchTrace

namespace Token

/-- A double-quoted string with both of its quotes. -/
@[ext]
structure ClosedString where
  opening : Token
  content : List Token
  closing : Token
  kind_opening : opening.kind = .stringDquoteBegin
  kind_content : ∀ t ∈ content, t.kind = .stringDquoteChar
  kind_closing : closing.kind = .stringDquoteEnd

namespace ClosedString

variable {s s' : ClosedString} {ts us before after : List Token}

/-- The tokens of a closed string. -/
def tokens (s : ClosedString) : List Token :=
  s.opening :: (s.content ++ [s.closing])

/-- A closed string as one token. -/
def token (s : ClosedString) : Token :=
  folded s.opening s.content s.closing

theorem tokens_append (s : ClosedString) (ts : List Token) :
    s.tokens ++ ts = s.opening :: (s.content ++ s.closing :: ts) := by
  simp [tokens]

theorem closes (s : ClosedString) (ts : List Token) : Closes (s.content ++ s.closing :: ts) :=
  ⟨s.content, s.closing, ts, rfl, s.kind_content, s.kind_closing⟩

/-- Where a closed string begins determines it. -/
theorem eq_of_append_eq (h : s.tokens ++ ts = s'.tokens ++ us) : s = s' ∧ ts = us := by
  rw [tokens_append, tokens_append, List.cons.injEq] at h
  obtain ⟨hopening, hrest⟩ := h
  have hrun : ∀ s : ClosedString, ∀ t ∈ s.content, decide (t.kind = .stringDquoteChar) = true :=
    fun s t ht => decide_eq_true (s.kind_content t ht)
  have hend : ∀ (s : ClosedString) (more : List Token), ∀ t ∈ (s.closing :: more).head?,
      decide (t.kind = .stringDquoteChar) = false := by
    intro s more
    simp [s.kind_closing]
  have hcontent := congrArg (List.takeWhile (·.kind = .stringDquoteChar)) hrest
  have hbehind := congrArg (List.dropWhile (·.kind = .stringDquoteChar)) hrest
  rw [takeWhile_run (hrun s) (hend s ts), takeWhile_run (hrun s') (hend s' us)] at hcontent
  rw [dropWhile_run (hrun s) (hend s ts), dropWhile_run (hrun s') (hend s' us)] at hbehind
  obtain ⟨hclosing, htail⟩ := List.cons.inj hbehind
  exact ⟨ClosedString.ext hopening hcontent hclosing, htail⟩

/-- A closed string that begins behind the opening quote of another one begins behind all of it. -/
theorem exists_append_of_append_eq
    (h : s.content ++ s.closing :: ts = before ++ (s'.tokens ++ after)) :
    ∃ before', before = s.content ++ s.closing :: before' ∧
      ts = before' ++ (s'.tokens ++ after) := by
  have hopening : s'.opening ∉ s.content ++ [s.closing] := by
    rw [List.mem_append, List.mem_singleton]
    rintro (hmem | heq)
    · simpa [s'.kind_opening] using s.kind_content _ hmem
    · simpa [← heq, s'.kind_opening] using s.kind_closing
  rw [tokens_append] at h ⊢
  have hsplit : before ++ s'.opening :: (s'.content ++ s'.closing :: after) =
      s.content ++ [s.closing] ++ ts := by
    rw [← h]
    simp
  obtain ⟨before', hbefore, hts⟩ := exists_append_of_not_mem_left hopening hsplit
  exact ⟨before', by simp [hbefore], hts⟩

end ClosedString

/-- A part of a list of tokens. -/
inductive Part where
  /-- A token that belongs to no closed string. -/
  | other (t : Token)
  | closed (s : ClosedString)

namespace Part

/-- The tokens of a part. -/
def tokens : Part → List Token
  | other t => [t]
  | closed s => s.tokens

/-- A part as one token. -/
def token : Part → Token
  | other t => t
  | closed s => s.token

end Part

/-- The tokens `ts` consist of these parts, and every closed string among them is one. -/
structure Divides (parts : List Part) (ts : List Token) : Prop where
  tokens : parts.flatMap Part.tokens = ts
  closed : ∀ before (s : ClosedString) after, ts = before ++ (s.tokens ++ after) →
    ∃ front back, parts = front ++ .closed s :: back ∧
      front.flatMap Part.tokens = before ∧ back.flatMap Part.tokens = after

namespace Divides

variable {parts : List Part} {ts : List Token}

theorem nil : Divides [] [] where
  tokens := rfl
  closed before s after h := by simp [ClosedString.tokens] at h

theorem cons_other {t : Token} (ht : t.kind = .stringDquoteBegin → ¬ Closes ts)
    (h : Divides parts ts) : Divides (.other t :: parts) (t :: ts) where
  tokens := by rw [List.flatMap_cons, h.tokens, Part.tokens, List.singleton_append]
  closed before s after heq := by
    cases before with
    | nil =>
        rw [List.nil_append, s.tokens_append] at heq
        obtain ⟨rfl, rfl⟩ := List.cons.inj heq
        exact absurd (s.closes after) (ht s.kind_opening)
    | cons b before =>
        obtain ⟨rfl, hts⟩ := List.cons.inj heq
        obtain ⟨front, back, rfl, rfl, rfl⟩ := h.closed before s after hts
        exact ⟨.other t :: front, back, rfl, rfl, rfl⟩

theorem cons_closed (s : ClosedString) (h : Divides parts ts) :
    Divides (.closed s :: parts) (s.tokens ++ ts) where
  tokens := by rw [List.flatMap_cons, h.tokens, Part.tokens]
  closed before s' after heq := by
    cases before with
    | nil =>
        obtain ⟨rfl, rfl⟩ := ClosedString.eq_of_append_eq heq
        exact ⟨[], parts, rfl, rfl, h.tokens⟩
    | cons b before =>
        rw [s.tokens_append] at heq
        obtain ⟨rfl, hrest⟩ := List.cons.inj heq
        obtain ⟨before', rfl, hts⟩ := ClosedString.exists_append_of_append_eq hrest
        obtain ⟨front, back, rfl, rfl, rfl⟩ := h.closed before' s' after hts
        exact ⟨.closed s :: front, back, rfl, by simp [Part.tokens, s.tokens_append], rfl⟩

end Divides

theorem closes_cons {t : Token} {ts : List Token} : Closes (t :: ts) ↔
    t.kind = .stringDquoteEnd ∨ (t.kind = .stringDquoteChar ∧ Closes ts) := by
  constructor
  · rintro ⟨content, closing, more, heq, hcontent, hclosing⟩
    cases content with
    | nil =>
        obtain ⟨rfl, -⟩ := List.cons.inj heq
        exact Or.inl hclosing
    | cons u content =>
        obtain ⟨rfl, rfl⟩ := List.cons.inj heq
        obtain ⟨hu, hcontent⟩ := List.forall_mem_cons.mp hcontent
        exact Or.inr ⟨hu, content, closing, more, rfl, hcontent, hclosing⟩
  · rintro (hclosing | ⟨ht, content, closing, more, rfl, hcontent, hclosing⟩)
    · exact ⟨[], t, ts, rfl, by simp, hclosing⟩
    · exact ⟨t :: content, closing, more, rfl, List.forall_mem_cons.mpr ⟨ht, hcontent⟩, hclosing⟩

namespace Folds

variable {ts us : List Token}

/-- Folding takes the parts one by one. -/
theorem exists_divides (h : Folds ts us) :
    ∃ parts, Divides parts ts ∧ us = parts.map Part.token := by
  induction h with
  | nil => exact ⟨[], .nil, rfl⟩
  | @kept t ts us ht _ ih =>
      obtain ⟨parts, hparts, rfl⟩ := ih
      exact ⟨.other t :: parts, hparts.cons_other ht, rfl⟩
  | @closed opening closing content ts us hopening hcontent hclosing _ ih =>
      obtain ⟨parts, hparts, rfl⟩ := ih
      let s : ClosedString := ⟨opening, content, closing, hopening, hcontent, hclosing⟩
      have hwhole := hparts.cons_closed s
      rw [s.tokens_append] at hwhole
      exact ⟨.closed s :: parts, hwhole, rfl⟩

/-- What is closed after folding was closed before. -/
theorem closes (h : Folds ts us) (hus : Closes us) : Closes ts := by
  induction h with
  | nil => exact hus
  | kept _ _ ih => exact closes_cons.mpr ((closes_cons.mp hus).imp_right (And.imp_right ih))
  | closed => simpa using closes_cons.mp hus

theorem not_infix (h : Folds ts us) (s : ClosedString) : ¬ s.tokens <:+: us := by
  induction h with
  | nil => simp [ClosedString.tokens]
  | @kept t ts us ht hs ih =>
      rw [List.infix_cons_iff]
      rintro (⟨after, heq⟩ | hinfix)
      · rw [s.tokens_append] at heq
        obtain ⟨rfl, rfl⟩ := List.cons.inj heq
        exact ht s.kind_opening (hs.closes (s.closes after))
      · exact ih hinfix
  | @closed opening closing content ts us _ _ _ _ ih =>
      rw [List.infix_cons_iff]
      rintro (⟨after, heq⟩ | hinfix)
      · obtain ⟨hopening, -⟩ := List.cons.inj heq
        simpa [hopening] using s.kind_opening
      · exact ih hinfix

/-- Without closed strings there is nothing to fold. -/
theorem of_not_infix (h : ∀ s : ClosedString, ¬ s.tokens <:+: ts) : Folds ts ts := by
  induction ts with
  | nil => exact .nil
  | cons t ts ih =>
      refine .kept ?_ (ih fun s hinfix => h s (List.infix_cons_iff.mpr (Or.inr hinfix)))
      rintro hopening ⟨content, closing, more, rfl, hcontent, hclosing⟩
      let s : ClosedString := ⟨t, content, closing, hopening, hcontent, hclosing⟩
      exact h s (List.infix_cons_iff.mpr (Or.inl ⟨more, s.tokens_append more⟩))

end Folds

/--
**Folding is complete and keeps the text.**  The folded tokens spell what the tokens did.  They are
the parts of the list in order, the closed strings each as one token and all other tokens as they
were.  No closed string is left among them, so folding once more changes nothing.
-/
theorem collapse_divides (ts : List Token) :
    stringify (collapse ts) = stringify ts ∧
      (∀ s : ClosedString, ¬ s.tokens <:+: collapse ts) ∧
      (∃ parts, Divides parts ts ∧ collapse ts = parts.map Part.token) ∧
      collapse (collapse ts) = collapse ts := by
  have hfolds := folds_collapse ts
  exact ⟨hfolds.stringify_eq, hfolds.not_infix, hfolds.exists_divides,
    (Folds.of_not_infix hfolds.not_infix).collapse_eq⟩

end Token

end BatchTrace
