/-
Texts without special characters.

In a text that quotes, escapes, groups and chains nothing there is little to read.  Words
and the gaps between them take turns, and the first word that spells `SET` makes the rest
an assignment, from which nothing leads back.  `Calmly` is that description, as a relation
between a text and its lexemes, and the reader is shown to follow it.

What is shown of such texts later on is shown by induction on this relation, in which the
modes of the reader and the joining of pieces no longer occur.
-/
import BatchTrace.Proofs.Text.Ascii
import BatchTrace.Proofs.Token.Seams

namespace BatchTrace

open Chunk Lexeme

/-! ### Words and gaps -/

/-- A printable ASCII character without a meaning of its own. -/
def isCalm (c : Char) : Bool :=
  32 ≤ c.toNat && c.toNat ≤ 126 && !isSpecial c

/-- All characters of a text are such characters. -/
def Calm (t : Text) : Prop :=
  ∀ c ∈ t, isCalm c = true

theorem Calm.of_append_right {s t : Text} (h : Calm (s ++ t)) : Calm t :=
  fun c hc => h c (List.mem_append_right s hc)

theorem Calm.quiet {t : Text} (h : Calm t) : Quiet t := by
  intro c hc
  refine ⟨?_, ?_, ?_⟩ <;> rintro rfl <;> exact absurd (h _ hc) (by decide)

theorem Calm.closed {t : Text} (h : Calm t) : Closed t := by
  intro c hc
  refine ⟨?_, ?_⟩ <;> rintro rfl <;> exact absurd (h _ (List.mem_of_mem_getLast? hc)) (by decide)

section

variable {c : Char} (h : isCalm c = true)
include h

theorem isSpecial_of_isCalm : isSpecial c = false := by
  simp only [isCalm, Bool.and_eq_true, Bool.not_eq_true'] at h
  exact h.2

theorem isBlank_of_isCalm : Text.isBlank c = (c == ' ') := by
  have hc : c.toNat < 128 := by
    simp only [isCalm, Bool.and_eq_true, decide_eq_true_eq] at h
    omega
  have htest := forall_ascii (p := fun c => !isCalm c || Text.isBlank c == (c == ' '))
    (by decide +kernel) hc
  simpa [h] using htest

end

theorem isDelimiter_of_isOrdinary {c : Char} (h : isOrdinary c = true) : isDelimiter c = false := by
  simp only [isOrdinary, Bool.and_eq_true, Bool.not_eq_true'] at h
  exact h.1

theorem Chunk.kind_word_ne_delimiter (run : Text) : (word run).kind ≠ .delimiter := by
  have hkind := forall_kind_word (p := fun k => k ≠ .delimiter) (by decide) run
  simpa using hkind

/-- `run` is a word of which `t` is no part. -/
structure IsWord (run t : Text) : Prop where
  ne_nil : run ≠ []
  ordinary : ∀ c ∈ run, isOrdinary c = true
  stop : ∀ c ∈ t.head?, isDelimiter c = true

/-- `run` is a run of separators of which `t` is no part. -/
structure IsGap (run t : Text) : Prop where
  ne_nil : run ≠ []
  separators : ∀ c ∈ run, isDelimiter c = true
  stop : ∀ c ∈ t.head?, isOrdinary c = true

variable {run t : Text}

theorem IsWord.next? (h : IsWord run t) : next? (run ++ t) = some (.word run, t) := by
  refine next?_word_append h.ne_nil h.ordinary ?_ ?_
  · intro c hc
    simp [isOrdinary, h.stop c hc]
  · intro hc
    exact absurd (h.stop _ hc) (by decide)

theorem IsGap.next? (h : IsGap run t) : next? (run ++ t) = some (.delimiter run, t) :=
  next?_delimiter_append h.ne_nil h.separators fun c hc => isDelimiter_of_isOrdinary (h.stop c hc)

theorem IsWord.not_mem (h : IsWord run t) : '=' ∉ run := by
  intro hmem
  exact absurd (h.ordinary _ hmem) (by decide)

/-- A text is its leading characters that pass a test, and a rest that begins with none of them. -/
theorem isWord_takeWhile {c : Char} (ht : Calm (c :: t)) (hc : isOrdinary c = true) :
    IsWord (c :: t.takeWhile isOrdinary) (t.dropWhile isOrdinary) := by
  refine ⟨by simp, (run_of_takeWhile hc t).2, ?_⟩
  intro d hd
  have hspecial := isSpecial_of_isCalm (ht d (by
    exact List.mem_cons_of_mem c (List.dropWhile_subset _ (List.mem_of_mem_head? hd))))
  have hnot := not_of_mem_head?_dropWhile hd
  simpa [isOrdinary, hspecial] using hnot

theorem isGap_takeWhile {c : Char} (ht : Calm (c :: t)) (hc : isDelimiter c = true) :
    IsGap (c :: t.takeWhile isDelimiter) (t.dropWhile isDelimiter) := by
  refine ⟨by simp, (run_of_takeWhile hc t).2, ?_⟩
  intro d hd
  have hspecial := isSpecial_of_isCalm (ht d (by
    exact List.mem_cons_of_mem c (List.dropWhile_subset _ (List.mem_of_mem_head? hd))))
  simp [isOrdinary, hspecial, not_of_mem_head?_dropWhile hd]

/-- Words and gaps take turns: what both of them carry on holds of every text. -/
theorem Calm.induction {P : Text → Prop} (nil : P [])
    (word : ∀ {run t : Text}, IsWord run t → Calm t → P t → P (run ++ t))
    (gap : ∀ {run t : Text}, IsGap run t → Calm t → P t → P (run ++ t)) (ht : Calm t) : P t := by
  induction hlength : t.length using Nat.strong_induction_on generalizing t with
  | _ n ih =>
      cases t with
      | nil => exact nil
      | cons c rest =>
          have hstep : ∀ p : Char → Bool, Calm (rest.dropWhile p) ∧ P (rest.dropWhile p) := by
            intro p
            have hcalm : Calm (rest.dropWhile p) := fun d hd =>
              ht d (List.mem_cons_of_mem c (List.dropWhile_subset _ hd))
            refine ⟨hcalm, ih _ ?_ hcalm rfl⟩
            rw [← hlength]
            exact Nat.lt_succ_of_le (List.dropWhile_suffix p).length_le
          by_cases hc : isDelimiter c = true
          · have hrest := gap (isGap_takeWhile ht hc) (hstep _).1 (hstep _).2
            rwa [List.cons_append, List.takeWhile_append_dropWhile] at hrest
          · have hordinary : isOrdinary c = true := by
              simp [isOrdinary, hc, isSpecial_of_isCalm (ht c (by simp))]
            have hrest := word (isWord_takeWhile ht hordinary) (hstep _).1 (hstep _).2
            rwa [List.cons_append, List.takeWhile_append_dropWhile] at hrest

/-! ### Assignments -/

theorem Text.splitFirst_append {p : Char → Bool} {a b : Text} {c : Char}
    (ha : ∀ d ∈ a, p d = false) (hc : p c = true) :
    Text.splitFirst p (a ++ c :: b) = some (a, b) := by
  induction a with
  | nil => simp [Text.splitFirst, hc]
  | cons d a ih =>
      have hd := ha d (by simp)
      simp [Text.splitFirst, hd, ih fun e he => ha e (by simp [he])]

theorem Text.splitLast_append {p : Char → Bool} {a b : Text} {c : Char}
    (hb : ∀ d ∈ b, p d = false) (hc : p c = true) :
    Text.splitLast p (a ++ c :: b) = some (a, b) := by
  have hreverse : (a ++ c :: b).reverse = b.reverse ++ c :: a.reverse := by simp
  rw [Text.splitLast, hreverse, Text.splitFirst_append (by simpa using hb) hc]
  simp

theorem splitFirst_equals {a b : Text} (ha : '=' ∉ a) :
    Text.splitFirst (· = '=') (a ++ '=' :: b) = some (a, b) := by
  refine Text.splitFirst_append ?_ rfl
  intro c hc
  simpa using ne_of_mem_of_not_mem hc ha

theorem splitFirst_of_not_mem {a : Text} (ha : '=' ∉ a) : Text.splitFirst (· = '=') a = none := by
  refine Text.splitFirst_eq_none_iff.mpr ?_
  intro c hc
  simpa using ne_of_mem_of_not_mem hc ha

namespace Lexeme

theorem ofText_of_ne_nil {k : Kind} (h : t ≠ []) : ofText k t = [⟨k, t⟩] := by
  cases t with
  | nil => exact absurd rfl h
  | cons c rest => rfl

/-- Pieces of one kind before lexemes that begin with a piece of that kind or with none. -/
theorem join_ofText_append {k : Kind} (hk : isPieced k = true) (a : Text) {b : Text}
    {xs ys : List Lexeme} (hxs : join xs = ofText k b ++ ys) (hys : ∀ y ∈ ys.head?, y.kind ≠ k) :
    join (ofText k a ++ xs) = ofText k (a ++ b) ++ ys := by
  cases a with
  | nil => exact hxs
  | cons c a =>
      show join (⟨k, c :: a⟩ :: xs) = _
      rw [join, hxs]
      cases b with
      | nil =>
          cases ys with
          | nil => simp [ofText]
          | cons y ys => simp [ofText, (hys y rfl).symm]
      | cons d b => simp [ofText, hk]

end Lexeme

namespace Lexer

theorem quotedAssignment_of_not_mem {a : Text} (ha : '=' ∉ a) :
    quotedAssignment a = ofText .setName a := by
  rw [quotedAssignment, splitFirst_of_not_mem ha]

theorem quotedAssignment_append {a b : Text} (ha : '=' ∉ a) :
    quotedAssignment (a ++ '=' :: b) =
      ofText .setName a ++ ⟨.setAssignment, ['=']⟩ :: ofText .setValue b := by
  rw [quotedAssignment, splitFirst_equals ha]

/-- What is put in front of an assignment belongs to its name. -/
theorem exists_quotedAssignment_eq (t : Text) :
    ∃ b ys, (∀ y ∈ ys.head?, y.kind ≠ .setName) ∧
      ∀ a, '=' ∉ a → quotedAssignment (a ++ t) = ofText .setName (a ++ b) ++ ys := by
  by_cases ht : '=' ∈ t
  · obtain ⟨b, v, rfl, hb⟩ := List.eq_append_cons_of_mem ht
    refine ⟨b, ⟨.setAssignment, ['=']⟩ :: ofText .setValue v, by simp, ?_⟩
    intro a ha
    rw [← List.append_assoc, quotedAssignment_append (by simp [ha, hb])]
  · refine ⟨t, [], by simp, ?_⟩
    intro a ha
    rw [quotedAssignment_of_not_mem (by simp [ha, ht]), List.append_nil]

section

variable {before : Kind} {stay : Mode} {a b : Text} (ha : '=' ∉ a)
include ha

theorem assign_append : assign before stay (a ++ '=' :: b) t =
    ⟨ofText before a ++ ⟨.setAssignment, ['=']⟩ :: ofText .setValue b, .value, t⟩ := by
  rw [assign, splitFirst_equals ha]

theorem assign_of_not_mem : assign before stay a t = ⟨[⟨before, a⟩], stay, t⟩ := by
  rw [assign, splitFirst_of_not_mem ha]

end

theorem pieces_word (h : IsWord run t) (mode : Mode) :
    pieces mode (run ++ t) =
      (step mode (.word run) t).out ++
        pieces (step mode (.word run) t).mode (step mode (.word run) t).rest := by
  rw [pieces_eq, h.next?]

theorem pieces_gap (h : IsGap run t) (mode : Mode) :
    pieces mode (run ++ t) =
      (step mode (.delimiter run) t).out ++
        pieces (step mode (.delimiter run) t).mode (step mode (.delimiter run) t).rest := by
  rw [pieces_eq, h.next?]

/-- A piece of a kind that goes on after it. -/
theorem join_piece {k : Kind} (hk : isPieced k = true) (hne : run ≠ []) {b : Text}
    {xs ys : List Lexeme} (hxs : join xs = ofText k b ++ ys) (hys : ∀ y ∈ ys.head?, y.kind ≠ k) :
    join (⟨k, run⟩ :: xs) = ofText k (run ++ b) ++ ys := by
  rw [← join_ofText_append hk run hxs hys, ofText_of_ne_nil hne]
  rfl

theorem join_pieces_value (ht : Calm t) : join (pieces .value t) = ofText .setValue t := by
  have hpiece : ∀ {run t : Text}, run ≠ [] → join (pieces .value t) = ofText .setValue t →
      join (⟨.setValue, run⟩ :: pieces .value t) = ofText .setValue (run ++ t) := by
    intro run t hne ih
    have hrest : join (pieces .value t) = ofText .setValue t ++ [] := by rw [ih, List.append_nil]
    rw [join_piece rfl hne hrest (by simp), List.append_nil]
  refine Calm.induction (P := fun t => join (pieces .value t) = ofText .setValue t) ?_ ?_ ?_ ht
  · rw [pieces_eq]
    rfl
  · intro run t h _ ih
    rw [pieces_word h]
    exact hpiece h.ne_nil ih
  · intro run t h _ ih
    rw [pieces_gap h]
    exact hpiece h.ne_nil ih

/-- The value of an assignment of which the part up to `b` has been read. -/
theorem join_assignment (k : Kind) (a b : Text) (ht : Calm t) :
    join (ofText k a ++ ⟨.setAssignment, ['=']⟩ :: ofText .setValue b ++ pieces .value t) =
      ofText k a ++ ⟨.setAssignment, ['=']⟩ :: ofText .setValue (b ++ t) := by
  have hrest : join (pieces .value t) = ofText .setValue t ++ [] := by
    rw [join_pieces_value ht, List.append_nil]
  have hvalue := join_ofText_append rfl b hrest (by simp)
  have hfront : join (ofText k a) = ofText k a := by
    cases a <;> rfl
  rw [List.append_assoc, List.cons_append, join_append_cons _ _ rfl, hvalue, hfront,
    List.append_nil]

theorem join_pieces_name (ht : Calm t) : join (pieces .name t) = quotedAssignment t := by
  have hpiece : ∀ {run t : Text}, run ≠ [] → '=' ∉ run →
      join (pieces .name t) = quotedAssignment t →
      join (⟨.setName, run⟩ :: pieces .name t) = quotedAssignment (run ++ t) := by
    intro run t hne hrun ih
    obtain ⟨b, ys, hys, hname⟩ := exists_quotedAssignment_eq t
    rw [join_piece rfl hne (ih.trans (hname [] (by simp))) hys, List.nil_append,
      ← hname run hrun]
  refine Calm.induction (P := fun t => join (pieces .name t) = quotedAssignment t) ?_ ?_ ?_ ht
  · rw [pieces_eq]
    rfl
  · intro run t h _ ih
    rw [pieces_word h]
    exact hpiece h.ne_nil h.not_mem ih
  · intro run t h ht ih
    rw [pieces_gap h]
    by_cases hrun : '=' ∈ run
    · obtain ⟨a, b, rfl, ha⟩ := List.eq_append_cons_of_mem hrun
      rw [show step .name (.delimiter (a ++ '=' :: b)) t = _ from assign_append ha]
      dsimp only
      rw [join_assignment .setName a b ht, List.append_assoc, List.cons_append,
        quotedAssignment_append ha]
    · rw [show step .name (.delimiter run) t = _ from assign_of_not_mem hrun]
      exact hpiece h.ne_nil hrun ih

/-- Where a name is expected, an equals sign right after a gap leaves it empty. -/
theorem join_pieces_lead_assign {b v : Text} (hb : ∀ c ∈ b, isDelimiter c = true) (hne : '=' ∉ b)
    (hv : Calm v) :
    join (pieces .lead (b ++ '=' :: v)) =
      ofText .delimiter b ++ ⟨.setAssignment, ['=']⟩ :: ofText .setValue v := by
  have hrest : Calm (v.dropWhile isDelimiter) := fun c hc => hv c (List.dropWhile_subset _ hc)
  have hgap : IsGap (b ++ '=' :: v.takeWhile isDelimiter) (v.dropWhile isDelimiter) := by
    obtain ⟨-, htake, hstop⟩ := isGap_takeWhile (c := '=') (t := v)
      (by simpa [Calm, isCalm, isSpecial] using hv) rfl
    refine ⟨by simp, ?_, hstop⟩
    intro c hc
    rcases List.mem_append.mp hc with hc | hc
    · exact hb c hc
    · exact htake c hc
  have hsplit : b ++ '=' :: v =
      (b ++ '=' :: v.takeWhile isDelimiter) ++ v.dropWhile isDelimiter := by
    rw [List.append_assoc, List.cons_append, List.takeWhile_append_dropWhile]
  rw [hsplit, pieces_gap hgap,
    show step .lead (.delimiter (b ++ '=' :: v.takeWhile isDelimiter)) _ = _ from assign_append hne]
  dsimp only
  rw [join_assignment .delimiter b _ hrest, List.takeWhile_append_dropWhile]

/-- Otherwise the name begins after the gap. -/
theorem join_pieces_lead_name {b : Text} (hb : ∀ c ∈ b, isDelimiter c = true) (hne : '=' ∉ b)
    (ht : Calm t) (hstop : ∀ c ∈ t.head?, isOrdinary c = true) :
    join (pieces .lead (b ++ t)) = ofText .delimiter b ++ quotedAssignment t := by
  have hname : pieces .lead t = pieces .name t := by
    cases t with
    | nil => rw [pieces_eq, pieces_eq]; rfl
    | cons c t =>
        have hword := isWord_takeWhile ht (hstop c rfl)
        have hlead := pieces_word hword .lead
        have hrest := pieces_word hword .name
        rw [List.cons_append, List.takeWhile_append_dropWhile] at hlead hrest
        rw [hlead, hrest]
        rfl
  by_cases hnil : b = []
  · rw [hnil, List.nil_append, hname, join_pieces_name ht]
    rfl
  · rw [pieces_gap ⟨hnil, hb, hstop⟩,
      show step .lead (.delimiter b) t = _ from assign_of_not_mem hne]
    dsimp only
    rw [List.singleton_append, join_cons rfl, hname, join_pieces_name ht, ofText_of_ne_nil hnil]
    rfl

end Lexer

/-! ### The reading of a whole text -/

/-- Read where a command is expected, a text without special characters gives these lexemes. -/
inductive Calmly : Text → List Lexeme → Prop
  | nil : Calmly [] []
  | word {run t : Text} {xs : List Lexeme} (hword : IsWord run t)
      (hset : (Chunk.word run).kind ≠ .setWord) (h : Calmly t xs) :
      Calmly (run ++ t) (⟨(Chunk.word run).kind, run⟩ :: xs)
  | gap {run t : Text} {xs : List Lexeme} (hgap : IsGap run t) (h : Calmly t xs) :
      Calmly (run ++ t) (⟨(Chunk.delimiter run).kind, run⟩ :: xs)
  /-- A `SET` with no name. -/
  | value {run b v : Text} (hword : IsWord run (b ++ '=' :: v))
      (hset : (Chunk.word run).kind = .setWord) (hb : ∀ c ∈ b, isDelimiter c = true)
      (hne : '=' ∉ b) :
      Calmly (run ++ (b ++ '=' :: v))
        (⟨.setWord, run⟩ :: (ofText .delimiter b ++ ⟨.setAssignment, ['=']⟩ :: ofText .setValue v))
  /-- Any other `SET`. -/
  | name {run b t : Text} (hword : IsWord run (b ++ t)) (hset : (Chunk.word run).kind = .setWord)
      (hb : ∀ c ∈ b, isDelimiter c = true) (hne : '=' ∉ b)
      (hstop : ∀ c ∈ t.head?, isOrdinary c = true) :
      Calmly (run ++ (b ++ t))
        (⟨.setWord, run⟩ :: (ofText .delimiter b ++ Lexer.quotedAssignment t))

theorem kind_gap (run : Text) :
    (Chunk.delimiter run).kind = .delimiter ∨
      run = ['=', '='] ∧ (Chunk.delimiter run).kind = .doubleEquals := by
  by_cases hrun : run = ['=', '=']
  · exact .inr ⟨hrun, if_pos hrun⟩
  · exact .inl (if_neg hrun)

/-- What holds of both kinds of gaps holds of every gap. -/
theorem forall_kind_gap {p : Kind → Bool} (h : p .delimiter = true ∧ p .doubleEquals = true)
    (run : Text) : p (Chunk.delimiter run).kind = true := by
  rcases kind_gap run with hkind | ⟨-, hkind⟩
  · rw [hkind]
    exact h.1
  · rw [hkind]
    exact h.2

/-- The separators in front of a text are one lexeme. -/
theorem Lexer.lexemes_separated {d r : Text} (hd : ∀ c ∈ d, Chunk.isDelimiter c = true)
    (hr : ∀ c ∈ r.head?, Chunk.isDelimiter c = false) : lexemes (d ++ r) =
      ofText (Chunk.delimiter d).kind d ++ join (pieces .command r) := by
  by_cases hne : d = []
  · rw [hne]
    rfl
  · have hstep : step .command (.delimiter d) r =
        ⟨[⟨(Chunk.delimiter d).kind, d⟩], .command, r⟩ := by
      rcases kind_gap d with h | ⟨rfl, -⟩
      · rw [h]
        exact command_delimiter h r
      · rfl
    have hpieced : isPieced (Chunk.delimiter d).kind = false := by
      have hnot := forall_kind_gap (p := fun k => !isPieced k) (by decide) d
      simpa using hnot
    rw [lexemes, pieces_of_next? (Chunk.next?_delimiter_append hne hd hr), hstep,
      ofText_of_ne_nil hne]
    exact join_cons hpieced _

namespace Calmly

variable {xs : List Lexeme}

/-- **A text without special characters is read as described.** -/
theorem lexemes_eq (h : Calmly t xs) (ht : Calm t) : Lexer.lexemes t = xs := by
  unfold Lexer.lexemes
  induction h with
  | nil => rw [Lexer.pieces_eq]; rfl
  | @word run t xs hword hset h ih =>
      rw [Lexer.pieces_word hword, Lexer.step, Lexer.command_word hset, List.singleton_append,
        join_cons (isPieced_word run), ih ht.of_append_right]
  | @gap run t xs hgap h ih =>
      have hread := Lexer.lexemes_separated hgap.separators fun c hc =>
        isDelimiter_of_isOrdinary (hgap.stop c hc)
      rw [ofText_of_ne_nil hgap.ne_nil, ih ht.of_append_right] at hread
      exact hread
  | @value run b v hword hset hb hne =>
      have hv : Calm v := fun c hc => ht c (by simp [hc])
      rw [Lexer.pieces_word hword, Lexer.step, Lexer.command_setWord hset, List.singleton_append,
        join_cons rfl, Lexer.join_pieces_lead_assign hb hne hv]
  | @name run b t hword hset hb hne hstop =>
      rw [Lexer.pieces_word hword, Lexer.step, Lexer.command_setWord hset, List.singleton_append,
        join_cons rfl, Lexer.join_pieces_lead_name hb hne ht.of_append_right.of_append_right hstop]

end Calmly

/-- The description leaves no such text out. -/
theorem Calm.calmly (ht : Calm t) : Calmly t (Lexer.lexemes t) := by
  have hexists : ∃ xs, Calmly t xs := by
    refine Calm.induction (P := fun t => ∃ xs, Calmly t xs) ⟨[], .nil⟩ ?_ ?_ ht
    · rintro run t hword ht ⟨xs, h⟩
      by_cases hset : (Chunk.word run).kind = .setWord
      · -- The gap after the word, if there is one, may have an equals sign in it.
        have hb : ∀ c ∈ t.takeWhile isDelimiter, isDelimiter c = true :=
          fun c hc => List.mem_takeWhile_imp hc
        have hsplit := List.takeWhile_append_dropWhile (p := isDelimiter) (l := t)
        by_cases hmem : '=' ∈ t.takeWhile isDelimiter
        · obtain ⟨b, v, hgap, hne⟩ := List.eq_append_cons_of_mem hmem
          rw [hgap] at hb
          rw [hgap, List.append_assoc, List.cons_append] at hsplit
          rw [← hsplit] at hword ⊢
          exact ⟨_, .value hword hset (fun c hc => hb c (by simp [hc])) hne⟩
        · rw [← hsplit] at hword ⊢
          refine ⟨_, .name hword hset hb hmem ?_⟩
          intro c hc
          have hspecial := isSpecial_of_isCalm
            (ht c (List.dropWhile_subset _ (List.mem_of_mem_head? hc)))
          simp [isOrdinary, hspecial, not_of_mem_head?_dropWhile hc]
      · exact ⟨_, .word hword hset h⟩
    · rintro run t hgap ht ⟨xs, h⟩
      exact ⟨_, .gap hgap h⟩
  obtain ⟨xs, h⟩ := hexists
  rwa [h.lexemes_eq ht]

end BatchTrace
