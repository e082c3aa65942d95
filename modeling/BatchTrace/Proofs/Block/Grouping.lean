/-
What is taken off a block.

A block may be wrapped: in front of it stand separators and opening parentheses, behind it
separators and closing ones, of these as many as of the others.  `Wraps` says so, and `Bare` says
that nothing is left to be taken off.  `peel` takes off a wrapping in rounds, each of which drops
the separators at both ends and one pair of parentheses, until the tokens are bare.

A wrapping consists of layers: a separator in front, a separator behind, or a pair of parentheses
around the rest.  Taking one layer off makes no difference to what peeling leaves, so by induction
on the layers it does not matter how a block is unwrapped: whatever is bare in the end is the same.
-/
import BatchTrace.Proofs.Text.Trimming
import BatchTrace.Proofs.Token.LetterCase
import Mathlib.Data.List.Induction

namespace BatchTrace

/-- How many tokens are of a kind. -/
def Token.count (k : Kind) (ts : List Token) : Nat :=
  ts.countP (·.kind = k)

namespace Token

variable {j k : Kind} {ts us : List Token} {t : Token}

@[simp]
theorem count_nil : count k [] = 0 := rfl

@[simp]
theorem count_append : count k (ts ++ us) = count k ts + count k us :=
  List.countP_append

theorem count_cons : count k (t :: ts) = count k ts + if t.kind = k then 1 else 0 := by
  simp [count, List.countP_cons]

theorem count_eq_zero_iff : count k ts = 0 ↔ ∀ t ∈ ts, t.kind ≠ k := by
  simp [count, List.countP_eq_zero]

theorem count_eq_zero_of_kind (h : ∀ t ∈ ts, t.kind = j) (hne : j ≠ k) : count k ts = 0 :=
  count_eq_zero_iff.mpr fun t ht => h t ht ▸ hne

end Token

namespace Block

open Token (count)

/-- Grouping puts nothing but this around a block. -/
structure Wraps (front back : List Token) : Prop where
  opens : ∀ t ∈ front, t.kind = .delimiter ∨ t.kind = .lParen
  closes : ∀ t ∈ back, t.kind = .delimiter ∨ t.kind = .rParen
  /-- As many parentheses are closed behind as are opened in front. -/
  paired : count .lParen front = count .rParen back

/-- Nothing is left to be taken off. -/
structure Bare (ts : List Token) : Prop where
  head : ∀ t ∈ ts.head?, t.kind ≠ .delimiter
  last : ∀ t ∈ ts.getLast?, t.kind ≠ .delimiter
  ungrouped : ∀ opening inside closing, ts = opening :: (inside ++ [closing]) →
    ¬ (opening.kind = .lParen ∧ closing.kind = .rParen)

/-- What a round of peeling leaves, if it finds parentheses to take off. -/
def round? (ts : List Token) : Option (List Token) :=
  inner? (trimDelimiters ts)

/-- What some rounds of peeling leave, if there are so many. -/
def afterRounds? : Nat → List Token → Option (List Token)
  | 0, ts => some ts
  | n + 1, ts => (round? ts).bind (afterRounds? n)

variable {ts us front core back : List Token} {t opening closing : Token}

/-! ### Wrappings -/

namespace Wraps

theorem of_delimiters (hfront : ∀ t ∈ front, t.kind = .delimiter)
    (hback : ∀ t ∈ back, t.kind = .delimiter) : Wraps front back where
  opens t ht := Or.inl (hfront t ht)
  closes t ht := Or.inl (hback t ht)
  paired := by
    rw [Token.count_eq_zero_of_kind hfront (by decide),
      Token.count_eq_zero_of_kind hback (by decide)]

theorem of_pair (hopening : opening.kind = .lParen) (hclosing : closing.kind = .rParen) :
    Wraps [opening] [closing] where
  opens := by simp [hopening]
  closes := by simp [hclosing]
  paired := by simp [Token.count_cons, hopening, hclosing]

/-- One wrapping inside another. -/
theorem append {front' back' : List Token} (h : Wraps front back) (hs : Wraps front' back') :
    Wraps (front ++ front') (back' ++ back) where
  opens := List.forall_mem_append.mpr ⟨h.opens, hs.opens⟩
  closes := List.forall_mem_append.mpr ⟨hs.closes, h.closes⟩
  paired := by
    rw [Token.count_append, Token.count_append, h.paired, hs.paired, Nat.add_comm]

/-- A wrapping is put together from its layers, the outermost one last. -/
theorem layers {motive : List Token → List Token → Prop} (nil : motive [] [])
    (before : ∀ t front back, t.kind = .delimiter → motive front back → motive (t :: front) back)
    (behind : ∀ t front back, t.kind = .delimiter → motive front back → motive front (back ++ [t]))
    (pair : ∀ opening closing front back, opening.kind = .lParen → closing.kind = .rParen →
      motive front back → motive (opening :: front) (back ++ [closing]))
    (h : Wraps front back) : motive front back := by
  induction front generalizing back with
  | nil =>
      -- There is nothing to be closed, so all that stands behind are separators.
      induction back using List.reverseRecOn with
      | nil => exact nil
      | append_singleton back t ih =>
          have hcount : count .rParen (back ++ [t]) = 0 := h.paired.symm
          have hunclosed := Token.count_eq_zero_iff.mp hcount
          have ht := (h.closes t (by simp)).resolve_right (hunclosed t (by simp))
          refine behind t [] back ht (ih ⟨by simp, fun u hu => h.closes u (by simp [hu]), ?_⟩)
          exact (Token.count_eq_zero_iff.mpr fun u hu => hunclosed u (by simp [hu])).symm
  | cons opening front ihFront =>
      have hfront : ∀ u ∈ front, u.kind = .delimiter ∨ u.kind = .lParen := fun u hu =>
        h.opens u (by simp [hu])
      rcases h.opens opening (by simp) with hopening | hopening
      · refine before opening front back hopening (ihFront ⟨hfront, h.closes, ?_⟩)
        simpa [Token.count_cons, hopening] using h.paired
      · -- The pair is closed by the last token behind that is no separator.
        induction back using List.reverseRecOn with
        | nil => simpa [Token.count_cons, hopening] using h.paired
        | append_singleton back t ih =>
            have hback : ∀ u ∈ back, u.kind = .delimiter ∨ u.kind = .rParen := fun u hu =>
              h.closes u (by simp [hu])
            have hpaired := h.paired
            rcases h.closes t (by simp) with ht | ht
            · refine behind t _ back ht (ih ⟨h.opens, hback, ?_⟩)
              simpa [Token.count_cons, ht] using hpaired
            · refine pair opening t front back hopening ht (ihFront ⟨hfront, hback, ?_⟩)
              simpa [Token.count_cons, hopening, ht] using hpaired

end Wraps

/-! ### What a round does -/

theorem exists_trimDelimiters (ts : List Token) :
    ∃ front back, ts = front ++ (trimDelimiters ts ++ back) ∧
      (∀ t ∈ front, t.kind = .delimiter) ∧ ∀ t ∈ back, t.kind = .delimiter := by
  obtain ⟨front, back, hts, hfront, hback⟩ := exists_ends (fun t : Token => t.kind = .delimiter) ts
  exact ⟨front, back, hts, by simpa using hfront, by simpa using hback⟩

theorem ne_delimiter_of_mem_head? (h : t ∈ (trimDelimiters ts).head?) : t.kind ≠ .delimiter :=
  of_decide_eq_false (not_of_mem_head?_ends (p := fun t : Token => t.kind = .delimiter) h)

theorem ne_delimiter_of_mem_getLast? (h : t ∈ (trimDelimiters ts).getLast?) :
    t.kind ≠ .delimiter :=
  of_decide_eq_false (not_of_mem_getLast?_ends (p := fun t : Token => t.kind = .delimiter) h)

theorem trimDelimiters_append (hfront : ∀ t ∈ front, t.kind = .delimiter)
    (hback : ∀ t ∈ back, t.kind = .delimiter) :
    trimDelimiters (front ++ (ts ++ back)) = trimDelimiters ts := by
  obtain ⟨front', back', hts, hfront', hback'⟩ := exists_trimDelimiters ts
  have hsplit : front ++ (ts ++ back) =
      front ++ front' ++ (trimDelimiters ts ++ (back' ++ back)) := by
    rw [List.append_assoc front, ← List.append_assoc _ back', ← List.append_assoc front', ← hts]
  rw [hsplit]
  refine ends_eq (p := fun t : Token => t.kind = .delimiter) ?_ ?_ ?_ ?_
  · simpa using fun t ht => ht.elim (hfront t) (hfront' t)
  · simpa using fun t ht => ht.elim (hback' t) (hback t)
  · exact fun t ht => decide_eq_false (ne_delimiter_of_mem_head? ht)
  · exact fun t ht => decide_eq_false (ne_delimiter_of_mem_getLast? ht)

theorem trimDelimiters_eq_self (hhead : ∀ t ∈ ts.head?, t.kind ≠ .delimiter)
    (hlast : ∀ t ∈ ts.getLast?, t.kind ≠ .delimiter) : trimDelimiters ts = ts := by
  have hends : trimDelimiters ([] ++ (ts ++ [])) = ts :=
    ends_eq (p := fun t : Token => t.kind = .delimiter) (by simp) (by simp)
      (fun t ht => decide_eq_false (hhead t ht)) (fun t ht => decide_eq_false (hlast t ht))
  rwa [List.nil_append, List.append_nil] at hends

/-- A round takes off a wrapping with one pair of parentheses. -/
theorem exists_wraps_of_round? (h : round? ts = some us) : ∃ front back,
    ts = front ++ (us ++ back) ∧ Wraps front back ∧ count .lParen front = 1 := by
  obtain ⟨front, back, hts, hfront, hback⟩ := exists_trimDelimiters ts
  obtain ⟨opening, closing, htrim, hopening, hclosing⟩ := inner?_eq_some_iff.mp h
  refine ⟨front ++ [opening], [closing] ++ back, ?_,
    (Wraps.of_delimiters hfront hback).append (.of_pair hopening hclosing), ?_⟩
  · rw [hts, htrim]
    simp
  · rw [Token.count_append, Token.count_eq_zero_of_kind hfront (by decide)]
    simp [Token.count_cons, hopening]

theorem bare_of_round? (h : round? ts = none) : Bare (trimDelimiters ts) where
  head _ ht := ne_delimiter_of_mem_head? ht
  last _ ht := ne_delimiter_of_mem_getLast? ht
  ungrouped opening inside closing htrim hkinds := by
    rw [round?, inner?_eq_some_iff.mpr ⟨opening, closing, htrim, hkinds⟩] at h
    cases h

/-! ### What peeling leaves -/

theorem Bare.peel_eq (h : Bare ts) : peel ts = ts := by
  have htrim := trimDelimiters_eq_self h.head h.last
  have hnone : inner? ts = none := by
    rw [Option.eq_none_iff_forall_ne_some]
    intro us hus
    obtain ⟨opening, closing, hts, hkinds⟩ := inner?_eq_some_iff.mp hus
    exact h.ungrouped opening us closing hts hkinds
  rw [Block.peel_eq, htrim, hnone]

/-- Separators at the ends make no difference to what peeling leaves. -/
theorem peel_of_trimDelimiters_eq (h : trimDelimiters ts = trimDelimiters us) :
    peel ts = peel us := by
  rw [Block.peel_eq, Block.peel_eq, h]

theorem peel_pair (hopening : opening.kind = .lParen) (hclosing : closing.kind = .rParen)
    (ts : List Token) : peel (opening :: (ts ++ [closing])) = peel ts := by
  have htrim : trimDelimiters (opening :: (ts ++ [closing])) = opening :: (ts ++ [closing]) := by
    refine trimDelimiters_eq_self (by simp [hopening]) ?_
    rw [← List.cons_append, List.getLast?_concat]
    simp [hclosing]
  rw [Block.peel_eq, htrim, inner?_eq_some_iff.mpr ⟨opening, closing, rfl, hopening, hclosing⟩]

/-- **It does not matter how a block is wrapped.** -/
theorem Wraps.peel_eq (h : Wraps front back) (core : List Token) :
    peel (front ++ (core ++ back)) = peel core := by
  refine h.layers (motive := fun front back => peel (front ++ (core ++ back)) = peel core)
    ?nil ?before ?behind ?pair
  case nil => rw [List.nil_append, List.append_nil]
  case before =>
    intro t front back ht ih
    have htrim : trimDelimiters ([t] ++ (front ++ (core ++ back) ++ [])) =
        trimDelimiters (front ++ (core ++ back)) :=
      trimDelimiters_append (by simpa using ht) (by simp)
    rw [← ih]
    exact peel_of_trimDelimiters_eq (by simpa using htrim)
  case behind =>
    intro t front back ht ih
    have htrim : trimDelimiters ([] ++ (front ++ (core ++ back) ++ [t])) =
        trimDelimiters (front ++ (core ++ back)) :=
      trimDelimiters_append (by simp) (by simpa using ht)
    rw [← ih]
    exact peel_of_trimDelimiters_eq (by simpa using htrim)
  case pair =>
    intro opening closing front back hopening hclosing ih
    rw [← ih, ← peel_pair hopening hclosing (front ++ (core ++ back))]
    simp

/-- Peeling takes off a wrapping in as many rounds as this has pairs of parentheses. -/
theorem exists_wraps_peel (ts : List Token) : ∃ front back us,
    ts = front ++ (peel ts ++ back) ∧ Wraps front back ∧
      afterRounds? (count .lParen front) ts = some us ∧ round? us = none ∧
      trimDelimiters us = peel ts := by
  fun_induction peel ts with
  | case1 ts us hround ih =>
      obtain ⟨front, back, hts, hwraps, hcount⟩ := exists_wraps_of_round? hround
      obtain ⟨front', back', last, hus, hwraps', hrounds, hlast⟩ := ih
      refine ⟨front ++ front', back' ++ back, last, ?_, hwraps.append hwraps', ?_, hlast⟩
      · rw [List.append_assoc front, ← List.append_assoc _ back', ← List.append_assoc front', ← hus,
          ← hts]
      · rw [Token.count_append, hcount, Nat.add_comm]
        exact (congrArg (Option.bind · _) hround).trans hrounds
  | case2 ts hround =>
      obtain ⟨front, back, hts, hfront, hback⟩ := exists_trimDelimiters ts
      refine ⟨front, back, ts, hts, .of_delimiters hfront hback, ?_, hround, rfl⟩
      rw [Token.count_eq_zero_of_kind hfront (by decide)]
      rfl

theorem bare_peel (ts : List Token) : Bare (peel ts) := by
  obtain ⟨-, -, us, -, -, -, hround, htrim⟩ := exists_wraps_peel ts
  exact htrim ▸ bare_of_round? hround

/--
**Peeling takes off parentheses in pairs, and all of them.**  A block is what peeling leaves of it
with a wrapping around it: separators and opening parentheses in front, separators and as many
closing parentheses behind.  Peeling stops after one round for each pair.  What it leaves is bare,
so that peeling it once more changes nothing, and there is no other way to unwrap the block.
-/
theorem peel_unwraps (ts : List Token) :
    (∃ front back us, ts = front ++ (peel ts ++ back) ∧
      ((∀ t ∈ front, t.kind = .delimiter ∨ t.kind = .lParen) ∧
        (∀ t ∈ back, t.kind = .delimiter ∨ t.kind = .rParen) ∧
        count .lParen front = count .rParen back) ∧
      afterRounds? (count .lParen front) ts = some us ∧ round? us = none ∧
      trimDelimiters us = peel ts) ∧
    ((∀ t ∈ (peel ts).head?, t.kind ≠ .delimiter) ∧
      (∀ t ∈ (peel ts).getLast?, t.kind ≠ .delimiter) ∧
      ¬ ∃ opening inside closing, peel ts = opening :: (inside ++ [closing]) ∧
        opening.kind = .lParen ∧ closing.kind = .rParen) ∧
    (∀ front core back, ts = front ++ (core ++ back) → Wraps front back → Bare core →
      core = peel ts) ∧
    peel (peel ts) = peel ts := by
  obtain ⟨front, back, us, hts, hwraps, hrounds⟩ := exists_wraps_peel ts
  have hbare := bare_peel ts
  refine ⟨⟨front, back, us, hts, ⟨hwraps.opens, hwraps.closes, hwraps.paired⟩, hrounds⟩,
    ⟨hbare.head, hbare.last, ?_⟩, ?_, hbare.peel_eq⟩
  · rintro ⟨opening, inside, closing, hgroup, hkinds⟩
    exact hbare.ungrouped opening inside closing hgroup hkinds
  · intro front core back hts hwraps hcore
    rw [hts, hwraps.peel_eq, hcore.peel_eq]

end Block

end BatchTrace
