/-
Balanced parentheses and peeling.

Peeling looks at the two ends of a block only.  If these are an opening and a closing parenthesis
it takes both off, whether or not the one closes the other.  Where they do, what was balanced stays
so.  Where they do not, the block begins with one group and ends with another, as `(a) | (b)` does,
and what is left begins inside the first group and ends inside the last.

A parenthesis that is closed without having been opened is found by going along the tokens up to the
first place where more have been closed than opened: everything before it is balanced.  The same
from the end of the tokens finds the group that the last parenthesis closes.
-/
import BatchTrace.Proofs.Block.Grouping
import Mathlib.Data.List.Infix

namespace BatchTrace

namespace Block

open Token (count)

/-- Every parenthesis that is closed was opened before, and all of them are closed in the end. -/
structure Balanced (ts : List Token) : Prop where
  opened : ∀ p, p <+: ts → count .rParen p ≤ count .lParen p
  closed : count .lParen ts = count .rParen ts

instance (ts : List Token) : Decidable (Balanced ts) :=
  decidable_of_iff ((∀ p ∈ ts.inits, count .rParen p ≤ count .lParen p) ∧
    count .lParen ts = count .rParen ts)
    ⟨fun h => ⟨fun p hp => h.1 p ((List.mem_inits p ts).mpr hp), h.2⟩,
      fun h => ⟨fun p hp => h.opened p ((List.mem_inits p ts).mp hp), h.closed⟩⟩

/-- One group at the beginning and another one at the end. -/
def Flanked (ts : List Token) : Prop :=
  ∃ first x second y third z last,
    ts = first :: (x ++ second :: (y ++ third :: (z ++ [last]))) ∧
      (first.kind = .lParen ∧ second.kind = .rParen ∧ third.kind = .lParen ∧
        last.kind = .rParen) ∧
      Balanced x ∧ Balanced y ∧ Balanced z

variable {ts us x y front core back : List Token} {t opening closing : Token}

/-! ### Parts of balanced tokens -/

theorem Balanced.of_append (h : Balanced (x ++ y)) (hx : count .lParen x = count .rParen x) :
    Balanced y where
  opened p hp := by
    have hopened := h.opened (x ++ p) ((List.prefix_append_right_inj x).mpr hp)
    rw [Token.count_append, Token.count_append] at hopened
    omega
  closed := by
    have hclosed := h.closed
    rw [Token.count_append, Token.count_append] at hclosed
    omega

theorem Balanced.of_append_left (h : Balanced (x ++ y)) (hx : count .lParen x = count .rParen x) :
    Balanced x :=
  ⟨fun p hp => h.opened p (hp.trans (List.prefix_append x y)), hx⟩

theorem Balanced.trimDelimiters (h : Balanced ts) : Balanced (trimDelimiters ts) := by
  obtain ⟨front, back, hts, hfront, hback⟩ := exists_trimDelimiters ts
  have hinner : Balanced (Block.trimDelimiters ts ++ back) := by
    rw [hts] at h
    refine h.of_append ?_
    rw [Token.count_eq_zero_of_kind hfront (by decide),
      Token.count_eq_zero_of_kind hfront (by decide)]
  refine hinner.of_append_left ?_
  have hclosed := hinner.closed
  rwa [Token.count_append, Token.count_append, Token.count_eq_zero_of_kind hback (by decide),
    Token.count_eq_zero_of_kind hback (by decide)] at hclosed

/-! ### Where a parenthesis is closed or opened -/

/-- The first parenthesis that is closed without having been opened has balanced tokens before
it. -/
theorem exists_unopened (h : ∃ p, p <+: ts ∧ count .lParen p < count .rParen p) :
    ∃ x closing w, ts = x ++ closing :: w ∧ closing.kind = .rParen ∧ Balanced x := by
  induction ts using List.reverseRecOn with
  | nil =>
      obtain ⟨p, hp, hlt⟩ := h
      rw [List.prefix_nil.mp hp] at hlt
      simp at hlt
  | append_singleton ts t ih =>
      by_cases hbefore : ∃ p, p <+: ts ∧ count .lParen p < count .rParen p
      · obtain ⟨x, closing, w, rfl, hclosing, hx⟩ := ih hbefore
        exact ⟨x, closing, w ++ [t], by simp, hclosing, hx⟩
      · have hopened : ∀ p, p <+: ts → count .rParen p ≤ count .lParen p := fun p hp =>
          Nat.le_of_not_lt fun hlt => hbefore ⟨p, hp, hlt⟩
        obtain ⟨p, hp, hlt⟩ := h
        rcases List.prefix_concat_iff.mp hp with rfl | hp
        · have hts := hopened ts (List.prefix_refl ts)
          rw [Token.count_append, Token.count_append, Token.count_cons, Token.count_cons] at hlt
          -- One token makes the difference, so it closes and the counts before it are equal.
          by_cases hclosing : t.kind = .rParen
          · simp only [hclosing, Token.count_nil, reduceCtorEq, if_true, if_false] at hlt
            exact ⟨ts, t, [], rfl, hclosing, hopened, by omega⟩
          · simp only [hclosing, Token.count_nil, if_false] at hlt
            omega
        · exact absurd ⟨p, hp, hlt⟩ hbefore

/-- The last parenthesis that is opened and not closed has balanced tokens behind it. -/
theorem exists_unclosed (h : ∃ s, s <:+ ts ∧ count .rParen s < count .lParen s) :
    ∃ w opening x, ts = w ++ opening :: x ∧ opening.kind = .lParen ∧ Balanced x := by
  induction ts with
  | nil =>
      obtain ⟨s, hs, hlt⟩ := h
      rw [List.suffix_nil.mp hs] at hlt
      simp at hlt
  | cons t ts ih =>
      by_cases hbehind : ∃ s, s <:+ ts ∧ count .rParen s < count .lParen s
      · obtain ⟨w, opening, x, rfl, hopening, hx⟩ := ih hbehind
        exact ⟨t :: w, opening, x, rfl, hopening, hx⟩
      · have hclosed : ∀ s, s <:+ ts → count .lParen s ≤ count .rParen s := fun s hs =>
          Nat.le_of_not_lt fun hlt => hbehind ⟨s, hs, hlt⟩
        obtain ⟨s, hs, hlt⟩ := h
        rcases List.suffix_cons_iff.mp hs with rfl | hs
        · have hts := hclosed ts (List.suffix_refl ts)
          rw [Token.count_cons, Token.count_cons] at hlt
          by_cases hopening : t.kind = .lParen
          · simp only [hopening, reduceCtorEq, if_true, if_false] at hlt
            refine ⟨[], t, ts, rfl, hopening, ?_, by omega⟩
            -- What is missing behind a prefix is closed there, so it was opened in the prefix.
            rintro p ⟨s, rfl⟩
            have hs := hclosed s (List.suffix_append p s)
            rw [Token.count_append, Token.count_append] at hlt hts
            omega
          · simp only [hopening, if_false] at hlt
            omega
        · exact absurd ⟨s, hs, hlt⟩ hbehind

/-- Balanced tokens that end with a closing parenthesis end with a group. -/
theorem Balanced.exists_last_group (h : Balanced (ts ++ [closing]))
    (hclosing : closing.kind = .rParen) : ∃ y opening z, ts = y ++ opening :: z ∧
      opening.kind = .lParen ∧ Balanced y ∧ Balanced z := by
  have hclosed := h.closed
  simp only [Token.count_append, Token.count_cons, Token.count_nil, hclosing, reduceCtorEq,
    if_true, if_false] at hclosed
  obtain ⟨y, opening, z, rfl, hopening, hz⟩ :=
    exists_unclosed ⟨ts, List.suffix_refl ts, by omega⟩
  rw [List.append_assoc] at h
  refine ⟨y, opening, z, rfl, hopening, h.of_append_left ?_, hz⟩
  have hinner := hz.closed
  simp only [Token.count_append, Token.count_cons, hopening, reduceCtorEq, if_true, if_false]
    at hclosed
  omega

/-- Two parentheses at the ends that are no pair belong to two groups. -/
theorem Balanced.flanked (h : Balanced (opening :: (us ++ [closing])))
    (hopening : opening.kind = .lParen) (hclosing : closing.kind = .rParen) (hus : ¬ Balanced us) :
    Flanked (opening :: (us ++ [closing])) := by
  have hcount : count .lParen us = count .rParen us := by
    have hclosed := h.closed
    simp only [Token.count_append, Token.count_cons, Token.count_nil, hopening, hclosing,
      reduceCtorEq, if_true, if_false] at hclosed
    omega
  have hunopened : ∃ p, p <+: us ∧ count .lParen p < count .rParen p := by
    by_contra hnone
    exact hus ⟨fun p hp => Nat.le_of_not_lt fun hlt => hnone ⟨p, hp, hlt⟩, hcount⟩
  obtain ⟨x, second, w, rfl, hsecond, hx⟩ := exists_unopened hunopened
  have hrest : Balanced (w ++ [closing]) := by
    have hsplit : opening :: (x ++ second :: w ++ [closing]) =
        (opening :: (x ++ [second])) ++ (w ++ [closing]) := by simp
    rw [hsplit] at h
    refine h.of_append ?_
    have hinner := hx.closed
    simp only [Token.count_append, Token.count_cons, Token.count_nil, hopening, hsecond,
      reduceCtorEq, if_true, if_false]
    omega
  obtain ⟨y, third, z, rfl, hthird, hy, hz⟩ := hrest.exists_last_group hclosing
  exact ⟨opening, x, second, y, third, z, closing, by simp,
    ⟨hopening, hsecond, hthird, hclosing⟩, hx, hy, hz⟩

/-! ### What peeling does to groups -/

namespace Wraps

variable (h : Wraps front back)
include h

theorem count_rParen_front : count .rParen front = 0 :=
  Token.count_eq_zero_iff.mpr fun t ht hkind => by simpa [hkind] using h.opens t ht

theorem count_lParen_back : count .lParen back = 0 :=
  Token.count_eq_zero_iff.mpr fun t ht hkind => by simpa [hkind] using h.closes t ht

/-- A wrapping does not reach past a parenthesis of the wrong kind. -/
theorem exists_core_eq {l m r : List Token} (hclosing : closing.kind = .rParen)
    (hopening : opening.kind = .lParen)
    (hsplit : l ++ closing :: (m ++ opening :: r) = front ++ (core ++ back)) :
    ∃ l' r', l = front ++ l' ∧ core = l' ++ closing :: (m ++ opening :: r') := by
  have hfront : closing ∉ front := fun hmem => by simpa [hclosing] using h.opens closing hmem
  have hback : opening ∉ back := fun hmem => by simpa [hopening] using h.closes opening hmem
  obtain ⟨l', hl, hrest⟩ := exists_append_of_not_mem_left hfront hsplit
  have hrest' : (l' ++ closing :: m) ++ opening :: r = core ++ back := by
    rw [hrest]
    simp
  obtain ⟨r', -, hcore⟩ := exists_append_of_not_mem_right hback hrest'
  exact ⟨l', r', hl, by simp [hcore]⟩

end Wraps

/-- Of two groups side by side, the first one stays closed and loses its opening parenthesis. -/
theorem Flanked.not_balanced_peel (h : Flanked core) : ¬ Balanced (peel core) := by
  obtain ⟨first, x, second, y, third, z, last, rfl, ⟨hfirst, hsecond, hthird, hlast⟩, hx, -, -⟩ := h
  have hpeel : peel (first :: (x ++ second :: (y ++ third :: (z ++ [last])))) =
      peel (x ++ second :: (y ++ third :: z)) := by
    rw [← peel_pair hfirst hlast (x ++ second :: (y ++ third :: z))]
    simp
  rw [hpeel]
  obtain ⟨front, back, -, hsplit, hwraps, -⟩ :=
    exists_wraps_peel (x ++ second :: (y ++ third :: z))
  obtain ⟨x', z', rfl, hkept⟩ := hwraps.exists_core_eq hsecond hthird hsplit
  rw [hkept]
  intro hbalanced
  have hopened := hbalanced.opened (x' ++ [second]) ⟨y ++ third :: z', by simp⟩
  have hclosed := hx.closed
  simp only [Token.count_append, Token.count_cons, Token.count_nil, hsecond, reduceCtorEq,
    if_true, if_false, hwraps.count_rParen_front] at hopened hclosed
  omega

/-- If balance is lost, it is lost in a round that meets two groups side by side. -/
theorem Balanced.exists_flanked (h : Balanced ts) (hpeel : ¬ Balanced (peel ts)) :
    ∃ front core back, ts = front ++ (core ++ back) ∧ Wraps front back ∧ Flanked core := by
  fun_induction peel ts with
  | case1 ts us hround ih =>
      by_cases hus : Balanced us
      · obtain ⟨front, back, hts, hwraps, -⟩ := exists_wraps_of_round? hround
        obtain ⟨front', core, back', rfl, hwraps', hcore⟩ := ih hus hpeel
        exact ⟨front ++ front', core, back' ++ back, by simp [hts], hwraps.append hwraps', hcore⟩
      · obtain ⟨front, back, hts, hfront, hback⟩ := exists_trimDelimiters ts
        obtain ⟨opening, closing, htrim, hopening, hclosing⟩ := inner?_eq_some_iff.mp hround
        have hcore := h.trimDelimiters
        rw [htrim] at hts hcore
        exact ⟨front, _, back, hts, .of_delimiters hfront hback,
          hcore.flanked hopening hclosing hus⟩
  | case2 ts hround => exact absurd h.trimDelimiters hpeel

/--
**Peeling keeps the balance of parentheses unless it meets two groups side by side.**  Of a balanced
block it leaves as many closing as opening parentheses.  These are balanced as well, except if
under some layers of grouping the block begins with one group and ends with another: then the
opening parenthesis of the first and the closing one of the last are taken off as if they were a
pair.
-/
theorem balanced_peel_iff (h : Balanced ts) :
    count .lParen (peel ts) = count .rParen (peel ts) ∧
      (Balanced (peel ts) ↔ ¬ ∃ front core back, ts = front ++ (core ++ back) ∧
        Wraps front back ∧ Flanked core) := by
  constructor
  · obtain ⟨front, back, -, hts, hwraps, -⟩ := exists_wraps_peel ts
    have hclosed := h.closed
    rw [hts] at hclosed
    simp only [Token.count_append, hwraps.count_rParen_front, hwraps.count_lParen_back,
      hwraps.paired] at hclosed
    omega
  · constructor
    · rintro hpeel ⟨front, core, back, rfl, hwraps, hcore⟩
      rw [hwraps.peel_eq] at hpeel
      exact hcore.not_balanced_peel hpeel
    · exact fun hnone => by_contra fun hpeel => hnone (h.exists_flanked hpeel)

theorem balanced_peel_iff_layers :
    let ts := Token.tokenize "( ((a) | (b) c) )".toList
    Balanced ts ∧ Balanced (peel ts) ∧
      count .lParen (peel ts) = count .rParen (peel ts) ∧
      (Balanced (peel ts) ↔ ¬ ∃ front core back, ts = front ++ (core ++ back) ∧
        Wraps front back ∧ Flanked core) := by
  intro ts
  have hts : Balanced ts := by decide +kernel
  exact ⟨hts, by decide +kernel, balanced_peel_iff hts⟩

/-- Two groups in a pipe are broken up: `a) | (b` is left of `(a) | (b)`. -/
theorem not_balanced_peel_pipe :
    let ts := Token.tokenize "(a) | (b)".toList
    Balanced ts ∧ Token.stringify (peel ts) = "a) | (b".toList ∧ ¬ Balanced (peel ts) := by
  decide +kernel

end Block

end BatchTrace
