/-
Tokens next to each other.

What most cleaning passes leave behind is a fact about neighbours: no opening quote
right before a closing one, no two literals in a row, no two separators in a row.
`Apart R` is that kind of fact, for any relation `R` between kinds.  It looks at
kinds only, so the passes that rewrite texts and positions keep it, and so does
fusing neighbours of one kind: the fused token has the kind of both.

The two fusing passes differ in nothing but their `R`.  Each of them ends with its
tokens apart and, since there is nothing left to fuse, leaves such tokens alone.
-/
import BatchTrace.Token.Cleaning
import Mathlib.Data.List.Chain
import Mathlib.Data.List.DropRight

namespace BatchTrace

namespace Kind

/-- An opening quote right before a closing one. -/
def EmptyPair (k l : Kind) : Prop :=
  k = .stringDquoteBegin ∧ l = .stringDquoteEnd

/-- Two tokens in a row that say the same as one. -/
def Mergeable (k l : Kind) : Prop :=
  k = l ∧ l.isMergeable = true

/-- Two separators in a row. -/
def Separators (k l : Kind) : Prop :=
  k = .delimiter ∧ l = .delimiter

end Kind

namespace Token

/-- No token has a kind that is related by `R` to the kind of the token after it. -/
def Apart (R : Kind → Kind → Prop) (ts : List Token) : Prop :=
  ts.IsChain fun a b => ¬ R a.kind b.kind

namespace Apart

variable {R : Kind → Kind → Prop} {ts : List Token}

theorem map {f : Token → Token} (hf : ∀ t, (f t).kind = t.kind) (h : Apart R ts) :
    Apart R (ts.map f) := by
  refine List.isChain_map_of_isChain f ?_ h
  intro a b hab
  rwa [hf, hf]

theorem congr_head {a b : Token} (hkind : b.kind = a.kind) (h : Apart R (a :: ts)) :
    Apart R (b :: ts) := by
  refine List.IsChain.imp_head ?_ h
  intro c hc
  rwa [hkind]

end Apart

/-! ### Fusing neighbours -/

@[simp] theorem kind_fuse (t next : Token) : (t.fuse next).kind = t.kind := rfl

section

variable {joins : Token → Token → Bool}

/-- Fusing changes no token's kind. -/
theorem exists_cons_fuseFrom (joins : Token → Token → Bool) (t : Token) (rest : List Token) :
    ∃ u us, fuseFrom joins t rest = u :: us ∧ u.kind = t.kind := by
  induction rest generalizing t with
  | nil => exact ⟨t, [], rfl, rfl⟩
  | cons next rest ih =>
      rw [fuseFrom]
      split
      · exact ih (t.fuse next)
      · exact ⟨t, _, rfl, rfl⟩

theorem forall_fuseFrom {P : Token → Prop}
    (hfuse : ∀ a b, joins a b = true → P a → P b → P (a.fuse b)) {t : Token} {rest : List Token}
    (ht : P t) (hrest : ∀ u ∈ rest, P u) : ∀ u ∈ fuseFrom joins t rest, P u := by
  induction rest generalizing t with
  | nil => simpa [fuseFrom] using ht
  | cons next rest ih =>
      have hnext : P next := hrest next (by simp)
      have hrest' : ∀ u ∈ rest, P u := fun u hu => hrest u (by simp [hu])
      rw [fuseFrom]
      split
      · rename_i hjoin
        exact ih (hfuse t next hjoin ht hnext) hrest'
      · intro u hu
        rcases List.mem_cons.mp hu with rfl | hu
        · exact ht
        · exact ih hnext hrest' u hu

/-- A property that fusing keeps holds of all tokens after fusing if it held before. -/
theorem forall_fuseRuns {P : Token → Prop}
    (hfuse : ∀ a b, joins a b = true → P a → P b → P (a.fuse b)) {ts : List Token}
    (hts : ∀ u ∈ ts, P u) : ∀ u ∈ fuseRuns joins ts, P u := by
  cases ts with
  | nil => simp [fuseRuns]
  | cons t rest => exact forall_fuseFrom hfuse (hts t (by simp)) fun u hu => hts u (by simp [hu])

theorem Apart.fuseFrom {Q : Kind → Kind → Prop}
    (hsame : ∀ a b, joins a b = true → a.kind = b.kind) {t : Token} {rest : List Token}
    (h : Apart Q (t :: rest)) : Apart Q (fuseFrom joins t rest) := by
  induction rest generalizing t with
  | nil => exact h
  | cons next rest ih =>
      obtain ⟨hhead, htail⟩ := List.isChain_cons_cons.mp h
      rw [Token.fuseFrom]
      split
      · rename_i hjoin
        exact ih (Apart.congr_head (hsame t next hjoin) htail)
      · obtain ⟨u, us, heq, hkind⟩ := exists_cons_fuseFrom joins next rest
        have hrec := ih htail
        rw [heq] at hrec ⊢
        exact List.isChain_cons_cons.mpr ⟨by rwa [hkind], hrec⟩

/-- Fusing neighbours of one kind keeps any two kinds apart that were apart. -/
theorem Apart.fuseRuns {Q : Kind → Kind → Prop}
    (hsame : ∀ a b, joins a b = true → a.kind = b.kind) {ts : List Token} (h : Apart Q ts) :
    Apart Q (fuseRuns joins ts) := by
  cases ts with
  | nil => exact h
  | cons t rest => exact h.fuseFrom hsame

end

section

variable {R : Kind → Kind → Prop} {joins : Token → Token → Bool}

theorem apart_fuseFrom (hjoins : ∀ a b, joins a b = true ↔ R a.kind b.kind) (t : Token)
    (rest : List Token) : Apart R (fuseFrom joins t rest) := by
  induction rest generalizing t with
  | nil => exact List.isChain_singleton t
  | cons next rest ih =>
      rw [fuseFrom]
      split
      · exact ih (t.fuse next)
      · rename_i hjoin
        -- What comes next is not `next` itself but what `next` is fused to, which has its kind.
        obtain ⟨u, us, heq, hkind⟩ := exists_cons_fuseFrom joins next rest
        have hrec := ih next
        rw [heq] at hrec ⊢
        refine List.isChain_cons_cons.mpr ⟨?_, hrec⟩
        rw [hkind, ← hjoins]
        exact hjoin

/-- After fusing no neighbours are left that could be fused. -/
theorem apart_fuseRuns (hjoins : ∀ a b, joins a b = true ↔ R a.kind b.kind) (ts : List Token) :
    Apart R (fuseRuns joins ts) := by
  cases ts with
  | nil => exact List.isChain_nil
  | cons t rest => exact apart_fuseFrom hjoins t rest

theorem fuseFrom_of_apart (hjoins : ∀ a b, joins a b = true ↔ R a.kind b.kind) {t : Token}
    {rest : List Token} (h : Apart R (t :: rest)) : fuseFrom joins t rest = t :: rest := by
  induction rest generalizing t with
  | nil => rfl
  | cons next rest ih =>
      obtain ⟨hhead, htail⟩ := List.isChain_cons_cons.mp h
      rw [fuseFrom, if_neg (by rwa [hjoins]), ih htail]

/-- Where nothing can be fused, fusing changes nothing. -/
theorem fuseRuns_of_apart (hjoins : ∀ a b, joins a b = true ↔ R a.kind b.kind) {ts : List Token}
    (h : Apart R ts) : fuseRuns joins ts = ts := by
  cases ts with
  | nil => rfl
  | cons t rest => exact fuseFrom_of_apart hjoins h

end

/-! ### Trimming -/

/-- Trimming takes tokens away at the ends only. -/
theorem exists_append_trimBlanks (ts : List Token) :
    ∃ front back, front ++ (trimBlanks ts ++ back) = ts ∧
      trimBlanks ts ++ back = ts.dropWhile isBlankDelimiter := by
  have hback : trimBlanks ts ++ (ts.dropWhile isBlankDelimiter).rtakeWhile isBlankDelimiter =
      ts.dropWhile isBlankDelimiter := List.rdropWhile_append_rtakeWhile
  refine ⟨ts.takeWhile isBlankDelimiter, _, ?_, hback⟩
  rw [hback, List.takeWhile_append_dropWhile]

theorem mem_of_mem_trimBlanks {t : Token} {ts : List Token} (h : t ∈ trimBlanks ts) : t ∈ ts := by
  obtain ⟨front, back, heq, -⟩ := exists_append_trimBlanks ts
  rw [← heq]
  simp [h]

theorem Apart.trimBlanks {R : Kind → Kind → Prop} {ts : List Token} (h : Apart R ts) :
    Apart R (trimBlanks ts) := by
  obtain ⟨front, back, heq, -⟩ := exists_append_trimBlanks ts
  rw [← heq] at h
  exact (List.IsChain.right_of_append h).left_of_append

theorem kind_of_isBlankDelimiter {t : Token} (h : t.isBlankDelimiter = true) :
    t.kind = .delimiter := by
  simp only [isBlankDelimiter, Bool.and_eq_true, beq_iff_eq] at h
  exact h.1

/-- There is no white space at either end. -/
def Trimmed (ts : List Token) : Prop :=
  (∀ t ∈ ts.head?, t.isBlankDelimiter = false) ∧ ∀ t ∈ ts.getLast?, t.isBlankDelimiter = false

theorem isBlankDelimiter_of_mem_head? {t : Token} (ts : List Token)
    (h : t ∈ (ts.dropWhile isBlankDelimiter).head?) : t.isBlankDelimiter = false := by
  have hnot := List.head?_dropWhile_not isBlankDelimiter ts
  rw [Option.mem_def.mp h] at hnot
  simpa using hnot

theorem trimmed_trimBlanks (ts : List Token) : Trimmed (trimBlanks ts) := by
  constructor
  · intro t ht
    obtain ⟨-, back, -, hback⟩ := exists_append_trimBlanks ts
    refine isBlankDelimiter_of_mem_head? ts ?_
    rw [← hback, List.head?_append, Option.mem_def.mp ht]
    rfl
  · intro t ht
    rw [trimBlanks, List.getLast?_reverse] at ht
    exact isBlankDelimiter_of_mem_head? _ ht

theorem dropWhile_of_head? {ts : List Token} (h : ∀ t ∈ ts.head?, t.isBlankDelimiter = false) :
    ts.dropWhile isBlankDelimiter = ts := by
  cases ts with
  | nil => rfl
  | cons t rest => exact List.dropWhile_cons_of_neg (by simp [h t rfl])

theorem trimBlanks_of_trimmed {ts : List Token} (h : Trimmed ts) : trimBlanks ts = ts := by
  rw [trimBlanks, dropWhile_of_head? h.1, dropWhile_of_head?, List.reverse_reverse]
  rw [List.head?_reverse]
  exact h.2

end Token

end BatchTrace
