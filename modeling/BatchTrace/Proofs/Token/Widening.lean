/-
Strings after widening.

Widening works on runs, the longest stretches of words and string pieces.  A run in
which no string opens is left alone; any other run becomes a row of strings, each of
them an opening quote, then its content as one piece, then a closing quote, where
the last two may be missing.  `Quoted.strings` is that row.

`Widened` describes such token lists without widening them.  It reads them from left
to right with a state that says where in a run the reader is, and looks at kinds
only.  Any token that cannot be part of a run brings the reader back to the state
between runs, which is why the passes that only touch separators keep it.
-/
import BatchTrace.Proofs.Token.Neighbours

namespace BatchTrace

namespace Token

/-! ### The strings that a run becomes -/

namespace Quoted

/-- The parts of a string have the kinds they should have. -/
structure Proper (q : Quoted) : Prop where
  opening : q.opening.kind = .stringDquoteBegin
  content : ∀ t ∈ q.content, t.kind = .stringDquoteChar
  closing : ∀ t ∈ q.closing, t.kind = .stringDquoteEnd

/-- The strings that `extend` puts together, as strings. -/
def strings (join : Bool) (q : Quoted) : List Token → List Quoted
  | [] => [q]
  | t :: rest =>
      match t.kind with
      | .stringDquoteBegin =>
          if join then strings join { q with closing := none } rest
          else q :: strings join (start [] t) rest
      | .stringDquoteEnd => strings join { q with closing := some t } rest
      | _ => strings join (q.absorb t) rest

theorem extend_eq_flatMap (join : Bool) (q : Quoted) (ts : List Token) :
    q.extend join ts = (q.strings join ts).flatMap tokens := by
  fun_induction extend join q ts with
  | case1 q => simp [strings]
  | case2 q t rest hkind hjoin ih =>
      rw [ih]
      simp [strings, hkind, hjoin]
  | case3 q t rest hkind hjoin ih =>
      rw [ih]
      simp [strings, hkind, hjoin]
  | case4 q t rest hkind ih => simp [strings, hkind, ih]
  | case5 q t rest hbegin hend ih => simp [strings, ih]

theorem Proper.absorb {q : Quoted} (h : q.Proper) (t : Token) : (q.absorb t).Proper := by
  refine ⟨h.opening, ?_, h.closing⟩
  intro u hu
  unfold Quoted.absorb at hu
  cases hc : q.content with
  | none =>
      rw [hc] at hu
      rw [← Option.some.inj hu]
      rfl
  | some content =>
      rw [hc] at hu
      rw [← Option.some.inj hu, kind_fuse]
      exact h.content content hc

theorem Proper.foldl_absorb {q : Quoted} (h : q.Proper) (words : List Token) :
    (words.foldl Quoted.absorb q).Proper := by
  induction words generalizing q with
  | nil => exact h
  | cons t rest ih => exact ih (h.absorb t)

theorem proper_start (words : List Token) {t : Token} (ht : t.kind = .stringDquoteBegin) :
    (start words t).Proper := by
  refine Proper.foldl_absorb ⟨?_, by simp, by simp⟩ words
  cases words with
  | nil => exact ht
  | cons first rest => exact ht

theorem proper_strings (join : Bool) {q : Quoted} (h : q.Proper) (ts : List Token) :
    ∀ p ∈ q.strings join ts, p.Proper := by
  induction ts generalizing q with
  | nil => simpa [strings] using h
  | cons t rest ih =>
      rw [strings]
      split
      · rename_i hkind
        split
        · exact ih ⟨h.opening, h.content, by simp⟩
        · intro p hp
          rcases List.mem_cons.mp hp with rfl | hp
          · exact h
          · exact ih (proper_start [] hkind) p hp
      · rename_i hkind
        exact ih ⟨h.opening, h.content, by simpa using hkind⟩
      · exact ih (h.absorb t)

/-- Strings that are joined are one string. -/
theorem length_strings (q : Quoted) (ts : List Token) : (q.strings true ts).length = 1 := by
  induction ts generalizing q with
  | nil => rfl
  | cons t rest ih =>
      rw [strings]
      split
      · exact ih _
      · exact ih _
      · exact ih _

theorem exists_cons_strings (join : Bool) (q : Quoted) (ts : List Token) :
    ∃ p ps, q.strings join ts = p :: ps := by
  induction ts generalizing q with
  | nil => exact ⟨q, [], rfl⟩
  | cons t rest ih =>
      rw [strings]
      split
      · split
        · exact ih _
        · exact ⟨q, _, rfl⟩
      · exact ih _
      · exact ih _

/-- The string is not just an opening and a closing quote. -/
def Filled (q : Quoted) : Prop :=
  q.content = none → q.closing = none

theorem filled_absorb (q : Quoted) (t : Token) : (q.absorb t).Filled := by
  intro h
  unfold Quoted.absorb at h
  cases hc : q.content <;> simp [hc] at h

theorem closing_start (words : List Token) (t : Token) : (start words t).closing = none := by
  have hfold : ∀ (ws : List Token) (q : Quoted), q.closing = none →
      (ws.foldl absorb q).closing = none := by
    intro ws
    induction ws with
    | nil => intro q hq; exact hq
    | cons w rest ih => intro q hq; exact ih _ hq
  exact hfold words _ rfl

/--
No string comes out empty if no opening quote stood right before a closing one.
What carries the induction: as long as the current string has no content, the last
token read was an opening quote, so the next one cannot be a closing one.
-/
theorem filled_strings (join : Bool) {q : Quoted} {ts : List Token} (hts : Apart Kind.EmptyPair ts)
    (hq : q.Filled) (hnext : q.content = none → ∀ t ∈ ts.head?, t.kind ≠ .stringDquoteEnd) :
    ∀ p ∈ q.strings join ts, p.Filled := by
  induction ts generalizing q with
  | nil => simpa [strings] using hq
  | cons t rest ih =>
      obtain ⟨hhead, hrest⟩ := List.isChain_cons.mp hts
      rw [strings]
      split
      · rename_i hkind
        have hafter : ∀ u ∈ rest.head?, u.kind ≠ .stringDquoteEnd :=
          fun u hu hend => hhead u hu ⟨hkind, hend⟩
        split
        · exact ih hrest (fun _ => rfl) fun _ => hafter
        · intro p hp
          rcases List.mem_cons.mp hp with rfl | hp
          · exact hq
          · exact ih hrest (fun _ => rfl) (fun _ => hafter) p hp
      · rename_i hkind
        have hcontent : q.content ≠ none := fun hnone => hnext hnone t rfl hkind
        exact ih hrest (fun hnone => absurd hnone hcontent) fun hnone => absurd hnone hcontent
      · have hcontent : (q.absorb t).content ≠ none := by
          unfold Quoted.absorb
          cases q.content <;> simp
        exact ih hrest (filled_absorb q t) fun hnone => absurd hnone hcontent

/-! ### Tokens of a row of strings -/

theorem Proper.isGlued {q : Quoted} (h : q.Proper) : ∀ t ∈ q.tokens, t.isGlued = true := by
  intro t ht
  have hkind : t.kind = .stringDquoteBegin ∨ t.kind = .stringDquoteChar ∨
      t.kind = .stringDquoteEnd := by
    rcases List.mem_cons.mp ht with rfl | ht
    · exact Or.inl h.opening
    · rcases List.mem_append.mp ht with ht | ht
      · exact Or.inr (Or.inl (h.content t (by simpa using ht)))
      · exact Or.inr (Or.inr (h.closing t (by simpa using ht)))
  unfold Token.isGlued
  rcases hkind with hk | hk | hk <;> rw [hk] <;> rfl

/-- Strings next to each other keep kinds apart that a string keeps apart and that are apart in
front of an opening quote. -/
theorem apart_flatMap {R : Kind → Kind → Prop} (hopening : ∀ k, ¬ R k .stringDquoteBegin)
    {qs : List Quoted} (hproper : ∀ q ∈ qs, q.Proper) (htokens : ∀ q ∈ qs, Apart R q.tokens) :
    Apart R (qs.flatMap tokens) := by
  induction qs with
  | nil => exact List.isChain_nil
  | cons q rest ih =>
      rw [List.flatMap_cons]
      refine List.IsChain.append (htokens q (by simp))
        (ih (fun p hp => hproper p (by simp [hp])) fun p hp => htokens p (by simp [hp])) ?_
      intro x _ y hy
      cases rest with
      | nil => simp at hy
      | cons p more =>
          have hy' : y = p.opening := by simpa [tokens, eq_comm] using hy
          rw [hy', (hproper p (by simp)).opening]
          exact hopening _

theorem apart_tokens {R : Kind → Kind → Prop} {q : Quoted} (h : q.Proper)
    (hcontent : ¬ R .stringDquoteBegin .stringDquoteChar)
    (hclosing : ¬ R .stringDquoteChar .stringDquoteEnd)
    (hempty : q.Filled ∨ ¬ R .stringDquoteBegin .stringDquoteEnd) : Apart R q.tokens := by
  obtain ⟨opening, content, closing⟩ := q
  have ho : opening.kind = .stringDquoteBegin := h.opening
  unfold tokens
  cases content with
  | none =>
      cases closing with
      | none => exact List.isChain_singleton opening
      | some e =>
          have he : e.kind = .stringDquoteEnd := h.closing e rfl
          refine List.isChain_pair.mpr ?_
          rcases hempty with hfilled | hpair
          · exact absurd (hfilled rfl) (by simp)
          · rwa [ho, he]
  | some c =>
      have hc : c.kind = .stringDquoteChar := h.content c rfl
      cases closing with
      | none => exact List.isChain_pair.mpr (by rwa [ho, hc])
      | some e =>
          have he : e.kind = .stringDquoteEnd := h.closing e rfl
          exact List.isChain_cons_cons.mpr
            ⟨by rwa [ho, hc], List.isChain_pair.mpr (by rwa [hc, he])⟩

end Quoted

end Token

/-! ### Widened token lists -/

/-- Where in a run of words and string pieces a reader is. -/
inductive RunState where
  /-- Between runs. -/
  | outside
  /-- In a run in which no string opens. -/
  | words
  /-- After the opening quote of a string. -/
  | opened
  /-- After the content of a string. -/
  | filled
  /-- After the closing quote of a string. -/
  | closed
deriving DecidableEq, Repr

namespace RunState

/-- The state after a token of kind `k`, if one may stand here.  With `join` a run holds one string
at most. -/
def next (join : Bool) (st : RunState) (k : Kind) : Option RunState :=
  if k.isWord || k.isDquotePiece then
    match st, k with
    | outside, .stringDquoteBegin => some opened
    | outside, _ => some words
    | words, .stringDquoteBegin => none
    | words, _ => some words
    | _, .stringDquoteBegin => if join then none else some opened
    | opened, .stringDquoteChar => some filled
    | opened, .stringDquoteEnd => some closed
    | filled, .stringDquoteEnd => some closed
    | _, _ => none
  else some outside

end RunState

namespace Token

/-- `ts` can be read from the state `st` on: its runs are as widening leaves them. -/
def Widened (join : Bool) : RunState → List Token → Prop
  | _, [] => True
  | st, t :: rest => ∃ st', st.next join t.kind = some st' ∧ Widened join st' rest

namespace Widened

variable {join : Bool} {st : RunState} {ts us : List Token}

/-- A token that is no part of a run ends the run before it. -/
theorem next_of_not_glued {t : Token} (ht : t.isGlued = false) :
    st.next join t.kind = some .outside := by
  rw [isGlued] at ht
  simp [RunState.next, ht]

theorem cons_of_not_glued {t : Token} (ht : t.isGlued = false) :
    Widened join st (t :: ts) ↔ Widened join .outside ts := by
  simp [Widened, next_of_not_glued ht]

theorem left_of_append (h : Widened join st (ts ++ us)) : Widened join st ts := by
  induction ts generalizing st with
  | nil => trivial
  | cons t rest ih =>
      obtain ⟨st', hnext, hrest⟩ := h
      exact ⟨st', hnext, ih hrest⟩

/-- What follows a run is read as if there had been no run. -/
theorem append_iff (hus : ∀ t ∈ us.head?, t.isGlued = false) :
    Widened join st (ts ++ us) ↔ Widened join st ts ∧ Widened join .outside us := by
  induction ts generalizing st with
  | nil =>
      cases us with
      | nil => simp [Widened]
      | cons t rest =>
          have ht : t.isGlued = false := hus t rfl
          rw [List.nil_append, cons_of_not_glued ht, cons_of_not_glued ht]
          simp [Widened]
  | cons t rest ih =>
      simp only [List.cons_append, Widened, ih]
      constructor
      · rintro ⟨st', hnext, hrest, hafter⟩
        exact ⟨⟨st', hnext, hrest⟩, hafter⟩
      · rintro ⟨⟨st', hnext, hrest⟩, hafter⟩
        exact ⟨st', hnext, hrest, hafter⟩

theorem map {f : Token → Token} (hf : ∀ t, (f t).kind = t.kind) (h : Widened join st ts) :
    Widened join st (ts.map f) := by
  induction ts generalizing st with
  | nil => trivial
  | cons t rest ih =>
      obtain ⟨st', hnext, hrest⟩ := h
      exact ⟨st', by rwa [hf], ih hrest⟩

theorem fuseFrom {joins : Token → Token → Bool}
    (hjoins : ∀ a b, joins a b = true → a.isGlued = false ∧ b.isGlued = false) {t : Token}
    (h : Widened join st (t :: ts)) : Widened join st (fuseFrom joins t ts) := by
  induction ts generalizing t st with
  | nil => exact h
  | cons next rest ih =>
      rw [Token.fuseFrom]
      split
      · rename_i hjoin
        obtain ⟨hglued, hglued'⟩ := hjoins t next hjoin
        have hfused : (t.fuse next).isGlued = false := hglued
        rw [cons_of_not_glued hglued, cons_of_not_glued hglued'] at h
        exact ih ((cons_of_not_glued hfused).mpr h)
      · obtain ⟨st', hnext, hrest⟩ := h
        exact ⟨st', hnext, ih hrest⟩

/-- Fusing tokens that are no part of a run changes no run. -/
theorem fuseRuns {joins : Token → Token → Bool}
    (hjoins : ∀ a b, joins a b = true → a.isGlued = false ∧ b.isGlued = false)
    (h : Widened join st ts) : Widened join st (fuseRuns joins ts) := by
  cases ts with
  | nil => trivial
  | cons t rest => exact h.fuseFrom hjoins

theorem isGlued_of_isBlankDelimiter {t : Token} (h : t.isBlankDelimiter = true) :
    t.isGlued = false := by
  rw [isGlued, kind_of_isBlankDelimiter h]
  rfl

theorem trimBlanks (h : Widened join .outside ts) : Widened join .outside (trimBlanks ts) := by
  have hdrop : Widened join .outside (ts.dropWhile isBlankDelimiter) := by
    induction ts with
    | nil => trivial
    | cons t rest ih =>
        rw [List.dropWhile_cons]
        split
        · rename_i hblank
          exact ih ((cons_of_not_glued (isGlued_of_isBlankDelimiter hblank)).mp h)
        · exact h
  obtain ⟨-, back, -, hback⟩ := exists_append_trimBlanks ts
  rw [← hback] at hdrop
  exact hdrop.left_of_append

end Widened

/-! ### A single run -/

section

variable {join : Bool} {run : List Token}

/-- A run stays as it is, or becomes a row of strings.  The first of them takes in what stands
before the first opening quote, closing quotes apart, and goes on with what stands after it. -/
theorem widenRun_split (join : Bool) (run : List Token) :
    ((∀ t ∈ run, t.kind ≠ .stringDquoteBegin) ∧ widenRun join run = run) ∨
      ∃ (before : List Token) (t : Token) (rest : List Token),
        run = before ++ t :: rest ∧ (∀ u ∈ before, u.kind ≠ .stringDquoteBegin) ∧
        t.kind = .stringDquoteBegin ∧
        widenRun join run =
          (Quoted.start (before.filter (·.kind ≠ .stringDquoteEnd)) t).extend join rest := by
  have hsplit := List.takeWhile_append_dropWhile (p := (·.kind ≠ .stringDquoteBegin)) (l := run)
  unfold widenRun
  dsimp only
  split
  · rename_i hnone
    refine Or.inl ⟨?_, rfl⟩
    simpa using List.dropWhile_eq_nil_iff.mp hnone
  · rename_i t rest hsome
    have hnot :=
      List.head?_dropWhile_not (fun u : Token => decide (u.kind ≠ .stringDquoteBegin)) run
    rw [hsome] at hnot hsplit
    refine Or.inr ⟨_, t, rest, hsplit.symm, fun u hu => ?_, by simpa using hnot, rfl⟩
    simpa using List.mem_takeWhile_imp hu

theorem widenRun_cases (join : Bool) (run : List Token) :
    ((∀ t ∈ run, t.kind ≠ .stringDquoteBegin) ∧ widenRun join run = run) ∨
      ∃ (before : List Token) (t : Token) (rest : List Token) (q : Quoted),
        run = before ++ t :: rest ∧ t.kind = .stringDquoteBegin ∧ q.Proper ∧ q.closing = none ∧
        widenRun join run = (q.strings join rest).flatMap Quoted.tokens := by
  refine (widenRun_split join run).imp_right ?_
  rintro ⟨before, t, rest, hrun, -, ht, heq⟩
  rw [heq, Quoted.extend_eq_flatMap]
  exact ⟨before, t, rest, _, hrun, ht, Quoted.proper_start _ ht, Quoted.closing_start _ t, rfl⟩

theorem isGlued_widenRun (hrun : ∀ t ∈ run, t.isGlued = true) :
    ∀ t ∈ widenRun join run, t.isGlued = true := by
  rcases widenRun_cases join run with ⟨-, heq⟩ | ⟨before, u, rest, q, -, -, hq, -, heq⟩
  · rwa [heq]
  · rw [heq]
    intro t ht
    obtain ⟨p, hp, htp⟩ := List.mem_flatMap.mp ht
    exact (Quoted.proper_strings join hq rest p hp).isGlued t htp

theorem widenRun_ne_nil (hrun : run ≠ []) : widenRun join run ≠ [] := by
  rcases widenRun_cases join run with ⟨-, heq⟩ | ⟨before, t, rest, q, -, -, -, -, heq⟩
  · rwa [heq]
  · obtain ⟨p, ps, hcons⟩ := Quoted.exists_cons_strings join q rest
    rw [heq, hcons]
    simp [Quoted.tokens]

/-- Widening a run keeps kinds apart that are apart inside a string and in front of one.  An empty
string comes out only if one went in. -/
theorem apart_widenRun {R : Kind → Kind → Prop} (hopening : ∀ k, ¬ R k .stringDquoteBegin)
    (hcontent : ¬ R .stringDquoteBegin .stringDquoteChar)
    (hclosing : ¬ R .stringDquoteChar .stringDquoteEnd)
    (hempty : Apart Kind.EmptyPair run ∨ ¬ R .stringDquoteBegin .stringDquoteEnd)
    (h : Apart R run) : Apart R (widenRun join run) := by
  rcases widenRun_cases join run with ⟨-, heq⟩ | ⟨before, t, rest, q, hrun, ht, hq, hopen, heq⟩
  · rwa [heq]
  · have hproper := Quoted.proper_strings join hq rest
    rw [heq]
    refine Quoted.apart_flatMap hopening hproper fun p hp => ?_
    refine Quoted.apart_tokens (hproper p hp) hcontent hclosing ?_
    rcases hempty with hpairs | hpair
    · rw [hrun] at hpairs
      obtain ⟨hhead, hrest⟩ := List.isChain_cons.mp (List.IsChain.right_of_append hpairs)
      exact Or.inl (Quoted.filled_strings join hrest (fun _ => hopen)
        (fun _ u hu hend => hhead u hu ⟨ht, hend⟩) p hp)
    · exact Or.inr hpair

end

end Token

namespace RunState

variable {join : Bool} {k : Kind} {st st' : RunState}

theorem next_plain (hst : st = outside ∨ st = words)
    (hglued : (k.isWord || k.isDquotePiece) = true) (hk : k ≠ .stringDquoteBegin) :
    st.next join k = some words := by
  unfold next
  rw [if_pos hglued]
  rcases hst with rfl | rfl
  · split <;> simp_all
  · split <;> simp_all

/-- A run in which a word came first opens no string. -/
theorem next_words (hglued : (k.isWord || k.isDquotePiece) = true)
    (h : words.next join k = some st') : k ≠ .stringDquoteBegin ∧ st' = words := by
  unfold next at h
  rw [if_pos hglued] at h
  split at h <;> simp_all

/-- What may follow inside a run of strings. -/
theorem next_string (hst : st = opened ∨ st = filled ∨ st = closed)
    (hglued : (k.isWord || k.isDquotePiece) = true) (h : st.next join k = some st') :
    (k = .stringDquoteBegin ∧ join = false ∧ st' = opened) ∨
      (k = .stringDquoteChar ∧ st = opened ∧ st' = filled) ∨
      (k = .stringDquoteEnd ∧ (st = opened ∨ st = filled) ∧ st' = closed) := by
  unfold next at h
  rw [if_pos hglued] at h
  split at h <;> simp_all

end RunState

namespace Token

section

variable {join : Bool} {st : RunState} {run : List Token}

/-- Tokens among which no string opens are widened already. -/
theorem widened_of_plain (hst : st = .outside ∨ st = .words)
    (hplain : ∀ t ∈ run, t.kind ≠ .stringDquoteBegin) : Widened join st run := by
  induction run generalizing st with
  | nil => trivial
  | cons t rest ih =>
      have hrest : ∀ u ∈ rest, u.kind ≠ .stringDquoteBegin := fun u hu => hplain u (by simp [hu])
      by_cases hglued : t.isGlued = true
      · exact ⟨.words, RunState.next_plain hst hglued (hplain t (by simp)), ih (Or.inr rfl) hrest⟩
      · exact ⟨.outside, Widened.next_of_not_glued (by simpa using hglued), ih (Or.inl rfl) hrest⟩

theorem plain_of_widened (hglued : ∀ t ∈ run, t.isGlued = true) (h : Widened join .words run) :
    ∀ t ∈ run, t.kind ≠ .stringDquoteBegin := by
  induction run with
  | nil => simp
  | cons t rest ih =>
      obtain ⟨st', hnext, hrest⟩ := h
      obtain ⟨hkind, rfl⟩ := RunState.next_words (hglued t (by simp)) hnext
      intro u hu
      rcases List.mem_cons.mp hu with rfl | hu
      · exact hkind
      · exact ih (fun u hu => hglued u (by simp [hu])) hrest u hu

/-- After the tokens of a string the reader is inside a run of strings. -/
theorem widened_tokens_append {q : Quoted} (h : q.Proper) {us : List Token}
    (hopen : st.next join .stringDquoteBegin = some .opened)
    (hus : ∀ st', st' = .opened ∨ st' = .filled ∨ st' = .closed → Widened join st' us) :
    Widened join st (q.tokens ++ us) := by
  obtain ⟨opening, content, closing⟩ := q
  refine ⟨.opened, by rwa [h.opening], ?_⟩
  cases content with
  | none =>
      cases closing with
      | none => exact hus _ (by simp)
      | some e =>
          have he : e.kind = .stringDquoteEnd := h.closing e rfl
          exact ⟨.closed, by rw [he]; rfl, hus _ (by simp)⟩
  | some c =>
      have hc : c.kind = .stringDquoteChar := h.content c rfl
      refine ⟨.filled, by rw [hc]; rfl, ?_⟩
      cases closing with
      | none => exact hus _ (by simp)
      | some e =>
          have he : e.kind = .stringDquoteEnd := h.closing e rfl
          exact ⟨.closed, by rw [he]; rfl, hus _ (by simp)⟩

theorem widened_flatMap_tokens {qs : List Quoted} (hproper : ∀ q ∈ qs, q.Proper)
    (hjoin : join = true → qs.length ≤ 1)
    (hopen : st.next join .stringDquoteBegin = some .opened) :
    Widened join st (qs.flatMap Quoted.tokens) := by
  induction qs generalizing st with
  | nil => trivial
  | cons q rest ih =>
      rw [List.flatMap_cons]
      refine widened_tokens_append (hproper q (by simp)) hopen ?_
      intro st' hst'
      cases rest with
      | nil => trivial
      | cons p more =>
          -- A second string is there, so strings are not joined, and one may open again.
          have hfalse : join = false := by
            cases join with
            | false => rfl
            | true => simp at hjoin
          subst hfalse
          refine ih (fun p hp => hproper p (by simp [hp])) (by simp) ?_
          rcases hst' with rfl | rfl | rfl <;> rfl

theorem widened_widenRun : Widened join .outside (widenRun join run) := by
  rcases widenRun_cases join run with ⟨hplain, heq⟩ | ⟨before, t, rest, q, -, -, hq, -, heq⟩
  · rw [heq]
    exact widened_of_plain (Or.inl rfl) hplain
  · rw [heq]
    refine widened_flatMap_tokens (Quoted.proper_strings join hq rest) ?_ rfl
    rintro rfl
    exact Nat.le_of_eq (Quoted.length_strings _ rest)

end

/-- The state that a reader is in after the tokens of a string. -/
def Quoted.state (q : Quoted) : RunState :=
  match q.closing, q.content with
  | some _, _ => .closed
  | none, some _ => .filled
  | none, none => .opened

/-- A string whose content is still missing takes a piece of content as it is. -/
theorem Quoted.absorb_of_opened {q : Quoted} {t : Token} (hq : q.state = .opened)
    (ht : t.kind = .stringDquoteChar) : q.absorb t = ⟨q.opening, some t, none⟩ := by
  obtain ⟨opening, content, closing⟩ := q
  cases closing with
  | some e => simp [state] at hq
  | none =>
      cases content with
      | some c => simp [state] at hq
      | none =>
          have hsame : t.withKind .stringDquoteChar = t := by
            rw [← ht]
            rfl
          simp [absorb, hsame]

theorem Quoted.tokens_of_opened {q : Quoted} (hq : q.state = .opened) : q.tokens = [q.opening] := by
  obtain ⟨opening, content, closing⟩ := q
  cases closing <;> cases content <;> simp_all [state, tokens]

theorem Quoted.tokens_closing {q : Quoted} (hq : q.state = .opened ∨ q.state = .filled)
    (t : Token) : ({ q with closing := some t } : Quoted).tokens = q.tokens ++ [t] := by
  obtain ⟨opening, content, closing⟩ := q
  cases closing with
  | some e => simp [state] at hq
  | none => simp [tokens]

/-- Strings are put together again as they were. -/
theorem Quoted.strings_of_widened {join : Bool} {q : Quoted} {ts : List Token}
    (hglued : ∀ t ∈ ts, t.isGlued = true) (h : Widened join q.state ts) :
    (q.strings join ts).flatMap Quoted.tokens = q.tokens ++ ts := by
  induction ts generalizing q with
  | nil => simp [strings]
  | cons t rest ih =>
      obtain ⟨st', hnext, hrest⟩ := h
      have hrest' : ∀ u ∈ rest, u.isGlued = true := fun u hu => hglued u (by simp [hu])
      have hstate : q.state = .opened ∨ q.state = .filled ∨ q.state = .closed := by
        unfold Quoted.state
        split <;> simp
      rcases RunState.next_string hstate (hglued t (by simp)) hnext with
        ⟨hkind, rfl, rfl⟩ | ⟨hkind, hst, rfl⟩ | ⟨hkind, hst, rfl⟩
      · -- A new string opens: `q` is done, and `t` is all there is of the new one so far.
        have hnew := ih (q := start [] t) hrest' hrest
        simp only [strings, hkind]
        rw [if_neg (by simp), List.flatMap_cons, hnew]
        rfl
      · simp only [strings, hkind]
        rw [absorb_of_opened hst hkind, ih (q := ⟨q.opening, some t, none⟩) hrest' hrest,
          tokens_of_opened hst]
        rfl
      · simp only [strings, hkind]
        rw [ih (q := { q with closing := some t }) hrest' hrest, tokens_closing hst,
          List.append_assoc]
        rfl

theorem widenRun_of_widened {join : Bool} {run : List Token} (hglued : ∀ t ∈ run, t.isGlued = true)
    (h : Widened join .outside run) : widenRun join run = run := by
  cases run with
  | nil => rfl
  | cons t rest =>
      have hrest' : ∀ u ∈ rest, u.isGlued = true := fun u hu => hglued u (by simp [hu])
      obtain ⟨st', hnext, hrest⟩ := h
      by_cases hkind : t.kind = .stringDquoteBegin
      · have hst : st' = .opened := by
          rw [hkind] at hnext
          exact (Option.some.inj hnext).symm
        subst hst
        have hrow : ((Quoted.start [] t).strings join rest).flatMap Quoted.tokens = t :: rest :=
          Quoted.strings_of_widened hrest' hrest
        simp only [widenRun, List.takeWhile_cons, List.dropWhile_cons, hkind]
        simpa [Quoted.extend_eq_flatMap] using hrow
      · have hst : st' = .words := by
          rw [RunState.next_plain (Or.inl rfl) (hglued t (by simp)) hkind] at hnext
          exact (Option.some.inj hnext).symm
        subst hst
        -- The run starts with a word, so no string opens in it and it is left alone.
        have hplain := plain_of_widened hrest' hrest
        rcases widenRun_cases join (t :: rest) with ⟨-, heq⟩ | ⟨before, u, after, q, hrun, hu, -⟩
        · exact heq
        · have hmem : u ∈ t :: rest := by rw [hrun]; simp
          rcases List.mem_cons.mp hmem with rfl | hmem
          · exact absurd hu hkind
          · exact absurd hu (hplain u hmem)

/-! ### Whole token lists -/

section

variable {join : Bool} {ts : List Token}

theorem isGlued_of_mem_takeWhile {t : Token} (ht : t.isGlued = true) :
    ∀ u ∈ t :: ts.takeWhile isGlued, u.isGlued = true := by
  intro u hu
  rcases List.mem_cons.mp hu with rfl | hu
  · exact ht
  · exact List.mem_takeWhile_imp hu

/-- The run that starts with `t`, and what comes after it. -/
theorem run_append_rest (t : Token) (rest : List Token) :
    (t :: rest.takeWhile isGlued) ++ rest.dropWhile isGlued = t :: rest := by
  rw [List.cons_append, List.takeWhile_append_dropWhile]

theorem not_isGlued_of_mem_dropWhile :
    ∀ t ∈ (ts.dropWhile isGlued).head?, t.isGlued = false := by
  intro t ht
  have hnot := List.head?_dropWhile_not isGlued ts
  rw [Option.mem_def.mp ht] at hnot
  simpa using hnot

/-- Widening leaves a token that starts no run in its place. -/
theorem head?_widen_of_not_glued (h : ∀ t ∈ ts.head?, t.isGlued = false) :
    (widen join ts).head? = ts.head? := by
  cases ts with
  | nil => simp [widen]
  | cons t rest =>
      rw [widen, if_neg (by simp [h t rfl])]
      rfl

theorem widened_widen : Widened join .outside (widen join ts) := by
  fun_induction widen join ts with
  | case1 => trivial
  | case2 t rest hglued ih =>
      rw [Widened.append_iff]
      · exact ⟨widened_widenRun, ih⟩
      · rw [head?_widen_of_not_glued not_isGlued_of_mem_dropWhile]
        exact not_isGlued_of_mem_dropWhile
  | case3 t rest hglued ih => rwa [Widened.cons_of_not_glued (by simpa using hglued)]

/-- Widening changes nothing where it has been done. -/
theorem widen_of_widened (h : Widened join .outside ts) : widen join ts = ts := by
  fun_induction widen join ts with
  | case1 => rfl
  | case2 t rest hglued ih =>
      rw [← run_append_rest, Widened.append_iff not_isGlued_of_mem_dropWhile] at h
      rw [widenRun_of_widened (isGlued_of_mem_takeWhile hglued) h.1, ih h.2, run_append_rest]
  | case3 t rest hglued ih =>
      rw [ih ((Widened.cons_of_not_glued (by simpa using hglued)).mp h)]

theorem widen_of_plain (h : ∀ t ∈ ts, t.kind ≠ .stringDquoteBegin) : widen join ts = ts :=
  widen_of_widened (widened_of_plain (Or.inl rfl) h)

theorem isGlued_head?_widen {t : Token} (ht : t.isGlued = true) :
    ∀ u ∈ (widen join (t :: ts)).head?, u.isGlued = true := by
  intro u hu
  rw [widen, if_pos ht, List.head?_append_of_ne_nil _ (widenRun_ne_nil (by simp))] at hu
  exact isGlued_widenRun (isGlued_of_mem_takeWhile ht) u (List.mem_of_mem_head? hu)

/-- Widening keeps kinds apart that it keeps apart in every run, if they never stand on the two
sides of the end of a run. -/
theorem Apart.widen {R : Kind → Kind → Prop}
    (hside : ∀ a b : Token, a.isGlued ≠ b.isGlued → ¬ R a.kind b.kind)
    (hrun : ∀ run, Apart R run → Apart R (widenRun join run)) (h : Apart R ts) :
    Apart R (widen join ts) := by
  fun_induction Token.widen join ts with
  | case1 => exact h
  | case2 t rest hglued ih =>
      rw [← run_append_rest] at h
      obtain ⟨hleft, hright, -⟩ := List.isChain_append.mp h
      refine List.IsChain.append (hrun _ hleft) (ih hright) ?_
      intro x hx y hy
      have hxg : x.isGlued = true :=
        isGlued_widenRun (isGlued_of_mem_takeWhile hglued) x (List.mem_of_mem_getLast? hx)
      rw [head?_widen_of_not_glued not_isGlued_of_mem_dropWhile] at hy
      exact hside x y (by simp [hxg, not_isGlued_of_mem_dropWhile y hy])
  | case3 t rest hglued ih =>
      obtain ⟨hhead, hrest⟩ := List.isChain_cons.mp h
      have ht : t.isGlued = false := by simpa using hglued
      refine List.isChain_cons.mpr ⟨?_, ih hrest⟩
      intro y hy
      cases rest with
      | nil => simp [Token.widen] at hy
      | cons u more =>
          by_cases hu : u.isGlued = true
          · exact hside t y (by simp [ht, isGlued_head?_widen hu y hy])
          · rw [head?_widen_of_not_glued (by simpa using hu)] at hy
            exact hhead y hy

/-- Every token of the widened list is part of a run or was there before. -/
theorem mem_widen {t : Token} (h : t ∈ widen join ts) : t.isGlued = true ∨ t ∈ ts := by
  fun_induction widen join ts with
  | case1 => simp at h
  | case2 u rest hglued ih =>
      rcases List.mem_append.mp h with hrun | hrest
      · exact Or.inl (isGlued_widenRun (isGlued_of_mem_takeWhile hglued) t hrun)
      · rcases ih hrest with hrun | hmem
        · exact Or.inl hrun
        · exact Or.inr (List.mem_cons_of_mem _ ((List.dropWhile_suffix _).mem hmem))
  | case3 u rest hglued ih =>
      rcases List.mem_cons.mp h with rfl | hrest
      · exact Or.inr (by simp)
      · rcases ih hrest with hrun | hmem
        · exact Or.inl hrun
        · exact Or.inr (List.mem_cons_of_mem _ hmem)

end

end Token

end BatchTrace
