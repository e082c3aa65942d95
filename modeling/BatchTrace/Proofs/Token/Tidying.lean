/-
Cleaning as a function of what is read.

A token list has a reading: how its characters are grouped into tokens is lost in it,
and so is where they stand.  Widening and the pass on blanks do the same on a token
list as on its reading, so two token lists with one reading are cleaned to one text.

This needs of the tokens what the reader gives them: none is empty, and the quotes of
a string are double quotes.  All passes keep that.
-/
import BatchTrace.Proofs.Token.Reading
import BatchTrace.Proofs.Token.Words

namespace BatchTrace

namespace Kind

variable {k : Kind}

/-- In a run the quotes are the only marks, and all else is content. -/
theorem isContent_role (h : k.role.isGlued = true) : k.role.isContent = !k.isMark := by
  revert h
  cases k <;> decide

end Kind

namespace Token

open Reading

/-- The roles of the characters that a token list spells. -/
def reading (ts : List Token) : Reading :=
  ts.flatMap fun t => ofText t.kind.role t.text

@[simp] theorem reading_nil : reading [] = [] := rfl

@[simp] theorem reading_cons (t : Token) (ts : List Token) :
    reading (t :: ts) = ofText t.kind.role t.text ++ reading ts := rfl

@[simp] theorem reading_append (ts us : List Token) :
    reading (ts ++ us) = reading ts ++ reading us := by
  simp [reading]

@[simp] theorem text_reading (ts : List Token) : (reading ts).text = stringify ts := by
  induction ts with
  | nil => rfl
  | cons t rest ih => simp [ih]

/-- Fusing tokens of one kind leaves every character its role. -/
theorem reading_fuseFrom {joins : Token → Token → Bool}
    (hsame : ∀ a b, joins a b = true → a.kind = b.kind) (t : Token) (rest : List Token) :
    reading (fuseFrom joins t rest) = reading (t :: rest) := by
  induction rest generalizing t with
  | nil => rfl
  | cons next rest ih =>
      rw [fuseFrom]
      split
      · rename_i hjoin
        rw [ih, reading_cons, reading_cons, reading_cons, kind_fuse, ← hsame t next hjoin,
          ← List.append_assoc, ← ofText_append]
        rfl
      · rw [reading_cons, ih, reading_cons t]

theorem reading_fuseRuns {joins : Token → Token → Bool}
    (hsame : ∀ a b, joins a b = true → a.kind = b.kind) (ts : List Token) :
    reading (fuseRuns joins ts) = reading ts := by
  cases ts with
  | nil => rfl
  | cons t rest => exact reading_fuseFrom hsame t rest

theorem reading_mergeLiterals (ts : List Token) : reading (mergeLiterals ts) = reading ts :=
  reading_fuseRuns (fun a b hjoin => ((mergeable_iff a b).mp hjoin).1) ts

/-! ### Tokens as they are read -/

/-- The token is not empty, and if it is a quote of a string it spells one. -/
structure Plain (t : Token) : Prop where
  ne_nil : t.text ≠ []
  quote : t.kind = .stringDquoteBegin ∨ t.kind = .stringDquoteEnd → t.text = ['"']

section

variable {ts : List Token}

theorem reading_eq_nil (hplain : ∀ t ∈ ts, t.Plain) : reading ts = [] ↔ ts = [] := by
  cases ts with
  | nil => simp
  | cons t rest => simp [(hplain t (by simp)).ne_nil]

/-- The first character has the role of the first token. -/
theorem role_of_mem_head?_reading (hplain : ∀ t ∈ ts, t.Plain) {x : Role × Char}
    (hx : x ∈ (reading ts).head?) : ∃ t ∈ ts.head?, x.1 = t.kind.role := by
  cases ts with
  | nil => simp at hx
  | cons t rest =>
      refine ⟨t, rfl, ?_⟩
      have hne : ofText t.kind.role t.text ≠ [] := by simp [(hplain t (by simp)).ne_nil]
      rw [reading_cons, List.head?_append_of_ne_nil _ hne] at hx
      exact role_of_mem_ofText (List.mem_of_mem_head? hx)

theorem isGlued_of_mem_reading (hglued : ∀ t ∈ ts, t.isGlued = true) :
    ∀ x ∈ reading ts, Reading.isGlued x = true := by
  intro x hx
  obtain ⟨t, ht, hxt⟩ := List.mem_flatMap.mp hx
  rw [Reading.isGlued, role_of_mem_ofText hxt, Kind.isGlued_role]
  exact hglued t ht

theorem isGlued_head?_reading (hplain : ∀ t ∈ ts, t.Plain)
    (h : ∀ t ∈ ts.head?, t.isGlued = false) :
    ∀ x ∈ (reading ts).head?, Reading.isGlued x = false := by
  intro x hx
  obtain ⟨t, ht, hrole⟩ := role_of_mem_head?_reading hplain hx
  rw [Reading.isGlued, hrole, Kind.isGlued_role]
  exact h t ht

/-- A string opens in the reading where one opens among the tokens. -/
theorem exists_opening_reading (hplain : ∀ t ∈ ts, t.Plain) :
    (∃ x ∈ reading ts, x.1 = .opening) ↔ ∃ t ∈ ts, t.kind = .stringDquoteBegin := by
  constructor
  · rintro ⟨x, hx, hopening⟩
    obtain ⟨t, ht, hxt⟩ := List.mem_flatMap.mp hx
    exact ⟨t, ht, Kind.role_eq_opening.mp ((role_of_mem_ofText hxt).symm.trans hopening)⟩
  · rintro ⟨t, ht, hkind⟩
    refine ⟨(t.kind.role, '"'), List.mem_flatMap.mpr ⟨t, ht, ?_⟩, Kind.role_eq_opening.mpr hkind⟩
    rw [(hplain t ht).quote (Or.inl hkind)]
    simp

/-- What a run of tokens spells without its marks is the content of its reading. -/
theorem content_reading (hglued : ∀ t ∈ ts, t.isGlued = true) :
    content (reading ts) = unmarked ts := by
  induction ts with
  | nil => rfl
  | cons t rest ih =>
      have ht : t.kind.role.isGlued = true := by
        rw [Kind.isGlued_role]
        exact hglued t (by simp)
      have hone : content (ofText t.kind.role t.text) = unmarked [t] := by
        rw [content_ofText, Kind.isContent_role ht, unmarked]
        cases hmark : t.kind.isMark <;> simp [hmark]
      rw [reading_cons, content_append, hone, ih fun u hu => hglued u (by simp [hu]),
        ← unmarked_cons]

end

/-! ### Cleaning by roles -/

namespace Quoted

/-- The parts of a string are spelled as they should be. -/
structure Spelled (q : Quoted) : Prop where
  opening : q.opening.text = ['"']
  content : ∀ t ∈ q.content, t.text ≠ []
  closing : ∀ t ∈ q.closing, t.text = ['"']

theorem Spelled.absorb {q : Quoted} (h : q.Spelled) {t : Token} (ht : t.text ≠ []) :
    (q.absorb t).Spelled := by
  refine ⟨h.opening, ?_, h.closing⟩
  intro u hu
  unfold Quoted.absorb at hu
  cases hc : q.content with
  | none =>
      rw [hc] at hu
      rw [← Option.some.inj hu]
      exact ht
  | some content =>
      rw [hc] at hu
      rw [← Option.some.inj hu]
      exact List.append_ne_nil_of_right_ne_nil _ ht

theorem Spelled.foldl_absorb {q : Quoted} (h : q.Spelled) {words : List Token}
    (hwords : ∀ t ∈ words, t.text ≠ []) : (words.foldl Quoted.absorb q).Spelled := by
  induction words generalizing q with
  | nil => exact h
  | cons t rest ih => exact ih (h.absorb (hwords t (by simp))) fun u hu => hwords u (by simp [hu])

theorem spelled_start {words : List Token} (hwords : ∀ t ∈ words, t.text ≠ []) {t : Token}
    (ht : t.text = ['"']) : (start words t).Spelled := by
  refine Spelled.foldl_absorb ⟨?_, by simp, by simp⟩ hwords
  cases words with
  | nil => exact ht
  | cons first rest => exact ht

theorem spelled_strings (join : Bool) {q : Quoted} (h : q.Spelled) {ts : List Token}
    (hplain : ∀ t ∈ ts, t.Plain) : ∀ p ∈ q.strings join ts, p.Spelled := by
  induction ts generalizing q with
  | nil => simpa [strings] using h
  | cons t rest ih =>
      have hplain' : ∀ u ∈ rest, u.Plain := fun u hu => hplain u (by simp [hu])
      have ht := hplain t (by simp)
      rw [strings]
      split
      · rename_i hkind
        split
        · exact ih ⟨h.opening, h.content, by simp⟩ hplain'
        · intro p hp
          rcases List.mem_cons.mp hp with rfl | hp
          · exact h
          · exact ih (spelled_start (by simp) (ht.quote (Or.inl hkind))) hplain' p hp
      · rename_i hkind
        exact ih ⟨h.opening, h.content, by simpa using ht.quote (Or.inr hkind)⟩ hplain'
      · exact ih (h.absorb ht.ne_nil) hplain'

theorem plain_tokens {q : Quoted} (h : q.Proper) (hq : q.Spelled) : ∀ t ∈ q.tokens, t.Plain := by
  intro t ht
  rcases List.mem_cons.mp ht with rfl | ht
  · exact ⟨by simp [hq.opening], fun _ => hq.opening⟩
  · rcases List.mem_append.mp ht with ht | ht
    · have hkind := h.content t (by simpa using ht)
      exact ⟨hq.content t (by simpa using ht), by simp [hkind]⟩
    · have htext := hq.closing t (by simpa using ht)
      exact ⟨by simp [htext], fun _ => htext⟩

/-- The characters of a string, whatever is in it. -/
theorem reading_tokens {q : Quoted} (h : q.Proper) (hq : q.Spelled) :
    reading q.tokens = ofString (unmarked q.content.toList) q.closing.isNone := by
  have hcontent : reading q.content.toList = ofText .inside (unmarked q.content.toList) := by
    cases hc : q.content with
    | none => rfl
    | some c =>
        have hkind : c.kind = .stringDquoteChar := h.content c hc
        simp [unmarked, hkind, Kind.isMark, Kind.role, Kind.isWord]
  have hend : reading q.closing.toList = if q.closing.isNone then [] else [(.closing, '"')] := by
    cases hc : q.closing with
    | none => rfl
    | some e => simp [hq.closing e hc, h.closing e hc, Kind.role, Kind.isWord]
  rw [tokens, reading_cons, reading_append, hcontent, hend, hq.opening, h.opening]
  rfl

/-- Going on with a string adds what the run spells; the last quote of the run says whether it ends
up closed. -/
theorem reading_extend {q : Quoted} (h : q.Proper) (hq : q.Spelled) {ts : List Token}
    (hglued : ∀ t ∈ ts, t.isGlued = true) (hplain : ∀ t ∈ ts, t.Plain) :
    reading (q.extend true ts) =
      ofString (unmarked q.content.toList ++ unmarked ts)
        (openAfter q.closing.isNone (reading ts)) := by
  induction ts generalizing q with
  | nil =>
      rw [extend, reading_tokens h hq, unmarked_nil, List.append_nil]
      rfl
  | cons t rest ih =>
      have hglued' : ∀ u ∈ rest, u.isGlued = true := fun u hu => hglued u (by simp [hu])
      have hplain' : ∀ u ∈ rest, u.Plain := fun u hu => hplain u (by simp [hu])
      have ht := hplain t (by simp)
      rw [extend, reading_cons, openAfter_append]
      split
      · rename_i hkind
        have hnext := ih (q := { q with closing := none }) ⟨h.opening, h.content, by simp⟩
          ⟨hq.opening, hq.content, by simp⟩ hglued' hplain'
        rw [if_pos rfl, hnext, unmarked_cons_mark (by rw [hkind]; rfl), ht.quote (Or.inl hkind),
          hkind]
        rfl
      · rename_i hkind
        have htext := ht.quote (Or.inr hkind)
        have hnext := ih (q := { q with closing := some t })
          ⟨h.opening, h.content, by simpa using hkind⟩
          ⟨hq.opening, hq.content, by simpa using htext⟩ hglued' hplain'
        rw [hnext, unmarked_cons_mark (by rw [hkind]; rfl), htext, hkind]
        rfl
      · rename_i hbegin hend
        have hmark : t.kind.isMark = false :=
          isMark_of_isGlued (hglued t (by simp)) (by simpa using hbegin) (by simpa using hend)
        have hquiet :
            openAfter q.closing.isNone (ofText t.kind.role t.text) = q.closing.isNone := by
          refine openAfter_of_not_quote _ fun x hx => ?_
          rw [role_of_mem_ofText hx]
          exact ⟨fun hrole => hbegin (Kind.role_eq_opening.mp hrole),
            fun hrole => hend (Kind.role_eq_closing.mp hrole)⟩
        rw [ih (h.absorb t) (hq.absorb ht.ne_nil) hglued' hplain', unmarked_absorb h hmark,
          List.append_assoc, ← unmarked_cons, hquiet]
        rfl

end Quoted

/-- The string that a run becomes is spelled as it should be if the run is. -/
theorem widenRun_spelled_cases {run : List Token} (hplain : ∀ t ∈ run, t.Plain) (join : Bool) :
    ((∀ t ∈ run, t.kind ≠ .stringDquoteBegin) ∧ widenRun join run = run) ∨
      ∃ (before : List Token) (t : Token) (rest : List Token) (q : Quoted),
        run = before ++ t :: rest ∧ t.kind = .stringDquoteBegin ∧ q.Proper ∧ q.Spelled ∧
        q.closing = none ∧ widenRun join run = q.extend join rest := by
  refine (widenRun_split join run).imp_right ?_
  rintro ⟨before, t, rest, rfl, -, ht, heq⟩
  refine ⟨before, t, rest, _, rfl, ht, Quoted.proper_start _ ht, ?_, Quoted.closing_start _ t, heq⟩
  refine Quoted.spelled_start (fun u hu => ?_) ((hplain t (by simp)).quote (Or.inl ht))
  exact (hplain u (by simp [(List.mem_filter.mp hu).1])).ne_nil

theorem plain_widenRun {run : List Token} (hplain : ∀ t ∈ run, t.Plain) (join : Bool) :
    ∀ t ∈ widenRun join run, t.Plain := by
  rcases widenRun_spelled_cases hplain join with
    ⟨-, heq⟩ | ⟨before, u, rest, q, hrun, -, hq, hspelled, -, heq⟩
  · rwa [heq]
  · have hrest : ∀ t ∈ rest, t.Plain := fun t ht => hplain t (by rw [hrun]; simp [ht])
    rw [heq, Quoted.extend_eq_flatMap]
    intro t ht
    obtain ⟨p, hp, htp⟩ := List.mem_flatMap.mp ht
    exact Quoted.plain_tokens (Quoted.proper_strings join hq rest p hp)
      (Quoted.spelled_strings join hspelled hrest p hp) t htp

theorem reading_widenRun {run : List Token} (hglued : ∀ t ∈ run, t.isGlued = true)
    (hplain : ∀ t ∈ run, t.Plain) :
    reading (widenRun true run) = Reading.widenRun (reading run) := by
  have hspell : unmarked (widenRun true run) = unmarked run := unmarked_widenRun hglued
  rcases widenRun_spelled_cases hplain true with
    ⟨hnone, heq⟩ | ⟨before, u, rest, q, hrun, hu, hq, hspelled, hclosing, heq⟩
  · rw [heq]
    refine (widenRun_of_plain ?_).symm
    intro x hx hopening
    obtain ⟨t, ht, hkind⟩ := (exists_opening_reading hplain).mp ⟨x, hx, hopening⟩
    exact hnone t ht hkind
  · have hmem : u ∈ run := by rw [hrun]; simp
    have hrest : ∀ t ∈ rest, t ∈ run := fun t ht => by rw [hrun]; simp [ht]
    have hgluedRest : ∀ t ∈ rest, t.isGlued = true := fun t ht => hglued t (hrest t ht)
    -- Whatever was open before the first opening quote, after it a string is open.
    have hopen : openAfter false (reading run) = openAfter true (reading rest) := by
      rw [hrun, reading_append, reading_cons, openAfter_append, openAfter_append,
        (hplain u hmem).quote (Or.inl hu), hu]
      rfl
    rw [heq, Quoted.unmarked_extend hq hgluedRest] at hspell
    rw [heq, Quoted.reading_extend hq hspelled hgluedRest fun t ht => hplain t (hrest t ht), hspell,
      widenRun_of_opening ((exists_opening_reading hplain).mpr ⟨u, hmem, hu⟩),
      content_reading hglued, hopen, hclosing]
    rfl

/-- Widening is a function of the reading. -/
theorem reading_widen {ts : List Token} (hplain : ∀ t ∈ ts, t.Plain) :
    reading (widen true ts) = Reading.widen (reading ts) := by
  fun_induction Token.widen true ts with
  | case1 => simp
  | case2 t rest hglued ih =>
      have hrun : ∀ u ∈ t :: rest.takeWhile isGlued, u.isGlued = true :=
        isGlued_of_mem_takeWhile hglued
      have hsplit := run_append_rest t rest
      have hplainRun : ∀ u ∈ t :: rest.takeWhile isGlued, u.Plain :=
        fun u hu => hplain u (by rw [← hsplit]; exact List.mem_append_left _ hu)
      have hplainRest : ∀ u ∈ rest.dropWhile isGlued, u.Plain :=
        fun u hu => hplain u (by rw [← hsplit]; exact List.mem_append_right _ hu)
      have hne : reading (t :: rest.takeWhile isGlued) ≠ [] := by
        rw [Ne, reading_eq_nil hplainRun]
        simp
      rw [reading_append, reading_widenRun hrun hplainRun, ih hplainRest,
        ← widen_run_append hne (isGlued_of_mem_reading hrun)
          (isGlued_head?_reading hplainRest not_isGlued_of_mem_dropWhile),
        ← reading_append, hsplit]
  | case3 t rest hglued ih =>
      have ht : ∀ x ∈ ofText t.kind.role t.text, Reading.isGlued x = false := by
        intro x hx
        rw [Reading.isGlued, role_of_mem_ofText hx, Kind.isGlued_role]
        simpa [isGlued] using hglued
      rw [reading_cons, reading_cons, ih fun u hu => hplain u (by simp [hu]),
        widen_append_of_not_glued ht]

theorem plain_widen (join : Bool) {ts : List Token} (hplain : ∀ t ∈ ts, t.Plain) :
    ∀ t ∈ widen join ts, t.Plain := by
  fun_induction Token.widen join ts with
  | case1 => simp
  | case2 t rest hglued ih =>
      rw [← run_append_rest] at hplain
      intro u hu
      rcases List.mem_append.mp hu with hu | hu
      · exact plain_widenRun (fun v hv => hplain v (List.mem_append_left _ hv)) join u hu
      · exact ih (fun v hv => hplain v (List.mem_append_right _ hv)) u hu
  | case3 t rest hglued ih =>
      intro u hu
      rcases List.mem_cons.mp hu with rfl | hu
      · exact hplain u (by simp)
      · exact ih (fun v hv => hplain v (by simp [hv])) u hu

/-! ### Blanks by roles -/

/-- Fusing tokens that are no quotes leaves them as they should be. -/
theorem Plain.fuse {t next : Token} (h : t.Plain) (hbegin : t.kind ≠ .stringDquoteBegin)
    (hend : t.kind ≠ .stringDquoteEnd) : (t.fuse next).Plain where
  ne_nil := List.append_ne_nil_of_left_ne_nil h.ne_nil _
  quote hkind := by
    rcases hkind with hkind | hkind
    · exact absurd hkind hbegin
    · exact absurd hkind hend

theorem plain_mergeLiterals {ts : List Token} (hplain : ∀ t ∈ ts, t.Plain) :
    ∀ t ∈ mergeLiterals ts, t.Plain := by
  refine forall_fuseRuns ?_ hplain
  intro a b hjoin ha _
  obtain ⟨hkind, hmerge⟩ := (mergeable_iff a b).mp hjoin
  rw [← hkind] at hmerge
  refine ha.fuse ?_ ?_
  · intro hbegin
    rw [hbegin] at hmerge
    exact absurd hmerge (by decide)
  · intro hend
    rw [hend] at hmerge
    exact absurd hmerge (by decide)

theorem plain_fuseSeparators {ts : List Token} (hplain : ∀ t ∈ ts, t.Plain) :
    ∀ t ∈ fuseRuns (fun t next => t.kind == .delimiter && next.kind == .delimiter) ts, t.Plain := by
  refine forall_fuseRuns ?_ hplain
  intro a b hjoin ha _
  obtain ⟨hkind, -⟩ := (separators_iff a b).mp hjoin
  exact ha.fuse (by simp [hkind]) (by simp [hkind])

theorem plain_stripBlanks {ts : List Token} (hplain : ∀ t ∈ ts, t.Plain) :
    ∀ t ∈ stripBlanks ts, t.Plain := by
  refine forall_stripBlanks ?_ ?_ hplain
  · intro a b hkinds ha _
    exact ha.fuse (by simp [hkinds.1]) (by simp [hkinds.1])
  · intro t ht
    unfold singleSpace
    split
    · rename_i hblank
      exact ⟨by simp, by simp [kind_of_isBlankDelimiter hblank]⟩
    · exact ht

theorem isBlankDelimiter_eq {t : Token} (h : t.kind = .delimiter) :
    t.isBlankDelimiter = isBlank (ofText t.kind.role t.text) := by
  simp [isBlankDelimiter, isBlank, h, ofText, List.all_map, Function.comp_def]

theorem isBlankDelimiter_singleSpace (t : Token) :
    t.singleSpace.isBlankDelimiter = t.isBlankDelimiter := by
  unfold singleSpace
  split
  · rename_i h
    rw [h, isBlankDelimiter, kind_of_isBlankDelimiter h]
    rfl
  · rfl

theorem singleSpace_of_not_delimiter {t : Token} (h : t.kind ≠ .delimiter) : t.singleSpace = t :=
  if_neg fun hblank => h (kind_of_isBlankDelimiter hblank)

theorem isGap_head?_reading {ts : List Token} (hplain : ∀ t ∈ ts, t.Plain)
    (h : ∀ t ∈ ts.head?, t.kind ≠ .delimiter) : ∀ x ∈ (reading ts).head?, isGap x = false := by
  intro x hx
  obtain ⟨t, ht, hrole⟩ := role_of_mem_head?_reading hplain hx
  simp [isGap, hrole, h t ht]

/-- Dropping from the end stops before it reaches the first token, or drops everything. -/
theorem rdropWhile_cons {α : Type} (p : α → Bool) (x : α) (l : List α) :
    (x :: l).rdropWhile p =
      if l.rdropWhile p = [] ∧ p x = true then [] else x :: l.rdropWhile p := by
  rw [List.rdropWhile, List.rdropWhile, List.reverse_cons, List.dropWhile_append]
  by_cases hnil : l.reverse.dropWhile p = []
  · by_cases hx : p x = true
    · simp [hnil, hx]
    · simp [hnil, hx]
  · simp [hnil]

/-- The text of separators that stand alone, squeezed from the right. -/
theorem reading_rdropWhile {ts : List Token} (hplain : ∀ t ∈ ts, t.Plain)
    (hapart : Apart Kind.Separators ts) :
    reading ((ts.map singleSpace).rdropWhile isBlankDelimiter) = squeeze (reading ts) := by
  induction ts with
  | nil => simp
  | cons t rest ih =>
      obtain ⟨hhead, hrest⟩ := List.isChain_cons.mp hapart
      have hplain' : ∀ u ∈ rest, u.Plain := fun u hu => hplain u (by simp [hu])
      have hnext := ih hplain' hrest
      rw [List.map_cons, rdropWhile_cons, isBlankDelimiter_singleSpace, reading_cons]
      by_cases hkind : t.kind = .delimiter
      · have hgap : ∀ x ∈ ofText t.kind.role t.text, isGap x = true := by
          intro x hx
          simp [isGap, role_of_mem_ofText hx, hkind]
        have hafter : ∀ u ∈ rest.head?, u.kind ≠ .delimiter :=
          fun u hu hdelimiter => hhead u hu ⟨hkind, hdelimiter⟩
        -- The token after a separator is none, so it is what stops the dropping.
        have hnil : (rest.map singleSpace).rdropWhile isBlankDelimiter = [] ↔ rest = [] := by
          cases rest with
          | nil => simp
          | cons u more =>
              have hu : u.isBlankDelimiter ≠ true :=
                fun hblank => hafter u rfl (kind_of_isBlankDelimiter hblank)
              simp [rdropWhile_cons, isBlankDelimiter_singleSpace, hu]
        rw [squeeze_run_append (by simp [(hplain t (by simp)).ne_nil]) hgap
          (isGap_head?_reading hplain' hafter), ← hnext, squeezeRun, ← isBlankDelimiter_eq hkind]
        by_cases hblank : t.isBlankDelimiter = true
        · by_cases hempty : rest = []
          · simp [hblank, hempty]
          · rw [if_neg fun h => hempty (hnil.mp h.1), if_pos hblank,
              if_neg (by simpa [reading_eq_nil hplain'] using hempty), reading_cons, singleSpace,
              if_pos hblank]
            simp [hkind, Kind.role, Kind.isWord]
        · rw [if_neg fun h => hblank h.2, if_neg hblank, reading_cons, singleSpace, if_neg hblank]
      · have hgap : ∀ x ∈ ofText t.kind.role t.text, isGap x = false := by
          intro x hx
          simp [isGap, role_of_mem_ofText hx, hkind]
        have hblank : t.isBlankDelimiter ≠ true := fun h => hkind (kind_of_isBlankDelimiter h)
        rw [if_neg fun h => hblank h.2, reading_cons, hnext, squeeze_append_of_not_gap hgap,
          singleSpace_of_not_delimiter hkind]

/-- The pass on blanks is a function of the reading. -/
theorem reading_stripBlanks {ts : List Token} (hplain : ∀ t ∈ ts, t.Plain) :
    reading (stripBlanks ts) = squeeze (trimStart (reading ts)) := by
  have hfused := reading_fuseRuns
    (fun a b hjoin => by obtain ⟨ha, hb⟩ := (separators_iff a b).mp hjoin; rw [ha, hb]) ts
  have hplainFused := plain_fuseSeparators hplain
  have hapart := apart_fuseRuns separators_iff ts
  rw [← hfused, stripBlanks, trimBlanks]
  generalize fuseRuns _ ts = us at hplainFused hapart ⊢
  cases us with
  | nil => simp [trimStart, isBlank]
  | cons t rest =>
      obtain ⟨hhead, hrest⟩ := List.isChain_cons.mp hapart
      have hplainRest : ∀ u ∈ rest, u.Plain := fun u hu => hplainFused u (by simp [hu])
      have hwhole := reading_rdropWhile hplainFused hapart
      by_cases hkind : t.kind = .delimiter
      · have hgap : ∀ x ∈ ofText t.kind.role t.text, isGap x = true := by
          intro x hx
          simp [isGap, role_of_mem_ofText hx, hkind]
        have hafter : ∀ u ∈ rest.head?, u.kind ≠ .delimiter :=
          fun u hu hdelimiter => hhead u hu ⟨hkind, hdelimiter⟩
        rw [reading_cons, trimStart_run_append hgap (isGap_head?_reading hplainRest hafter),
          ← isBlankDelimiter_eq hkind, List.map_cons, List.dropWhile_cons,
          isBlankDelimiter_singleSpace]
        by_cases hblank : t.isBlankDelimiter = true
        · have hstop :
              (rest.map singleSpace).dropWhile isBlankDelimiter = rest.map singleSpace := by
            refine dropWhile_of_head? ?_
            intro u hu
            rw [List.head?_map] at hu
            obtain ⟨v, hv, rfl⟩ := Option.map_eq_some_iff.mp hu
            rw [isBlankDelimiter_singleSpace]
            exact Bool.eq_false_iff.mpr fun h => hafter v hv (kind_of_isBlankDelimiter h)
          rw [if_pos hblank, if_pos hblank, hstop]
          exact reading_rdropWhile hplainRest hrest
        · rw [if_neg hblank, if_neg hblank]
          exact hwhole
      · have hblank : t.isBlankDelimiter ≠ true := fun h => hkind (kind_of_isBlankDelimiter h)
        rw [trimStart_of_not_gap (isGap_head?_reading hplainFused (by simpa using hkind)),
          List.map_cons, List.dropWhile_cons_of_neg (by rwa [isBlankDelimiter_singleSpace])]
        exact hwhole

/-! ### Empty strings by roles -/

theorem isChain_ofText {R : Role × Char → Role × Char → Prop} {role : Role}
    (h : ∀ c d, R (role, c) (role, d)) (t : Text) : (ofText role t).IsChain R := by
  induction t with
  | nil => exact List.isChain_nil
  | cons c rest ih =>
      cases rest with
      | nil => exact List.isChain_singleton _
      | cons d more => exact List.isChain_cons_cons.mpr ⟨h c d, ih⟩

/-- No opening quote stands right before a closing one. -/
def Filled (r : Reading) : Prop :=
  r.IsChain fun x y => ¬ (x.1 = .opening ∧ y.1 = .closing)

/-- Whether there are empty strings can be told from the reading. -/
theorem filled_reading {ts : List Token} (hplain : ∀ t ∈ ts, t.Plain) :
    Filled (reading ts) ↔ Apart Kind.EmptyPair ts := by
  induction ts with
  | nil => exact iff_of_true List.isChain_nil List.isChain_nil
  | cons t rest ih =>
      have hplain' : ∀ u ∈ rest, u.Plain := fun u hu => hplain u (by simp [hu])
      have hself : (ofText t.kind.role t.text).IsChain fun x y =>
          ¬ (x.1 = Role.opening ∧ y.1 = Role.closing) := by
        refine isChain_ofText ?_ t.text
        intro c d hpair
        exact absurd (hpair.1.symm.trans hpair.2) (by decide)
      rw [Filled, reading_cons, List.isChain_append, Apart, List.isChain_cons]
      constructor
      · rintro ⟨-, hrest, hjoint⟩
        refine ⟨?_, (ih hplain').mp hrest⟩
        rintro u hu ⟨hbegin, hend⟩
        obtain ⟨more, rfl⟩ := List.head?_eq_some_iff.mp hu
        have hfirst := (hplain t (by simp)).quote (Or.inl hbegin)
        have hsecond := (hplain' u (by simp)).quote (Or.inr hend)
        exact hjoint (t.kind.role, '"') (by simp [hfirst]) (u.kind.role, '"')
          (by simp [hsecond]) ⟨Kind.role_eq_opening.mpr hbegin, Kind.role_eq_closing.mpr hend⟩
      · rintro ⟨hjoint, hrest⟩
        refine ⟨hself, (ih hplain').mpr hrest, ?_⟩
        rintro x hx y hy ⟨hopening, hclosing⟩
        obtain ⟨u, hu, hrole⟩ := role_of_mem_head?_reading hplain' hy
        have hxrole := role_of_mem_ofText (List.mem_of_mem_getLast? hx)
        exact hjoint u hu ⟨Kind.role_eq_opening.mp (hxrole.symm.trans hopening),
          Kind.role_eq_closing.mp (hrole.symm.trans hclosing)⟩

end Token

namespace Cleaning

open Token Reading

theorem apply_standard (ts : List Token) :
    standard.apply ts =
      stripBlanks (Token.widen true (mergeLiterals (stripEmptyStrings (applyEscapes ts)))) := rfl

theorem plain_apply {ts : List Token} (hescapes : Unescaped ts) (hplain : ∀ t ∈ ts, t.Plain) :
    ∀ t ∈ standard.apply ts, t.Plain := by
  rw [apply_standard, applyEscapes_of_unescaped hescapes]
  refine plain_stripBlanks (plain_widen true (plain_mergeLiterals ?_))
  exact fun t ht => hplain t ((stripEmptyStrings_sublist ts).mem ht)

/-- Once carets and empty strings are gone, what is left to do depends on the reading alone. -/
theorem reading_apply {ts : List Token} (hescapes : Unescaped ts)
    (hempty : Apart Kind.EmptyPair ts) (hplain : ∀ t ∈ ts, t.Plain) :
    reading (standard.apply ts) = tidy (reading ts) := by
  have hmerged := plain_mergeLiterals hplain
  rw [apply_standard, applyEscapes_of_unescaped hescapes, stripEmptyStrings_of_apart hempty,
    reading_stripBlanks (plain_widen true hmerged), reading_widen hmerged, reading_mergeLiterals]
  rfl

end Cleaning

end BatchTrace
