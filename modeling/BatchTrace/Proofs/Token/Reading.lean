/-
A line character by character.

Cleaning looks at little of what the reader says about a line.  For each character
it matters whether it belongs to a word, opens, fills or closes a string, is part of
a gap between words, or is none of these: its role.  `Reading` is a text with the
roles of its characters.

Widening strings and reducing white space are given here on readings, where a run is
a stretch of characters.  Each of them comes with equations that say what it does to
a run, or to a stretch without runs, in front of a reading that goes on differently.
-/
import BatchTrace.Proofs.Token.Spelling
import Mathlib.Data.List.Basic

namespace BatchTrace

/-- What a character counts as when a line is cleaned. -/
inductive Role where
  /-- Part of a word. -/
  | word
  /-- The opening quote of a string. -/
  | opening
  /-- Between the quotes of a string. -/
  | inside
  /-- The closing quote of a string. -/
  | closing
  /-- Part of a separator. -/
  | gap
  /-- Anything that cleaning leaves alone. -/
  | other
deriving DecidableEq, Repr

namespace Role

/-- Can a character in this role be part of a run that a string takes in? -/
def isGlued : Role → Bool
  | gap | other => false
  | _ => true

/-- Is a character in this role part of what a run spells? -/
def isContent : Role → Bool
  | word | inside => true
  | _ => false

end Role

/-- The role that the characters of a token of this kind have. -/
def Kind.role (k : Kind) : Role :=
  if k.isWord then .word
  else
    match k with
    | .stringDquoteBegin => .opening
    | .stringDquoteChar => .inside
    | .stringDquoteEnd => .closing
    | .delimiter => .gap
    | _ => .other

namespace Kind

variable {k : Kind}

@[simp] theorem role_eq_opening : k.role = .opening ↔ k = .stringDquoteBegin := by
  cases k <;> decide

@[simp] theorem role_eq_closing : k.role = .closing ↔ k = .stringDquoteEnd := by
  cases k <;> decide

@[simp] theorem role_eq_gap : k.role = .gap ↔ k = .delimiter := by
  cases k <;> decide

theorem isGlued_role (k : Kind) : k.role.isGlued = (k.isWord || k.isDquotePiece) := by
  cases k <;> decide

end Kind

/-- A text with the role of each of its characters. -/
abbrev Reading := List (Role × Char)

namespace Reading

/-- The text that is read. -/
def text (r : Reading) : Text :=
  r.map (·.2)

/-- The text `t` with one role for all of it. -/
def ofText (role : Role) (t : Text) : Reading :=
  t.map fun c => (role, c)

@[simp] theorem text_nil : text [] = [] := rfl

@[simp] theorem text_cons (x : Role × Char) (r : Reading) : text (x :: r) = x.2 :: text r := rfl

@[simp] theorem text_append (r s : Reading) : text (r ++ s) = text r ++ text s :=
  List.map_append

@[simp] theorem text_ofText (role : Role) (t : Text) : text (ofText role t) = t := by
  rw [text, ofText, List.map_map]
  exact List.map_id t

@[simp] theorem ofText_nil (role : Role) : ofText role [] = [] := rfl

@[simp] theorem ofText_cons (role : Role) (c : Char) (t : Text) :
    ofText role (c :: t) = (role, c) :: ofText role t := rfl

@[simp] theorem ofText_append (role : Role) (s t : Text) :
    ofText role (s ++ t) = ofText role s ++ ofText role t :=
  List.map_append

@[simp] theorem ofText_eq_nil {role : Role} {t : Text} : ofText role t = [] ↔ t = [] :=
  List.map_eq_nil_iff

theorem ofText_text {role : Role} {r : Reading} (h : ∀ x ∈ r, x.1 = role) :
    ofText role r.text = r := by
  rw [ofText, text, List.map_map]
  refine (List.map_congr_left fun x hx => ?_).trans (List.map_id r)
  exact Prod.ext (h x hx).symm rfl

theorem role_of_mem_ofText {role : Role} {t : Text} {x : Role × Char} (h : x ∈ ofText role t) :
    x.1 = role := by
  obtain ⟨c, -, rfl⟩ := List.mem_map.mp h
  rfl

/-! ### Widening a reading -/

/-- Is `x` part of a run? -/
def isGlued (x : Role × Char) : Bool :=
  x.1.isGlued

/-- Is a string open after `r`, if `before` says whether one is open before it? -/
def openAfter (before : Bool) (r : Reading) : Bool :=
  r.foldl
    (fun isOpen x =>
      match x.1 with
      | .opening => true
      | .closing => false
      | _ => isOpen)
    before

/-- What a run spells without its quotes. -/
def content (run : Reading) : Text :=
  text (run.filter (·.1.isContent))

/-- A string, which may have been left open. -/
def ofString (body : Text) (isOpen : Bool) : Reading :=
  (.opening, '"') :: (ofText .inside body ++ if isOpen then [] else [(.closing, '"')])

/-- A run as one string, if a string opens in it.  It is open if the last one in it is. -/
def widenRun (run : Reading) : Reading :=
  if run.any (·.1 = .opening) then ofString (content run) (openAfter false run) else run

/-- Every run as one string, where a string opens in it. -/
def widen : Reading → Reading
  | [] => []
  | x :: rest =>
      if isGlued x then
        widenRun (x :: rest.takeWhile isGlued) ++ widen (rest.dropWhile isGlued)
      else x :: widen rest
termination_by r => r.length
decreasing_by
  · exact Nat.lt_succ_of_le (List.dropWhile_suffix _).length_le
  · simp

@[simp] theorem widen_nil : widen [] = [] := by
  rw [widen]

theorem openAfter_append (before : Bool) (r s : Reading) :
    openAfter before (r ++ s) = openAfter (openAfter before r) s :=
  List.foldl_append

/-- What stands in an unquoted role opens and closes nothing. -/
theorem openAfter_of_not_quote (before : Bool) {r : Reading}
    (h : ∀ x ∈ r, x.1 ≠ .opening ∧ x.1 ≠ .closing) : openAfter before r = before := by
  induction r with
  | nil => rfl
  | cons x rest ih =>
      obtain ⟨hopening, hclosing⟩ := h x (by simp)
      have hstep : openAfter before (x :: rest) = openAfter before rest := by
        rw [openAfter, List.foldl_cons]
        split
        · exact absurd ‹_› hopening
        · exact absurd ‹_› hclosing
        · rfl
      rw [hstep, ih fun y hy => h y (by simp [hy])]

@[simp] theorem content_nil : content [] = [] := rfl

@[simp] theorem content_append (r s : Reading) : content (r ++ s) = content r ++ content s := by
  simp [content]

theorem content_ofText (role : Role) (t : Text) :
    content (ofText role t) = if role.isContent then t else [] := by
  have hsame : ∀ x ∈ ofText role t, x.1.isContent = role.isContent :=
    fun x hx => by rw [role_of_mem_ofText hx]
  cases hrole : role.isContent with
  | true =>
      rw [content, List.filter_eq_self.mpr fun x hx => (hsame x hx).trans hrole, text_ofText]
      rfl
  | false =>
      rw [content, List.filter_eq_nil_iff.mpr fun x hx => by simp [hsame x hx, hrole]]
      rfl

theorem widenRun_of_plain {run : Reading} (h : ∀ x ∈ run, x.1 ≠ .opening) :
    widenRun run = run := by
  refine if_neg ?_
  simpa only [List.any_eq_true, decide_eq_true_eq, not_exists, not_and] using h

theorem widenRun_of_opening {run : Reading} (h : ∃ x ∈ run, x.1 = .opening) :
    widenRun run = ofString (content run) (openAfter false run) := by
  refine if_pos ?_
  simpa only [List.any_eq_true, decide_eq_true_eq] using h

theorem isGlued_of_mem_ofString {body : Text} {isOpen : Bool} :
    ∀ x ∈ ofString body isOpen, isGlued x = true := by
  intro x hx
  rcases List.mem_cons.mp hx with rfl | hx
  · rfl
  rcases List.mem_append.mp hx with hx | hx
  · rw [isGlued, role_of_mem_ofText hx]
    rfl
  · split at hx
    · simp at hx
    · rw [List.mem_singleton.mp hx]
      rfl

theorem content_ofString (body : Text) (isOpen : Bool) : content (ofString body isOpen) = body := by
  have hbody : content (ofText .inside body) = body := content_ofText .inside body
  show content ([(.opening, '"')] ++ (ofText .inside body ++ _)) = body
  rw [content_append, content_append, hbody]
  cases isOpen <;> simp [content, Role.isContent]

theorem openAfter_ofString (before : Bool) (body : Text) (isOpen : Bool) :
    openAfter before (ofString body isOpen) = isOpen := by
  have hbody : ∀ b, openAfter b (ofText .inside body) = b :=
    fun b => openAfter_of_not_quote b fun x hx => by simp [role_of_mem_ofText hx]
  show openAfter before ([(.opening, '"')] ++ (ofText .inside body ++ _)) = isOpen
  rw [openAfter_append, openAfter_append, hbody]
  cases isOpen <;> rfl

theorem text_ofString (body : Text) (isOpen : Bool) :
    text (ofString body isOpen) = '"' :: (body ++ if isOpen then [] else ['"']) := by
  cases isOpen <;> simp [ofString]

theorem mem_text_of_mem_content {c : Char} {r : Reading} (h : c ∈ content r) : c ∈ text r :=
  (List.filter_sublist.map _).mem h

theorem widenRun_ne_nil {run : Reading} (h : run ≠ []) : widenRun run ≠ [] := by
  unfold widenRun
  split
  · simp [ofString]
  · exact h

theorem isGlued_of_mem_widenRun {run : Reading} (hrun : ∀ x ∈ run, isGlued x = true) :
    ∀ x ∈ widenRun run, isGlued x = true := by
  unfold widenRun
  split
  · exact isGlued_of_mem_ofString
  · exact hrun

section

variable {run rest : Reading}

/-- A run in front is widened on its own. -/
theorem widen_run_append (hne : run ≠ []) (hrun : ∀ x ∈ run, isGlued x = true)
    (hrest : ∀ x ∈ rest.head?, isGlued x = false) :
    widen (run ++ rest) = widenRun run ++ widen rest := by
  cases run with
  | nil => exact absurd rfl hne
  | cons x more =>
      have hmore : ∀ y ∈ more, isGlued y = true := fun y hy => hrun y (by simp [hy])
      rw [List.cons_append, widen, if_pos (hrun x (by simp)), takeWhile_run hmore hrest,
        dropWhile_run hmore hrest]

theorem widen_append_of_not_glued (hrun : ∀ x ∈ run, isGlued x = false) :
    widen (run ++ rest) = run ++ widen rest := by
  induction run with
  | nil => rfl
  | cons x more ih =>
      rw [List.cons_append, widen, if_neg (by simp [hrun x (by simp)]),
        ih fun y hy => hrun y (by simp [hy])]
      rfl

theorem widen_eq_nil {r : Reading} : widen r = [] ↔ r = [] := by
  cases r with
  | nil => simp
  | cons x rest =>
      rw [widen]
      split
      · simp [widenRun_ne_nil]
      · simp

end

/-! ### Blanks of a reading -/

/-- Is `x` part of a separator? -/
def isGap (x : Role × Char) : Bool :=
  x.1 = .gap

/-- A separator of white space only. -/
def isBlank (run : Reading) : Bool :=
  run.all fun x => !(x.2 = ',' || x.2 = ';' || x.2 = '=')

/-- A separator before `rest`: white space is a single space, and none at the end. -/
def squeezeRun (run rest : Reading) : Reading :=
  if isBlank run then (if rest.isEmpty then [] else [(.gap, ' ')]) else run

/-- White space becomes single spaces, none at the end. -/
def squeeze : Reading → Reading
  | [] => []
  | x :: rest =>
      if isGap x then
        squeezeRun (x :: rest.takeWhile isGap) (rest.dropWhile isGap) ++
          squeeze (rest.dropWhile isGap)
      else x :: squeeze rest
termination_by r => r.length
decreasing_by
  · exact Nat.lt_succ_of_le (List.dropWhile_suffix _).length_le
  · simp

/-- The reading without white space in front. -/
def trimStart (r : Reading) : Reading :=
  if isBlank (r.takeWhile isGap) then r.dropWhile isGap else r

@[simp] theorem squeeze_nil : squeeze [] = [] := by
  rw [squeeze]

section

variable {run rest : Reading}

theorem squeeze_run_append (hne : run ≠ []) (hrun : ∀ x ∈ run, isGap x = true)
    (hrest : ∀ x ∈ rest.head?, isGap x = false) :
    squeeze (run ++ rest) = squeezeRun run rest ++ squeeze rest := by
  cases run with
  | nil => exact absurd rfl hne
  | cons x more =>
      have hmore : ∀ y ∈ more, isGap y = true := fun y hy => hrun y (by simp [hy])
      rw [List.cons_append, squeeze, if_pos (hrun x (by simp)), takeWhile_run hmore hrest,
        dropWhile_run hmore hrest]

theorem squeeze_append_of_not_gap (hrun : ∀ x ∈ run, isGap x = false) :
    squeeze (run ++ rest) = run ++ squeeze rest := by
  induction run with
  | nil => rfl
  | cons x more ih =>
      rw [List.cons_append, squeeze, if_neg (by simp [hrun x (by simp)]),
        ih fun y hy => hrun y (by simp [hy])]
      rfl

theorem trimStart_run_append (hrun : ∀ x ∈ run, isGap x = true)
    (hrest : ∀ x ∈ rest.head?, isGap x = false) :
    trimStart (run ++ rest) = if isBlank run then rest else run ++ rest := by
  rw [trimStart, takeWhile_run hrun hrest, dropWhile_run hrun hrest]

theorem trimStart_of_not_gap (hrest : ∀ x ∈ rest.head?, isGap x = false) :
    trimStart rest = rest := by
  have hnone : ∀ x ∈ ([] : Reading), isGap x = true := by simp
  simpa [isBlank] using trimStart_run_append hnone hrest

end

theorem isGap_of_isGlued {x : Role × Char} (h : isGlued x = true) : isGap x = false := by
  obtain ⟨role, c⟩ := x
  cases role <;> simp_all [isGlued, isGap, Role.isGlued]

theorem isGlued_of_isGap {x : Role × Char} (h : isGap x = true) : isGlued x = false := by
  obtain ⟨role, c⟩ := x
  cases role <;> simp_all [isGlued, isGap, Role.isGlued]

/-- Widening puts no separator in front. -/
theorem isGap_head?_widen {r : Reading} (h : ∀ x ∈ r.head?, isGap x = false) :
    ∀ x ∈ (widen r).head?, isGap x = false := by
  cases r with
  | nil => simp
  | cons x rest =>
      rw [widen]
      split
      · rename_i hglued
        have hrun : ∀ y ∈ x :: rest.takeWhile isGlued, isGlued y = true := by
          intro y hy
          rcases List.mem_cons.mp hy with rfl | hy
          · exact hglued
          · exact List.mem_takeWhile_imp hy
        intro y hy
        rw [List.head?_append_of_ne_nil _ (widenRun_ne_nil (by simp))] at hy
        exact isGap_of_isGlued (isGlued_of_mem_widenRun hrun y (List.mem_of_mem_head? hy))
      · exact h

/-! ### Both together -/

/-- Strings widened and white space reduced, but not in front. -/
def settle (r : Reading) : Reading :=
  squeeze (widen r)

/-- What the passes on strings and blanks make of a reading. -/
def tidy (r : Reading) : Reading :=
  squeeze (trimStart (widen r))

/-- White space in front may as well be taken away first. -/
theorem tidy_eq (r : Reading) : tidy r = settle (trimStart r) := by
  have hgaps : ∀ x ∈ r.takeWhile isGap, isGap x = true := fun x => List.mem_takeWhile_imp
  have hrest : ∀ x ∈ (r.dropWhile isGap).head?, isGap x = false :=
    fun x hx => not_of_mem_head?_dropWhile hx
  have hwiden : ∀ s, widen (r.takeWhile isGap ++ s) = r.takeWhile isGap ++ widen s :=
    fun s => widen_append_of_not_glued fun x hx => isGlued_of_isGap (hgaps x hx)
  have hsplit := List.takeWhile_append_dropWhile (p := isGap) (l := r)
  rw [tidy, settle, ← hsplit, hwiden, trimStart_run_append hgaps hrest,
    trimStart_run_append hgaps (isGap_head?_widen hrest)]
  split
  · rfl
  · rw [hwiden]

section

variable {run rest : Reading}

theorem settle_append_of_other (h : ∀ x ∈ run, x.1 = .other) :
    settle (run ++ rest) = run ++ settle rest := by
  have hglued : ∀ x ∈ run, isGlued x = false := fun x hx => by rw [isGlued, h x hx]; rfl
  have hgap : ∀ x ∈ run, isGap x = false := fun x hx => by simp [isGap, h x hx]
  rw [settle, widen_append_of_not_glued hglued, squeeze_append_of_not_gap hgap]
  rfl

theorem settle_run_append (hne : run ≠ []) (hrun : ∀ x ∈ run, isGlued x = true)
    (hrest : ∀ x ∈ rest.head?, isGlued x = false) :
    settle (run ++ rest) = widenRun run ++ settle rest := by
  rw [settle, widen_run_append hne hrun hrest, squeeze_append_of_not_gap fun x hx =>
    isGap_of_isGlued (isGlued_of_mem_widenRun hrun x hx)]
  rfl

theorem settle_gap_append (hne : run ≠ []) (hrun : ∀ x ∈ run, isGap x = true)
    (hrest : ∀ x ∈ rest.head?, isGap x = false) :
    settle (run ++ rest) = squeezeRun run rest ++ settle rest := by
  have hempty : (widen rest).isEmpty = rest.isEmpty := by
    rw [Bool.eq_iff_iff, List.isEmpty_iff, List.isEmpty_iff, widen_eq_nil]
  rw [settle, widen_append_of_not_glued fun x hx => isGlued_of_isGap (hrun x hx),
    squeeze_run_append hne hrun (isGap_head?_widen hrest), squeezeRun, squeezeRun, hempty]
  rfl

@[simp] theorem settle_nil : settle [] = [] := by
  rw [settle, widen_nil, squeeze_nil]

/-- What does not begin with a separator still does not, and it begins with the same character
unless a quote has come in front. -/
theorem exists_settle_cons {x : Role × Char} (hx : isGap x = false) (rest : Reading) :
    ∃ y more, settle (x :: rest) = y :: more ∧ isGap y = false ∧ (y.2 = x.2 ∨ y.2 = '"') := by
  obtain ⟨y, more, hwiden, hy, hchar⟩ : ∃ y more, widen (x :: rest) = y :: more ∧
      isGap y = false ∧ (y.2 = x.2 ∨ y.2 = '"') := by
    rw [widen]
    split
    · unfold widenRun
      split
      · exact ⟨(.opening, '"'), _, rfl, rfl, Or.inr rfl⟩
      · exact ⟨x, _, rfl, hx, Or.inl rfl⟩
    · exact ⟨x, _, rfl, hx, Or.inl rfl⟩
  refine ⟨y, squeeze more, ?_, hy, hchar⟩
  rw [settle, hwiden, squeeze, if_neg (by simp [hy])]

theorem isGap_head?_settle {r : Reading} (hr : ∀ x ∈ r.head?, isGap x = false) :
    ∀ x ∈ (settle r).head?, isGap x = false := by
  cases r with
  | nil => simp
  | cons x rest =>
      obtain ⟨y, more, hsettle, hy, -⟩ := exists_settle_cons (hr x rfl) rest
      simpa [hsettle] using hy

/-- White space in front of a text is one space, unless nothing follows it. -/
theorem settle_blank_append (hne : run ≠ []) (hrun : ∀ x ∈ run, isGap x = true)
    (hblank : isBlank run = true) (hrest : ∀ x ∈ rest.head?, isGap x = false) :
    settle (run ++ rest) = if settle rest = [] then [] else (.gap, ' ') :: settle rest := by
  rw [settle_gap_append hne hrun hrest, squeezeRun, if_pos hblank]
  cases rest with
  | nil => simp
  | cons x rest =>
      obtain ⟨y, more, hsettle, -, -⟩ := exists_settle_cons (hrest x rfl) rest
      simp [hsettle]

theorem tidy_gap_append (hrun : ∀ x ∈ run, isGap x = true)
    (hrest : ∀ x ∈ rest.head?, isGap x = false) :
    tidy (run ++ rest) = if isBlank run then settle rest else run ++ settle rest := by
  rw [tidy_eq, trimStart_run_append hrun hrest]
  by_cases hblank : isBlank run = true
  · rw [if_pos hblank, if_pos hblank]
  · have hne : run ≠ [] := by
      rintro rfl
      exact hblank rfl
    rw [if_neg hblank, if_neg hblank, settle_gap_append hne hrun hrest, squeezeRun, if_neg hblank]

end

/-! ### Nothing gets longer -/

/-- A string that opens and is not closed is open at the end. -/
theorem openAfter_of_opening {r : Reading} (hclosing : ∀ x ∈ r, x.1 ≠ .closing) {before : Bool}
    (h : before = true ∨ ∃ x ∈ r, x.1 = .opening) : openAfter before r = true := by
  induction r generalizing before with
  | nil => simpa [openAfter] using h
  | cons x rest ih =>
      have hnot := hclosing x (by simp)
      rw [openAfter, List.foldl_cons]
      refine ih (fun y hy => hclosing y (by simp [hy])) ?_
      obtain ⟨role, c⟩ := x
      cases role <;> simp_all

theorem length_widenRun_le (run : Reading) : (widenRun run).length ≤ run.length := by
  by_cases hplain : ∀ x ∈ run, x.1 ≠ .opening
  · rw [widenRun_of_plain hplain]
  · push Not at hplain
    obtain ⟨x, hx, hopening⟩ := hplain
    have hsplit : (content run).length + (run.filter fun y => !y.1.isContent).length =
        run.length := by
      rw [content, text, List.length_map, ← List.length_append]
      exact (List.filter_append_perm _ run).length_eq
    have hfirst : x ∈ run.filter fun y => !y.1.isContent := by
      simp [hx, hopening, Role.isContent]
    rw [widenRun_of_opening ⟨x, hx, hopening⟩, ofString]
    cases hopen : openAfter false run with
    | true =>
        have hpos := List.length_pos_of_mem hfirst
        simp [ofText]
        omega
    | false =>
        -- The string is closed, by another quote than the one that opens it.
        obtain ⟨y, hy, hclosing⟩ : ∃ y ∈ run, y.1 = .closing := by
          by_contra hnone
          push Not at hnone
          simp [openAfter_of_opening hnone (Or.inr ⟨x, hx, hopening⟩)] at hopen
        have hlast : y ∈ run.filter fun y => !y.1.isContent := by
          simp [hy, hclosing, Role.isContent]
        have htwo : 2 ≤ (run.filter fun y => !y.1.isContent).length := by
          generalize run.filter (fun y => !y.1.isContent) = quotes at hfirst hlast
          match quotes with
          | [] => simp at hfirst
          | [z] =>
              rw [List.mem_singleton.mp hfirst, ← List.mem_singleton.mp hlast, hclosing] at hopening
              cases hopening
          | _ :: _ :: _ => simp
        simp [ofText]
        omega

theorem length_widen_le (r : Reading) : (widen r).length ≤ r.length := by
  fun_induction widen r with
  | case1 => exact Nat.le_refl _
  | case2 x rest hx ih =>
      have hrun := length_widenRun_le (x :: rest.takeWhile isGlued)
      have hsplit := congrArg List.length (@List.takeWhile_append_dropWhile _ isGlued rest)
      rw [List.length_append] at hsplit ⊢
      rw [List.length_cons] at hrun ⊢
      omega
  | case3 x rest hx ih => simpa using ih

theorem length_squeezeRun_le {run : Reading} (hne : run ≠ []) (rest : Reading) :
    (squeezeRun run rest).length ≤ run.length := by
  have hpos := List.length_pos_iff.mpr hne
  unfold squeezeRun
  split
  · split <;> simp
    omega
  · exact Nat.le_refl _

theorem length_squeeze_le (r : Reading) : (squeeze r).length ≤ r.length := by
  fun_induction squeeze r with
  | case1 => exact Nat.le_refl _
  | case2 x rest hx ih =>
      have hrun := length_squeezeRun_le (List.cons_ne_nil x (rest.takeWhile isGap))
        (rest.dropWhile isGap)
      have hsplit := congrArg List.length (@List.takeWhile_append_dropWhile _ isGap rest)
      rw [List.length_append] at hsplit ⊢
      rw [List.length_cons] at hrun ⊢
      omega
  | case3 x rest hx ih => simpa using ih

theorem length_settle_le (r : Reading) : (settle r).length ≤ r.length :=
  (length_squeeze_le _).trans (length_widen_le r)

theorem length_tidy_le (r : Reading) : (tidy r).length ≤ r.length := by
  have htrim : (trimStart r).length ≤ r.length := by
    unfold trimStart
    split
    · exact (List.dropWhile_suffix _).length_le
    · exact Nat.le_refl _
  rw [tidy_eq]
  exact (length_settle_le _).trans htrim

/-- A run and what follows it are both left alone, if they are together. -/
theorem settled_run_append {run rest : Reading} (hne : run ≠ [])
    (hrun : ∀ x ∈ run, isGlued x = true) (hrest : ∀ x ∈ rest.head?, isGlued x = false)
    (h : settle (run ++ rest) = run ++ rest) : widenRun run = run ∧ settle rest = rest := by
  rw [settle_run_append hne hrun hrest] at h
  have hlength := congrArg List.length h
  rw [List.length_append, List.length_append] at hlength
  have hfirst := length_widenRun_le run
  have hlast := length_settle_le rest
  exact List.append_inj h (by omega)

end Reading

end BatchTrace
