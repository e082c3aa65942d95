/-
The shape of an assignment in the tokens of a text.

An assignment is `SET`, a name, an equals sign and a value, and each of them is read by a mode
of its own.  In the tokens the modes are gone, but where one is can still be told from the kinds
in front: behind `SET` one is in the name as long as only parts of a name have been passed, and
behind the equals sign in the value as long as only parts of a value have.  `Region` is that
account.  It is kept without looking at the reader, so what it says of the tokens in front of a
token is a fact about these tokens.

The mode and the region agree wherever the reader is in an assignment, and each of its steps keeps
them so.  The reader may leave an assignment in many ways, by an operator, a parenthesis, a closing
quote or a caret at the end, and all of them lead to where a command is expected and the region
does not matter.
-/
import BatchTrace.Proofs.Token.Brackets
import BatchTrace.Proofs.Token.CalmCleaning

namespace BatchTrace

theorem Kind.isAssigned_of_operator {k : Kind} (h : (k.isChain || k.isRedirection) = true) :
    k.isAssigned = false := by
  revert h
  cases k <;> decide

/-- Where one can be between two tokens. -/
inductive Region where
  /-- In no assignment. -/
  | outside
  /-- Between `SET` and the equals sign. -/
  | name
  /-- Behind the equals sign. -/
  | value
deriving DecidableEq

namespace Region

open Lexeme

/-- Can a token of this kind be passed without leaving the region? -/
def holds : Region → Kind → Bool
  | name, .delimiter | name, .setName | name, .escape | name, .escapedLiteral
  | name, .setDquoteBegin => true
  | value, .setValue | value, .escape | value, .escapedLiteral | value, .rParen
  | value, .stringDquoteBegin | value, .stringDquoteChar | value, .stringDquoteEnd => true
  | _, _ => false

/-- The region behind a token. -/
def next (r : Region) (k : Kind) : Region :=
  if k = .setWord then name
  else if k = .setAssignment then value
  else if r.holds k then r
  else outside

/-- The region behind a list of tokens. -/
def after (r : Region) (ks : List Kind) : Region :=
  ks.foldl next r

@[simp] theorem after_nil (r : Region) : r.after [] = r := rfl

@[simp] theorem after_cons (r : Region) (k : Kind) (ks : List Kind) :
    r.after (k :: ks) = (r.next k).after ks := rfl

@[simp] theorem after_append (r : Region) (ks ls : List Kind) :
    r.after (ks ++ ls) = (r.after ks).after ls :=
  List.foldl_append

theorem next_of_holds {r : Region} {k : Kind} (h : r.holds k = true) : r.next k = r := by
  have hword : k ≠ .setWord := by
    rintro rfl
    cases r <;> simp [holds] at h
  have hsign : k ≠ .setAssignment := by
    rintro rfl
    cases r <;> simp [holds] at h
  rw [next, if_neg hword, if_neg hsign, if_pos h]

/-- What stays in a region stays there when it is passed twice. -/
theorem next_next {k : Kind} (r : Region) (h : isPieced k = true) :
    (r.next k).next k = r.next k := by
  cases k <;> simp [isPieced] at h <;> cases r <;> rfl

theorem after_of_holds {r : Region} {ks : List Kind} (h : ∀ k ∈ ks, r.holds k = true) :
    r.after ks = r := by
  induction ks with
  | nil => rfl
  | cons k ks ih =>
      rw [after_cons, next_of_holds (h k (by simp)), ih fun l hl => h l (by simp [hl])]

/-- One comes to the name past `SET`, or has been there. -/
theorem next_eq_name {r : Region} {k : Kind} (h : r.next k = name) :
    k = .setWord ∨ (r = name ∧ name.holds k = true) := by
  unfold next at h
  split at h
  · exact Or.inl ‹_›
  · split at h
    · simp at h
    · split at h
      · exact Or.inr ⟨h, h ▸ ‹_›⟩
      · simp at h

/-- One comes to the value past the sign, or has been there. -/
theorem next_eq_value {r : Region} {k : Kind} (h : r.next k = value) :
    k = .setAssignment ∨ (r = value ∧ value.holds k = true) := by
  unfold next at h
  split at h
  · simp at h
  · split at h
    · exact Or.inl ‹_›
    · split at h
      · exact Or.inr ⟨h, h ▸ ‹_›⟩
      · simp at h

/-- The parts of an assignment stand in their regions only, and an equals sign in front of the value
is its sign. -/
structure FitsAt (r : Region) (x : Lexeme) : Prop where
  name : x.kind = .setName → r = .name ∧ '=' ∉ x.text
  sign : x.kind = .setAssignment → r = .name ∧ x.text = ['=']
  value : x.kind = .setValue → r = .value

/-- All lexemes stand in their region, when the first of them stands in `r`. -/
def Fits : Region → List Lexeme → Prop
  | _, [] => True
  | r, x :: xs => r.FitsAt x ∧ Fits (r.next x.kind) xs

section

variable {r : Region} {x : Lexeme} {xs ys : List Lexeme}

theorem fitsAt_of_other (h : x.kind.isAssigned = false) : r.FitsAt x := by
  refine ⟨?_, ?_, ?_⟩ <;> intro hkind <;> simp [hkind, Kind.isAssigned] at h

theorem fits_append :
    r.Fits (xs ++ ys) ↔ r.Fits xs ∧ (r.after (xs.map (·.kind))).Fits ys := by
  induction xs generalizing r with
  | nil => simp [Fits]
  | cons x xs ih => simp [Fits, ih, and_assoc]

/-- What is no part of an assignment may stand anywhere. -/
theorem fits_of_others (h : ∀ x ∈ xs, x.kind.isAssigned = false) : r.Fits xs := by
  induction xs generalizing r with
  | nil => trivial
  | cons x xs ih => exact ⟨fitsAt_of_other (h x (by simp)), ih fun y hy => h y (by simp [hy])⟩

theorem fits_ofText {k : Kind} {t : Text} (h : r.FitsAt ⟨k, t⟩) : r.Fits (ofText k t) := by
  cases t with
  | nil => trivial
  | cons c t => exact ⟨h, trivial⟩

theorem after_ofText {k : Kind} (h : r.holds k = true) (t : Text) :
    r.after ((ofText k t).map (·.kind)) = r := by
  refine after_of_holds ?_
  simp only [List.mem_map, forall_exists_index, and_imp]
  rintro _ x hx rfl
  rwa [kind_of_mem_ofText hx]

/-- Two pieces of one lexeme stand where the whole of it does. -/
theorem FitsAt.join {y : Lexeme} (hx : r.FitsAt x) (hy : (r.next x.kind).FitsAt y)
    (hkind : x.kind = y.kind) (hpieced : isPieced x.kind = true) :
    r.FitsAt ⟨x.kind, x.text ++ y.text⟩ where
  name h := by
    have hx := hx.name h
    have hy := hy.name (hkind ▸ h)
    exact ⟨hx.1, by simp [hx.2, hy.2]⟩
  sign h := by simp [show x.kind = .setAssignment from h, isPieced] at hpieced
  value h := hx.value h

theorem Fits.join (h : r.Fits xs) : r.Fits (join xs) := by
  induction xs generalizing r with
  | nil => exact h
  | cons x xs ih =>
      obtain ⟨hx, hxs⟩ := h
      have hjoined := ih hxs
      rw [Lexeme.join]
      split
      · exact ⟨hx, trivial⟩
      · rename_i y joined hcons
        rw [hcons] at hjoined
        split
        · rename_i hsame
          obtain ⟨hpieced, hkind⟩ := Bool.and_eq_true_iff.mp hsame
          have hkind : x.kind = y.kind := by simpa using hkind
          obtain ⟨hy, hrest⟩ := hjoined
          rw [← hkind, next_next r hpieced] at hrest
          exact ⟨hx.join hy hkind hpieced, hrest⟩
        · exact ⟨hx, hjoined⟩

end

end Region

/-! ### The reader -/

theorem Chunk.not_mem_word {run : Text} (h : (word run).WellFormed) : '=' ∉ run :=
  fun hmem => absurd (h.2 _ hmem) (by decide)

theorem Text.not_mem_of_splitFirst_some {t before after : Text} {c : Char}
    (h : splitFirst (· = c) t = some (before, after)) : c ∉ before := by
  obtain ⟨-, -, hbefore, -⟩ := splitFirst_eq_some h
  intro hmem
  simpa using hbefore _ hmem

theorem Text.not_mem_of_splitFirst_none {t : Text} {c : Char}
    (h : splitFirst (· = c) t = none) : c ∉ t := by
  intro hmem
  simpa using splitFirst_eq_none_iff.mp h _ hmem

namespace Lexer

open Lexeme Region

/-- The region that a mode reads. -/
def Mode.region : Mode → Region
  | .command => .outside
  | .lead | .name => .name
  | .value => .value

/-- The reader is in a region.  Where a command is expected it does not matter in which. -/
def Mode.Agrees (mode : Mode) (r : Region) : Prop :=
  mode = .command ∨ r = mode.region

/-- The step reads in the region `r` what belongs there, and goes on in the region that it comes
to. -/
def Step.Keeps (s : Step) (r : Region) : Prop :=
  r.Fits s.out ∧ s.mode.Agrees (r.after (s.out.map (·.kind)))

section

variable {r : Region}

theorem keeps_command_of_others {s : Step} (hmode : s.mode = .command)
    (h : ∀ x ∈ s.out, x.kind.isAssigned = false) : s.Keeps r :=
  ⟨fits_of_others h, Or.inl hmode⟩

theorem isAssigned_escaped (c : Char) : ∀ x ∈ escaped c, x.kind.isAssigned = false :=
  forall_kind_escaped (p := (·.isAssigned = false)) rfl rfl c

theorem keeps_escaped (mode : Mode) (c : Char) (rest : Text)
    (h : (mode.region.holds .escape && mode.region.holds .escapedLiteral) = true) :
    Step.Keeps ⟨escaped c, mode, rest⟩ mode.region := by
  obtain ⟨hcaret, hescaped⟩ := Bool.and_eq_true_iff.mp h
  refine ⟨fits_of_others (isAssigned_escaped c), Or.inr (after_of_holds ?_)⟩
  simp [escaped, hcaret, hescaped]

/-- One lexeme that is read without leaving the region. -/
theorem keeps_single (mode : Mode) {k : Kind} {t : Text} (rest : Text)
    (hholds : mode.region.holds k = true) (hfits : mode.region.FitsAt ⟨k, t⟩) :
    Step.Keeps ⟨[⟨k, t⟩], mode, rest⟩ mode.region :=
  ⟨⟨hfits, trivial⟩, Or.inr (next_of_holds hholds)⟩

theorem fitsAt_name {t : Text} (h : '=' ∉ t) : Region.name.FitsAt ⟨.setName, t⟩ :=
  ⟨fun _ => ⟨rfl, h⟩, by simp, by simp⟩

theorem fitsAt_value (t : Text) : Region.value.FitsAt ⟨.setValue, t⟩ :=
  ⟨by simp, by simp, fun _ => rfl⟩

theorem fitsAt_sign : Region.name.FitsAt ⟨.setAssignment, ['=']⟩ :=
  ⟨by simp, fun _ => ⟨rfl, rfl⟩, by simp⟩

theorem isAssigned_string (rest : Text) :
    ∀ x ∈ ⟨.stringDquoteBegin, ['"']⟩ :: (doubleQuoted rest).1, x.kind.isAssigned = false :=
  forall_kind_string (p := (·.isAssigned = false)) rfl rfl rfl rest

/-- A chunk that stands for itself begins an assignment if it is `SET`. -/
theorem keeps_chunk {k : Kind} (h : k.isAssigned = false) (t rest : Text) :
    Step.Keeps ⟨[⟨k, t⟩], if k = .setWord then .lead else .command, rest⟩ r := by
  refine ⟨⟨fitsAt_of_other h, trivial⟩, ?_⟩
  by_cases hword : k = .setWord
  · subst hword
    exact Or.inr rfl
  · exact Or.inl (if_neg hword)

theorem keeps_command {chunk : Chunk} (hformed : chunk.WellFormed) (rest : Text) :
    (command chunk rest).Keeps r := by
  cases chunk with
  | escape c => exact keeps_command_of_others rfl (isAssigned_escaped c)
  | doubleQuote => exact keeps_command_of_others rfl (isAssigned_string rest)
  | singleQuote =>
      cases hread : singleQuoted? rest with
      | some parts =>
          rw [command_singleQuote_some hread]
          exact keeps_command_of_others rfl (List.forall_mem_cons.mpr
            ⟨rfl, (singleQuoted_of_some hread).forall_kind (p := (·.isAssigned = false))
              rfl rfl rfl rfl⟩)
      | none =>
          rw [command_singleQuote_none hread]
          exact keeps_command_of_others rfl (by simp [Kind.isAssigned])
  | delimiter run =>
      have hkind := forall_kind_gap (p := fun k => !k.isAssigned) (by decide) run
      exact keeps_chunk (by simpa using hkind) run rest
  | word run =>
      have hkind := Chunk.forall_kind_word (p := fun k => !k.isAssigned) (by decide) run
      exact keeps_chunk (by simpa using hkind) run rest
  | operator kind spelling => exact keeps_chunk (Kind.isAssigned_of_operator hformed.1) _ rest
  | _ => exact keeps_chunk rfl _ rest

end

/-- A name, the equals sign and a value, where the name may begin with separators only. -/
theorem fits_assignment {before : Kind} {name : Text} (hholds : Region.name.holds before = true)
    (hname : Region.name.FitsAt ⟨before, name⟩) (value : Text) :
    Region.name.Fits (ofText before name ++ ⟨.setAssignment, ['=']⟩ :: ofText .setValue value) := by
  rw [fits_append, after_ofText hholds]
  exact ⟨fits_ofText hname, fitsAt_sign, fits_ofText (fitsAt_value value)⟩

/-- Behind them one is in the value. -/
theorem after_assignment {before : Kind} (hholds : Region.name.holds before = true)
    (name value : Text) :
    Region.name.after ((ofText before name ++
      ⟨.setAssignment, ['=']⟩ :: ofText .setValue value).map (·.kind)) = .value := by
  rw [List.map_append, after_append, after_ofText hholds]
  exact after_ofText rfl value

theorem keeps_assign {before : Kind} {stay : Mode} (hstay : stay.region = .name)
    (hholds : Region.name.holds before = true)
    (hfits : ∀ {t : Text}, '=' ∉ t → Region.name.FitsAt ⟨before, t⟩) (run rest : Text) :
    (assign before stay run rest).Keeps .name := by
  unfold assign
  split
  · rename_i name value hsplit
    exact ⟨fits_assignment hholds (hfits (Text.not_mem_of_splitFirst_some hsplit)) value,
      Or.inr (after_assignment hholds name value)⟩
  · rename_i hsplit
    refine ⟨⟨hfits (Text.not_mem_of_splitFirst_none hsplit), trivial⟩, Or.inr ?_⟩
    rw [hstay]
    exact next_of_holds hholds

theorem fits_quotedAssignment (body : Text) : Region.name.Fits (quotedAssignment body) := by
  unfold quotedAssignment
  split
  · rename_i name value hsplit
    exact fits_assignment rfl (fitsAt_name (Text.not_mem_of_splitFirst_some hsplit)) value
  · rename_i hsplit
    exact fits_ofText (fitsAt_name (Text.not_mem_of_splitFirst_none hsplit))

theorem fits_quotedSet (t : Text) : Region.name.Fits (quotedSet t).1 := by
  rw [quotedSet_eq]
  by_cases h : '"' ∈ t
  · obtain ⟨body, rest, rfl, hbody⟩ := List.eq_append_cons_of_mem h
    rw [upToQuote_closed hbody, fits_append]
    exact ⟨fits_quotedAssignment body, fitsAt_of_other rfl, trivial⟩
  · rw [upToQuote_open h]
    exact fits_quotedAssignment t

/-- **Every step keeps the reader in its region**, whatever the mode. -/
theorem keeps_step {mode : Mode} {r : Region} (hagrees : mode.Agrees r) {chunk : Chunk}
    (hformed : chunk.WellFormed) (rest : Text) : (step mode chunk rest).Keeps r := by
  have hcommand : (command chunk rest).Keeps r := keeps_command hformed rest
  rcases hagrees with rfl | rfl
  · exact hcommand
  cases mode with
  | command => exact hcommand
  | lead =>
      cases chunk with
      | delimiter run =>
          exact keeps_assign rfl rfl (fun _ => fitsAt_of_other rfl) run rest
      | doubleQuote => exact ⟨⟨fitsAt_of_other rfl, fits_quotedSet rest⟩, Or.inl rfl⟩
      | escape c => exact keeps_escaped .name c rest rfl
      | singleQuote => exact keeps_single .name rest rfl (fitsAt_name (by decide))
      | word run =>
          exact keeps_single .name rest rfl (fitsAt_name (Chunk.not_mem_word hformed))
      | _ => exact hcommand
  | name =>
      cases chunk with
      | delimiter run => exact keeps_assign rfl rfl fitsAt_name run rest
      | escape c => exact keeps_escaped .name c rest rfl
      | caret => exact hcommand
      | operator kind spelling => exact hcommand
      | word run =>
          exact keeps_single .name rest rfl (fitsAt_name (Chunk.not_mem_word hformed))
      | _ => exact keeps_single .name rest rfl (fitsAt_name (by decide))
  | value =>
      cases chunk with
      | escape c => exact keeps_escaped .value c rest rfl
      | doubleQuote =>
          refine ⟨fits_of_others (isAssigned_string rest), Or.inr (after_of_holds ?_)⟩
          intro k hk
          obtain ⟨x, hx, rfl⟩ := List.mem_map.mp hk
          exact forall_kind_string (p := (Region.value.holds · = true)) rfl rfl rfl rest x hx
      | rParen => exact keeps_single .value rest rfl (fitsAt_of_other rfl)
      | caret => exact hcommand
      | operator kind spelling => exact hcommand
      | _ => exact keeps_single .value rest rfl (fitsAt_value _)

theorem fits_pieces {mode : Mode} {r : Region} (hagrees : mode.Agrees r) (t : Text) :
    r.Fits (pieces mode t) := by
  fun_induction pieces mode t generalizing r with
  | case1 mode t hnone => trivial
  | case2 mode t chunk rest hnext s =>
      rename_i ih
      obtain ⟨hout, hafter⟩ := keeps_step hagrees (Chunk.wellFormed_of_next? hnext) rest
      exact fits_append.mpr ⟨hout, ih hafter⟩

end Lexer

/-! ### What stands in front of a token -/

namespace Token

open Region

/-- Tokens that end with one of kind `k` and, behind it, tokens of such kinds only as `p` allows. -/
def Since (k : Kind) (p : Kind → Prop) (before : List Token) : Prop :=
  ∃ front start between, before = front ++ start :: between ∧ start.kind = k ∧
    ∀ u ∈ between, p u.kind

/-- The token `t` stands in an assignment where it belongs. -/
structure ShapedAt (before : List Token) (t : Token) : Prop where
  /-- The sign of an assignment follows `SET` and the name. -/
  sign : t.kind = .setAssignment → t.text = ['='] ∧
    Since .setWord
      (· ∈ [.delimiter, .setName, .escape, .escapedLiteral, .setDquoteBegin]) before
  /-- A value follows the sign, and strings and parentheses may stand in it. -/
  value : t.kind = .setValue →
    Since .setAssignment
      (· ∈ [.setValue, .escape, .escapedLiteral, .rParen, .stringDquoteBegin, .stringDquoteChar,
        .stringDquoteEnd]) before
  /-- A name follows `SET`, the sign has not been passed, and there is none in the name. -/
  name : t.kind = .setName → '=' ∉ t.text ∧
    Since .setWord
      (fun k => k ≠ .setAssignment ∧ k.isChain = false ∧ k.isRedirection = false) before

/-- Every token of the list stands where it belongs. -/
def Shaped (ts : List Token) : Prop :=
  ∀ before t after, ts = before ++ t :: after → ShapedAt before t

theorem Since.imp {k : Kind} {p q : Kind → Prop} {before : List Token} (h : Since k p before)
    (hpq : ∀ l, p l → q l) : Since k q before := by
  obtain ⟨front, start, between, heq, hstart, hbetween⟩ := h
  exact ⟨front, start, between, heq, hstart, fun u hu => hpq _ (hbetween u hu)⟩

/-- What leads into a region is the token that opens it, and what the region holds. -/
theorem since_of_after {r : Region} {k : Kind} (hr : r ≠ .outside)
    (hopens : ∀ q l, Region.next q l = r → l = k ∨ (q = r ∧ r.holds l = true))
    {before : List Token} (h : Region.outside.after (before.map (·.kind)) = r) :
    Since k (r.holds · = true) before := by
  induction before using List.reverseRecOn with
  | nil => exact absurd h.symm hr
  | append_singleton front u ih =>
      rw [List.map_append, after_append] at h
      rcases hopens _ _ h with hkind | ⟨hfront, hholds⟩
      · exact ⟨front, u, [], rfl, hkind, by simp⟩
      · obtain ⟨pre, start, between, rfl, hstart, hbetween⟩ := ih hfront
        refine ⟨pre, start, between ++ [u], by simp, hstart, ?_⟩
        intro v hv
        rcases List.mem_append.mp hv with hv | hv
        · exact hbetween v hv
        · rwa [List.mem_singleton.mp hv]

theorem shapedAt_of_fitsAt {before : List Token} {t : Token}
    (h : (Region.outside.after (before.map (·.kind))).FitsAt t.lexeme) : ShapedAt before t where
  sign hkind := by
    obtain ⟨hregion, htext⟩ := h.sign hkind
    refine ⟨htext, (since_of_after (by simp) (fun _ _ => next_eq_name) hregion).imp ?_⟩
    intro k hk
    cases k <;> simp_all [Region.holds]
  value hkind := by
    refine (since_of_after (by simp) (fun _ _ => next_eq_value) (h.value hkind)).imp ?_
    intro k hk
    cases k <;> simp_all [Region.holds]
  name hkind := by
    obtain ⟨hregion, htext⟩ := h.name hkind
    refine ⟨htext, (since_of_after (by simp) (fun _ _ => next_eq_name) hregion).imp ?_⟩
    intro k hk
    cases k <;> simp_all [Region.holds, Kind.isChain, Kind.isRedirection]

/--
**Assignments have their shape.**  In the tokens of a text every name follows `SET`, and every sign
follows `SET` and what may belong to a name; it is an equals sign, and there is none in a name.
Every value follows a sign, with nothing but parts of the value between them.
-/
theorem shaped_tokenize (s : Text) : Shaped (tokenize s) := by
  intro before t after hsplit
  have hfits : Region.outside.Fits (Lexer.lexemes s) :=
    (Lexer.fits_pieces (Or.inl rfl) s).join
  rw [← map_lexeme_tokenize, hsplit, List.map_append, List.map_cons, fits_append] at hfits
  have ht := hfits.2.1
  rw [List.map_map] at ht
  exact shapedAt_of_fitsAt ht

end Token

end BatchTrace
