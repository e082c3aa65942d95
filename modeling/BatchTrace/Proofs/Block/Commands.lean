/-
The commands of a line.

A line is cut at the operators `&` and `&&`, the pieces are trimmed, and those with nothing left
are dropped.  What is lost on the way are the operators, which are spelled with ampersands only,
and the blanks around them.  `Layout` says so: it puts a text together from its commands and from
the gaps before, between and behind them.  A layout grows at its front, by a gap or by a command,
and the induction is on the pieces of the line from the first one on.
-/
import BatchTrace.Block
import BatchTrace.Proofs.Text.Trimming
import BatchTrace.Proofs.Token.SetRegion

namespace BatchTrace

/-! ### Operators that cut -/

namespace Chunk

/-- The operators that cut a line are spelled with ampersands. -/
theorem spelling_of_next? {t rest spelling : Text} {kind : Kind}
    (h : next? t = some (operator kind spelling, rest)) :
    (kind = .condAlways → spelling = ['&']) ∧ (kind = .condSuccess → spelling = ['&', '&']) := by
  unfold next? at h
  split at h <;> (try split at h) <;> (try split at h) <;> (try split at h) <;>
    simp_all only [Option.some.injEq, Prod.mk.injEq, reduceCtorEq, operator.injEq, false_and] <;>
    (obtain ⟨⟨rfl, rfl⟩, rfl⟩ := h; simp)

end Chunk

namespace Lexer

open Lexeme

/-- What the operators that cut are spelled with. -/
def Ampersands (x : Lexeme) : Prop :=
  (x.kind = .condAlways → x.text = ['&']) ∧ (x.kind = .condSuccess → x.text = ['&', '&'])

theorem ampersands_of_not_isChain {x : Lexeme} (h : ¬ x.kind.isChain = true) : Ampersands x := by
  constructor <;> intro hkind <;> exact absurd (by rw [hkind]; rfl) h

theorem ampersands_pieces (mode : Mode) (t : Text) : ∀ x ∈ pieces mode t, Ampersands x := by
  fun_induction pieces mode t with
  | case1 mode t hnone => simp
  | case2 mode t chunk rest hnext s ih =>
      intro x hx
      rcases List.mem_append.mp hx with hx | hx
      · by_cases hchain : x.kind.isChain = true
        · rw [(eq_operator_of_isChain hx hchain).1] at hnext
          exact Chunk.spelling_of_next? hnext
        · exact ampersands_of_not_isChain hchain
      · exact ih x hx

theorem ampersands_lexemes (t : Text) : ∀ x ∈ lexemes t, Ampersands x := by
  have hkinds : ∀ k : Kind, isPieced k = true → ¬ k.isChain = true := by
    intro k
    cases k <;> decide
  exact forall_join (fun k s hpieced => ampersands_of_not_isChain (hkinds k hpieced))
    (ampersands_pieces .command t)

end Lexer

namespace Block

/-- Does a line go on with another command behind this token? -/
def isCut (t : Token) : Bool :=
  t.kind = .condAlways || t.kind = .condSuccess

/-- The commands of a token list. -/
def commands (ts : List Token) : List Text :=
  ((ts.splitOnP isCut).map fun part => Text.trim (Token.stringify part)).filter fun command =>
    command ≠ []

theorem split_eq (t : Text) : split t = commands (Token.tokenize t) := rfl

theorem isCut_eq_false_iff {t : Token} :
    isCut t = false ↔ t.kind ≠ .condAlways ∧ t.kind ≠ .condSuccess := by
  simp [isCut]

/-- The command that a piece of a line holds, if that is more than blanks. -/
def trimmed (piece : Text) : List Text :=
  if Text.trim piece = [] then [] else [Text.trim piece]

theorem mem_trimmed {piece command : Text} (h : command ∈ trimmed piece) :
    command ≠ [] ∧ Text.trim piece = command := by
  rw [trimmed] at h
  split at h
  · cases h
  · rename_i hne
    rw [List.mem_singleton.mp h]
    exact ⟨hne, rfl⟩

theorem commands_eq (ts : List Token) :
    commands ts = (ts.splitOnP isCut).flatMap fun part => trimmed (Token.stringify part) := by
  rw [commands]
  induction ts.splitOnP isCut with
  | nil => rfl
  | cons part parts ih =>
      rw [List.map_cons, List.filter_cons, ih, List.flatMap_cons, trimmed]
      by_cases hnil : Text.trim (Token.stringify part) = []
      · simp [hnil]
      · simp [hnil]

theorem commands_of_uncut {ts : List Token} (h : ∀ t ∈ ts, isCut t = false) :
    commands ts = trimmed (Token.stringify ts) := by
  rw [commands_eq, List.splitOnP_eq_singleton h, List.flatMap_singleton]

/-- A line is cut at its first operator, and what is behind that is cut on its own. -/
theorem commands_append_cut {front back : List Token} {cut : Token}
    (hfront : ∀ t ∈ front, isCut t = false) (hcut : isCut cut = true) :
    commands (front ++ cut :: back) = trimmed (Token.stringify front) ++ commands back := by
  rw [commands_eq, List.splitOnP_append_cons_of_forall_mem hfront cut hcut, List.flatMap_cons,
    commands_eq]

/-- A line is one piece, or a piece and an operator in front of a shorter line. -/
@[elab_as_elim]
theorem cutInduction {P : List Token → Prop}
    (uncut : ∀ ts, (∀ t ∈ ts, isCut t = false) → P ts)
    (cut : ∀ front cut back, (∀ t ∈ front, isCut t = false) → isCut cut = true → P back →
      P (front ++ cut :: back)) (ts : List Token) : P ts := by
  have hfront : ∀ t ∈ ts.takeWhile (!isCut ·), isCut t = false := fun t ht => by
    simpa using List.mem_takeWhile_imp ht
  have hsplit : ts.takeWhile (!isCut ·) ++ ts.dropWhile (!isCut ·) = ts :=
    List.takeWhile_append_dropWhile
  cases hrest : ts.dropWhile (!isCut ·) with
  | nil =>
      rw [hrest, List.append_nil] at hsplit
      exact uncut ts (hsplit ▸ hfront)
  | cons operator back =>
      have hfirst : operator ∈ (ts.dropWhile (!isCut ·)).head? := by
        rw [hrest]
        rfl
      have hcut : isCut operator = true := by simpa using not_of_mem_head?_dropWhile hfirst
      rw [hrest] at hsplit
      have hshort : back.length < ts.length := by
        rw [← hsplit, List.length_append, List.length_cons]
        omega
      rw [← hsplit]
      exact cut _ operator back hfront hcut (cutInduction uncut cut back)
termination_by ts.length

/-- Where a line is cut, it has one ampersand or two. -/
theorem ampersands_of_isCut {s : Text} {t : Token} (ht : t ∈ Token.tokenize s)
    (hcut : isCut t = true) : '&' ∈ t.text ∧ ∀ c ∈ t.text, c = '&' := by
  obtain ⟨x, hx, hkind, htext⟩ := Lexeme.exists_of_mem_place ht
  obtain ⟨halways, hsuccess⟩ := Lexer.ampersands_lexemes s x hx
  rw [hkind, htext] at halways hsuccess
  rw [isCut, Bool.or_eq_true, decide_eq_true_eq, decide_eq_true_eq] at hcut
  rcases hcut with h | h
  · rw [halways h]
    simp
  · rw [hsuccess h]
    simp

/-! ### Commands and the gaps around them -/

/-- A text is made up of commands and of gaps, of which the first one stands before all commands
and each of the others behind one. -/
structure Layout (t : Text) (commands : List Text) (first : Text) (gaps : List Text) : Prop where
  length : gaps.length = commands.length
  text : t = first ++ (List.zipWith (· ++ ·) commands gaps).flatten
  /-- Nothing but ampersands and white space stands in a gap. -/
  gap : ∀ w ∈ first :: gaps, ∀ c ∈ w, c = '&' ∨ Text.isBlank c = true
  /-- There is an ampersand between two commands. -/
  between : ∀ w ∈ gaps.dropLast, '&' ∈ w

namespace Layout

variable {t first w command : Text} {commands gaps : List Text}

theorem of_gap (hw : ∀ c ∈ w, c = '&' ∨ Text.isBlank c = true) : Layout w [] w [] where
  length := rfl
  text := by simp
  gap := by simpa using hw
  between := by simp

theorem prepend_gap (h : Layout t commands first gaps)
    (hw : ∀ c ∈ w, c = '&' ∨ Text.isBlank c = true) :
    Layout (w ++ t) commands (w ++ first) gaps where
  length := h.length
  text := by rw [h.text, List.append_assoc]
  gap := by
    obtain ⟨hfirst, hgaps⟩ := List.forall_mem_cons.mp h.gap
    exact List.forall_mem_cons.mpr ⟨List.forall_mem_append.mpr ⟨hw, hfirst⟩, hgaps⟩
  between := h.between

/-- A command is put in front of a gap. -/
theorem prepend_command (h : Layout t commands first gaps) (command : Text)
    (hfirst : commands = [] ∨ '&' ∈ first) :
    Layout (command ++ t) (command :: commands) [] (first :: gaps) where
  length := by rw [List.length_cons, List.length_cons, h.length]
  text := by
    rw [h.text]
    simp
  gap := List.forall_mem_cons.mpr ⟨by simp, h.gap⟩
  between := by
    cases gaps with
    | nil => simp
    | cons g gaps =>
        have hne : commands ≠ [] := by
          rintro rfl
          simpa using h.length
        exact List.forall_mem_cons.mpr ⟨hfirst.resolve_left hne, h.between⟩

/-- The blanks at the ends of a piece go into the gaps around its command. -/
theorem exists_prepend_piece (h : Layout t commands first gaps)
    (hfirst : commands = [] ∨ '&' ∈ first) (x : Text) :
    ∃ first gaps, Layout (x ++ t) (trimmed x ++ commands) first gaps := by
  obtain ⟨front, back, hx, hfront, hback⟩ := Text.exists_blanks x
  have hbehind := h.prepend_gap (w := back) fun c hc => Or.inr (hback c hc)
  rw [trimmed]
  split
  · rename_i hnil
    rw [hx, hnil, List.nil_append, List.nil_append, List.append_assoc]
    exact ⟨_, _, hbehind.prepend_gap fun c hc => Or.inr (hfront c hc)⟩
  · have hcommand := hbehind.prepend_command (Text.trim x)
      (hfirst.imp_right fun hmem => List.mem_append_right back hmem)
    have hwhole := hcommand.prepend_gap (w := front) fun c hc => Or.inr (hfront c hc)
    have htext : x ++ t = front ++ (Text.trim x ++ (back ++ t)) := by
      rw [← List.append_assoc (Text.trim x), ← List.append_assoc front, ← hx]
    rw [htext]
    exact ⟨_, _, hwhole⟩

end Layout

/-- **A line is its commands with gaps around them.** -/
theorem exists_layout (ts : List Token)
    (h : ∀ t ∈ ts, isCut t = true → '&' ∈ t.text ∧ ∀ c ∈ t.text, c = '&') :
    ∃ first gaps, Layout (Token.stringify ts) (commands ts) first gaps := by
  induction ts using cutInduction with
  | uncut ts huncut =>
      have hempty : Layout [] [] [] [] := .of_gap (by simp)
      have hpiece := hempty.exists_prepend_piece (Or.inl rfl) (Token.stringify ts)
      rwa [List.append_nil, List.append_nil, ← commands_of_uncut huncut] at hpiece
  | cut front cut back huncut hcut ih =>
      obtain ⟨hmem, hall⟩ := h cut (by simp) hcut
      obtain ⟨first, gaps, hback⟩ := ih fun t ht => h t (by simp [ht])
      have hbehind := hback.prepend_gap fun c hc => Or.inl (hall c hc)
      rw [commands_append_cut huncut hcut, Token.stringify_append, Token.stringify_cons]
      exact hbehind.exists_prepend_piece (Or.inr (List.mem_append_left first hmem)) _

/-- A command is what a run of tokens spells of which none cuts, without the blanks at its ends. -/
theorem exists_run_of_mem_commands {ts : List Token} {command : Text} (h : command ∈ commands ts) :
    command ≠ [] ∧ ∃ run, run <:+: ts ∧ (∀ t ∈ run, isCut t = false) ∧
      Text.trim (Token.stringify run) = command := by
  induction ts using cutInduction with
  | uncut ts huncut =>
      rw [commands_of_uncut huncut] at h
      obtain ⟨hne, htrim⟩ := mem_trimmed h
      exact ⟨hne, ts, List.infix_refl ts, huncut, htrim⟩
  | cut front cut back huncut hcut ih =>
      rw [commands_append_cut huncut hcut] at h
      rcases List.mem_append.mp h with h | h
      · obtain ⟨hne, htrim⟩ := mem_trimmed h
        exact ⟨hne, front, (List.prefix_append front _).isInfix, huncut, htrim⟩
      · obtain ⟨hne, run, hrun, huncut, htrim⟩ := ih h
        have hback : back <:+: front ++ cut :: back := ⟨front ++ [cut], [], by simp⟩
        exact ⟨hne, run, hrun.trans hback, huncut, htrim⟩

/--
**Cutting a line into commands loses nothing but separators.**  A line is its commands with gaps
around them, in which there are ampersands and white space only, and between two commands there is
an ampersand.  No command is empty or begins or ends with white space, and each is what a run of
tokens spells of which none cuts the line.
-/
theorem exists_layout_split (s : Text) :
    (∃ first gaps, Layout s (split s) first gaps) ∧
      ∀ command ∈ split s, command ≠ [] ∧
        (∀ c ∈ command.head?, Text.isBlank c = false) ∧
        (∀ c ∈ command.getLast?, Text.isBlank c = false) ∧
        ∃ run, run <:+: Token.tokenize s ∧ Text.trim (Token.stringify run) = command ∧
          ∀ t ∈ run, t.kind ≠ .condAlways ∧ t.kind ≠ .condSuccess := by
  refine ⟨?_, fun command hcommand => ?_⟩
  · have hlayout := exists_layout (Token.tokenize s) fun t ht => ampersands_of_isCut ht
    rwa [Token.stringify_tokenize, ← split_eq] at hlayout
  · rw [split_eq] at hcommand
    obtain ⟨hne, run, hrun, huncut, rfl⟩ := exists_run_of_mem_commands hcommand
    exact ⟨hne, Text.isBlank_head?_trim _, Text.isBlank_getLast?_trim _, run, hrun, rfl,
      fun t ht => isCut_eq_false_iff.mp (huncut t ht)⟩

end Block

end BatchTrace
